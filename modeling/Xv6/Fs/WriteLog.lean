import Xv6.Fs.FileWrite

/-!
# The blocks that a write logs

`filewrite` writes a chunk in one transaction, in which only `writei` logs blocks.
-/

namespace Xv6.Fs

open Lib Blocks
open Function (update_self update_of_ne update)

namespace Logged

/-- The bitmap block is logged by `balloc`, the block itself by `bzero`. -/
def balloc (g : Geometry) (d : Disk) : Except Fault ((ℕ × Disk) × List ℕ) :=
  match Blocks.balloc g d with
  | .error f => .error f
  | .ok (b, d') => .ok ((b, d'), [g.bblock b, b])

def ensure (g : Geometry) (w : BitVec 32) (d : Disk) : Except Fault ((BitVec 32 × Disk) × List ℕ) :=
  if w = 0 then
    match balloc g d with
    | .error f => .error f
    | .ok ((b, d'), log) => .ok ((BitVec.ofNat 32 b, d'), log)
  else .ok ((w, d), [])

def bmap (g : Geometry) (bn : ℕ) (a : Addrs) (d : Disk) :
    Except Fault ((ℕ × Addrs × Disk) × List ℕ) :=
  if h : bn < NDIRECT then
    match ensure g (a ⟨bn, Nat.lt_succ_of_lt h⟩) d with
    | .error f => .error f
    | .ok ((w, d'), log) => .ok ((w.toNat, update a ⟨bn, Nat.lt_succ_of_lt h⟩ w, d'), log)
  else if bn - NDIRECT < NINDIRECT then
    match ensure g (a (Fin.last NDIRECT)) d with
    | .error f => .error f
    | .ok ((iw, d1), log1) =>
      let old := (d1 iw.toNat).word (4 * (bn - NDIRECT))
      match ensure g old d1 with
      | .error f => .error f
      | .ok ((w, d2), log2) =>
        .ok ((w.toNat, update a (Fin.last NDIRECT) iw,
          if old = 0 then
            update d2 iw.toNat ((d2 iw.toNat).setWord (4 * (bn - NDIRECT)) w)
          else d2), log1 ++ log2 ++ if old = 0 then [iw.toNat] else [])
  else .error (.panic .bmapOutOfRange)

def writeLoop (g : Geometry) :
    ℕ → List Byte → ℕ → Addrs → Disk → Except Fault ((Addrs × Disk) × List ℕ)
  | 0, _, _, a, d => .ok ((a, d), [])
  | n + 1, src, off, a, d =>
    if src = [] then .ok ((a, d), [])
    else
      match bmap g (off / BSIZE) a d with
      | .error f => .error f
      | .ok ((b, a', d'), log) =>
        let m := min src.length (BSIZE - off % BSIZE)
        match writeLoop g n (src.drop m) (off + m) a'
          (update d' b ((d' b).blit (off % BSIZE) m fun t => src.getD t 0)) with
        | .error f => .error f
        | .ok (r, log') => .ok (r, log ++ b :: log')

def writei (g : Geometry) (ip : ISlot) (src : List Byte) (off : ℕ) (s : BState) :
    Except Fault ((ℤ × BState) × List ℕ) :=
  let x := (s.cache ip).din
  if x.type = T_DEV then
    match g.conf.driver x.major with
    | none => .ok ((-1, s), [])
    | some dev => .ok ((dev.write src, s), [])
  else if x.size < off ∨ (off + src.length) % 2 ^ 32 < off then .ok ((-1, s), [])
  else if MAXFILE * BSIZE < off + src.length then .ok ((-1, s), [])
  else
    match writeLoop g src.length src off (s.vol.addrs ip) s.vol.disk with
    | .error f => .error f
    | .ok ((a, d), log) =>
      let s' := setStore s ip a d
      if 0 < src.length ∧ x.size < off + src.length then
        .ok ((src.length, iupdate g ip (setDin ip { x with size := off + src.length } s')),
          log ++ [g.iblock (s.cache ip).inum])
      else .ok ((src.length, s'), log)

variable {g : Geometry} {t : AddrTable} {a a' : Addrs} {d d' : Disk} {i b bn off n : ℕ}
  {w w' : BitVec 32} {src : List Byte} {log : List ℕ} {ip : ISlot} {s : BState}

theorem ensure_value : (ensure g w d).map Prod.fst = Blocks.ensure g w d := by
  unfold ensure Blocks.ensure balloc
  split_ifs
  · cases Blocks.balloc g d <;> rfl
  · rfl

theorem bmap_value : (bmap g bn a d).map Prod.fst = Blocks.bmap g bn a d := by
  unfold bmap Blocks.bmap
  simp only [← ensure_value]
  split_ifs
  · cases ensure g _ d <;> rfl
  · cases ensure g (a (Fin.last NDIRECT)) d with
    | error f => rfl
    | ok r =>
      simp only [Except.map]
      cases ensure g _ r.1.2 <;> rfl
  · rfl

theorem writeLoop_value (src : List Byte) (off : ℕ) (a : Addrs) (d : Disk) :
    (writeLoop g n src off a d).map Prod.fst = Blocks.writeLoop g n src off a d := by
  induction n generalizing src off a d with
  | zero => rfl
  | succ n ih =>
    simp only [writeLoop, Blocks.writeLoop, ← bmap_value, ← ih]
    split_ifs
    · rfl
    · cases bmap g (off / BSIZE) a d with
      | error f => rfl
      | ok r =>
        simp only [Except.map]
        cases writeLoop g n _ _ r.1.2.1 _ <;> rfl

theorem writei_value : (writei g ip src off s).map Prod.fst = Blocks.writei g ip src off s := by
  simp only [writei, Blocks.writei, ← writeLoop_value]
  split_ifs
  · cases g.conf.driver (s.cache ip).din.major <;> rfl
  · rfl
  · rfl
  all_goals cases writeLoop g src.length src off (s.vol.addrs ip) s.vol.disk <;> rfl

def Covers (g : Geometry) (a : Addrs) (d : Disk) (a' : Addrs) (d' : Disk) (S : Finset Place)
    (log : List ℕ) : Prop :=
  ∀ b ∈ log, (∃ p ∈ S, blockOf a' d' p ≠ 0 ∧ blockOf a' d' p = b) ∨
    ∃ p ∈ missing a d S, blockOf a' d' p ≠ 0 ∧ g.bblock (blockOf a' d' p) = b

variable {S : Finset Place}

theorem Covers.append {log' : List ℕ} (h : Covers g a d a' d' S log)
    (h' : Covers g a d a' d' S log') : Covers g a d a' d' S (log ++ log') := by
  intro b hb
  rcases List.mem_append.mp hb with hb | hb
  · exact h b hb
  · exact h' b hb

theorem Covers.later {S S' : Finset Place} {a'' : Addrs} {d'' : Disk} (h : Covers g a d a' d' S log)
    (hS : S ⊆ S') (hkeep : ∀ p, blockOf a' d' p ≠ 0 → blockOf a'' d'' p = blockOf a' d' p) :
    Covers g a d a'' d'' S' log := by
  intro b hb
  rcases h b hb with ⟨p, hp, hne, heq⟩ | ⟨p, hp, hne, heq⟩
  · exact .inl ⟨p, hS hp, by rw [hkeep p hne]; exact hne, by rw [hkeep p hne]; exact heq⟩
  · exact .inr ⟨p, Finset.filter_subset_filter _ hS hp, by rw [hkeep p hne]; exact hne,
      by rw [hkeep p hne]; exact heq⟩

theorem Covers.earlier {S S' : Finset Place} {a0 : Addrs} {d0 : Disk} (h : Covers g a d a' d' S log)
    (hS : S ⊆ S') (hkeep : ∀ p, blockOf a0 d0 p ≠ 0 → blockOf a d p = blockOf a0 d0 p) :
    Covers g a0 d0 a' d' S' log := by
  intro b hb
  rcases h b hb with ⟨p, hp, hne⟩ | ⟨p, hp, hne⟩
  · exact .inl ⟨p, hS hp, hne⟩
  · obtain ⟨hpS, hzero⟩ := Finset.mem_filter.mp hp
    refine .inr ⟨p, Finset.mem_filter.mpr ⟨hS hpS, ?_⟩, hne⟩
    by_contra h0
    rw [hkeep p h0] at hzero
    exact h0 hzero

theorem Covers.card_le (h : Covers g a d a' d' S log) :
    log.toFinset.card ≤ S.card + (missing a d S).card := by
  have hsub : log.toFinset ⊆
      S.image (blockOf a' d') ∪ (missing a d S).image fun p => g.bblock (blockOf a' d' p) := by
    intro b hb
    rcases h b (List.mem_toFinset.mp hb) with ⟨p, hp, -, rfl⟩ | ⟨p, hp, -, rfl⟩
    · exact Finset.mem_union_left _ (Finset.mem_image_of_mem _ hp)
    · exact Finset.mem_union_right _ (Finset.mem_image_of_mem _ hp)
  calc log.toFinset.card
      ≤ _ := Finset.card_le_card hsub
    _ ≤ _ := Finset.card_union_le _ _
    _ ≤ _ := add_le_add Finset.card_image_le Finset.card_image_le

theorem ensure_ok (h : ensure g w d = .ok ((w', d'), log)) : Blocks.ensure g w d = .ok (w', d') := by
  rw [← ensure_value, h]
  rfl

theorem bmap_ok (h : bmap g bn a d = .ok ((b, a', d'), log)) : Blocks.bmap g bn a d = .ok (b, a', d') := by
  rw [← bmap_value, h]
  rfl

theorem writeLoop_ok (h : writeLoop g n src off a d = .ok ((a', d'), log)) :
    Blocks.writeLoop g n src off a d = .ok (a', d') := by
  rw [← writeLoop_value, h]
  rfl

theorem ensure_log (hg : g.Ok) (h : Accounts g t d) (hok : ensure g w d = .ok ((w', d'), log)) :
    log = if w = 0 then [g.bblock w'.toNat, w'.toNat] else [] := by
  unfold ensure balloc at hok
  split_ifs at hok ⊢ with hw
  · cases hb : Blocks.balloc g d with
    | error f => simp only [hb, reduceCtorEq] at hok
    | ok r =>
      simp only [hb] at hok
      cases hok
      rw [(balloc_fresh hg h hb).toNat_ofNat hg]
  · cases hok
    rfl

theorem Covers.ensure {p : Place} (hp : p ∈ S) (hw : w = 0 → blockOf a d p = 0)
    (hblock : blockOf a' d' p = w'.toNat) (hne : w' ≠ 0) :
    Covers g a d a' d' S (if w = 0 then [g.bblock w'.toNat, w'.toNat] else []) := by
  have hne' : blockOf a' d' p ≠ 0 := by
    rw [hblock]
    exact fun h0 => hne (BitVec.eq_of_toNat_eq h0)
  intro b hb
  split_ifs at hb with h0
  · rcases List.mem_pair.mp hb with rfl | rfl
    · exact .inr ⟨p, Finset.mem_filter.mpr ⟨hp, hw h0⟩, hne', by rw [hblock]⟩
    · exact .inl ⟨p, hp, hne', hblock⟩
  · cases hb

theorem Covers.singleton {p : Place} (hp : p ∈ S) (hne : b ≠ 0)
    (hblock : blockOf a' d' p = b) : Covers g a d a' d' S [b] := by
  intro c hc
  rw [List.mem_singleton.mp hc]
  exact .inl ⟨p, hp, by rw [hblock]; exact hne, hblock⟩

theorem bmap_log (hg : g.Ok) (h : Accounts g t d) (ht : t i = some a) (hbn : bn < MAXFILE)
    (hok : bmap g bn a d = .ok ((b, a', d'), log)) : Covers g a d a' d' (places bn) log := by
  have hmap := Blocks.bmap_ok hg h ht hbn (bmap_ok hok)
  unfold bmap at hok
  split_ifs at hok with hdir hj
  · split at hok
    · cases hok
    next w d1 log1 hens =>
    cases hok
    rw [ensure_log hg h hens]
    refine .ensure mem_places (fun h0 => ?_) hmap.self fun h0 => hmap.ne (by rw [h0]; rfl)
    rw [place_direct hdir, blockOf, h0]
    rfl
  · split at hok
    · cases hok
    next iw d1 log1 hens =>
    simp only [] at hok
    split at hok
    · cases hok
    next w d2 log2 hens2 =>
    cases hok
    obtain ⟨hgrow, hiw, hsame⟩ := ensure_addr hg h ht (ensure_ok hens)
    have hplace : place bn = .slot ⟨bn - NDIRECT, hj⟩ := by rw [place, dif_neg hdir, dif_pos hj]
    have hlast : ∀ d, blockOf (update a (Fin.last NDIRECT) iw) d (.addr (Fin.last NDIRECT)) =
        iw.toNat := fun d => by rw [blockOf, update_self]
    rw [ensure_log hg h hens, ensure_log hg hgrow.own hens2]
    refine .append (.append ?_ ?_) ?_
    · refine .ensure (indirect_mem_places hdir) (fun h0 => ?_) (hlast _) hiw
      rw [blockOf, h0]
      rfl
    · refine .ensure mem_places (fun h0 => ?_) hmap.self fun h0 => hmap.ne (by rw [h0]; rfl)
      -- With a block in the place there is an indirect block, and `old` is the block.
      by_contra hne
      obtain ⟨ha, hd⟩ := hsame fun h0 => hne (by rw [hplace, blockOf, if_pos h0])
      have hold : blockOf (update a (Fin.last NDIRECT) iw) d1 (place bn) = 0 := by
        rw [hplace, blockOf, update_self, if_neg hiw, h0]
        rfl
      rw [ha, hd] at hold
      exact hne hold
    · split_ifs
      · exact .singleton (indirect_mem_places hdir) (fun h0 => hiw (BitVec.eq_of_toNat_eq h0)) (hlast _)
      · exact fun _ hb => by cases hb

theorem span_subset {m : ℕ} (hm : m ≤ n) : span (off + m) (n - m) ⊆ span off n := by
  intro p hp
  obtain ⟨j, h1, h2, hp⟩ := mem_span.mp hp
  exact mem_span.mpr ⟨j, by omega, by omega, hp⟩

theorem places_subset_span (hn : 0 < n) : places (off / BSIZE) ⊆ span off n :=
  fun _ hp => mem_span.mpr ⟨off, le_rfl, by omega, hp⟩

theorem writeLoop_log (hg : g.Ok) (h : Accounts g t d) (ht : t i = some a) (hn : src.length ≤ n)
    (hfit : off + src.length ≤ MAXFILE * BSIZE)
    (hok : writeLoop g n src off a d = .ok ((a', d'), log)) :
    Covers g a d a' d' (span off src.length) log := by
  induction n generalizing src off a d t log with
  | zero =>
    cases hok
    exact fun _ hb => nomatch hb
  | succ n ih =>
    rw [writeLoop] at hok
    split_ifs at hok with h0
    · cases hok
      exact fun _ hb => nomatch hb
    have hlen : 0 < src.length := List.length_pos_iff.mpr h0
    have hbn : off / BSIZE < MAXFILE := block_lt (by omega)
    split at hok
    · cases hok
    next b a1 d1 log1 hbm =>
    simp only [] at hok
    split at hok
    · cases hok
    next r log2 hrest =>
    cases hok
    generalize hm : min src.length (BSIZE - off % BSIZE) = m at hrest
    have hm0 : 0 < m := by
      have := Nat.mod_lt off (show 0 < BSIZE by decide)
      omega
    have hdrop : (src.drop m).length = src.length - m := List.length_drop
    have hmap := Blocks.bmap_ok hg h ht hbn (bmap_ok hbm)
    have ht1 : update t i (some a1) i = some a1 := update_self _ _ _
    have hself : refs (update t i (some a1)) d1 (i, place (off / BSIZE)) = b := by
      rw [refs_some ht1, hmap.self]
    obtain ⟨hrefs, hown, -⟩ := write_data hg hmap.grows.own (place_isData (i := i) hbn)
      (by rw [hself]; exact hmap.ne) ((d1 b).blit (off % BSIZE) m fun k => src.getD k 0)
    rw [hself] at hrefs hown
    have hcov := ih hown ht1 (by omega) (by omega) hrest
    have hwritten := Blocks.writeLoop_ok hg hown ht1 (by omega) (by omega) (writeLoop_ok hrest)
    rw [hdrop] at hcov
    -- A place with a block keeps it to the end.
    have hblock : ∀ p, blockOf a1 (update d1 b
        ((d1 b).blit (off % BSIZE) m fun k => src.getD k 0)) p = blockOf a1 d1 p := by
      intro p
      rw [← refs_some ht1, ← refs_some ht1, hrefs]
    have hlater : ∀ p, blockOf a1 d1 p ≠ 0 → blockOf a' d' p = blockOf a1 d1 p := by
      intro p hne
      have := hwritten.mono (i, p)
      rw [refs_some ht1, refs_some (update_self _ _ _), hblock] at this
      exact this hne
    have hfirst : ∀ p, blockOf a d p ≠ 0 → blockOf a1 d1 p = blockOf a d p := by
      intro p hne
      have := hmap.grows.mono (i, p)
      rw [refs_some ht, refs_some ht1] at this
      exact this hne
    have hhead : Covers g a d a1 d1 (places (off / BSIZE)) (log1 ++ [b]) :=
      (bmap_log hg h ht hbn hbm).append (.singleton mem_places hmap.ne hmap.self)
    rw [← List.singleton_append, ← List.append_assoc]
    refine .append (hhead.later (places_subset_span hlen) hlater) (hcov.earlier ?_ fun p hne => ?_)
    · exact span_subset (by omega)
    · rw [hblock]
      exact hfirst p hne

theorem card_span_le (off n : ℕ) :
    (span off n).card ≤ ((Finset.Ico off (off + n)).image (· / BSIZE)).card + 1 := by
  have hsub : span off n ⊆ insert (.addr (Fin.last NDIRECT))
      (((Finset.Ico off (off + n)).image (· / BSIZE)).image place) := by
    intro p hp
    obtain ⟨j, h1, h2, hp⟩ := mem_span.mp hp
    have hj : place (j / BSIZE) ∈ ((Finset.Ico off (off + n)).image (· / BSIZE)).image place :=
      Finset.mem_image_of_mem _ (Finset.mem_image_of_mem _ (Finset.mem_Ico.mpr ⟨h1, h2⟩))
    unfold places at hp
    split_ifs at hp
    · rw [Finset.mem_singleton.mp hp]
      exact Finset.mem_insert_of_mem hj
    · rcases Finset.mem_insert.mp hp with rfl | hp
      · exact Finset.mem_insert_self _ _
      · rw [Finset.mem_singleton.mp hp]
        exact Finset.mem_insert_of_mem hj
  calc (span off n).card
      ≤ _ := Finset.card_le_card hsub
    _ ≤ _ := Finset.card_insert_le _ _
    _ ≤ _ := Nat.add_le_add_right Finset.card_image_le 1

theorem card_blocks_le (off : ℕ) (hn : n ≤ maxWrite) :
    ((Finset.Ico off (off + n)).image (· / BSIZE)).card ≤ if off % BSIZE = 0 then 3 else 4 := by
  have hsub : (Finset.Ico off (off + n)).image (· / BSIZE) ⊆
      Finset.Ico (off / BSIZE) (off / BSIZE + if off % BSIZE = 0 then 3 else 4) := by
    intro k hk
    obtain ⟨j, hj, rfl⟩ := Finset.mem_image.mp hk
    rw [Finset.mem_Ico] at hj ⊢
    simp only [maxWrite, MAXOPBLOCKS, BSIZE] at *
    split_ifs <;> omega
  have hcard := Finset.card_le_card hsub
  rwa [Nat.card_Ico, Nat.add_sub_cancel_left] at hcard

theorem card_places_le {size : ℕ} (hn : n ≤ maxWrite) (hoff : off ≤ size)
    (hfull : ∀ j < size, HasBlock a d j) :
    (span off n).card + (missing a d (span off n)).card + 1 ≤ MAXOPBLOCKS := by
  have hspan := card_span_le off n
  have hblocks := card_blocks_le off hn
  have hmissing : (missing a d (span off n)).card ≤ (span off n).card :=
    Finset.card_le_card (Finset.filter_subset _ _)
  simp only [MAXOPBLOCKS]
  by_cases halign : off % BSIZE = 0
  · rw [if_pos halign] at hblocks
    omega
  rw [if_neg halign] at hblocks
  by_cases hzero : n = 0
  · have : span off n = ∅ := by
      rw [hzero, span, Nat.add_zero, Finset.Ico_self, Finset.image_empty, Finset.biUnion_empty]
    rw [this] at hmissing ⊢
    rw [Finset.card_empty] at hmissing ⊢
    omega
  · have hpos : 0 < off := Nat.pos_of_ne_zero fun h0 => halign (by rw [h0]; rfl)
    have hlast := hfull (off - 1) (by omega)
    have hdiv : (off - 1) / BSIZE = off / BSIZE := by
      simp only [BSIZE] at halign ⊢
      omega
    rw [HasBlock, hdiv] at hlast
    have hin : place (off / BSIZE) ∈ span off n := places_subset_span (by omega) mem_places
    have hlt : (missing a d (span off n)).card < (span off n).card :=
      Finset.card_lt_card (Finset.filter_ssubset.mpr ⟨_, hin, hlast⟩)
    omega

theorem writei_log (hg : g.Ok) (h : Accounts g t s.vol.disk) (ht : t i = some (s.vol.addrs ip))
    (hfull : ∀ j < (s.cache ip).din.size, HasBlock (s.vol.addrs ip) s.vol.disk j)
    (hn : src.length ≤ maxWrite) {r : ℤ × BState} (hok : writei g ip src off s = .ok (r, log)) :
    log.toFinset.card ≤ MAXOPBLOCKS := by
  have hnil : ([] : List ℕ).toFinset.card ≤ MAXOPBLOCKS := Nat.zero_le _
  simp only [writei] at hok
  split at hok
  · split at hok
    · cases hok
      exact hnil
    · cases hok
      exact hnil
  split at hok
  · cases hok
    exact hnil
  next hout =>
  split at hok
  · cases hok
    exact hnil
  next hfit =>
  split at hok
  · cases hok
  next a' d' log' hloop =>
  have hcov := (writeLoop_log hg h ht le_rfl (by omega) hloop).card_le
  have hplaces := card_places_le hn (by omega : off ≤ (s.cache ip).din.size) hfull
  split at hok
  · cases hok
    rw [List.toFinset_append]
    have hunion := Finset.card_union_le log'.toFinset [g.iblock (s.cache ip).inum].toFinset
    have hone : [g.iblock (s.cache ip).inum].toFinset.card = 1 := rfl
    omega
  · cases hok
    omega

structure Marked (g : Geometry) (a : Addrs) (d : Disk) : Prop where
  pos : 0 < g.nmeta
  reserved : ∀ b < g.nmeta, b < g.size → inUse g d b = true
  range : ∀ p, blockOf a d p ≠ 0 → g.nmeta ≤ blockOf a d p ∧ blockOf a d p < g.size
  inj : ∀ p q, blockOf a d p ≠ 0 → blockOf a d p = blockOf a d q → p = q
  used : ∀ p, blockOf a d p ≠ 0 → inUse g d (blockOf a d p) = true

noncomputable def rest (g : Geometry) (a : Addrs) (d : Disk) (b : ℕ) : Option Addrs :=
  open Classical in
  if inUse g d b = true ∧ g.nmeta ≤ b ∧ b < g.size ∧ ∀ p, blockOf a d p ≠ b then
    some (update (fun _ => 0) 0 (BitVec.ofNat 32 b))
  else none

noncomputable def owners (g : Geometry) (a : Addrs) (d : Disk) : AddrTable
  | 0 => some a
  | b + 1 => rest g a d b

theorem refs_owners_succ (hg : g.Ok) {p : Place} (hne : refs (owners g a d) d (b + 1, p) ≠ 0) :
    refs (owners g a d) d (b + 1, p) = b ∧ p = .addr 0 ∧ inUse g d b = true ∧ g.nmeta ≤ b ∧
      b < g.size ∧ ∀ p, blockOf a d p ≠ b := by
  by_cases hb : inUse g d b = true ∧ g.nmeta ≤ b ∧ b < g.size ∧ ∀ p, blockOf a d p ≠ b
  · have hrest : owners g a d (b + 1) = some (update (fun _ => 0) 0 (BitVec.ofNat 32 b)) :=
      if_pos hb
    rw [refs_some hrest] at hne ⊢
    cases p with
    | addr k =>
      by_cases hk : k = 0
      · subst hk
        refine ⟨?_, rfl, hb⟩
        have := hg.size_lt
        rw [blockOf, update_self, BitVec.toNat_ofNat, Nat.mod_eq_of_lt (by omega)]
      · rw [blockOf, update_of_ne hk] at hne
        exact absurd rfl hne
    | slot j =>
      rw [blockOf, update_of_ne (by decide)] at hne
      exact absurd (if_pos rfl) hne
  · exact absurd (refs_none (if_neg hb) d p) hne

theorem Marked.accounts (hg : g.Ok) (h : Marked g a d) : Accounts g (owners g a d) d := by
  have hself : ∀ p, refs (owners g a d) d (0, p) = blockOf a d p := refs_some rfl d
  constructor
  case pos => exact h.pos
  case range =>
    rintro ⟨_ | b, p⟩ hne
    · rw [hself] at hne ⊢
      exact h.range p hne
    · obtain ⟨heq, -, -, hlo, hhi, -⟩ := refs_owners_succ hg hne
      rw [heq]
      exact ⟨hlo, hhi⟩
  case inj =>
    rintro ⟨_ | b, p⟩ ⟨_ | c, q⟩ hne heq
    · rw [hself] at hne
      rw [hself, hself] at heq
      rw [h.inj p q hne heq]
    · obtain ⟨hc, -, -, -, -, hother⟩ := refs_owners_succ hg (heq ▸ hne)
      rw [hc, hself] at heq
      exact absurd heq (hother p)
    · obtain ⟨hb, -, -, -, -, hother⟩ := refs_owners_succ hg hne
      rw [hb, hself] at heq
      exact absurd heq.symm (hother q)
    · obtain ⟨hb, rfl, -⟩ := refs_owners_succ hg hne
      obtain ⟨hc, rfl, -⟩ := refs_owners_succ hg (heq ▸ hne)
      rw [hb, hc] at heq
      rw [heq]
  case used_iff =>
    intro b hb
    constructor
    · intro hused
      by_cases hlo : b < g.nmeta
      · exact .inl hlo
      by_cases hp : ∃ p, blockOf a d p = b
      · obtain ⟨p, hp⟩ := hp
        exact .inr ⟨(0, p), by rw [hself, hp]⟩
      · have hrest : owners g a d (b + 1) =
            some (update (fun _ => 0) 0 (BitVec.ofNat 32 b)) :=
          if_pos ⟨hused, by omega, hb, fun p heq => hp ⟨p, heq⟩⟩
        have := hg.size_lt
        refine .inr ⟨(b + 1, .addr 0), ?_⟩
        rw [refs_some hrest, blockOf, update_self, BitVec.toNat_ofNat,
          Nat.mod_eq_of_lt (by omega)]
    · rintro (hlo | ⟨⟨_ | c, p⟩, hp⟩)
      · exact h.reserved b hlo hb
      · rw [hself] at hp
        by_cases h0 : b = 0
        · exact h.reserved b (by have := h.pos; omega) hb
        · rw [← hp]
          exact h.used p (by rw [hp]; exact h0)
      · by_cases h0 : b = 0
        · exact h.reserved b (by have := h.pos; omega) hb
        · obtain ⟨hc, -, hused, -⟩ := refs_owners_succ hg (hp ▸ h0)
          rw [← hp, hc]
          exact hused

theorem marked_of_settled (h : Settled g s) (hlk : (s.cache ip).locked = true) :
    Marked g (s.vol.addrs ip) s.vol.disk ∧
      ∀ j < (s.cache ip).din.size, HasBlock (s.vol.addrs ip) s.vol.disk j := by
  obtain ⟨hi, hty, hdin, haddrs⟩ := h.locked hlk rfl
  have ht := table_of_type hi hty
  rw [hdin, haddrs]
  refine ⟨?_, h.disk.full _ _ ht⟩
  have hown := h.disk.accounts
  constructor
  case pos => exact hown.pos
  case reserved => exact fun b hlo hb => (hown.used_iff b hb).mpr (.inl hlo)
  case range =>
    intro p
    rw [← refs_some ht]
    exact hown.range _
  case inj =>
    intro p q
    rw [← refs_some ht, ← refs_some ht]
    exact fun hne heq => (Prod.mk.inj (hown.inj _ _ hne heq)).2
  case used =>
    intro p
    rw [← refs_some ht]
    exact hown.used_of_ref

end Logged

theorem write_transaction_fits {g : Geometry} {ip : ISlot} {s : BState} (hg : g.Ok)
    (hmarked : Logged.Marked g (s.vol.addrs ip) s.vol.disk)
    (hfull : ∀ j < (s.cache ip).din.size, HasBlock (s.vol.addrs ip) s.vol.disk j) {src : List Byte}
    {off : ℕ} {r : ℤ × BState} {log : List ℕ}
    (hok : Logged.writei g ip (src.take maxWrite) off s = .ok (r, log)) :
    Blocks.writei g ip (src.take maxWrite) off s = .ok r ∧ log.toFinset.card ≤ MAXOPBLOCKS := by
  refine ⟨by rw [← Logged.writei_value, hok]; rfl, ?_⟩
  exact Logged.writei_log (i := 0) hg (hmarked.accounts hg) rfl hfull (List.length_take_le _ _) hok

theorem write_transaction_fits_root :
    ∃ r log, Logged.writei xv6Geometry 0 [0] 512 lockedRoot = .ok (r, log) ∧ log = [58, 60, 60, 32] ∧
      log.toFinset.card ≤ MAXOPBLOCKS := by
  have hlog : (Logged.writei xv6Geometry 0 [0] 512 lockedRoot).toOption.map Prod.snd =
      some [58, 60, 60, 32] := by
    decide +kernel
  cases hok : Logged.writei xv6Geometry 0 [0] 512 lockedRoot with
  | error f =>
    rw [hok] at hlog
    cases hlog
  | ok r =>
    rw [hok] at hlog
    have hlocked : (lockedRoot.cache 0).locked = true := rfl
    obtain ⟨hmarked, hfull⟩ :=
      Logged.marked_of_settled (settled_lockedRoot mkfsDisk_ok rfl rfl) hlocked
    have hchunk : Logged.writei xv6Geometry 0 ([0].take maxWrite) 512 lockedRoot = .ok r := hok
    have hfits := write_transaction_fits xv6Geometry_ok hmarked hfull hchunk
    exact ⟨r.1, r.2, rfl, Option.some.inj hlog, hfits.2⟩

/-- Four bitmap blocks, 3 to 6. -/
def wideGeometry : Geometry := ⟨4 * BPB, 4 * BPB - 7, 8, 2, 3, fun _ => none⟩

def FreeBlocks (d : Disk) (l : List ℕ) : Prop :=
  ∀ x < wideGeometry.size, inUse wideGeometry d x = decide (x ∉ l)

theorem wide_bblock {x b : ℕ} (hx : x < wideGeometry.size) (hb : b < 3 ∨ 6 < b) :
    wideGeometry.bblock x ≠ b := by
  simp only [wideGeometry, Geometry.bblock, BPB, BSIZE] at hx ⊢
  omega

theorem FreeBlocks.update {d : Disk} {l : List ℕ} {b : ℕ} {c : Block} (h : FreeBlocks d l)
    (hb : b < 3 ∨ 6 < b) : FreeBlocks (update d b c) l := by
  intro x hx
  rw [inUse_congr (update_of_ne (wide_bblock hx hb) _ _)]
  exact h x hx

theorem FreeBlocks.ensure {d : Disk} {l : List ℕ} {r : ℕ} (h : FreeBlocks d (r :: l))
    (hr : r < wideGeometry.size) (hl : ∀ y ∈ l, r < y) (hb : r < 3 ∨ 6 < r) :
    ∃ d', Logged.ensure wideGeometry 0 d = .ok ((BitVec.ofNat 32 r, d'), [wideGeometry.bblock r, r]) ∧
      FreeBlocks d' l ∧ d' r = Bytes.zero BSIZE ∧ ∀ b, b < 3 ∨ 6 < b → b ≠ r → d' b = d b := by
  obtain ⟨r', d', hok⟩ := balloc_of_free hr (by rw [h r hr]; simp)
  obtain ⟨hlt, hfree, hused, rfl⟩ := balloc_ok hok
  have hr' : r' = r := by
    rw [h r' hlt, decide_eq_false_iff_not, not_not] at hfree
    refine (List.mem_cons.mp hfree).resolve_right fun hmem => ?_
    have := hused r (hl r' hmem)
    rw [h r hr] at this
    simp at this
  subst hr'
  refine ⟨bzero r' (mark wideGeometry r' d), by simp [Logged.ensure, Logged.balloc, hok], fun x hx => ?_,
    update_self _ _ _, fun b hb hne => ?_⟩
  · rw [bzero, inUse_congr (update_of_ne (wide_bblock hx hb) _ _), inUse_mark, h x hx]
    by_cases hxr : x = r'
    · have : r' ∉ l := fun hmem => lt_irrefl _ (hl r' hmem)
      simp [hxr, this]
    · simp [hxr]
  · rw [bzero, update_of_ne hne, mark, markBit, update_of_ne (wide_bblock hr hb).symm]

theorem Logged.bmap_indirect {g : Geometry} (bn : ℕ) {a : Addrs} {d d1 d2 : Disk} {u w : BitVec 32}
    {log1 log2 : List ℕ} (hbn : NDIRECT ≤ bn) (hlt : bn - NDIRECT < NINDIRECT)
    (h1 : ensure g (a (Fin.last NDIRECT)) d = .ok ((u, d1), log1))
    (hold : (d1 u.toNat).word (4 * (bn - NDIRECT)) = 0)
    (h2 : ensure g 0 d1 = .ok ((w, d2), log2)) :
    bmap g bn a d = .ok ((w.toNat, update a (Fin.last NDIRECT) u,
      update d2 u.toNat ((d2 u.toNat).setWord (4 * (bn - NDIRECT)) w)), log1 ++ log2 ++ [u.toNat]) := by
  simp only [bmap, dif_neg (Nat.not_lt.mpr hbn), if_pos hlt, h1, hold, h2, if_true]

theorem Logged.writeLoop_round {g : Geometry} {k n m off b : ℕ} {a a' : Addrs} {d d' : Disk}
    {log log' : List ℕ} (hk : 0 < k) (hm : min k (BSIZE - off % BSIZE) = m)
    (hb : bmap g (off / BSIZE) a d = .ok ((b, a', d'), log))
    (hrest : ∀ c, ∃ r, writeLoop g n (List.replicate (k - m) 0) (off + m) a' (update d' b c) = .ok (r, log')) :
    ∃ r, writeLoop g (n + 1) (List.replicate k 0) off a d = .ok (r, log ++ b :: log') := by
  have hne : List.replicate k (0 : Byte) ≠ [] := by
    rw [Ne, List.replicate_eq_nil_iff]
    omega
  rw [writeLoop, if_neg hne, hb]
  simp only [List.length_replicate, hm, List.drop_replicate]
  obtain ⟨r, hr⟩ := hrest ((d' b).blit (off % BSIZE) m fun t => (List.replicate k 0).getD t 0)
  exact ⟨r, by rw [hr]⟩

/-- All bits are set but those of blocks 0, 4096, 8192, 12288 and 12289. -/
def sparseDisk : Disk := fun b i =>
  if b < 3 ∨ 6 < b then 0 else if i.val = 0 then if b = 6 then 252 else 254 else 255

theorem freeBlocks_sparseDisk : FreeBlocks sparseDisk [0, 4096, 8192, 12288, 12289] := by
  have hfirst : ∀ q < 4, ∀ j < 8, inUse wideGeometry sparseDisk (4096 * q + j) =
      decide (4096 * q + j ∉ [0, 4096, 8192, 12288, 12289]) := by
    decide +kernel
  have hones : ∀ k < 8, (255 : Byte).getLsbD k = true := by decide
  intro x hx
  simp only [wideGeometry, BPB, BSIZE] at hx
  by_cases h0 : x % 4096 / 8 = 0
  · have hx' := hfirst (x / 4096) (by omega) (x % 4096) (by omega)
    rwa [Nat.div_add_mod] at hx'
  · have hbyte : x % BPB / 8 < BSIZE := by
      simp only [BPB, BSIZE]
      omega
    have hblock : ¬(wideGeometry.bblock x < 3 ∨ 6 < wideGeometry.bblock x) := by
      simp only [wideGeometry, Geometry.bblock, BPB, BSIZE]
      omega
    have hlist : x ∉ [0, 4096, 8192, 12288, 12289] := by
      simp only [List.mem_cons, List.not_mem_nil, or_false]
      omega
    have h255 : sparseDisk (wideGeometry.bblock x) ⟨_, hbyte⟩ = 255 := (if_neg hblock).trans (if_neg h0)
    rw [inUse, bit, Bytes.get, dif_pos hbyte, h255, decide_eq_true hlist]
    exact hones _ (Nat.mod_lt _ (by norm_num))

/-- A file of 11 blocks and a byte. -/
def sparseFile : BState :=
  setStore ((bootB sparseDisk).setInode 0 ⟨1, 1, true, true, ⟨T_FILE, 0, 0, 1, 11 * BSIZE + 1⟩⟩) 0
    (fun k => if k.val < NDIRECT then BitVec.ofNat 32 (k.val + 7) else 0) sparseDisk

theorem writeLoop_sparseFile : ∃ r, Logged.writeLoop wideGeometry 1536 (List.replicate 1536 0)
    (11 * BSIZE + 1) (sparseFile.vol.addrs 0) sparseDisk = .ok (r, [] ++ 18 ::
      ([3, 0] ++ [4, 4096] ++ [0] ++ 4096 :: ([5, 8192] ++ [6, 12288] ++ [8192] ++ 12288 ::
        ([] ++ [6, 12289] ++ [8192] ++ 12289 :: [])))) := by
  refine Logged.writeLoop_round (m := 511) (by norm_num) rfl rfl fun c => ?_
  -- Block 0 becomes the indirect block, and its address still stands for none.
  obtain ⟨d1, h1, hf1, hz1, -⟩ := (freeBlocks_sparseDisk.update (b := 18) (c := c) (by norm_num)).ensure
    (by decide) (by decide) (by norm_num)
  obtain ⟨d2, h2, hf2, -, -⟩ := hf1.ensure (by decide) (by decide) (by norm_num)
  have hold : (d1 (0#32).toNat).word (4 * (12 - NDIRECT)) = 0 := by
    change (d1 0).word _ = 0
    rw [hz1, Bytes.word_zero]
  refine Logged.writeLoop_round (m := 512) (by norm_num) rfl
    (Logged.bmap_indirect 12 (by decide) (by decide) h1 hold h2) fun c => ?_
  obtain ⟨d3, h3, hf3, hz3, -⟩ := ((hf2.update (b := 0) (by norm_num)).update (b := 4096) (c := c) (by norm_num)).ensure
    (by decide) (by decide) (by norm_num)
  obtain ⟨d4, h4, hf4, -, hk4⟩ := hf3.ensure (by decide) (by decide) (by norm_num)
  have hold : (d3 (8192#32).toNat).word (4 * (13 - NDIRECT)) = 0 := by
    change (d3 8192).word _ = 0
    rw [hz3, Bytes.word_zero]
  refine Logged.writeLoop_round (m := 512) (by norm_num) rfl
    (Logged.bmap_indirect 13 (by decide) (by decide) h3 hold h4) fun c => ?_
  obtain ⟨d5, h5, -⟩ := ((hf4.update (b := 8192) (by norm_num)).update (b := 12288) (c := c) (by norm_num)).ensure
    (by decide) (by decide) (by norm_num)
  refine Logged.writeLoop_round (m := 1) (by norm_num) rfl
    (Logged.bmap_indirect 14 (by decide) (by decide) (u := 8192) rfl ?_ h5) fun c => ⟨_, rfl⟩
  have hkept : d4 8192 = Bytes.zero BSIZE := (hk4 8192 (by norm_num) (by norm_num)).trans hz3
  change Bytes.word (update (update d4 8192 ((d4 8192).setWord 4 _)) 12288 c 8192) 8 = 0
  rw [update_of_ne (by norm_num), update_self, Bytes.word_setWord_of_disjoint _ _ (by norm_num), hkept,
    Bytes.word_zero]

theorem write_exceeds_reservation : wideGeometry.Ok ∧
    (∀ j < (sparseFile.cache 0).din.size, HasBlock (sparseFile.vol.addrs 0) sparseFile.vol.disk j) ∧
    ∃ r log, Logged.writei wideGeometry 0 (List.replicate maxWrite 0) (11 * BSIZE + 1) sparseFile =
      .ok (r, log) ∧ log.toFinset.card = MAXOPBLOCKS + 1 := by
  refine ⟨⟨?_, ?_, by decide⟩, fun j hj => ?_, ?_⟩
  · decide
  · intro b hb
    simp only [wideGeometry, Geometry.bblock, Geometry.nmeta, BPB, BSIZE] at hb ⊢
    omega
  · have hblock : ∀ k < NDIRECT, blockOf (sparseFile.vol.addrs 0) sparseFile.vol.disk (place k) ≠ 0 := by decide
    have hsize : j < 11 * BSIZE + 1 := hj
    exact hblock _ (by simp only [BSIZE, NDIRECT] at hsize ⊢; omega)
  · obtain ⟨r, hr⟩ := writeLoop_sparseFile
    have hloop : Logged.writeLoop wideGeometry maxWrite (List.replicate maxWrite 0) (11 * BSIZE + 1)
        (sparseFile.vol.addrs 0) sparseFile.vol.disk = _ := hr
    simp only [Logged.writei, List.length_replicate]
    rw [if_neg (by decide), if_neg (by decide), if_neg (by decide), hloop]
    dsimp only
    rw [if_pos (by decide)]
    exact ⟨_, _, rfl, by decide⟩

end Xv6.Fs
