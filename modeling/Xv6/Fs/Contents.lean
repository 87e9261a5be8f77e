import Xv6.Fs.Accounts

/-!
# Contents of files in blocks

`contentOf` is the byte of a file at an offset, found through its block addresses.
-/

namespace Xv6.Fs

open Lib
open Function (update_self update_of_ne update_eq_self update_idem update)

theorem slice_append (f : ℕ → Byte) (off m n : ℕ) :
    slice f off (m + n) = slice f off m ++ slice f (off + m) n := by
  simp only [slice, List.range_add, List.map_append, List.map_map, Function.comp_def, Nat.add_assoc]

namespace Blocks

variable {g : Geometry} {t : AddrTable} {d d' d'' : Disk} {i b bn off j : ℕ} {a a' a'' : Addrs}
  {src : List Byte}

def contentOf (a : Addrs) (d : Disk) (j : ℕ) : Byte :=
  (d (blockOf a d (place (j / BSIZE)))).get (j % BSIZE)

def HasBlock (a : Addrs) (d : Disk) (j : ℕ) : Prop := blockOf a d (place (j / BSIZE)) ≠ 0

theorem block_lt (h : j < MAXFILE * BSIZE) : j / BSIZE < MAXFILE :=
  Nat.div_lt_of_lt_mul (by rwa [Nat.mul_comm] at h)

theorem div_eq_of_chunk (h1 : off ≤ j) (h2 : j < off + (BSIZE - off % BSIZE)) :
    j / BSIZE = off / BSIZE ∧ j % BSIZE = off % BSIZE + (j - off) := by
  simp only [BSIZE] at *
  omega

theorem mapped_cases (hbn : bn < MAXFILE) (h : blockOf a d (place bn) ≠ 0) :
    (∃ hdir : bn < NDIRECT, a ⟨bn, Nat.lt_succ_of_lt hdir⟩ ≠ 0 ∧
      blockOf a d (place bn) = (a ⟨bn, Nat.lt_succ_of_lt hdir⟩).toNat) ∨
    ∃ k < NINDIRECT, bn = NDIRECT + k ∧ a (Fin.last NDIRECT) ≠ 0 ∧
      (d (a (Fin.last NDIRECT)).toNat).word (4 * k) ≠ 0 ∧
      blockOf a d (place bn) = ((d (a (Fin.last NDIRECT)).toNat).word (4 * k)).toNat := by
  simp only [MAXFILE] at hbn
  by_cases hdir : bn < NDIRECT
  · rw [place_direct hdir] at h ⊢
    exact .inl ⟨hdir, fun h0 => h (by rw [blockOf, h0]; rfl), rfl⟩
  · obtain ⟨k, rfl⟩ := Nat.exists_eq_add_of_le (Nat.not_lt.mp hdir)
    have hk : k < NINDIRECT := by omega
    rw [place_indirect hk] at h ⊢
    have hiw : a (Fin.last NDIRECT) ≠ 0 := fun h0 => h (by rw [blockOf, if_pos h0])
    rw [blockOf, if_neg hiw] at h ⊢
    exact .inr ⟨k, hk, rfl, hiw, fun h0 => h (by rw [h0]; rfl), rfl⟩

theorem bmap_mapped (hbn : bn < MAXFILE) (h : blockOf a d (place bn) ≠ 0) :
    bmap g bn a d = .ok (blockOf a d (place bn), a, d) := by
  have hens : ∀ {w : BitVec 32}, w ≠ 0 → ensure g w d = .ok (w, d) := fun hw => if_neg hw
  obtain ⟨hdir, hw, hb⟩ | ⟨k, hk, rfl, hiw, hw, hb⟩ := mapped_cases hbn h
  · simp only [bmap, dif_pos hdir, hens hw, update_eq_self, hb]
  · rw [bmap, dif_neg (by omega), if_pos (by omega), hb]
    simp only [Nat.add_sub_cancel_left, hens hiw, hens hw, if_neg hw, update_eq_self]

theorem slice_block {m : ℕ} (hm : m ≤ BSIZE - off % BSIZE) :
    slice (d (blockOf a d (place (off / BSIZE)))).get (off % BSIZE) m = slice (contentOf a d) off m := by
  apply List.map_congr_left
  intro k hk
  rw [List.mem_range] at hk
  obtain ⟨h1, h2⟩ := div_eq_of_chunk (Nat.le_add_right off k) (by omega)
  rw [contentOf, h1, h2, Nat.add_sub_cancel_left]

theorem readLoop_ok {n left : ℕ} (hn : left ≤ n) (hfit : off + left ≤ MAXFILE * BSIZE)
    (hmap : ∀ j, off ≤ j → j < off + left → HasBlock a d j) :
    readLoop g n left off a d = .ok (slice (contentOf a d) off left, a, d) := by
  induction n generalizing left off with
  | zero =>
    obtain rfl : left = 0 := by omega
    rfl
  | succ n ih =>
    rw [readLoop]
    split_ifs with h0
    · rw [h0]
      rfl
    · have hm : 1 ≤ min left (BSIZE - off % BSIZE) := by
        simp only [BSIZE]
        omega
      generalize hmdef : min left (BSIZE - off % BSIZE) = m at *
      have hle : m ≤ left := by omega
      rw [bmap_mapped (block_lt (by omega)) (hmap off le_rfl (by omega))]
      dsimp only
      rw [ih (by omega) (by omega) fun j h1 h2 => hmap j (by omega) (by omega)]
      simp only [slice_block (show m ≤ BSIZE - off % BSIZE by omega)]
      rw [← slice_append, Nat.add_sub_cancel' hle]

theorem write_data (hg : g.Ok) (h : Accounts g t d) {o : ℕ × Place} (ho : IsData o)
    (hne : refs t d o ≠ 0) (bp : Block) : refs t (update d (refs t d o) bp) = refs t d ∧
      Accounts g t (update d (refs t d o) bp) ∧
      ∀ x < g.bmapstart, update d (refs t d o) bp x = d x := by
  have hr := h.range o hne
  have hrefs : refs t (update d (refs t d o) bp) = refs t d := by
    apply refs_congr
    intro i a ht ha
    apply update_of_ne
    intro heq
    have hlast : refs t d (i, .addr (Fin.last NDIRECT)) = (a (Fin.last NDIRECT)).toNat := by
      rw [refs_some ht]
      rfl
    exact ho (by rw [h.inj o _ hne (heq.symm.trans hlast.symm)])
  refine ⟨hrefs, h.congr (fun b hb => ?_) fun o => by rw [hrefs], fun x hx => ?_⟩
  · have := hg.bits b hb
    rw [inUse_congr (update_of_ne (by omega) _ _)]
  · have h1 := hg.bits _ hr.2
    have h2 := Geometry.bblock_ge g (refs t d o)
    exact update_of_ne (by omega) _ _

structure Written (g : Geometry) (i : ℕ) (t : AddrTable) (a : Addrs) (d : Disk) (off : ℕ)
    (src : List Byte) (a' : Addrs) (d' : Disk) : Prop where
  own : Accounts g (update t i (some a')) d'
  mono : ∀ o, refs t d o ≠ 0 → refs (update t i (some a')) d' o = refs t d o
  others : ∀ o, o.1 ≠ i → refs (update t i (some a')) d' o = refs t d o
  inodes : ∀ x < g.bmapstart, d' x = d x
  data : ∀ o, o.1 ≠ i → IsData o → refs t d o ≠ 0 → d' (refs t d o) = d (refs t d o)
  mapped : ∀ j, off ≤ j → j < off + src.length → HasBlock a' d' j
  bytes : ∀ j, off ≤ j → j < off + src.length → contentOf a' d' j = src.getD (j - off) 0
  rest : ∀ j < MAXFILE * BSIZE, ¬ (off ≤ j ∧ j < off + src.length) → HasBlock a d j →
    contentOf a' d' j = contentOf a d j
  same : (∀ j, off ≤ j → j < off + src.length → HasBlock a d j) → a' = a

theorem Written.nil (h : Accounts g t d) (ht : t i = some a) : Written g i t a d off [] a d := by
  have htab : update t i (some a) = t := by rw [← ht, update_eq_self]
  constructor
  case own => rw [htab]; exact h
  case mono => rw [htab]; exact fun _ _ => rfl
  case others => rw [htab]; exact fun _ _ => rfl
  case inodes => exact fun _ _ => rfl
  case data => exact fun _ _ _ _ => rfl
  case mapped => intro j h1 h2; rw [List.length_nil] at h2; omega
  case bytes => intro j h1 h2; rw [List.length_nil] at h2; omega
  case rest => exact fun _ _ _ _ => rfl
  case same => exact fun _ => rfl

theorem Written.cons (hg : g.Ok) (h : Accounts g t d) (ht : t i = some a) {m : ℕ} (hm : m ≤ src.length)
    (hchunk : m ≤ BSIZE - off % BSIZE) (hpos : 0 < m) (hfit : off + src.length ≤ MAXFILE * BSIZE)
    (hmap : Mapped g i t a d (off / BSIZE) b a' d') (hw : Written g i (update t i (some a')) a'
      (update d' b ((d' b).blit (off % BSIZE) m fun k => src.getD k 0)) (off + m)
      (src.drop m) a'' d'') : Written g i t a d off src a'' d'' := by
  have hlen : (src.drop m).length = src.length - m := List.length_drop
  have ht' : update t i (some a') i = some a' := update_self _ _ _
  have hbn : off / BSIZE < MAXFILE := block_lt (by omega)
  have hgrow := hmap.grows
  have hself : refs (update t i (some a')) d' (i, place (off / BSIZE)) = b := by
    rw [refs_some ht', hmap.self]
  obtain ⟨hrefs, hown, hinodes⟩ := write_data hg hgrow.own (place_isData hbn)
    (by rw [hself]; exact hmap.ne) ((d' b).blit (off % BSIZE) m fun k => src.getD k 0)
  rw [hself] at hrefs hown hinodes
  generalize hd2 : update d' b ((d' b).blit (off % BSIZE) m fun k => src.getD k 0) = d2 at *
  have hblocks : ∀ p, blockOf a' d2 p = blockOf a' d' p := by
    intro p
    have := congrFun hrefs (i, p)
    rwa [refs_some ht', refs_some ht'] at this
  have hkeep : ∀ p, blockOf a d p ≠ 0 → blockOf a' d' p = blockOf a d p := by
    intro p hp
    have := hgrow.mono (i, p) (by rw [refs_some ht]; exact hp)
    rwa [refs_some ht', refs_some ht] at this
  have htab : update (update t i (some a')) i (some a'') =
      update t i (some a'') := update_idem _ _ _
  have ht'' : update t i (some a'') i = some a'' := update_self _ _ _
  have hfirst : ∀ j, off ≤ j → j < off + m → blockOf a' d' (place (j / BSIZE)) = b := by
    intro j h1 h2
    rw [(div_eq_of_chunk h1 (by omega)).1, hmap.self]
  constructor
  case own => rw [← htab]; exact hw.own
  case mono =>
    intro o ho
    have h1 := hgrow.mono o ho
    rw [← htab, hw.mono o (by rw [hrefs, h1]; exact ho), hrefs, h1]
  case others =>
    intro o ho
    rw [← htab, hw.others o ho, hrefs, hgrow.others o ho]
  case inodes => exact fun x hx => (hw.inodes x hx).trans ((hinodes x hx).trans (hgrow.inodes x hx))
  case data =>
    intro o hoi hdata ho
    have h1 := hgrow.mono o ho
    have h2 := hw.data o hoi hdata (by rw [hrefs, h1]; exact ho)
    rw [hrefs, h1] at h2
    rw [h2, ← hgrow.data o hdata ho, ← hd2]
    apply update_of_ne
    intro heq
    refine hoi (congrArg Prod.fst (hgrow.own.inj o (i, place (off / BSIZE)) ?_ ?_))
    · rw [h1]; exact ho
    · rw [h1, hself]; exact heq
  case mapped =>
    intro j h1 h2
    by_cases hj : j < off + m
    · have hne : refs (update t i (some a')) d2 (i, place (j / BSIZE)) ≠ 0 := by
        rw [hrefs, refs_some ht', hfirst j h1 hj]
        exact hmap.ne
      have hmono := hw.mono _ hne
      rw [htab] at hmono
      rw [HasBlock, ← refs_some ht'' d'', hmono]
      exact hne
    · exact hw.mapped j (by omega) (by rw [hlen]; omega)
  case bytes =>
    intro j h1 h2
    by_cases hj : j < off + m
    · have hblock := hfirst j h1 hj
      rw [hw.rest j (by omega) (by omega) (by rw [HasBlock, hblocks, hblock]; exact hmap.ne),
        contentOf, hblocks, hblock, ← hd2, update_self]
      obtain ⟨-, hmod⟩ := div_eq_of_chunk h1 (by omega)
      rw [hmod, Bytes.get_blit_of_mem]
      · omega
      · omega
    · rw [hw.bytes j (by omega) (by rw [hlen]; omega)]
      simp only [List.getD_eq_getElem?_getD, List.getElem?_drop]
      congr 2
      omega
  case rest =>
    intro j hlt hout hblock
    have hold := hkeep _ hblock
    have hne' : HasBlock a' d2 j := by
      rw [HasBlock, hblocks, hold]
      exact hblock
    rw [hw.rest j hlt (by rw [hlen]; omega) hne', contentOf, hblocks, hold, contentOf]
    have hdata := hgrow.data (i, place (j / BSIZE)) (place_isData (block_lt hlt))
      (by rw [refs_some ht]; exact hblock)
    rw [refs_some ht] at hdata
    rw [← hdata, ← hd2]
    by_cases heq : blockOf a d (place (j / BSIZE)) = b
    · -- The same block, but a byte outside the chunk.
      have hplace : place (j / BSIZE) = place (off / BSIZE) := by
        have := hgrow.own.inj (i, place (j / BSIZE)) (i, place (off / BSIZE))
          (by rw [refs_some ht', hold]; exact hblock) (by rw [refs_some ht', hold, hself, heq])
        exact (Prod.mk.inj this).2
      have hdiv := place_inj (block_lt hlt) hbn hplace
      rw [heq, update_self, Bytes.get_blit_of_disjoint]
      simp only [BSIZE] at *
      omega
    · rw [update_of_ne heq]
  case same =>
    intro hall
    obtain ⟨rfl, rfl⟩ := hmap.same (hall off le_rfl (by omega))
    apply hw.same
    intro j h1 h2
    rw [hlen] at h2
    rw [HasBlock, hblocks]
    exact hall j (by omega) (by omega)

theorem writeLoop_ok (hg : g.Ok) {n : ℕ} (h : Accounts g t d) (ht : t i = some a)
    (hn : src.length ≤ n) (hfit : off + src.length ≤ MAXFILE * BSIZE)
    (hok : writeLoop g n src off a d = .ok (a', d')) : Written g i t a d off src a' d' := by
  induction n generalizing src off a d t with
  | zero =>
    obtain rfl : src = [] := List.length_eq_zero_iff.mp (by omega)
    cases hok
    exact .nil h ht
  | succ n ih =>
    rw [writeLoop] at hok
    split_ifs at hok with h0
    · cases hok
      rw [h0]
      exact .nil h ht
    · have hlen : 0 < src.length := List.length_pos_iff.mpr h0
      split at hok
      · cases hok
      · next b a1 d1 hbm =>
        have hmap := bmap_ok hg h ht (block_lt (by omega)) hbm
        have hm : 0 < min src.length (BSIZE - off % BSIZE) := by
          simp only [BSIZE]
          omega
        have hself : refs (update t i (some a1)) d1 (i, place (off / BSIZE)) = b := by
          rw [refs_some (update_self _ _ _), hmap.self]
        have hown := (write_data hg hmap.grows.own (place_isData (i := i) (block_lt (j := off) (by omega)))
          (by rw [hself]; exact hmap.ne)
          ((d1 b).blit (off % BSIZE) (min src.length (BSIZE - off % BSIZE)) fun k => src.getD k 0)).2.1
        rw [hself] at hown
        refine .cons hg h ht (by omega) (by omega) hm hfit hmap
          (ih hown (update_self _ _ _) ?_ ?_ hok)
        · rw [List.length_drop]
          omega
        · rw [List.length_drop]
          omega

theorem writeLoop_error {n : ℕ} {f : Fault} (hfit : off + src.length ≤ MAXFILE * BSIZE)
    (herr : writeLoop g n src off a d = .error f) : f = .panic .outOfBlocks := by
  induction n generalizing src off a d with
  | zero => cases herr
  | succ n ih =>
    rw [writeLoop] at herr
    split_ifs at herr with h0
    have hlen : 0 < src.length := List.length_pos_iff.mpr h0
    split at herr
    · next hbm =>
      cases herr
      exact bmap_error (block_lt (by omega)) hbm
    · refine ih ?_ herr
      rw [List.length_drop]
      omega

end Blocks
end Xv6.Fs
