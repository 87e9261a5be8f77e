import Xv6.Fs.Contents

/-!
# Free blocks

`balloc` panics on a full disk and succeeds otherwise, so `writei` returns when there is a free
block for every block that it has to map.
-/

namespace Xv6.Fs.Blocks

open Lib
open Function (update_self update_of_ne update_eq_self update)

variable {g : Geometry} {t t' : AddrTable} {d d' : Disk} {i b bn off : ℕ} {a a' : Addrs}
  {S : Finset Place} {p : Place}

def freeBlocks (g : Geometry) (d : Disk) : Finset ℕ :=
  Owned.vacant (fun b => inUse g d b = true) g.size

def places (bn : ℕ) : Finset Place :=
  if bn < NDIRECT then {place bn} else {.addr (Fin.last NDIRECT), place bn}

def allPlaces : Finset Place := Finset.univ.image .addr ∪ Finset.univ.image .slot

def missing (a : Addrs) (d : Disk) (S : Finset Place) : Finset Place :=
  S.filter fun p => blockOf a d p = 0

def Room (g : Geometry) (a : Addrs) (d : Disk) (S : Finset Place) : Prop :=
  (missing a d S).card ≤ (freeBlocks g d).card

def span (off n : ℕ) : Finset Place :=
  ((Finset.Ico off (off + n)).image (· / BSIZE)).biUnion places

theorem mem_span {n : ℕ} : p ∈ span off n ↔ ∃ j, off ≤ j ∧ j < off + n ∧ p ∈ places (j / BSIZE) := by
  simp [span, and_assoc]

theorem mem_allPlaces (p : Place) : p ∈ allPlaces := by
  cases p <;> simp [allPlaces]

theorem card_allPlaces_le : allPlaces.card ≤ NDIRECT + 1 + NINDIRECT := by
  refine (Finset.card_union_le _ _).trans (add_le_add ?_ ?_)
  · exact Finset.card_image_le.trans_eq (Finset.card_fin _)
  · exact Finset.card_image_le.trans_eq (Finset.card_fin _)

theorem mem_places : place bn ∈ places bn := by
  unfold places
  split_ifs <;> simp

theorem indirect_mem_places (h : ¬ bn < NDIRECT) : .addr (Fin.last NDIRECT) ∈ places bn := by
  rw [places, if_neg h]
  exact Finset.mem_insert_self _ _

theorem ensure_addr_only (hg : g.Ok) (h : Accounts g t d) (ht : t i = some a)
    {k : Fin (NDIRECT + 1)} {w : BitVec 32} (hok : ensure g (a k) d = .ok (w, d'))
    (hp : p ≠ .addr k) : blockOf (update a k w) d' p = blockOf a d p := by
  rcases ensure_ok hok with ⟨-, rfl, rfl⟩ | ⟨hw, b, hb, rfl⟩
  · rw [update_eq_self]
  · have href := congrFun ((balloc_fresh hg h hb).refs_addr hg ht hw) (i, p)
    rw [refs_some (update_self _ _ _),
      update_of_ne (fun heq => hp (Prod.mk.inj heq).2), refs_some ht] at href
    exact href

theorem bmap_only (hg : g.Ok) (h : Accounts g t d) (ht : t i = some a) (hbn : bn < MAXFILE)
    (hok : bmap g bn a d = .ok (b, a', d')) (hp : p ∉ places bn) :
    blockOf a' d' p = blockOf a d p := by
  by_cases hdir : bn < NDIRECT
  · rw [places, if_pos hdir, Finset.mem_singleton, place_direct hdir] at hp
    rw [bmap, dif_pos hdir] at hok
    split at hok
    · next w d1 hens =>
      cases hok
      exact ensure_addr_only hg h ht hens hp
    · cases hok
  · have hj : bn - NDIRECT < NINDIRECT := by
      simp only [MAXFILE] at hbn
      omega
    have hplace : place bn = .slot ⟨bn - NDIRECT, hj⟩ := by
      rw [place, dif_neg hdir, dif_pos hj]
    rw [places, if_neg hdir, Finset.mem_insert, Finset.mem_singleton, hplace, not_or] at hp
    obtain ⟨iw, d1, w, d2, hens, hens2, -, rfl, rfl⟩ := bmap_steps hdir hj hok
    obtain ⟨hgrow, hiw, -⟩ := ensure_addr hg h ht hens
    rw [← ensure_addr_only hg h ht hens hp.1]
    rcases ensure_ok hens2 with ⟨hw, rfl, rfl⟩ | ⟨hw, b2, hb2, rfl⟩
    · rw [if_neg hw]
    · rw [if_pos hw]
      have ht1 : update t i (some (update a (Fin.last NDIRECT) iw)) i =
          some (update a (Fin.last NDIRECT) iw) := update_self _ _ _
      have href := (balloc_fresh hg hgrow.own hb2).refs_slot hg hgrow.own ht1
        (by rw [update_self]; exact hiw) ⟨bn - NDIRECT, hj⟩
      rw [update_self] at href
      have hself := congrFun href (i, p)
      rw [refs_some ht1, update_of_ne (fun heq => hp.2 (Prod.mk.inj heq).2),
        refs_some ht1] at hself
      exact hself

section

variable (hroom : Room g a d S)
include hroom

theorem Room.mono (h : Accounts g t d) (ht : t i = some a)
    (h' : Accounts g t' d') (ht' : t' i = some a')
    (hmono : ∀ o, refs t d o ≠ 0 → refs t' d' o = refs t d o)
    (hothers : ∀ o, o.1 ≠ i → refs t' d' o = refs t d o)
    (honly : ∀ p ∉ S, blockOf a' d' p = blockOf a d p) : Room g a' d' S := by
  have hnew : ∀ o, refs t d o = 0 → refs t' d' o ≠ 0 → ∃ p ∈ S, (i, p) = o := by
    intro ⟨i', p⟩ hzero hne
    by_cases hi : i' = i
    · subst hi
      refine ⟨p, ?_, rfl⟩
      by_contra hp
      rw [refs_some ht', honly p hp, ← refs_some ht] at hne
      exact hne hzero
    · rw [hothers _ hi] at hne
      exact absurd hzero hne
  have := h.room h' hmono hnew
  simp only [refs_some ht, refs_some ht'] at this
  exact this hroom

theorem Room.grows (h : Accounts g t d) (ht : t i = some a)
    (hgrow : Grows g i t d (update t i (some a')) d')
    (honly : ∀ p ∉ S, blockOf a' d' p = blockOf a d p) : Room g a' d' S :=
  hroom.mono h ht hgrow.own (update_self _ _ _) hgrow.mono hgrow.others honly

theorem Room.congr (hbits : ∀ b < g.size, inUse g d' b = inUse g d b)
    (hblock : ∀ p, blockOf a d' p = blockOf a d p) : Room g a d' S := by
  have hfree : freeBlocks g d' = freeBlocks g d :=
    Finset.filter_congr fun b hb => by simp only [hbits b (Finset.mem_range.mp hb)]
  have hmissing : missing a d' S = missing a d S :=
    Finset.filter_congr fun p _ => by rw [hblock p]
  rw [Room, hfree, hmissing]
  exact hroom

theorem Room.balloc (hp : p ∈ S) (hzero : blockOf a d p = 0) :
    ∃ b d', balloc g d = .ok (b, d') := by
  have hpos : 0 < (freeBlocks g d).card :=
    (Finset.card_pos.mpr ⟨p, Finset.mem_filter.mpr ⟨hp, hzero⟩⟩).trans_le hroom
  obtain ⟨b, hb⟩ := Finset.card_pos.mp hpos
  obtain ⟨hlt, hfree⟩ := Finset.mem_filter.mp hb
  exact balloc_of_free (Finset.mem_range.mp hlt) (Bool.not_eq_true _ ▸ hfree)

theorem Room.ensure (hp : p ∈ S) {w : BitVec 32}
    (hw : blockOf a d p = w.toNat) : ∃ w' d', ensure g w d = .ok (w', d') := by
  by_cases h0 : w = 0
  · obtain ⟨b, d', hb⟩ := hroom.balloc hp (by rw [hw, h0]; rfl)
    exact ⟨BitVec.ofNat 32 b, d', by simp only [Blocks.ensure, if_pos h0, hb]⟩
  · exact ⟨w, d, if_neg h0⟩

end

theorem Room.bmap (hg : g.Ok) (h : Accounts g t d) (ht : t i = some a) (hbn : bn < MAXFILE)
    (hS : places bn ⊆ S) (hroom : Room g a d S) : ∃ b a' d', bmap g bn a d = .ok (b, a', d') := by
  by_cases hdir : bn < NDIRECT
  · have hself := hS mem_places
    rw [place_direct hdir] at hself
    obtain ⟨w, d', hens⟩ := hroom.ensure hself rfl
    exact ⟨_, _, _, by simp only [Blocks.bmap, dif_pos hdir, hens]; rfl⟩
  · have hj : bn - NDIRECT < NINDIRECT := by
      simp only [MAXFILE] at hbn
      omega
    have hplace : place bn = .slot ⟨bn - NDIRECT, hj⟩ := by
      rw [place, dif_neg hdir, dif_pos hj]
    have hlast := hS (indirect_mem_places hdir)
    obtain ⟨iw, d1, hens⟩ := hroom.ensure hlast rfl
    obtain ⟨hgrow, hiw, -⟩ := ensure_addr hg h ht hens
    have hroom1 := hroom.grows h ht hgrow fun p hp =>
      ensure_addr_only hg h ht hens fun heq => hp (heq ▸ hlast)
    obtain ⟨w, d2, hens2⟩ := hroom1.ensure (hplace ▸ hS mem_places)
      (w := (d1 iw.toNat).word (4 * (bn - NDIRECT)))
      (by rw [blockOf, update_self, if_neg hiw])
    exact ⟨_, _, _, by simp only [Blocks.bmap, dif_neg hdir, if_pos hj, hens, hens2]; rfl⟩

theorem Room.writeLoop (hg : g.Ok) {n : ℕ} {src : List Byte} (h : Accounts g t d)
    (ht : t i = some a) (hfit : off + src.length ≤ MAXFILE * BSIZE)
    (hS : ∀ j, off ≤ j → j < off + src.length → places (j / BSIZE) ⊆ S)
    (hroom : Room g a d S) : ∃ a' d', writeLoop g n src off a d = .ok (a', d') ∧ Room g a' d' S := by
  induction n generalizing src off a d t with
  | zero => exact ⟨a, d, rfl, hroom⟩
  | succ n ih =>
    rw [Blocks.writeLoop]
    split_ifs with h0
    · exact ⟨a, d, rfl, hroom⟩
    · have hlen : 0 < src.length := List.length_pos_iff.mpr h0
      have hbn : off / BSIZE < MAXFILE := block_lt (by omega)
      have hplaces := hS off le_rfl (by omega)
      obtain ⟨b, a1, d1, hbm⟩ := hroom.bmap hg h ht hbn hplaces
      have hmap := bmap_ok hg h ht hbn hbm
      have ht1 : update t i (some a1) i = some a1 := update_self _ _ _
      have hself : refs (update t i (some a1)) d1 (i, place (off / BSIZE)) = b := by
        rw [refs_some ht1, hmap.self]
      have hroom1 := hroom.grows h ht hmap.grows fun p hp =>
        bmap_only hg h ht hbn hbm fun hin => hp (hplaces hin)
      have hm : 0 < min src.length (BSIZE - off % BSIZE) := by
        simp only [BSIZE]
        omega
      obtain ⟨hrefs, hown, -⟩ := write_data hg hmap.grows.own (place_isData (i := i) hbn)
        (by rw [hself]; exact hmap.ne)
        ((d1 b).blit (off % BSIZE) (min src.length (BSIZE - off % BSIZE)) fun k => src.getD k 0)
      rw [hself] at hrefs hown
      simp only [hbm]
      refine ih hown ht1 (by rw [List.length_drop]; omega) (fun j h1 h2 => ?_) ?_
      · rw [List.length_drop] at h2
        exact hS j (by omega) (by omega)
      · -- The bytes go into a block of the file, which is no place of another.
        refine hroom1.mono hmap.grows.own ht1 hown ht1 (fun o _ => congrFun hrefs o)
          (fun o _ => congrFun hrefs o) fun p _ => ?_
        rw [← refs_some ht1, ← refs_some ht1, hrefs]

theorem filled_of_place (hbn : bn < MAXFILE) (h : blockOf a d (place bn) ≠ 0) (hp : p ∈ places bn) :
    blockOf a d p ≠ 0 := by
  unfold places at hp
  split_ifs at hp with hdir
  · rw [Finset.mem_singleton.mp hp]
    exact h
  · rcases Finset.mem_insert.mp hp with rfl | hp
    · have hj : bn - NDIRECT < NINDIRECT := by
        simp only [MAXFILE] at hbn
        omega
      intro hz
      have h0 : a (Fin.last NDIRECT) = 0 := BitVec.eq_of_toNat_eq hz
      rw [place, dif_neg hdir, dif_pos hj, blockOf, if_pos h0] at h
      exact h rfl
    · rw [Finset.mem_singleton.mp hp]
      exact h

theorem Room.of_writeLoop (hg : g.Ok) {src : List Byte} (h : Accounts g t d) (ht : t i = some a)
    (hfit : off + src.length ≤ MAXFILE * BSIZE)
    (hok : Blocks.writeLoop g src.length src off a d = .ok (a', d')) :
    Room g a d (span off src.length) := by
  have hw := writeLoop_ok hg h ht le_rfl hfit hok
  have ht' : update t i (some a') i = some a' := update_self _ _ _
  have hfill : ∀ p ∈ span off src.length, refs (update t i (some a')) d' (i, p) ≠ 0 := by
    intro p hp
    obtain ⟨j, h1, h2, hp⟩ := mem_span.mp hp
    rw [refs_some ht']
    exact filled_of_place (block_lt (by omega)) (hw.mapped j h1 h2) hp
  have := h.room_of_filled hw.own hw.mono (Prod.mk_right_injective i) hfill
  simp only [refs_some ht] at this
  exact this

end Xv6.Fs.Blocks
