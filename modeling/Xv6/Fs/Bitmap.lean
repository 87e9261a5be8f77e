import Xv6.Fs.Blocks

/-!
# The free bitmap

`inUse` reads the bit of a block through the bitmap block, byte and bit indices of `BBLOCK`, `bi/8`
and `bi%8`.
-/

namespace Xv6.Fs.Blocks

open Lib Function

variable {g : Geometry} {d d' : Disk} {b x : ℕ}

def bit (bp : Block) (bi : ℕ) : Bool := (bp.get (bi / 8)).getLsbD (bi % 8)

def inUse (g : Geometry) (d : Disk) (b : ℕ) : Bool := bit (d (g.bblock b)) (b % BPB)

theorem bitMask_eq (bi : ℕ) : bitMask bi = BitVec.twoPow 8 (bi % 8) := (BitVec.twoPow_eq 8 _).symm

theorem and_bitMask (bp : Block) (bi : ℕ) :
    bp.get (bi / 8) &&& bitMask bi = 0 ↔ bit bp bi = false := by
  have hk : bi % 8 < 8 := Nat.mod_lt _ (by norm_num)
  rw [bitMask_eq, BitVec.and_twoPow, bit]
  split_ifs with h
  · simp only [h, Bool.true_eq_false, iff_false]
    intro h0
    have hbit := congrArg (fun y : Byte => y.getLsbD (bi % 8)) h0
    simp [hk] at hbit
  · simp [h]

variable {bp : Block}

theorem bit_set {bi : ℕ} {v : Byte} (hbi : bi < BPB) :
    bit (bp.set (bi / 8) v) x = if x / 8 = bi / 8 then v.getLsbD (x % 8) else bit bp x := by
  simp only [BPB, BSIZE] at hbi
  rw [bit, Bytes.get_set _ _ _ _ (by simp only [BSIZE]; omega)]
  split_ifs <;> rfl

theorem eq_of_div_mod_eight {a c : ℕ} (h : a / 8 = c / 8) : a % 8 = c % 8 ↔ a = c := by
  omega

theorem bit_mark {bi : ℕ} (hbi : bi < BPB) :
    bit (bp.set (bi / 8) (bp.get (bi / 8) ||| bitMask bi)) x = (bit bp x || decide (x = bi)) := by
  rw [bit_set hbi]
  split_ifs with h
  · rw [BitVec.getLsbD_or, bitMask_eq, BitVec.getLsbD_twoPow, bit, h]
    have hiff := eq_of_div_mod_eight h
    simp only [← hiff, eq_comm (a := bi % 8)]
    simp [Nat.mod_lt bi]
  · have hne : x ≠ bi := fun heq => h (heq ▸ rfl)
    simp [hne]

theorem bit_clear {bi : ℕ} (hbi : bi < BPB) :
    bit (bp.set (bi / 8) (bp.get (bi / 8) &&& ~~~ bitMask bi)) x = (bit bp x && !decide (x = bi)) := by
  rw [bit_set hbi]
  split_ifs with h
  · rw [BitVec.getLsbD_and, BitVec.getLsbD_not, bitMask_eq, BitVec.getLsbD_twoPow, bit, h]
    have hiff := eq_of_div_mod_eight h
    have hk : x % 8 < 8 := Nat.mod_lt _ (by norm_num)
    simp only [← hiff, eq_comm (a := bi % 8)]
    simp [Nat.mod_lt bi, hk]
  · have hne : x ≠ bi := fun heq => h (heq ▸ rfl)
    simp [hne]

theorem bblock_mod_inj (h : g.bblock x = g.bblock b) : x % BPB = b % BPB ↔ x = b := by
  simp only [Geometry.bblock, BPB, BSIZE] at h ⊢
  omega

theorem inUse_update {c : Bool → Bool → Bool}
    (hbp : ∀ y, bit bp y = c (bit (d (g.bblock b)) y) (decide (y = b % BPB)))
    (hc : ∀ u, c u false = u) :
    inUse g (update d (g.bblock b) bp) x = c (inUse g d x) (decide (x = b)) := by
  by_cases h : g.bblock x = g.bblock b
  · rw [inUse, h, update_self, hbp, inUse, h]
    simp only [bblock_mod_inj h]
  · have hne : x ≠ b := fun heq => h (heq ▸ rfl)
    rw [inUse, update_of_ne h, decide_eq_false hne, hc]
    rfl

def mark (g : Geometry) (b : ℕ) (d : Disk) : Disk := markBit g b (b % BPB) d

theorem inUse_mark : inUse g (mark g b d) x = (inUse g d x || decide (x = b)) :=
  inUse_update (c := fun u v => u || v) (fun _ => bit_mark (Nat.mod_lt _ (by norm_num)))
    fun u => Bool.or_false u

theorem inUse_congr (h : d' (g.bblock b) = d (g.bblock b)) : inUse g d' b = inUse g d b := by
  rw [inUse, inUse, h]

theorem freeBit_some {size n bi r : ℕ} (h : freeBit bp b size n bi = some r) :
    bi ≤ r ∧ r < bi + n ∧ b + r < size ∧ bit bp r = false ∧
      ∀ y, bi ≤ y → y < r → bit bp y = true := by
  induction n generalizing bi with
  | zero => cases h
  | succ n ih =>
    rw [freeBit] at h
    split_ifs at h with hsize hfree
    · cases h
      exact ⟨le_rfl, by omega, hsize, (and_bitMask bp _).mp hfree, by intro y h1 h2; omega⟩
    · obtain ⟨h1, h2, h3, h4, h5⟩ := ih h
      refine ⟨by omega, by omega, h3, h4, fun y hy hlt => ?_⟩
      rcases Nat.eq_or_lt_of_le hy with rfl | hy
      · rw [and_bitMask, Bool.not_eq_false] at hfree
        exact hfree
      · exact h5 y hy hlt

theorem freeBit_none {size n bi : ℕ} (h : freeBit bp b size n bi = none) :
    ∀ y, bi ≤ y → y < bi + n → b + y < size → bit bp y = true := by
  induction n generalizing bi with
  | zero => intro y h1 h2; omega
  | succ n ih =>
    intro y hy hlt hsize
    rw [freeBit] at h
    split_ifs at h with hin hfree
    · rcases Nat.eq_or_lt_of_le hy with rfl | hy
      · rw [and_bitMask, Bool.not_eq_false] at hfree
        exact hfree
      · exact ih h y hy (by omega) hsize
    · omega

theorem inUse_group (hb : b % BPB = 0) (hx : x < BPB) :
    inUse g d (b + x) = bit (d (g.bblock b)) x := by
  simp only [BPB, BSIZE] at hb hx
  have h1 : g.bblock (b + x) = g.bblock b := by
    simp only [Geometry.bblock, BPB, BSIZE]
    omega
  have h2 : (b + x) % BPB = x := by
    simp only [BPB, BSIZE]
    omega
  rw [inUse, h1, h2]

theorem ballocLoop_some {n r : ℕ} (hb : b % BPB = 0) (h : ballocLoop g d n b = some (r, d')) :
    b ≤ r ∧ r < g.size ∧ inUse g d r = false ∧ (∀ y, b ≤ y → y < r → inUse g d y = true) ∧
      d' = bzero r (mark g r d) := by
  induction n generalizing b with
  | zero => cases h
  | succ n ih =>
    rw [ballocLoop] at h
    split_ifs at h with hin
    split at h
    · next bi hbi =>
      cases h
      obtain ⟨-, hlt, hsize, hfree, hall⟩ := freeBit_some hbi
      rw [Nat.zero_add] at hlt
      refine ⟨Nat.le_add_right _ _, hsize, ?_, fun y hy hyr => ?_, ?_⟩
      · rw [inUse_group hb hlt]
        exact hfree
      · obtain ⟨k, rfl⟩ := Nat.exists_eq_add_of_le hy
        rw [inUse_group hb (by omega)]
        exact hall k (Nat.zero_le _) (by omega)
      · have h1 : g.bblock (b + bi) = g.bblock b := by
          simp only [Geometry.bblock, BPB, BSIZE] at hb hlt ⊢
          omega
        have h2 : (b + bi) % BPB = bi := by
          simp only [BPB, BSIZE] at hb hlt ⊢
          omega
        rw [mark, h2, markBit, markBit, h1]
    · next hnone =>
      obtain ⟨h1, h2, h3, h4, h5⟩ := ih (by rw [Nat.add_mod_right]; exact hb) h
      refine ⟨by omega, h2, h3, fun y hy hyr => ?_, h5⟩
      by_cases hgroup : y < b + BPB
      · obtain ⟨k, rfl⟩ := Nat.exists_eq_add_of_le hy
        rw [inUse_group hb (by omega)]
        exact freeBit_none hnone k (Nat.zero_le _) (by omega) (by omega)
      · exact h4 y (by omega) hyr

theorem ballocLoop_none {n : ℕ} (hb : b % BPB = 0) (h : ballocLoop g d n b = none) :
    ∀ y, b ≤ y → y < b + n * BPB → y < g.size → inUse g d y = true := by
  induction n generalizing b with
  | zero => intro y h1 h2; omega
  | succ n ih =>
    intro y hy hlt hsize
    rw [ballocLoop, if_pos (by omega)] at h
    split at h
    · cases h
    · next hnone =>
      by_cases hgroup : y < b + BPB
      · obtain ⟨k, rfl⟩ := Nat.exists_eq_add_of_le hy
        rw [inUse_group hb (by omega)]
        exact freeBit_none hnone k (Nat.zero_le _) (by omega) (by omega)
      · exact ih (by rw [Nat.add_mod_right]; exact hb) h y (by omega) (by rw [Nat.succ_mul] at hlt; omega)
          hsize

theorem balloc_ok {r : ℕ} (h : balloc g d = .ok (r, d')) :
    r < g.size ∧ inUse g d r = false ∧ (∀ y < r, inUse g d y = true) ∧
      d' = bzero r (mark g r d) := by
  unfold balloc at h
  split at h
  · next res hloop =>
    cases h
    obtain ⟨-, h2, h3, h4, h5⟩ := ballocLoop_some (Nat.zero_mod _) hloop
    exact ⟨h2, h3, fun y hy => h4 y (Nat.zero_le _) hy, h5⟩
  · cases h

theorem balloc_of_free (hb : b < g.size) (hfree : inUse g d b = false) :
    ∃ r d', balloc g d = .ok (r, d') := by
  unfold balloc
  cases hloop : ballocLoop g d (g.size / BPB + 1) 0 with
  | some r => exact ⟨r.1, r.2, rfl⟩
  | none =>
    have hused := ballocLoop_none (Nat.zero_mod _) hloop b (Nat.zero_le _)
      (by simp only [BPB, BSIZE]; omega) hb
    rw [hfree] at hused
    cases hused

theorem balloc_error {f : Fault} (h : balloc g d = .error f) : f = .panic .outOfBlocks := by
  unfold balloc at h
  split at h
  · cases h
  · cases h
    rfl

def unmark (g : Geometry) (b : ℕ) (d : Disk) : Disk :=
  update d (g.bblock b) ((d (g.bblock b)).set (b % BPB / 8)
    ((d (g.bblock b)).get (b % BPB / 8) &&& ~~~ bitMask (b % BPB)))

theorem inUse_unmark : inUse g (unmark g b d) x = (inUse g d x && !decide (x = b)) :=
  inUse_update (c := fun u v => u && !v) (fun _ => bit_clear (Nat.mod_lt _ (by norm_num)))
    fun u => Bool.and_true u

theorem bfree_of_inUse (h : inUse g d b = true) : bfree g b d = .ok (unmark g b d) := by
  have hbit : ¬ ((d (g.bblock b)).get (b % BPB / 8) &&& bitMask (b % BPB) = 0) := by
    rw [and_bitMask]
    intro h0
    rw [inUse, h0] at h
    cases h
  rw [bfree]
  simp only [if_neg hbit]
  rfl

end Xv6.Fs.Blocks
