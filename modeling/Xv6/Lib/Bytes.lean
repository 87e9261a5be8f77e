import Mathlib.Data.BitVec
import Mathlib.Tactic

/-!
# Fixed-length byte buffers with little-endian words

A buffer of `n` bytes is read and written through struct overlays: a 32-bit word or a 16-bit
half-word at a byte offset.
-/

namespace Xv6.Lib

abbrev Byte := BitVec 8

abbrev Bytes (n : ℕ) := Fin n → Byte

namespace Bytes

variable {n : ℕ}

def zero (n : ℕ) : Bytes n := fun _ => 0

def get (b : Bytes n) (i : ℕ) : Byte := if h : i < n then b ⟨i, h⟩ else 0

def set (b : Bytes n) (i : ℕ) (v : Byte) : Bytes n := fun j => if j.val = i then v else b j

/-- `memmove(b + off, src, len)` with the source given as a function of its index. -/
def blit (b : Bytes n) (off len : ℕ) (src : ℕ → Byte) : Bytes n :=
  fun j => if off ≤ j.val ∧ j.val < off + len then src (j.val - off) else b j

def word (b : Bytes n) (off : ℕ) : BitVec 32 :=
  b.get (off + 3) ++ b.get (off + 2) ++ b.get (off + 1) ++ b.get off

def setWord (b : Bytes n) (off : ℕ) (w : BitVec 32) : Bytes n :=
  b.blit off 4 fun i => w.extractLsb' (8 * i) 8

def half (b : Bytes n) (off : ℕ) : BitVec 16 := b.get (off + 1) ++ b.get off

def setHalf (b : Bytes n) (off : ℕ) (w : BitVec 16) : Bytes n :=
  b.blit off 2 fun i => w.extractLsb' (8 * i) 8

@[simp] theorem get_zero (i : ℕ) : (zero n).get i = 0 := by
  simp [get, zero]

theorem get_set (b : Bytes n) (i k : ℕ) (v : Byte) (hi : i < n) :
    (b.set i v).get k = if k = i then v else b.get k := by
  by_cases hk : k < n
  · simp [get, set, hk]
  · have hne : k ≠ i := by omega
    simp [get, hk, hne]

theorem get_blit (b : Bytes n) (off len k : ℕ) (src : ℕ → Byte) (hfit : off + len ≤ n) :
    (b.blit off len src).get k = if off ≤ k ∧ k < off + len then src (k - off) else b.get k := by
  by_cases hk : k < n
  · simp [get, blit, hk]
  · have hout : ¬ (off ≤ k ∧ k < off + len) := by omega
    simp [get, hk, hout]

variable {off len k : ℕ}

theorem get_blit_of_mem (b : Bytes n) (src : ℕ → Byte) (hfit : off + len ≤ n)
    (hk : k < len) : (b.blit off len src).get (off + k) = src k := by
  rw [get_blit b off len _ src hfit, if_pos (by omega), Nat.add_sub_cancel_left]

theorem get_blit_of_disjoint (b : Bytes n) (src : ℕ → Byte)
    (hk : k < off ∨ off + len ≤ k) : (b.blit off len src).get k = b.get k := by
  by_cases h : k < n
  · have hout : ¬ (off ≤ k ∧ k < off + len) := by omega
    simp [get, blit, h, hout]
  · simp [get, h]

private theorem append_extract32 (w : BitVec 32) :
    w.extractLsb' 24 8 ++ w.extractLsb' 16 8 ++ w.extractLsb' 8 8 ++ w.extractLsb' 0 8 = w := by
  ext i hi
  simp only [BitVec.getElem_append, BitVec.getElem_extractLsb']
  split_ifs <;> simp <;> grind

private theorem append_extract16 (w : BitVec 16) :
    w.extractLsb' 8 8 ++ w.extractLsb' 0 8 = w := by
  ext i hi
  simp only [BitVec.getElem_append, BitVec.getElem_extractLsb']
  split_ifs <;> simp <;> grind

theorem word_setWord (b : Bytes n) {off : ℕ} (w : BitVec 32) (hfit : off + 4 ≤ n) :
    (b.setWord off w).word off = w := by
  have hget : ∀ k < 4, (b.setWord off w).get (off + k) = w.extractLsb' (8 * k) 8 :=
    fun k hk => get_blit_of_mem b _ hfit hk
  have h0 := hget 0 (by omega)
  rw [Nat.add_zero] at h0
  rw [word, hget 3 (by omega), hget 2 (by omega), hget 1 (by omega), h0]
  exact append_extract32 w

theorem word_congr {a b : Bytes n} {off : ℕ} (h : ∀ k < 4, a.get (off + k) = b.get (off + k)) :
    a.word off = b.word off := by
  have h0 := h 0 (by omega)
  rw [Nat.add_zero] at h0
  rw [word, word, h 3 (by omega), h 2 (by omega), h 1 (by omega), h0]

theorem word_blit_of_disjoint (b : Bytes n) (src : ℕ → Byte)
    (hk : k + 4 ≤ off ∨ off + len ≤ k) : (b.blit off len src).word k = b.word k := by
  apply word_congr
  intro j hj
  exact get_blit_of_disjoint b src (by omega)

theorem word_setWord_of_disjoint (b : Bytes n) {off k : ℕ} (w : BitVec 32)
    (hk : k + 4 ≤ off ∨ off + 4 ≤ k) : (b.setWord off w).word k = b.word k :=
  word_blit_of_disjoint b _ hk

theorem half_setHalf (b : Bytes n) {off : ℕ} (w : BitVec 16) (hfit : off + 2 ≤ n) :
    (b.setHalf off w).half off = w := by
  have hget : ∀ k < 2, (b.setHalf off w).get (off + k) = w.extractLsb' (8 * k) 8 :=
    fun k hk => get_blit_of_mem b _ hfit hk
  have h0 := hget 0 (by omega)
  rw [Nat.add_zero] at h0
  rw [half, hget 1 (by omega), h0]
  exact append_extract16 w

theorem half_congr {a b : Bytes n} {off : ℕ} (h : ∀ k < 2, a.get (off + k) = b.get (off + k)) :
    a.half off = b.half off := by
  have h0 := h 0 (by omega)
  rw [Nat.add_zero] at h0
  rw [half, half, h 1 (by omega), h0]

theorem half_blit_of_disjoint (b : Bytes n) (src : ℕ → Byte)
    (hk : k + 2 ≤ off ∨ off + len ≤ k) : (b.blit off len src).half k = b.half k := by
  apply half_congr
  intro j hj
  exact get_blit_of_disjoint b src (by omega)

theorem half_setHalf_of_disjoint (b : Bytes n) {off k : ℕ} (w : BitVec 16)
    (hk : k + 2 ≤ off ∨ off + 2 ≤ k) : (b.setHalf off w).half k = b.half k :=
  half_blit_of_disjoint b _ hk

theorem half_setWord_of_disjoint (b : Bytes n) {off k : ℕ} (w : BitVec 32)
    (hk : k + 2 ≤ off ∨ off + 4 ≤ k) : (b.setWord off w).half k = b.half k :=
  half_blit_of_disjoint b _ hk

theorem word_setHalf_of_disjoint (b : Bytes n) {off k : ℕ} (w : BitVec 16)
    (hk : k + 4 ≤ off ∨ off + 2 ≤ k) : (b.setHalf off w).word k = b.word k :=
  word_blit_of_disjoint b _ hk

theorem word_blit_of_mem (b : Bytes n) {off len j : ℕ} {src : ℕ → Byte} {w : BitVec 32}
    (hfit : off + len ≤ n) (hj : 4 * j + 4 ≤ len)
    (hsrc : ∀ k < 4, src (4 * j + k) = w.extractLsb' (8 * k) 8) :
    (b.blit off len src).word (off + 4 * j) = w := by
  have hget : ∀ k < 4, (b.blit off len src).get (off + 4 * j + k) = w.extractLsb' (8 * k) 8 := by
    intro k hk
    rw [Nat.add_assoc, get_blit_of_mem b src hfit (by omega), hsrc k hk]
  have h0 := hget 0 (by omega)
  rw [Nat.add_zero] at h0
  rw [word, hget 3 (by omega), hget 2 (by omega), hget 1 (by omega), h0]
  exact append_extract32 w

@[simp] theorem word_zero (off : ℕ) : (zero n).word off = 0 := by
  simp [word]

@[simp] theorem half_zero (off : ℕ) : (zero n).half off = 0 := by
  simp [half]

end Bytes
end Xv6.Lib
