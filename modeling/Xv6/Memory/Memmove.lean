import Xv6.Lib.Bytes

/-!
# `memmove` of the kernel and of the user library

Memory is a function on addresses. The kernel tests with a 32-bit sum whether the destination
starts inside the source, and then copies from the end.
-/

namespace Xv6.Memory
open Lib Function

abbrev Mem := ℕ → Byte

/-- `while(n-- > 0) *d++ = *s++;` -/
def copyUp (m : Mem) (d s : ℕ) : ℕ → Mem
  | 0 => m
  | n + 1 => copyUp (update m d (m s)) (d + 1) (s + 1) n

/-- `while(n-- > 0) *--d = *--s;` -/
def copyDown (m : Mem) (d s : ℕ) : ℕ → Mem
  | 0 => m
  | n + 1 => copyDown (update m (d - 1) (m (s - 1))) (d - 1) (s - 1) n

def kernelMemmove (m : Mem) (dst src n : ℕ) : Mem :=
  if src < dst ∧ dst < (src + n) % 2 ^ 32 then copyDown m (dst + n) (src + n) n
  else copyUp m dst src n

def userMemmove (m : Mem) (vdst vsrc : ℕ) (n : ℤ) : Mem := copyUp m vdst vsrc n.toNat

structure Moved (m m' : Mem) (dst src n : ℕ) : Prop where
  copied : ∀ i < n, m' (dst + i) = m (src + i)
  frame : ∀ a, a < dst ∨ dst + n ≤ a → m' a = m a

theorem Moved.up {m m' : Mem} {d s n : ℕ} (h : Moved (update m d (m s)) m' (d + 1) (s + 1) n)
    (hout : ¬(s < d ∧ d < s + (n + 1))) : Moved m m' d s (n + 1) := by
  refine ⟨fun i hi => ?_, fun a ha => ?_⟩
  · cases i with
    | zero =>
      rw [Nat.add_zero, h.frame d (by omega), update_self, Nat.add_zero]
    | succ i =>
      have hcopied := h.copied i (by omega)
      rw [update_of_ne (by omega)] at hcopied
      rwa [Nat.add_right_comm, Nat.add_right_comm s] at hcopied
  · rw [h.frame a (by omega), update_of_ne (by omega)]

theorem copyUp_moved {d s n : ℕ} (hout : ¬(s < d ∧ d < s + n)) (m : Mem) :
    Moved m (copyUp m d s n) d s n := by
  induction n generalizing m d s with
  | zero => exact ⟨fun i hi => absurd hi (Nat.not_lt_zero i), fun _ _ => rfl⟩
  | succ n ih => exact (ih (by omega) _).up hout

theorem Moved.down {m m' : Mem} {d s n : ℕ} (h : Moved (update m (d + n) (m (s + n))) m' d s n)
    (hle : s ≤ d) : Moved m m' d s (n + 1) := by
  refine ⟨fun i hi => ?_, fun a ha => ?_⟩
  · by_cases hin : i = n
    · rw [hin, h.frame (d + n) (by omega), update_self]
    · rw [h.copied i (by omega), update_of_ne (by omega)]
  · rw [h.frame a (by omega), update_of_ne (by omega)]

theorem copyDown_moved {d s : ℕ} (hle : s ≤ d) (n : ℕ) (m : Mem) :
    Moved m (copyDown m (d + n) (s + n) n) d s n := by
  induction n generalizing m with
  | zero => exact ⟨fun i hi => absurd hi (Nat.not_lt_zero i), fun _ _ => rfl⟩
  | succ n ih => exact (ih _).down hle

theorem copyUp_frame {d n a : ℕ} (m : Mem) (s : ℕ) (ha : a < d) : copyUp m d s n a = m a := by
  induction n generalizing m d s with
  | zero => rfl
  | succ n ih => rw [copyUp, ih _ _ (by omega), update_of_ne ha.ne]

theorem copyUp_self (m : Mem) (d n : ℕ) : copyUp m d d n = m := by
  induction n generalizing d with
  | zero => rfl
  | succ n ih => rw [copyUp, update_eq_self, ih]

theorem copyUp_add (m : Mem) (d s k l : ℕ) :
    copyUp m d s (k + l) = copyUp (copyUp m d s k) (d + k) (s + k) l := by
  induction k generalizing m d s with
  | zero => rw [Nat.zero_add, copyUp, Nat.add_zero, Nat.add_zero]
  | succ k ih =>
    rw [Nat.add_right_comm, copyUp, copyUp, ih, Nat.add_right_comm d, Nat.add_right_comm s]
    rfl

/-- Where the destination meets itself, the first byte of the source appears again. -/
theorem copyUp_smears {d s n : ℕ} (hs : s < d) (hd : d < s + n) (m : Mem) :
    copyUp m d s n (d + (d - s)) = m s := by
  obtain ⟨l, rfl⟩ : ∃ l, n = (d - s) + (l + 1) := ⟨n - (d - s) - 1, by omega⟩
  have hfirst := (copyUp_moved (d := d) (s := s) (n := d - s) (by omega) m).copied 0 (by omega)
  rw [copyUp_add, copyUp, copyUp_frame _ _ (by omega), update_self, Nat.add_sub_of_le hs.le]
  exact hfirst

theorem memmove_overlap (dst src n : ℕ) (hdst : dst + n ≤ 2 ^ 32) (hsrc : src + n ≤ 2 ^ 32) :
    (∀ m, Moved m (kernelMemmove m dst src n) dst src n) ∧
      ((∀ m, Moved m (userMemmove m dst src (Int.bmod n (2 ^ 32))) dst src n) ↔
        dst = src ∨ n < 2 ^ 31 ∧ ¬(src < dst ∧ dst < src + n)) := by
  refine ⟨fun m => ?_, fun h => ?_, fun h m => ?_⟩
  · rw [kernelMemmove]
    split_ifs with hin
    · exact copyDown_moved hin.1.le n m
    · -- a source that ends at the top of memory has no destination above it
      exact copyUp_moved (by omega) m
  · by_contra hne
    push Not at hne
    -- a memory in which one byte of the source is marked
    have hmoved := h fun a => if a = src then 1 else 0
    by_cases hn : n < 2 ^ 31
    · obtain ⟨hlt, hin⟩ := hne.2 hn
      have hint : Int.bmod n (2 ^ 32) = n := Int.bmod_eq_of_le (by omega) (by omega)
      have hbad := hmoved.copied (dst - src) (by omega)
      rw [userMemmove, hint, Int.toNat_natCast, copyUp_smears hlt hin, if_pos rfl,
        Nat.add_sub_of_le hlt.le, if_neg hne.1] at hbad
      cases hbad
    · have hint : (Int.bmod n (2 ^ 32)).toNat = 0 := by
        rw [Int.bmod_def]
        omega
      have hbad := hmoved.copied 0 (by omega)
      rw [userMemmove, hint, copyUp, Nat.add_zero, Nat.add_zero, if_pos rfl, if_neg hne.1] at hbad
      cases hbad
  · rcases h with rfl | ⟨hn, hout⟩
    · rw [userMemmove, copyUp_self]
      exact ⟨fun _ _ => rfl, fun _ _ => rfl⟩
    · have hint : Int.bmod n (2 ^ 32) = n := Int.bmod_eq_of_le (by omega) (by omega)
      rw [userMemmove, hint, Int.toNat_natCast]
      exact copyUp_moved hout m

theorem memmove_overlap_down : Moved (fun a => BitVec.ofNat 8 a)
    (userMemmove (fun a => BitVec.ofNat 8 a) 0 1 (Int.bmod 2 (2 ^ 32))) 0 1 2 :=
  (memmove_overlap 0 1 2 (by decide) (by decide)).2.mpr (.inr (by decide)) _

/-- Bytes 0 and 1 moved up by one: the user library writes byte 0 twice. -/
theorem userMemmove_smears :
    kernelMemmove (fun a => BitVec.ofNat 8 a) 1 0 2 2 = 1 ∧
      userMemmove (fun a => BitVec.ofNat 8 a) 1 0 2 2 = 0 := by
  decide

end Xv6.Memory
