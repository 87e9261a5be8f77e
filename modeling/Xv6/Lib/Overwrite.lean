import Mathlib.Tactic

/-!
# Overwriting part of a list

`overwrite c off src` is `c` with `src` from position `off` on; the list grows when `src`
ends past it. Two overwrites next to each other are one.
-/

namespace Xv6.Lib

variable {α : Type*} {c src : List α} {off : ℕ}

def overwrite (c : List α) (off : ℕ) (src : List α) : List α :=
  c.take off ++ src ++ c.drop (off + src.length)

@[simp] theorem overwrite_nil (c : List α) (off : ℕ) : overwrite c off [] = c := by
  simp [overwrite]

theorem overwrite_length (c src : List α) : overwrite c c.length src = c ++ src := by
  simp [overwrite]

theorem length_overwrite (h : off ≤ c.length) :
    (overwrite c off src).length = max c.length (off + src.length) := by
  simp only [overwrite, List.length_append, List.length_take, List.length_drop]
  omega

theorem le_of_le_length_overwrite (h : off + src.length ≤ (overwrite c off src).length) :
    off ≤ c.length := by
  simp only [overwrite, List.length_append, List.length_take, List.length_drop] at h
  omega

theorem overwrite_append (h : off ≤ c.length) (src' : List α) :
    overwrite (overwrite c off src) (off + src.length) src' = overwrite c off (src ++ src') := by
  have hpre : (c.take off ++ src).length = off + src.length := by
    rw [List.length_append, List.length_take, min_eq_left h]
  have htake : (overwrite c off src).take (off + src.length) = c.take off ++ src := by
    rw [overwrite, List.take_left' hpre]
  have hdrop : (overwrite c off src).drop (off + src.length + src'.length) =
      c.drop (off + src.length + src'.length) := by
    rw [overwrite, ← List.drop_drop, List.drop_left' hpre, List.drop_drop]
  simp only [overwrite] at htake hdrop ⊢
  rw [htake, hdrop, List.length_append, ← Nat.add_assoc, List.append_assoc (c.take off)]

end Xv6.Lib
