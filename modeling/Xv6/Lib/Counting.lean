import Mathlib.Tactic

/-!
# Sums and counts that change at one or two points

`Counts` is for a type that need not be finite, of which finitely many elements have the
property at any time.
-/

namespace Xv6.Lib

open Function (update update_self update_of_ne)

variable {ι : Type*} [DecidableEq ι] {S : Finset ι} {f g : ι → ℕ} {a b : ι}

theorem sum_change (ha : a ∈ S) (h : ∀ x ∈ S, x ≠ a → g x = f x) :
    ∑ x ∈ S, g x + f a = ∑ x ∈ S, f x + g a := by
  rw [← Finset.add_sum_erase S g ha, ← Finset.add_sum_erase S f ha]
  have : ∑ x ∈ S.erase a, g x = ∑ x ∈ S.erase a, f x := by
    apply Finset.sum_congr rfl
    intro x hx
    exact h x (Finset.mem_of_mem_erase hx) (Finset.ne_of_mem_erase hx)
  omega

theorem sum_change_two (ha : a ∈ S) (hb : b ∈ S) (hab : a ≠ b)
    (h : ∀ x ∈ S, x ≠ a → x ≠ b → g x = f x) :
    ∑ x ∈ S, g x + f a + f b = ∑ x ∈ S, f x + g a + g b := by
  have h1 : ∑ x ∈ S, update f a (g a) x + f a =
      ∑ x ∈ S, f x + update f a (g a) a :=
    sum_change ha fun x _ hx => update_of_ne hx _ _
  have h2 : ∑ x ∈ S, g x + update f a (g a) b =
      ∑ x ∈ S, update f a (g a) x + g b := by
    apply sum_change hb
    intro x hx hxb
    by_cases hxa : x = a
    · rw [hxa, update_self]
    · rw [update_of_ne hxa]
      exact h x hx hxa hxb
  rw [update_self] at h1
  rw [update_of_ne hab.symm] at h2
  omega

theorem card_filter_change (P Q : ι → Prop) [DecidablePred P] [DecidablePred Q] (ha : a ∈ S)
    (h : ∀ x ∈ S, x ≠ a → (Q x ↔ P x)) :
    (S.filter Q).card + (if P a then 1 else 0) = (S.filter P).card + (if Q a then 1 else 0) := by
  simp only [Finset.card_filter]
  apply sum_change ha
  intro x hx hne
  simp only [h x hx hne]

def Counts (p : ι → Prop) (n : ℕ) : Prop := ∃ S : Finset ι, (∀ x, x ∈ S ↔ p x) ∧ n = S.card

section Counts

variable {p q : ι → Prop} {n : ℕ}

omit [DecidableEq ι] in
theorem Counts.none (h : ∀ x, ¬ p x) : Counts p 0 :=
  ⟨∅, fun x => by simp [h x], rfl⟩

omit [DecidableEq ι] in
theorem Counts.congr (h : Counts p n) (hpq : ∀ x, q x ↔ p x) : Counts q n := by
  obtain ⟨S, hS, hn⟩ := h
  exact ⟨S, fun x => (hS x).trans (hpq x).symm, hn⟩

theorem Counts.add (h : Counts p n) (ha : ¬ p a) (hq : ∀ x, q x ↔ x = a ∨ p x) :
    Counts q (n + 1) := by
  obtain ⟨S, hS, hn⟩ := h
  have hnot : a ∉ S := fun hmem => ha ((hS a).mp hmem)
  refine ⟨insert a S, fun x => ?_, by rw [Finset.card_insert_of_notMem hnot, hn]⟩
  rw [Finset.mem_insert, hS, hq]

theorem Counts.remove (h : Counts p n) (ha : p a) (hq : ∀ x, q x ↔ x ≠ a ∧ p x) :
    Counts q (n - 1) := by
  obtain ⟨S, hS, hn⟩ := h
  refine ⟨S.erase a, fun x => ?_, by rw [Finset.card_erase_of_mem ((hS a).mpr ha), hn]⟩
  rw [Finset.mem_erase, hS, hq]

omit [DecidableEq ι] in
theorem Counts.pos (h : Counts p n) (ha : p a) : 0 < n := by
  obtain ⟨S, hS, hn⟩ := h
  rw [hn]
  exact Finset.card_pos.mpr ⟨a, (hS a).mpr ha⟩

omit [DecidableEq ι] in
theorem Counts.not_of_zero (h : Counts p 0) (x : ι) : ¬ p x := fun hx => (h.pos hx).ne rfl

end Counts
end Xv6.Lib
