import Mathlib.Tactic

/-!
# A free list and the roles of what is not free

Every managed unit has exactly one role, and the free list has each unit with the role `free` once.
Taking a unit off the list gives it a role, giving it back takes the role away.
-/

namespace Xv6.Lib

open Function (update_self update_of_ne update_idem update)

structure Ledger {U R : Type*} (free : R) (managed : U → Prop) (list : List U)
    (role : U → Option R) : Prop where
  nodup : list.Nodup
  mem_iff : ∀ u, u ∈ list ↔ role u = some free
  managed_iff : ∀ u, managed u ↔ role u ≠ none

namespace Ledger

variable {U R : Type*} {free r r' : R} {managed : U → Prop} {l : List U} {role : U → Option R} {u : U}

theorem managed_of_role (h : Ledger free managed l role) (hu : role u = some r) : managed u :=
  (h.managed_iff u).mpr (by rw [hu]; exact Option.some_ne_none r)

variable [DecidableEq U]

theorem managed_update (h : Ledger free managed l role) (hu : role u = some r) (x : U) :
    managed x ↔ update role u (some r') x ≠ none := by
  rw [h.managed_iff x]
  by_cases hx : x = u
  · subst hx
    simp only [update_self, hu, ne_eq, reduceCtorEq, not_false_eq_true]
  · rw [update_of_ne hx]

theorem assign (h : Ledger free managed l role) (hu : role u = some r) (hr : r ≠ free)
    (hr' : r' ≠ free) : Ledger free managed l (update role u (some r')) := by
  refine ⟨h.nodup, fun x => ?_, h.managed_update hu⟩
  · rw [h.mem_iff x]
    by_cases hx : x = u
    · subst hx
      simp only [update_self, hu, Option.some.injEq, hr, hr']
    · rw [update_of_ne hx]

theorem take (h : Ledger free managed (u :: l) role) (hr : r ≠ free) :
    Ledger free managed l (update role u (some r)) := by
  have hu : role u = some free := (h.mem_iff u).mp List.mem_cons_self
  have hnot := (List.nodup_cons.mp h.nodup).1
  refine ⟨(List.nodup_cons.mp h.nodup).2, fun x => ?_, h.managed_update hu⟩
  · by_cases hx : x = u
    · subst hx
      simp only [update_self, Option.some.injEq, hr, iff_false]
      exact hnot
    · rw [update_of_ne hx, ← h.mem_iff x, List.mem_cons]
      simp only [hx, false_or]

theorem give (h : Ledger free managed l role) (hu : role u = some r) (hr : r ≠ free) :
    Ledger free managed (u :: l) (update role u (some free)) := by
  have hnot : u ∉ l := fun hmem => hr (Option.some.inj (hu.symm.trans ((h.mem_iff u).mp hmem)))
  refine ⟨List.nodup_cons.mpr ⟨hnot, h.nodup⟩, fun x => ?_, h.managed_update hu⟩
  · by_cases hx : x = u
    · subst hx
      simp only [update_self, List.mem_cons_self]
    · rw [update_of_ne hx, ← h.mem_iff x, List.mem_cons]
      simp only [hx, false_or]

end Ledger

def Shows {U R P : Type*} (role : U → Option R) (of : P → R) (view : P → Option U) : Prop :=
  ∀ p u, role u = some (of p) ↔ view p = some u

namespace Shows

variable {U R P : Type*} [DecidableEq U] [DecidableEq P] {role role' : U → Option R} {of : P → R}
  {view : P → Option U} {u : U} {p : P} {r : R}

omit [DecidableEq U] [DecidableEq P] in
theorem congr (h : Shows role of view) (hrole : ∀ u p, role' u = some (of p) ↔ role u = some (of p)) :
    Shows role' of view := fun p u => (hrole u p).trans (h p u)

section

variable (h : Shows role of view) (hof : Function.Injective of)
include h hof

theorem put (hp : view p = none) (hu : ∀ q, role u ≠ some (of q)) :
    Shows (update role u (some (of p))) of (update view p (some u)) := by
  intro q x
  by_cases hx : x = u
  · subst hx
    rw [update_self, Option.some.injEq, hof.eq_iff]
    by_cases hq : q = p
    · simp only [hq, update_self]
    · rw [update_of_ne hq, ← h q x]
      exact ⟨fun heq => absurd heq.symm hq, fun hrole => absurd hrole (hu q)⟩
  · rw [update_of_ne hx, h q x]
    by_cases hq : q = p
    · rw [hq, hp, update_self, Option.some.injEq]
      exact ⟨(nomatch ·), fun heq => absurd heq.symm hx⟩
    · rw [update_of_ne hq]

theorem leave (hp : view p = some u) (hr : ∀ q, r ≠ of q) :
    Shows (update role u (some r)) of (update view p none) := by
  intro q x
  by_cases hx : x = u
  · subst hx
    rw [update_self, Option.some.injEq]
    refine ⟨fun heq => absurd heq (hr q), fun hq => ?_⟩
    by_cases hqp : q = p
    · rw [hqp, update_self] at hq
      cases hq
    · rw [update_of_ne hqp, ← h q x, (h p x).mpr hp, Option.some.injEq] at hq
      exact absurd (hof hq).symm hqp
  · rw [update_of_ne hx, h q x]
    by_cases hq : q = p
    · rw [hq, hp, update_self, Option.some.injEq]
      exact ⟨fun heq => absurd heq.symm hx, (nomatch ·)⟩
    · rw [update_of_ne hq]

theorem move {q : P} (hq : view q = some u) (hp : view p = none) (hr : ∀ p, r ≠ of p) :
    Shows (update role u (some (of p))) of (update (update view q none) p (some u)) := by
  have hpq : p ≠ q := by
    rintro rfl
    rw [hq] at hp
    cases hp
  have hput := (h.leave hof hq hr).put (p := p) (u := u) hof
    (by rw [update_of_ne hpq, hp])
    (fun p' => by rw [update_self]; exact fun heq => hr p' (Option.some.inj heq))
  rwa [update_idem] at hput

end

end Shows
end Xv6.Lib
