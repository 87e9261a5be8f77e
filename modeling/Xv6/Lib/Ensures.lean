import Mathlib.Tactic

/-!
# Results of computations that may fail

`Ensures E Q x` says what `x` gives: a value with `Q`, or a failure with `E`.
-/

namespace Xv6.Lib

variable {ε α β : Type} {E E' : ε → Prop} {P Q : α → Prop} {R : β → Prop}

structure Ensures (E : ε → Prop) (Q : α → Prop) (x : Except ε α) : Prop where
  ok : ∀ {a}, x = .ok a → Q a
  error : ∀ {e}, x = .error e → E e

namespace Ensures

theorem of_ok {a : α} (h : Q a) : Ensures E Q (.ok a) :=
  ⟨fun hx => Except.ok.inj hx ▸ h, fun hx => nomatch hx⟩

theorem of_error {e : ε} (h : E e) : Ensures E Q (.error e) :=
  ⟨fun hx => (nomatch hx), fun hx => Except.error.inj hx ▸ h⟩

variable {x : Except ε α}

theorem exists_ok (h : Ensures E Q x) (hx : ∀ e, E e → x ≠ .error e) : ∃ a, x = .ok a ∧ Q a := by
  cases x with
  | ok a => exact ⟨a, rfl, h.ok rfl⟩
  | error e => exact absurd rfl (hx e (h.error rfl))

theorem mono (h : Ensures E P x) (hE : ∀ e, E e → E' e) (hQ : ∀ a, P a → Q a) : Ensures E' Q x :=
  ⟨fun hx => hQ _ (h.ok hx), fun hx => hE _ (h.error hx)⟩

theorem bind {f : α → Except ε β} (hx : Ensures E P x)
    (hf : ∀ a, P a → Ensures E R (f a)) : Ensures E R (x >>= f) := by
  cases x with
  | ok a => exact hf a (hx.ok rfl)
  | error e => exact of_error (hx.error rfl)

theorem step {f : α → Except ε β} {a : α} (hx : x = .ok a)
    (h : Ensures E R (f a)) : Ensures E R (x >>= f) := by
  rw [hx]
  exact h

theorem foldlM {f : α → β → Except ε α} {I : List β → α → Prop} {l : List β} {a : α} (h0 : I [] a)
    (hstep : ∀ done b rest a, l = done ++ b :: rest → I done a → Ensures E (I (done ++ [b])) (f a b)) :
    Ensures E (I l) (l.foldlM f a) := by
  -- The part that is done moves from the list that is left to the one that was there.
  have hloop : ∀ rest done a, l = done ++ rest → I done a → Ensures E (I l) (rest.foldlM f a) := by
    intro rest
    induction rest with
    | nil =>
      intro done a hl hI
      rw [List.append_nil] at hl
      exact of_ok (hl ▸ hI)
    | cons b rest ih =>
      intro done a hl hI
      rw [List.foldlM_cons]
      refine (hstep done b rest a hl hI).bind fun a' hI' => ?_
      exact ih (done ++ [b]) a' (by rw [hl, List.append_assoc]; rfl) hI'
  exact hloop l [] a rfl h0

end Ensures
end Xv6.Lib
