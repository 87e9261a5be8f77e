import Mathlib.Tactic

/-!
# Stores written cell by cell, and crashes between two writes

A program that writes to stable storage is seen as the list of the writes it issues. A crash keeps
a prefix of that list.
-/

namespace Xv6.Lib.CrashStore

variable {κ β : Type*} [DecidableEq κ]

def applyWrites (d : κ → β) (ws : List (κ × β)) : κ → β :=
  ws.foldl (fun d w => Function.update d w.1 w.2) d

@[simp] theorem applyWrites_nil (d : κ → β) : applyWrites d [] = d := rfl

@[simp] theorem applyWrites_cons (d : κ → β) (w : κ × β) (ws : List (κ × β)) :
    applyWrites d (w :: ws) = applyWrites (Function.update d w.1 w.2) ws := rfl

@[simp] theorem applyWrites_append (d : κ → β) (ws vs : List (κ × β)) :
    applyWrites d (ws ++ vs) = applyWrites (applyWrites d ws) vs :=
  List.foldl_append

theorem applyWrites_of_notMem {d : κ → β} {ws : List (κ × β)} {a : κ}
    (h : a ∉ ws.map Prod.fst) : applyWrites d ws a = d a := by
  induction ws generalizing d with
  | nil => rfl
  | cons w ws ih =>
    rw [List.map_cons, List.mem_cons, not_or] at h
    rw [applyWrites_cons, ih h.2, Function.update_of_ne h.1]

theorem applyWrites_of_mem {d : κ → β} {new : κ → β} {as : List κ} {a : κ} (h : a ∈ as) :
    applyWrites d (as.map fun x => (x, new x)) a = new a := by
  induction as generalizing d with
  | nil => cases h
  | cons x as ih =>
    rw [List.map_cons, applyWrites_cons]
    by_cases ha : a ∈ as
    · exact ih ha
    · have hx : a = x := by simpa [ha] using h
      subst hx
      rw [applyWrites_of_notMem (by simpa using ha), Function.update_self]

def crashedRuns (recover : (κ → β) → List (κ × β)) : List ℕ → (κ → β) → κ → β
  | [], d => d
  | k :: ks, d => crashedRuns recover ks (applyWrites d ((recover d).take k))

theorem crashedRuns_preserves {recover : (κ → β) → List (κ × β)} {I : (κ → β) → Prop}
    (hrec : ∀ d, I d → ∀ k, I (applyWrites d ((recover d).take k)))
    (ks : List ℕ) {d : κ → β} (hd : I d) : I (crashedRuns recover ks d) := by
  induction ks generalizing d with
  | nil => exact hd
  | cons k ks ih => exact ih (hrec d hd k)

end Xv6.Lib.CrashStore
