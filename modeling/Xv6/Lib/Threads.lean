import Xv6.Lib.Prog
import Xv6.Lib.Runs

/-!
# Interleaved programs

Threads run programs over a shared state, one operation at a time and in any order. A thread is
given a call, whose program it then runs.
-/

namespace Xv6.Lib.Threads

variable {P κ : Type} {Op : Type → Type} {F σ α : Type}

structure Thread (κ : Type) (Op : Type → Type) (F α : Type) where
  call : κ
  rest : Prog Op F α

def Thread.result (th : Thread κ Op F α) : Option α :=
  match th.rest with
  | .pure a => some a
  | _ => none

structure State (P κ : Type) (Op : Type → Type) (F σ α : Type) where
  shared : σ
  thread : P → Option (Thread κ Op F α)

inductive Event (P κ : Type)
  | call (p : P) (k : κ)
  | run (p : P)

variable [DecidableEq P]

def State.set (s : State P κ Op F σ α) (t : σ) (p : P) (th : Option (Thread κ Op F α)) :
    State P κ Op F σ α :=
  ⟨t, Function.update s.thread p th⟩

def step (h : Prog.Handler Op F σ) (prog : κ → Prog Op F α) (s : State P κ Op F σ α) :
    Event P κ → Option (State P κ Op F σ α)
  | .call p k =>
    match s.thread p with
    | none => some (s.set s.shared p (some ⟨k, prog k⟩))
    | some _ => none
  | .run p =>
    match s.thread p with
    | none => none
    | some ⟨_, .pure _⟩ => some (s.set s.shared p none)
    | some ⟨_, .fault _⟩ => none
    | some ⟨k, .op o j⟩ =>
      match h _ o s.shared with
      | .ok (b, t) => some (s.set t p (some ⟨k, j b⟩))
      | .error _ => none

inductive Steps (h : Prog.Handler Op F σ) (prog : κ → Prog Op F α) (s : State P κ Op F σ α) :
    Event P κ → State P κ Op F σ α → Prop
  | call {p : P} {k : κ} (hp : s.thread p = none) :
      Steps h prog s (.call p k) (s.set s.shared p (some ⟨k, prog k⟩))
  | done {p : P} {k : κ} {a : α} (hp : s.thread p = some ⟨k, .pure a⟩) :
      Steps h prog s (.run p) (s.set s.shared p none)
  | op {p : P} {k : κ} {β : Type} {o : Op β} {j : β → Prog Op F α} {b : β} {t : σ}
      (hp : s.thread p = some ⟨k, .op o j⟩) (ho : h β o s.shared = .ok (b, t)) :
      Steps h prog s (.run p) (s.set t p (some ⟨k, j b⟩))

theorem steps_of_step {h : Prog.Handler Op F σ} {prog : κ → Prog Op F α} {s t : State P κ Op F σ α}
    {e : Event P κ} (hstep : step h prog s e = some t) : Steps h prog s e t := by
  cases e with
  | call p k =>
    simp only [step] at hstep
    split at hstep
    · next hp =>
      cases hstep
      exact .call hp
    · cases hstep
  | run p =>
    simp only [step] at hstep
    split at hstep
    · cases hstep
    · next hp =>
      cases hstep
      exact .done hp
    · cases hstep
    · next hp =>
      split at hstep
      · next ho =>
        cases hstep
        exact .op hp ho
      · cases hstep

theorem set_self (s : State P κ Op F σ α) (t : σ) (p : P) (th : Option (Thread κ Op F α)) :
    (s.set t p th).thread p = th := Function.update_self _ _ _

theorem set_of_ne (s : State P κ Op F σ α) (t : σ) {p q : P} (th : Option (Thread κ Op F α))
    (h : q ≠ p) : (s.set t p th).thread q = s.thread q := Function.update_of_ne h _ _

end Xv6.Lib.Threads
