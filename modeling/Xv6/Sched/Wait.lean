import Xv6.Sched.Control

/-!
# `wait` and `waitx`

A call scans the table, and when it neither finds a ZOMBIE child nor gives up, it sleeps and scans
again.
-/

namespace Xv6.Sched
open Lib ProcState
open Function (update)

abbrev Table := Slot → Proc

inductive Round
  | found (s : Slot)
  | giveUp
  | sleep
  deriving DecidableEq, Repr

def round (t : Table) (cur : Slot) : Round :=
  match scanChildren t cur slots false with
  | (some s, _) => .found s
  | (none, havekids) => if !havekids || (t cur).killed then .giveUp else .sleep

def sleepOnSelf (cur : Slot) (env : Table → Table) (t : Table) : Table :=
  let t := env (update t cur { t cur with chan := some (.proc cur), state := SLEEPING })
  update t cur { t cur with chan := none }

def wait (junk : ℤ) (cur : Slot) (envs : List (Table → Table)) (t : Table) :
    Option (ℤ × Table) :=
  match round t cur with
  | .found s => some (junk, update t s (t s).reaped)
  | .giveUp => some (-1, t)
  | .sleep => match envs with
    | [] => none
    | env :: envs => wait junk cur envs (sleepOnSelf cur env t)

structure WaitxResult where
  ret : ℤ
  table : Table
  times : Option (ℤ × ℤ)

def Proc.wtime (x : Proc) : ℤ := int32 (x.etime - x.ctime - x.rtime - x.iotime)

def waitx (cur : Slot) (envs : List (Table → Table)) (t : Table) : Option WaitxResult :=
  match round t cur with
  | .found s =>
    some ⟨(t s).pid, update t s (t s).reaped, some ((t s).wtime, (t s).rtime)⟩
  | .giveUp => some ⟨-1, t, none⟩
  | .sleep => match envs with
    | [] => none
    | env :: envs => waitx cur envs (sleepOnSelf cur env t)

def zombieChild (t : Table) (cur s : Slot) : Bool :=
  (t s).parent == some cur && (t s).state == ZOMBIE

def hasChild (t : Table) (cur : Slot) : Bool := slots.any fun s => (t s).parent == some cur

def waitSpec (cur : Slot) (envs : List (Table → Table)) (t : Table) : Option (ℤ × Table) :=
  match slots.find? (zombieChild t cur) with
  | some s => some ((t s).pid, update t s (t s).reaped)
  | none =>
    if hasChild t cur = false ∨ (t cur).killed = true then some (-1, t)
    else match envs with
      | [] => none
      | env :: envs => waitSpec cur envs (sleepOnSelf cur env t)

def WaitsAgree (junk : ℤ) (cur : Slot) (envs : List (Table → Table)) (t : Table) : Prop :=
  wait junk cur envs t = waitSpec cur envs t ∧
    (waitx cur envs t).map (fun r => (r.ret, r.table)) = waitSpec cur envs t

def NeverReaps (cur : Slot) (envs : List (Table → Table)) (t : Table) : Prop :=
  match round t cur with
  | .found _ => False
  | .giveUp => True
  | .sleep => match envs with
    | [] => True
    | env :: envs => NeverReaps cur envs (sleepOnSelf cur env t)

theorem scanChildren_eq (t : Table) (cur : Slot) (ss : List Slot) (havekids : Bool) :
    scanChildren t cur ss havekids =
      (ss.find? (zombieChild t cur), havekids || ss.any fun s => (t s).parent == some cur) := by
  induction ss generalizing havekids with
  | nil => simp [scanChildren]
  | cons s ss ih =>
    simp only [scanChildren, List.find?_cons, List.any_cons, zombieChild, ih]
    cases hp : (t s).parent == some cur with
    | false => simp [beq_eq_false_iff_ne.mp hp]
    | true => cases hz : (t s).state == ZOMBIE <;> simp_all

theorem round_eq (t : Table) (cur : Slot) : round t cur =
    match slots.find? (zombieChild t cur) with
    | some s => .found s
    | none => if hasChild t cur = false ∨ (t cur).killed = true then .giveUp else .sleep := by
  simp only [round, scanChildren_eq, Bool.false_or]
  cases slots.find? (zombieChild t cur) with
  | some s => rfl
  | none => simp [hasChild]

theorem waitSpec_eq (cur : Slot) (envs : List (Table → Table)) (t : Table) :
    waitSpec cur envs t = match round t cur with
      | .found s => some ((t s).pid, update t s (t s).reaped)
      | .giveUp => some (-1, t)
      | .sleep => match envs with
        | [] => none
        | env :: envs => waitSpec cur envs (sleepOnSelf cur env t) := by
  rw [round_eq, waitSpec.eq_def]
  cases slots.find? (zombieChild t cur) with
  | some s => rfl
  | none =>
    by_cases h : hasChild t cur = false ∨ (t cur).killed = true
    · simp only [h, if_true]
    · simp only [h, if_false]

theorem waitx_eq_spec (cur : Slot) (envs : List (Table → Table)) (t : Table) :
    (waitx cur envs t).map (fun r => (r.ret, r.table)) = waitSpec cur envs t := by
  fun_induction waitx cur envs t with
  | case1 envs t s h | case2 envs t h | case3 t h => rw [waitSpec_eq, h]; rfl
  | case4 t h env envs ih => rw [ih, waitSpec_eq cur (env :: envs) t, h]

theorem wait_eq_spec {cur : Slot} {envs : List (Table → Table)} {t : Table} (junk : ℤ)
    (hn : NeverReaps cur envs t) : wait junk cur envs t = waitSpec cur envs t := by
  fun_induction wait junk cur envs t with
  | case1 envs t s h => rw [NeverReaps.eq_def, h] at hn; exact hn.elim
  | case2 envs t h => rw [waitSpec_eq, h]
  | case3 t h => rw [waitSpec_eq, h]
  | case4 t h env envs ih =>
    rw [NeverReaps.eq_def, h] at hn
    rw [ih hn, waitSpec_eq cur (env :: envs), h]

theorem neverReaps_of_eq_spec {cur : Slot} {envs : List (Table → Table)} {t : Table}
    (h : ∀ junk, wait junk cur envs t = waitSpec cur envs t) : NeverReaps cur envs t := by
  fun_induction NeverReaps cur envs t with
  | case1 envs t s hr =>
    have h1 := h ((t s).pid + 1)
    rw [wait.eq_def, waitSpec_eq, hr] at h1
    simp at h1
  | case2 => trivial
  | case3 => trivial
  | case4 t hr env envs ih =>
    refine ih fun junk => ?_
    have h1 := h junk
    rwa [wait.eq_def, waitSpec_eq, hr] at h1

/-- `junk` is the unassigned variable that `wait` returns after reaping a child. -/
theorem wait_agrees_iff (cur : Slot) (envs : List (Table → Table)) (t : Table) :
    (∀ junk, WaitsAgree junk cur envs t) ↔ NeverReaps cur envs t := by
  constructor
  · intro h
    exact neverReaps_of_eq_spec fun junk => (h junk).1
  · intro h junk
    exact ⟨wait_eq_spec junk h, waitx_eq_spec cur envs t⟩

/-- Slot 1 is a ZOMBIE child, with pid 2, of the process in slot 0. -/
def oneZombie : Table := fun s =>
  if s = 1 then { unusedProc with state := ZOMBIE, pid := 2, parent := some 0 }
  else unusedProc

theorem wait_disagrees : ¬WaitsAgree 0 0 [] oneZombie := by
  intro ⟨h, _⟩
  have hret := congrArg (Option.map Prod.fst) h
  have hwait : (wait 0 0 [] oneZombie).map Prod.fst = some 0 := by decide +kernel
  have hspec : (waitSpec 0 [] oneZombie).map Prod.fst = some 2 := by decide +kernel
  rw [hwait, hspec] at hret
  exact absurd hret (by decide)

end Xv6.Sched
