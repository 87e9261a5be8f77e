import Xv6.Lib.Monitor

/-!
# Sleep locks

`acquiresleep` and `releasesleep` are the critical sections of a monitor: the spin lock is
`lk->lk`, the shared state are `lk->locked` and `lk->pid`, and `lk` itself is the channel.
-/

namespace Xv6.SleepLocks

open Lib Lib.Monitor

structure SleepLock where
  locked : Bool
  pid : ℤ
  deriving DecidableEq, Repr

inductive Loc
  | free
  | held
  | test (again : Bool)
  | taken
  | clear
  | wake
  | leave
  deriving DecidableEq, Repr

def Loc.holds : Loc → Bool
  | .held | .taken | .clear | .test true => true
  | _ => false

variable {P : Type*} (pid : P → ℤ)

def sleepBody (p : P) (l : Loc) (lk : SleepLock) : Act Loc Unit SleepLock :=
  match l with
  | .test again => if lk.locked then .sleep () (.test again) else .goto .taken ⟨true, pid p⟩
  | .taken => .release .held lk
  | .clear => .goto .wake ⟨false, 0⟩
  | .wake => .wakeup () .leave
  | .leave => .release .free lk
  -- Nobody is inside at these two.
  | .free => .release .free lk
  | .held => .release .held lk

def sleepCode : Code P Loc Unit SleepLock where
  entry
    | .test _ | .clear => true
    | _ => false
  body p _ := sleepBody pid p

abbrev LockState (P : Type*) := State P Loc Unit SleepLock

def proper [DecidableEq P] (s : LockState P) : Event P Loc → Bool
  | .call p l => s.place p = .out .free && l = .test false ||
      s.place p = .out .held && (l = .test true || l = .clear)
  | _ => true

def lockStep [DecidableEq P] (s : LockState P) (e : Event P Loc) : Option (LockState P) :=
  if proper s e then step (sleepCode pid) s e else none

def unlocked : LockState P := initial .free ⟨false, 0⟩

def Holds (s : LockState P) (p : P) : Prop := (s.place p).loc.holds = true

structure Excludes (s : LockState P) : Prop where
  mutex : Mutex s
  unique : ∀ p q, Holds s p → Holds s q → p = q
  marked : ∀ p, Holds s p → s.shared = ⟨true, pid p⟩
  owned : s.shared.locked = true → ∃ p, Holds s p
  noLost : NoLost (fun _ _ lk => lk.locked = true) (fun l _ _ => l = .wake) s

variable {pid} {s t : LockState P} {e : Event P Loc}

theorem Excludes.unlocked : Excludes pid (unlocked : LockState P) where
  mutex := Mutex.initial _ _
  unique _ _ hp := nomatch (hp : Loc.free.holds = true)
  marked _ hp := nomatch (hp : Loc.free.holds = true)
  owned h := nomatch h
  noLost := NoLost.initial _ _

theorem holds_call [DecidableEq P] {p : P} {l₀ l : Loc} (hproper : proper s (.call p l) = true)
    (hp : s.place p = .out l₀) : l.holds = l₀.holds := by
  simp only [proper, hp, Bool.or_eq_true, Bool.and_eq_true, decide_eq_true_eq] at hproper
  rcases hproper with ⟨h, rfl⟩ | ⟨h, rfl | rfl⟩ <;> cases h <;> rfl

theorem sleepBody_discharges (p : P) (l : Loc) (lk : SleepLock) :
    Discharges (fun _ _ lk => lk.locked = true) (fun l _ _ => l = Loc.wake) l lk
      (sleepBody pid p l lk) := by
  cases l with
  | test again =>
    simp only [sleepBody]
    split_ifs with hlk
    · exact ⟨hlk, fun _ _ h => nomatch h⟩
    · exact fun _ _ _ => .inl rfl
  | clear => exact fun _ _ _ => .inr rfl
  | wake => exact fun c _ hc => absurd rfl hc
  | taken | leave | free | held =>
    rintro c - (hw | ho)
    · exact hw
    · cases ho

theorem sleepBody_cases (pid : P → ℤ) (p : P) (l : Loc) (lk : SleepLock) :
    (lk.locked = false ∧ (sleepBody pid p l lk).shared lk = ⟨true, pid p⟩ ∧
      (sleepBody pid p l lk).loc.holds = true) ∨
    (l.holds = true ∧ (sleepBody pid p l lk).shared lk = ⟨false, 0⟩ ∧
      (sleepBody pid p l lk).loc.holds = false) ∨
    ((sleepBody pid p l lk).shared lk = lk ∧ (sleepBody pid p l lk).loc.holds = l.holds) := by
  cases l with
  | test again =>
    cases hlk : lk.locked with
    | true =>
      refine .inr (.inr ?_)
      simp only [sleepBody, hlk, if_true]
      exact ⟨rfl, rfl⟩
    | false =>
      refine .inl ⟨rfl, ?_⟩
      simp only [sleepBody, hlk, Bool.false_eq_true, if_false]
      exact ⟨rfl, rfl⟩
  | clear => exact .inr (.inl ⟨rfl, rfl, rfl⟩)
  | taken | wake | leave | free | held => exact .inr (.inr ⟨rfl, rfl⟩)

section Steps

variable [DecidableEq P]

theorem lock_cases (hproper : proper s e = true) (hstep : Steps (sleepCode pid) s e t) :
    (t.shared = s.shared ∧ ∀ q, Holds t q ↔ Holds s q) ∨
    (∃ p, s.shared.locked = false ∧ t.shared = ⟨true, pid p⟩ ∧ Holds t p ∧
      ∀ q ≠ p, Holds t q ↔ Holds s q) ∨
    ∃ p, Holds s p ∧ t.shared = ⟨false, 0⟩ ∧ ¬Holds t p ∧ ∀ q ≠ p, Holds t q ↔ Holds s q := by
  cases hstep.moves with
  | silent hs hl =>
    refine .inl ⟨hs, fun q => ?_⟩
    rw [Holds, Holds, hl]
  | call p l₀ l he hp _ hs hself hother =>
    subst he
    refine .inl ⟨hs, fun q => ?_⟩
    by_cases hq : q = p
    · rw [hq, Holds, Holds, hself, hp, holds_call hproper hp]
      rfl
    · rw [Holds, Holds, hother q hq]
  | run p l he hp hs hself hother =>
    have hq : ∀ q ≠ p, Holds t q ↔ Holds s q := fun q hq => by rw [Holds, Holds, hother q hq]
    have hl : Holds s p ↔ l.holds = true := by rw [Holds, hp]; rfl
    have hl' : Holds t p ↔ (sleepBody pid p l s.shared).loc.holds = true := by rw [Holds, hself]; rfl
    rcases sleepBody_cases pid p l s.shared with ⟨hfree, htake, hh⟩ | ⟨hheld, hgive, hh⟩ |
      ⟨hsame, hh⟩
    · exact .inr (.inl ⟨p, hfree, hs.trans htake, hl'.mpr hh, hq⟩)
    · exact .inr (.inr ⟨p, hl.mpr hheld, hs.trans hgive, by rw [hl', hh]; nofun, hq⟩)
    · refine .inl ⟨hs.trans hsame, fun q => ?_⟩
      by_cases hqp : q = p
      · rw [hqp, hl, hl', hh]
      · exact hq q hqp

theorem Excludes.step (h : Excludes pid s) (hstep : lockStep pid s e = some t) : Excludes pid t := by
  simp only [lockStep] at hstep
  split_ifs at hstep with hproper
  have hs := step_cases hstep
  have hmutex := h.mutex.step hs
  have hlost := h.noLost.step h.mutex (fun p l _ _ => sleepBody_discharges p l s.shared) hs
  rcases lock_cases hproper hs with ⟨hsame, hiff⟩ | ⟨p, hfree, htake, hp, hother⟩ |
    ⟨p, hp, hgive, hgone, hother⟩
  · constructor
    case mutex => exact hmutex
    case unique => exact fun q r hq hr => h.unique q r ((hiff q).mp hq) ((hiff r).mp hr)
    case marked => exact fun q hq => hsame.trans (h.marked q ((hiff q).mp hq))
    case owned =>
      rw [hsame]
      exact fun hl => (h.owned hl).imp fun q hq => (hiff q).mpr hq
    case noLost => exact hlost
  · -- The lock was free, so nobody held it.
    have honly : ∀ q, Holds t q → q = p := by
      intro q hq
      by_contra hqp
      rw [h.marked q ((hother q hqp).mp hq)] at hfree
      cases hfree
    constructor
    case mutex => exact hmutex
    case unique => exact fun q r hq hr => (honly q hq).trans (honly r hr).symm
    case marked =>
      intro q hq
      rw [honly q hq]
      exact htake
    case owned => exact fun _ => ⟨p, hp⟩
    case noLost => exact hlost
  · -- The only holder gives the lock up.
    have hnone : ∀ q, ¬Holds t q := by
      intro q hq
      by_cases hqp : q = p
      · exact hgone (hqp ▸ hq)
      · exact hqp (h.unique q p ((hother q hqp).mp hq) hp)
    constructor
    case mutex => exact hmutex
    case unique => exact fun q _ hq => absurd hq (hnone q)
    case marked => exact fun q hq => absurd hq (hnone q)
    case owned =>
      rw [hgive]
      nofun
    case noLost => exact hlost

theorem run_excludes {es : List (Event P Loc)}
    (hrun : Runs.exec (lockStep pid) SleepLocks.unlocked es = some s) : Excludes pid s :=
  Runs.exec_invariant (lockStep pid) (fun _ _ _ => Excludes.step) Excludes.unlocked hrun

theorem sleep_lock_excludes {es : List (Event P Loc)}
    (hrun : Runs.exec (lockStep pid) SleepLocks.unlocked es = some s) :
    (∀ p q, Holds s p → Holds s q → p = q) ∧
    (∀ p, Holds s p → s.shared.locked = true ∧ s.shared.pid = pid p) ∧
    (s.ptable = none → s.lock = none → s.shared.locked = false →
      ∀ p l, s.place p ≠ .asleep () l) := by
  have h := run_excludes hrun
  refine ⟨h.unique, fun p hp => ?_, fun _ hfree hunlocked p l hp => ?_⟩
  · rw [h.marked p hp]
    exact ⟨rfl, rfl⟩
  · have hlocked := h.noLost.free h.mutex hfree (.inl hp)
    rw [hunlocked] at hlocked
    cases hlocked

def contendedRun : List (Event (Fin 2) Loc) :=
  [.call 0 (.test false), .acquire 0, .run 0, .run 0, .call 1 (.test false), .acquire 1, .run 1,
    .fall 1]

theorem sleep_lock_excludes_contendedRun : ∃ s : LockState (Fin 2),
    Runs.exec (lockStep fun p => p.val + 7) SleepLocks.unlocked contendedRun = some s ∧
      s.place 1 = .asleep () (.test false) ∧ Holds s 0 ∧ s.shared.pid = 7 := by
  obtain ⟨s, hs, h⟩ :
      ∃ s ∈ Runs.exec (lockStep fun p : Fin 2 => p.val + 7) SleepLocks.unlocked contendedRun,
        s.place 0 = .out .held ∧ s.place 1 = .asleep () (.test false) := by decide +kernel
  have hholds : Holds s 0 := by
    rw [Holds, h.1]
    rfl
  exact ⟨s, hs, h.2, hholds, ((sleep_lock_excludes hs).2.1 0 hholds).2⟩

end Steps

end Xv6.SleepLocks
