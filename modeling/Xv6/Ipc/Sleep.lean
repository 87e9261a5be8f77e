import Xv6.Lib.Monitor
import Mathlib.Data.BitVec

/-!
# `sys_sleep`

`sys_sleep` and the timer interrupt as code under `tickslock`, by any number of processes; the
interrupts are calls of `tick`.
-/

namespace Xv6.Ticks

open Lib Lib.Monitor

structure Clock where
  ticks : BitVec 32
  total : ℕ

inductive Loc
  | ret (r : ℤ)
  | sysSleep (n : BitVec 32)
  | loop (n ticks0 : BitVec 32) (since : ℕ)
  | tick
  | tickWake
  | tickRet
  deriving DecidableEq

def body (killed : Bool) : Loc → Clock → Act Loc Unit Clock
  | .ret r, x => .release (.ret r) x
  | .sysSleep n, x => .goto (.loop n x.ticks x.total) x
  | .loop n ticks0 since, x =>
    if x.ticks - ticks0 < n then
      if killed then .release (.ret (-1)) x else .sleep () (.loop n ticks0 since)
    else .release (.ret 0) x
  | .tick, x => .goto .tickWake ⟨x.ticks + 1, x.total + 1⟩
  | .tickWake, _ => .wakeup () .tickRet
  | .tickRet, x => .release (.ret 0) x

def entry : Loc → Bool
  | .sysSleep _ | .tick => true
  | _ => false

variable {P : Type*} [DecidableEq P]

def code : Code P Loc Unit Clock := ⟨entry, fun _ => body⟩

abbrev State (P : Type*) := Monitor.State P Loc Unit Clock

def start (v : BitVec 32) : State P := Monitor.initial (.ret 0) ⟨v, 0⟩

def Timely (s : State P) : Event P Loc → Prop
  | .call _ (.sysSleep n) => 0 ≤ n.toInt
  | .run p =>
    match s.place p with
    | .inside (.loop _ _ since) => s.shared.total - since < 2 ^ 32
    | _ => True
  | _ => True

instance (s : State P) (e : Event P Loc) : Decidable (Timely s e) := by
  unfold Timely
  split
  · infer_instance
  · split <;> infer_instance
  · infer_instance

def Loc.Clocked (v : BitVec 32) (x : Clock) : Loc → Prop
  | .sysSleep n => 0 ≤ n.toInt
  | .loop n ticks0 since =>
    0 ≤ n.toInt ∧ ticks0 = v + BitVec.ofNat 32 since ∧ since ≤ x.total
  | _ => True

structure Clocked (v : BitVec 32) (place : Place Loc Unit) (x : Clock) : Prop where
  ticks : x.ticks = v + BitVec.ofNat 32 x.total
  loc : place.loc.Clocked v x

/-- The reason for sleeping; a timer interrupt past `ticks++` owes a wakeup. -/
def Wait (_ : Unit) (l : Loc) (x : Clock) : Prop :=
  match l with
  | .loop n _ since => x.total - since < n.toNat
  | _ => False

abbrev Owes (l : Loc) (_ : Clock) (_ : Unit) : Prop := l = .tickWake

variable {v n ticks0 : BitVec 32} {x : Clock} {since : ℕ}

theorem Clocked.test {place : Place Loc Unit} (h : Clocked v place x)
    (hloc : place.loc = .loop n ticks0 since) (hlt : x.total - since < 2 ^ 32) :
    x.ticks - ticks0 < n ↔ x.total - since < n.toNat := by
  have hl := h.loc
  rw [hloc] at hl
  obtain ⟨-, rfl, hle⟩ := hl
  have hdiff : x.ticks - (v + BitVec.ofNat 32 since) = BitVec.ofNat 32 (x.total - since) := by
    have hsum : BitVec.ofNat 32 x.total = BitVec.ofNat 32 since + BitVec.ofNat 32 (x.total - since) := by
      rw [← BitVec.ofNat_add, Nat.add_sub_cancel' hle]
    rw [h.ticks, hsum]
    ring
  rw [hdiff, BitVec.lt_def, BitVec.toNat_ofNat, Nat.mod_eq_of_lt hlt]

theorem Clocked.body {l : Loc} (h : Clocked v (.inside l) x) (killed : Bool) :
    Clocked v (body killed l x).place ((body killed l x).shared x) := by
  cases l with
  | sysSleep n => exact ⟨h.ticks, h.loc, h.ticks, le_rfl⟩
  | loop n ticks0 since =>
    simp only [Ticks.body]
    split_ifs
    · exact ⟨h.ticks, trivial⟩
    · exact ⟨h.ticks, h.loc⟩
    · exact ⟨h.ticks, trivial⟩
  | tick =>
    refine ⟨?_, trivial⟩
    change x.ticks + 1 = v + BitVec.ofNat 32 (x.total + 1)
    rw [h.ticks, BitVec.ofNat_add, BitVec.add_assoc]
    rfl
  | ret _ | tickWake | tickRet => exact ⟨h.ticks, trivial⟩

theorem Clocked.other {place : Place Loc Unit} {l : Loc} (h : Clocked v place x) (killed : Bool) :
    Clocked v place ((Ticks.body killed l x).shared x) := by
  cases l with
  | loop n ticks0 since =>
    simp only [Ticks.body]
    split_ifs <;> exact h
  | tick =>
    have htick : Clocked v (.inside .tick) x := ⟨h.ticks, trivial⟩
    refine ⟨(htick.body killed).ticks, ?_⟩
    have hloc := h.loc
    cases hl : place.loc with
    | loop n ticks0 since =>
      rw [hl] at hloc
      exact ⟨hloc.1, hloc.2.1, Nat.le_succ_of_le hloc.2.2⟩
    | sysSleep n => rwa [hl] at hloc
    | ret _ | tick | tickWake | tickRet => trivial
  | ret _ | sysSleep _ | tickWake | tickRet => exact h

structure Sound (v : BitVec 32) (s : State P) : Prop where
  mutex : Mutex s
  clocked : ∀ p, Clocked v (s.place p) s.shared
  noLost : NoLost Wait Owes s

theorem Sound.step {s t : State P} {e : Event P Loc} (h : Sound v s) (he : Timely s e)
    (hstep : Monitor.step code s e = some t) : Sound v t := by
  have hs := step_cases hstep
  refine ⟨h.mutex.step hs, fun p => ?_, h.noLost.step h.mutex (fun p l hrun hp => ?_) hs⟩
  · have hp := h.clocked p
    refine place_step hp h.mutex (fun _ l hcall _ hl => ⟨hp.ticks, ?_⟩)
      (fun l _ hl _ => ⟨hp.ticks, ?_⟩) (fun l hl => (hl ▸ hp).body _) (fun c l hl => ⟨hp.ticks, ?_⟩)
      (fun c l hl => ⟨hp.ticks, ?_⟩) (fun q l _ _ => hp.other _) hs
    · cases l with
      | sysSleep n =>
        rw [hcall] at he
        exact he
      | tick => trivial
      | ret _ | loop _ _ _ | tickWake | tickRet => cases hl
    · exact (hl ▸ hp).loc
    · exact (hl ▸ hp).loc
    · exact (hl ▸ hp).loc
  · simp only [code]
    cases l with
    | loop n ticks0 since =>
      simp only [hrun, Timely, hp] at he
      have htest := (hp ▸ h.clocked p).test rfl he
      simp only [Ticks.body]
      split_ifs with hlt
      · rintro c m (hw | ho)
        · exact hw
        · cases ho
      · exact ⟨htest.mp hlt, fun _ _ ho => nomatch ho⟩
      · rintro c m (hw | ho)
        · exact hw
        · cases ho
    | tick => exact fun _ _ _ => .inr rfl
    | tickWake => exact fun c _ hc => absurd rfl hc
    | ret _ | tickRet =>
      rintro c m (hw | ho)
      · exact hw
      · cases ho
    | sysSleep n =>
      rintro c m (hw | ho)
      · exact .inl hw
      · cases ho

theorem sleep_lasts {es : List (Event P Loc)} {s : State P} {p : P}
    (htime : Runs.Meets (Monitor.step code) Timely (start v) es)
    (hrun : Runs.exec (Monitor.step code) (start v) es = some s) :
    (s.place p = .inside (.loop n ticks0 since) → Timely s (.run p) →
      (max n.toInt 0 ≤ ((s.shared.total - since : ℕ) : ℤ) →
        ∃ t, Monitor.step code s (.run p) = some t ∧ t.place p = .out (.ret 0)) ∧
      (((s.shared.total - since : ℕ) : ℤ) < max n.toInt 0 →
        ∀ t, Monitor.step code s (.run p) = some t → t.place p ≠ .out (.ret 0))) ∧
    (s.place p = .inside (.sysSleep n) → n.toInt ≤ 0 →
      ∃ t, Runs.exec (Monitor.step code) s [.run p, .run p] = some t ∧ t.place p = .out (.ret 0)) ∧
    (s.lock = none → s.place p = .asleep () (.loop n ticks0 since) →
      ((s.shared.total - since : ℕ) : ℤ) < max n.toInt 0) := by
  have hstart : Sound v (start v : State P) :=
    ⟨Mutex.initial _ _, fun _ => ⟨(add_zero v).symm, trivial⟩, NoLost.initial _ _⟩
  have hs : Sound v s := Runs.exec_preserves (Monitor.step code)
    (fun _ _ _ h he hst => Sound.step h he hst) hstart htime hrun
  have hmax : 0 ≤ n.toInt → max n.toInt 0 = n.toNat := by
    intro hn
    rw [max_eq_left hn, BitVec.toInt_eq_toNat_of_msb (BitVec.msb_eq_toInt ▸ by simpa using hn)]
  refine ⟨fun hp htimely => ?_, fun hp hn => ?_, fun hfree hp => ?_⟩
  · have hc := hp ▸ hs.clocked p
    simp only [Timely, hp] at htimely
    have htest := hc.test rfl htimely
    rw [hmax hc.loc.1, Nat.cast_le, Nat.cast_lt]
    refine ⟨fun hle => ?_, fun hlt t ht => ?_⟩
    · refine ⟨{ s.set p (.out (.ret 0)) with lock := none }, ?_, Function.update_self _ _ _⟩
      simp only [Monitor.step, hp, code, body, if_neg (fun h => absurd (htest.mp h) (by omega)), act]
      rfl
    · simp only [Monitor.step, hp, code, body, if_pos (htest.mpr hlt)] at ht
      split_ifs at ht
      · cases ht
        simp [State.set]
      · simp only [act] at ht
        split_ifs at ht
        cases ht
        simp [State.set]
  · have hc := hp ▸ hs.clocked p
    have hzero : n = 0 := BitVec.eq_of_toInt_eq (by
      have : 0 ≤ n.toInt := hc.loc
      simp
      omega)
    subst hzero
    refine ⟨{ s.set p (.out (.ret 0)) with lock := none }, ?_, Function.update_self _ _ _⟩
    simp [Runs.exec, Monitor.step, hp, code, body, act, State.set]
  · have hw := hs.noLost.free hs.mutex hfree (.inl hp)
    rw [hmax (hp ▸ hs.clocked p).loc.1]
    exact Nat.cast_lt.mpr hw

def oneTick : List (Event Bool Loc) :=
  [.call false (.sysSleep 1), .acquire false, .run false, .run false, .fall false, .call true .tick,
    .acquire true, .run true, .run true, .run true, .acquire false]

theorem sleep_lasts_oneTick :
    ∃ s t : State Bool, Runs.exec (Monitor.step code) (start 0xffffffff) oneTick = some s ∧
      Monitor.step code s (.run false) = some t ∧ t.place false = .out (.ret 0) := by
  obtain ⟨s, hs, hp, htotal⟩ :
      ∃ s ∈ Runs.exec (Monitor.step code) (start 0xffffffff : State Bool) oneTick,
        s.place false = .inside (.loop 1 0xffffffff 0) ∧ s.shared.total = 1 := by decide +kernel
  obtain ⟨t, ht, hout⟩ := ((sleep_lasts (by decide +kernel) hs).1 hp
    (by simp only [Timely, hp, htotal]; decide)).1 (by rw [htotal]; decide)
  exact ⟨s, t, hs, ht, hout⟩

theorem negative_sleeps :
    ∃ s : State Bool, Runs.exec (Monitor.step code) (start 0)
        [.call false (.sysSleep (-1)), .acquire false, .run false, .run false, .fall false] = some s ∧
      s.lock = none ∧ s.place false = .asleep () (.loop (-1) 0 0) := by
  change ∃ s ∈ Runs.exec _ _ _, _
  decide +kernel

end Xv6.Ticks
