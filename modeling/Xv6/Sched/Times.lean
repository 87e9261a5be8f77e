import Xv6.Sched.Course
import Xv6.Sched.Wait

/-!
# The times that `waitx` reports

From its creation on every timer interrupt adds 1 to `ticks`, and 1 to `rtime` or `iotime` of the
process that `c->proc` points to, as its state says.
-/

namespace Xv6.Sched
open Lib ProcState Kernel

structure Times where
  ctime : ℤ
  rtime : ℤ
  etime : ℤ
  iotime : ℤ

def Proc.times (x : Proc) : Times := ⟨x.ctime, x.rtime, x.etime, x.iotime⟩

def Times.accounted (x : ProcState) (t : Times) : Times :=
  { t with
    rtime := if x = RUNNING then int32 (t.rtime + 1) else t.rtime
    iotime := if x = SLEEPING then int32 (t.iotime + 1) else t.iotime }

theorem Proc.accounted_times (x : Proc) : x.accounted.times = x.times.accounted x.state := by
  simp only [Proc.accounted, Times.accounted]
  split_ifs <;> simp_all [Proc.times]

theorem Proc.timed_times (b : Build) (now : ℕ) (current : Bool) (x : Proc) :
    (x.timed b now current).times =
      if current then x.times.accounted (x.woken (some .ticks)).state else x.times := by
  have hwoken : (x.woken (some .ticks)).times = x.times := by
    simp only [Proc.woken]
    split_ifs <;> rfl
  obtain ⟨l, rr, a, haged⟩ := (x.woken (some .ticks)).aged_eq now
  simp only [Proc.timed]
  split_ifs
  · rw [Proc.accounted_times, haged, ← hwoken]
    rfl
  · rw [Proc.accounted_times, hwoken]
  · rw [haged, ← hwoken]
    rfl
  · rw [hwoken]

section Steps

variable {b : Build} {k k' : Kernel} {e : Event} {s : Slot}

theorem tick_times (hc : Ctl k) (h : step b k e = some k') (ht : e.isTick = true) (s : Slot) :
    (k'.proc s).times = (if k.cur = some s then
        (k.proc s).times.accounted ((k.proc s).woken (some .ticks)).state else (k.proc s).times) ∧
      ((k'.proc s).state = ZOMBIE ↔ (k.proc s).state = ZOMBIE) ∧
      ((k'.proc s).state = UNUSED ↔ (k.proc s).state = UNUSED) := by
  have htimer : ((k.timer b).proc s).times = if k.cur = some s then
      (k.proc s).times.accounted ((k.proc s).woken (some .ticks)).state else (k.proc s).times := by
    rw [timer_proc, Proc.timed_times]
    simp only [decide_eq_true_eq]
  have hstate : (((k.timer b).proc s).state = ZOMBIE ↔ (k.proc s).state = ZOMBIE) ∧
      (((k.timer b).proc s).state = UNUSED ↔ (k.proc s).state = UNUSED) := by
    rcases timer_state b k s with h | ⟨h, h'⟩
    · rw [h]
      exact ⟨.rfl, .rfl⟩
    · rw [h, h']
      decide
  cases step_cases h with
  | tick p user hcpu hcur _ =>
    by_cases hsp : s = p
    · subst hsp
      have hrun := hc.state_cur hcpu hcur
      obtain ⟨l, rr, hnext⟩ := ((k.timer b).proc s).nextSlice_eq
      rw [← htimer, hrun]
      rcases tick_proc_self b k user _ rfl (timer_running.mpr hrun) with h | h | ⟨-, -, h⟩
      · rw [h, timer_running.mpr hrun]
        exact ⟨rfl, .rfl, .rfl⟩
      · rw [h]
        exact ⟨rfl, by simp, by simp⟩
      · rw [h, hnext]
        exact ⟨rfl, by simp, by simp⟩
    · rw [tick_proc_of_ne b k user hsp]
      exact ⟨htimer, hstate⟩
  | tickIdle user _ => exact ⟨htimer, hstate⟩
  | _ => cases ht

theorem used_of_step (hc : Ctl k) (h : step b k e = some k') (he : e ≠ .alloc)
    (hs : (k'.proc s).state ≠ UNUSED) : (k.proc s).state ≠ UNUSED := by
  intro hun
  cases ht : e.isTick with
  | true => exact hs ((tick_times hc h ht s).2.2.mpr hun)
  | false => exact he (taken_of_used hc h ht hun hs).1

theorem ctime_of_step (hc : Ctl k) (h : step b k e = some k')
    (he : ∀ page, e ≠ .stack page) : (k'.proc s).ctime = (k.proc s).ctime := by
  cases ht : e.isTick with
  | true =>
    have htimes := congrArg Times.ctime (tick_times hc h ht s).1
    split_ifs at htimes <;> exact htimes
  | false =>
    change (k'.info s).ctime = (k.info s).ctime
    cases step_change hc h ht s with
    | stacked _ page he' _ _ _ _ => exact absurd he' (he page)
    | kept hi | woken _ hi | taken _ _ _ _ hi | dropped _ hi | copied _ _ _ _ _ hi
    | readied _ _ _ hi | slept _ hi | exited _ hi | reaped _ hi | prioritized _ _ _ hi
    | dispatched _ _ hi _ _ => rw [hi]

end Steps

structure Created (s : Slot) (k : Kernel) : Prop where
  ctl : Ctl k
  sole : Sole k
  stack : ∀ p, k.kont p ≠ .forkStack s

section Created

variable {b : Build} {k k' : Kernel} {e : Event} {s : Slot}

theorem Created.step (hc : Created s k) (hs : (k.proc s).state ≠ UNUSED)
    (h : step b k e = some k') : Created s k' := by
  refine ⟨(step_effect hc.ctl h).1, hc.sole.step hc.ctl h, fun p hp => ?_⟩
  rcases step_forkStack h hp with hp | hu
  · exact hc.stack p hp
  · exact hs hu

theorem Created.times (hc : Created s k) (h : Sched.step b k e = some k') (ht : e.isTick = false)
    (hs : (k.proc s).state ≠ UNUSED) (hs' : (k'.proc s).state ≠ UNUSED) :
    (k'.proc s).ctime = (k.proc s).ctime ∧ (k'.proc s).rtime = (k.proc s).rtime ∧
      (k'.proc s).iotime = (k.proc s).iotime ∧ (k'.proc s).aging_time = (k.proc s).aging_time ∧
      (((k'.proc s).state = ZOMBIE ↔ (k.proc s).state = ZOMBIE) ∧
          (k'.proc s).etime = (k.proc s).etime ∨
        (k'.proc s).state = ZOMBIE ∧ (k.proc s).state ≠ ZOMBIE ∧
          (k'.proc s).etime = int32 k.ticks) := by
  change (k.info s).state ≠ UNUSED at hs
  change (k'.info s).state ≠ UNUSED at hs'
  change (k'.info s).ctime = (k.info s).ctime ∧ (k'.info s).rtime = (k.info s).rtime ∧
    (k'.info s).iotime = (k.info s).iotime ∧ (k'.info s).aging_time = (k.info s).aging_time ∧
    (((k'.info s).state = ZOMBIE ↔ (k.info s).state = ZOMBIE) ∧
        (k'.info s).etime = (k.info s).etime ∨
      (k'.info s).state = ZOMBIE ∧ (k.info s).state ≠ ZOMBIE ∧ (k'.info s).etime = int32 k.ticks)
  cases step_change hc.ctl h ht s with
  | taken p he hk hst hi => exact absurd hst hs
  | stacked p page he hk hp hst hi => exact absurd hk (hc.stack p)
  | dropped hst hi | reaped hst hi => exact absurd (by rw [hi]) hs'
  | exited hst hi =>
    exact ⟨by rw [hi], by rw [hi], by rw [hi], by rw [hi],
      .inr ⟨by rw [hi], by rw [hst]; nofun, by simp only [hi]⟩⟩
  | kept hi | copied p pgdir he hk hst hi | prioritized pid pr he hi =>
    rw [hi]
    exact ⟨rfl, rfl, rfl, rfl, .inl ⟨.rfl, rfl⟩⟩
  | woken hst hi | readied p hk hst hi | slept hst hi | dispatched he hst hi hcpu hcur =>
    rw [hi, hst]
    exact ⟨rfl, rfl, rfl, rfl, .inl ⟨by simp, rfl⟩⟩

end Created

def ticksIn (s : Slot) (P : ProcState → Bool) (k : Kernel) (e : Event) (_ : Kernel) : Bool :=
  e.isTick && P (k.proc s).state

def ProcState.isReady (x : ProcState) : Bool := x == RUNNABLE || x == EMBRYO

structure Ran (s : Slot) (k : Kernel) (n : ℕ) : Prop extends Created s k where
  rtime : (k.proc s).state ≠ UNUSED → (k.proc s).rtime = int32 n

def Kernel.owed (k : Kernel) (s : Slot) : ℤ :=
  (if (k.proc s).state = ZOMBIE then (k.proc s).etime else k.ticks) -
    (k.proc s).ctime - (k.proc s).rtime - (k.proc s).iotime

structure Waited (s : Slot) (k : Kernel) (n : ℕ) : Prop extends Created s k where
  owed : (k.proc s).state ≠ UNUSED → (4294967296 : ℤ) ∣ k.owed s - n

def SleepCounted (s : Slot) (k : Kernel) (e : Event) : Prop :=
  e.isTick = true → (k.proc s).state = SLEEPING →
    k.cur = some s ∧ (k.proc s).chan ≠ some .ticks

instance (s : Slot) (k : Kernel) (e : Event) : Decidable (SleepCounted s k e) :=
  inferInstanceAs (Decidable (_ → _ → _ ∧ _))

section Counters

variable {b : Build} {k k' : Kernel} {e : Event} {s : Slot} {n : ℕ}

theorem woken_running {c : Option Chan} {x : Proc} :
    (x.woken c).state = RUNNING ↔ x.state = RUNNING := by
  rcases x.woken_state c with h | ⟨h, h'⟩
  · rw [h]
  · rw [h, h']
    simp

theorem Ran.step (hr : Ran s k n) (hs : (k.proc s).state ≠ UNUSED)
    (h : Sched.step b k e = some k') : Ran s k' (n + (ticksIn s (· == RUNNING) k e k').toNat) := by
  refine ⟨hr.toCreated.step hs h, fun hs' => ?_⟩
  have hrt := hr.rtime hs
  cases ht : e.isTick with
  | false =>
    rw [(hr.toCreated.times h ht hs hs').2.1, hrt]
    simp [ticksIn, ht]
  | true =>
    have htimes := congrArg Times.rtime (tick_times hr.ctl h ht s).1
    by_cases hrun : (k.proc s).state = RUNNING
    · rw [if_pos (hr.sole s hrun).2] at htimes
      have hnew : (k'.proc s).rtime = int32 ((k.proc s).rtime + 1) :=
        htimes.trans (if_pos (woken_running.mpr hrun))
      rw [hnew, hrt]
      simp only [ticksIn, ht, hrun, beq_self_eq_true, Bool.and_self, Bool.toNat_true]
      refine int32_congr ?_
      have := int32_dvd n
      push_cast
      omega
    · have hnew : (k'.proc s).rtime = (k.proc s).rtime := by
        split_ifs at htimes
        · exact htimes.trans (if_neg (mt woken_running.mp hrun))
        · exact htimes
      rw [hnew, hrt]
      simp only [ticksIn, beq_eq_false_iff_ne.mpr hrun, Bool.and_false, Bool.toNat_false,
        Nat.add_zero]

theorem nextTick_dvd (k : Kernel) : (4294967296 : ℤ) ∣ k.nextTick - (k.ticks + 1) := by
  have h : k.nextTick = (k.ticks + 1) % 4294967296 := rfl
  rw [h]
  omega

theorem tick_times_kept (hc : Ctl k) (h : step b k e = some k') (ht : e.isTick = true)
    (hr : (k.proc s).state ≠ RUNNING) (hs : (k.proc s).state ≠ SLEEPING) :
    (k'.proc s).times = (k.proc s).times := by
  have hwoken : (k.proc s).woken (some .ticks) = k.proc s := if_neg fun hw => hs hw.1
  rw [(tick_times hc h ht s).1, hwoken, Times.accounted, if_neg hr, if_neg hs]
  split_ifs <;> rfl

theorem Waited.step (hw : Waited s k n) (hs : (k.proc s).state ≠ UNUSED)
    (hsleep : SleepCounted s k e) (h : Sched.step b k e = some k') :
    Waited s k' (n + (ticksIn s ProcState.isReady k e k').toNat) := by
  refine ⟨hw.toCreated.step hs h, fun hs' => ?_⟩
  have howed := hw.owed hs
  have hticks := step_ticks h
  cases ht : e.isTick with
  | false =>
    obtain ⟨hct, hrt, hio, -, hend⟩ := hw.toCreated.times h ht hs hs'
    simp only [ticksIn, ht, Bool.false_and, Bool.toNat_false, Nat.add_zero]
    rw [ht, if_neg Bool.false_ne_true] at hticks
    simp only [Kernel.owed, hct, hrt, hio] at howed ⊢
    rcases hend with ⟨hz, het⟩ | ⟨hz', hz, het⟩
    · simpa only [hz, het, hticks] using howed
    · have hnow := int32_dvd k.ticks
      rw [if_neg hz] at howed
      rw [if_pos hz', het]
      generalize int32 (k.ticks : ℤ) = now at hnow ⊢
      omega
  | true =>
    have hnow := nextTick_dvd k
    obtain ⟨htimes, hz, -⟩ := tick_times hw.ctl h ht s
    rw [ht, if_pos rfl] at hticks
    simp only [Kernel.owed, hticks, hz, ticksIn, ht, Bool.true_and] at howed ⊢
    have kept : (k.proc s).state ≠ RUNNING → (k.proc s).state ≠ SLEEPING →
        (k'.proc s).times = (k.proc s).times := fun hr hsl => tick_times_kept hw.ctl h ht hr hsl
    -- The interrupt adds 1 to `ticks`, and to the counter of the state it finds.
    cases hst : (k.proc s).state with
    | UNUSED => exact absurd hst hs
    | ZOMBIE =>
      obtain ⟨hct, hrt, het, hio⟩ := Times.mk.inj (kept (by simp [hst]) (by simp [hst]))
      have hready : ZOMBIE.isReady = false := rfl
      rw [hct, hrt, het, hio, hready]
      simpa [hst] using howed
    | RUNNABLE | EMBRYO =>
      obtain ⟨hct, hrt, -, hio⟩ := Times.mk.inj (kept (by simp [hst]) (by simp [hst]))
      rw [hct, hrt, hio]
      simp only [hst, ProcState.isReady, beq_self_eq_true, Bool.true_or, Bool.or_true,
        reduceCtorEq, if_false, Bool.toNat_true] at howed ⊢
      omega
    | RUNNING =>
      have hwoken : (k.proc s).woken (some .ticks) = k.proc s := if_neg fun hw => by
        rw [hst] at hw
        cases hw.1
      rw [if_pos (hw.sole s hst).2, hwoken, hst] at htimes
      obtain ⟨hct, hrt, -, hio⟩ := Times.mk.inj htimes
      have hready : RUNNING.isReady = false := rfl
      have hran := int32_dvd ((k.proc s).rtime + 1)
      simp only [Proc.times, reduceCtorEq, if_false, if_true] at hct hrt hio
      rw [hct, hrt, hio, hready]
      simp only [hst, reduceCtorEq, if_false, Bool.toNat_false] at howed ⊢
      generalize int32 ((k.proc s).rtime + 1) = rtime at hran ⊢
      omega
    | SLEEPING =>
      obtain ⟨hcur, hchan⟩ := hsleep ht hst
      have hwoken : (k.proc s).woken (some .ticks) = k.proc s := if_neg fun hw => hchan hw.2
      rw [if_pos hcur, hwoken, hst] at htimes
      obtain ⟨hct, hrt, -, hio⟩ := Times.mk.inj htimes
      have hready : SLEEPING.isReady = false := rfl
      have hslept := int32_dvd ((k.proc s).iotime + 1)
      simp only [Proc.times, reduceCtorEq, if_false, if_true] at hct hrt hio
      rw [hct, hrt, hio, hready]
      simp only [hst, reduceCtorEq, if_false, Bool.toNat_false] at howed ⊢
      generalize int32 ((k.proc s).iotime + 1) = iotime at hslept ⊢
      omega

theorem created_stack {p : Slot} {page : ℕ} (hc : Ctl k) (hsole : Sole k) (hcur : k.cur = some p)
    (hkont : k.kont p = .forkStack s) (hpage : page ≠ 0) (h : step b k (.stack page) = some k') :
    Ran s k' 0 ∧ Waited s k' 0 := by
  have hc' := (step_effect hc h).1
  have hsole' := hsole.step hc h
  have hembryo := (hc.fork p s (by rw [hkont]; rfl)).1
  obtain rfl := stack_step h hcur hkont
  have hcreated : Created s
      ((k.allocStack s page).setKont p (if page = 0 then .user else .forkCopy s)) := by
    refine ⟨hc', hsole', fun t ht => ?_⟩
    rw [setKont_kont, if_neg hpage] at ht
    split_ifs at ht with htp
    -- No other process is filling in this slot.
    exact htp (hc.inj t p s (by rw [show k.kont t = _ from ht]; rfl) (by rw [hkont]; rfl))
  refine ⟨⟨hcreated, fun _ => ?_⟩, ⟨hcreated, fun _ => ?_⟩⟩
  · rw [setKont_proc, allocStack_self k s hpage]
    rfl
  · have hnow := int32_dvd k.ticks
    have hticks : ((k.allocStack s page).setKont p
        (if page = 0 then .user else .forkCopy s)).ticks = k.ticks := rfl
    simp only [Kernel.owed, setKont_proc, allocStack_self k s hpage, hembryo, hticks, reduceCtorEq,
      if_false]
    generalize int32 (k.ticks : ℤ) = now at hnow ⊢
    omega

end Counters

theorem waitx_times (b : Build) (kstack pgdir : ℕ) (es : List Event) (k : Kernel)
    (hrun : Runs.exec (step b) (boot kstack pgdir) es = some k) (p s : Slot) (page : ℕ)
    (k₁ : Kernel) (hcur : k.cur = some p) (hkont : k.kont p = .forkStack s) (hpage : page ≠ 0)
    (hstack : step b k (.stack page) = some k₁) (fs : List Event) (k₂ : Kernel)
    (hfs : Runs.exec (step b) k₁ fs = some k₂)
    (hlive : Runs.Meets (step b) (fun k _ => (k.proc s).state ≠ UNUSED) k₁ fs) (cur : Slot)
    (hfound : round k₂.proc cur = .found s) :
    ∃ r wtime, waitx cur [] k₂.proc = some r ∧
      r.times = some (wtime, int32 (Runs.count (step b) (ticksIn s (· == RUNNING)) k₁ fs)) ∧
      (Runs.Meets (step b) (SleepCounted s) k₁ fs →
        wtime = int32 (Runs.count (step b) (ticksIn s ProcState.isReady) k₁ fs)) := by
  obtain ⟨hc, hsole⟩ := run_sole hrun
  obtain ⟨hran, hwaited⟩ := created_stack hc hsole hcur hkont hpage hstack
  have hzombie : (k₂.proc s).state = ZOMBIE := by
    simp only [round] at hfound
    split at hfound
    · rename_i r hk hscan
      cases hfound
      exact (scanChildren_some (by rw [hscan])).2.2
    · split_ifs at hfound
  have hrtime := (Runs.exec_count (step b) (I := Ran s) (fun _ _ _ _ hI hs h => hI.step hs h)
    hran hlive hfs).rtime (by rw [hzombie]; decide)
  refine ⟨⟨(k₂.proc s).pid, Function.update k₂.proc s (k₂.proc s).reaped,
    some ((k₂.proc s).wtime, (k₂.proc s).rtime)⟩, (k₂.proc s).wtime, ?_, ?_, fun hsleep => ?_⟩
  · rw [waitx, hfound]
  · rw [hrtime, Nat.zero_add]
  · have howed := (Runs.exec_count (step b) (I := Waited s)
      (fun _ _ _ _ hI hs h => hI.step hs.1 hs.2 h) hwaited (Runs.Meets.and _ hlive hsleep)
      hfs).owed (by rw [hzombie]; decide)
    rw [Kernel.owed, if_pos hzombie, Nat.zero_add] at howed
    exact int32_congr howed

def takenRun : List Event := [.schedule, .alloc]

/-- The child is RUNNABLE at one timer interrupt, RUNNING at another, and exits. -/
def lifeRun : List Event :=
  [.copy 3, .run, .tick true, .schedule, .tick true, .schedule, .schedule, .wait, .schedule, .exit]

theorem waitx_times_lifeRun : ∃ r wtime, r.times = some (wtime, int32 1) ∧ wtime = int32 1 ∧
    ∃ k k₁ k₂, Runs.exec (step .DEFAULT) (boot 1 1) takenRun = some k ∧
      step .DEFAULT k (.stack 2) = some k₁ ∧ Runs.exec (step .DEFAULT) k₁ lifeRun = some k₂ ∧
      waitx 0 [] k₂.proc = some r := by
  obtain ⟨k, hk, k₁, h₁, k₂, h₂, hcur, hkont, hfound, hlive, hsleep, hran, hready⟩ :
      ∃ k ∈ Runs.exec (step .DEFAULT) (boot 1 1) takenRun, ∃ k₁ ∈ step .DEFAULT k (.stack 2),
      ∃ k₂ ∈ Runs.exec (step .DEFAULT) k₁ lifeRun,
        k.cur = some 0 ∧ k.kont 0 = .forkStack 1 ∧ round k₂.proc 0 = .found 1 ∧
        Runs.Meets (step .DEFAULT) (fun k _ => (k.proc 1).state ≠ UNUSED) k₁ lifeRun ∧
        Runs.Meets (step .DEFAULT) (SleepCounted 1) k₁ lifeRun ∧
        Runs.count (step .DEFAULT) (ticksIn 1 (· == RUNNING)) k₁ lifeRun = 1 ∧
        Runs.count (step .DEFAULT) (ticksIn 1 ProcState.isReady) k₁ lifeRun = 1 := by
    decide +kernel
  obtain ⟨r, wtime, hr, htimes, hw⟩ := waitx_times .DEFAULT 1 1 takenRun k hk 0 1 2 k₁ hcur hkont
    (by decide) h₁ lifeRun k₂ h₂ hlive 0 hfound
  rw [hran] at htimes
  rw [hready] at hw
  exact ⟨r, wtime, htimes, hw hsleep, k, k₁, k₂, hk, h₁, h₂, hr⟩

def napRun : List Event :=
  [.copy 3, .run, .wait, .schedule, .sleep (.other 0), .schedule, .tick true, .wakeup (.other 0),
    .schedule, .exit]

/-- The interrupt at which the child was asleep is reported as waiting time. -/
theorem waitx_counts_sleep : ∃ k k₁ k₂ r,
    Runs.exec (step .DEFAULT) (boot 1 1) takenRun = some k ∧ k.cur = some 0 ∧
      k.kont 0 = .forkStack 1 ∧ step .DEFAULT k (.stack 2) = some k₁ ∧
      Runs.exec (step .DEFAULT) k₁ napRun = some k₂ ∧
      Runs.Meets (step .DEFAULT) (fun k _ => (k.proc 1).state ≠ UNUSED) k₁ napRun ∧
      waitx 0 [] k₂.proc = some r ∧ r.times = some (1, 0) ∧
      Runs.count (step .DEFAULT) (ticksIn 1 ProcState.isReady) k₁ napRun = 0 ∧
      Runs.count (step .DEFAULT) (ticksIn 1 (· == SLEEPING)) k₁ napRun = 1 := by
  obtain ⟨k, hk, k₁, h₁, k₂, h₂, hcur, hkont, hlive, ⟨r, hr, htimes⟩, hcounts⟩ :
      ∃ k ∈ Runs.exec (step .DEFAULT) (boot 1 1) takenRun, ∃ k₁ ∈ step .DEFAULT k (.stack 2),
      ∃ k₂ ∈ Runs.exec (step .DEFAULT) k₁ napRun,
        k.cur = some 0 ∧ k.kont 0 = .forkStack 1 ∧
        Runs.Meets (step .DEFAULT) (fun k _ => (k.proc 1).state ≠ UNUSED) k₁ napRun ∧
        (∃ r ∈ waitx 0 [] k₂.proc, r.times = some (1, 0)) ∧
        Runs.count (step .DEFAULT) (ticksIn 1 ProcState.isReady) k₁ napRun = 0 ∧
        Runs.count (step .DEFAULT) (ticksIn 1 (· == SLEEPING)) k₁ napRun = 1 := by
    decide +kernel
  exact ⟨k, k₁, k₂, r, hk, hcur, hkont, h₁, h₂, hlive, hr, htimes, hcounts⟩

structure Started (k : Kernel) (s : Slot) : Prop where
  used : (k.proc s).state ≠ UNUSED
  stack : ∀ p, k.kont p ≠ .forkStack s

end Xv6.Sched
