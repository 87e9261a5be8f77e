import Xv6.Sched.Times

/-!
# Aging in the MLFQ build

At each timer interrupt `aging` computes for every RUNNABLE process how long it has not run since
it was created or last promoted, as `ticks - ctime - rtime - aging_time`.
-/

namespace Xv6.Sched
open Lib ProcState Kernel

def ClockRoom (k : Kernel) (e : Event) : Prop := e.isTick = true → k.ticks + 1 < 2 ^ 31

instance (k : Kernel) (e : Event) : Decidable (ClockRoom k e) :=
  inferInstanceAs (Decidable (_ → _))

structure InClock (now : ℕ) (x : Proc) : Prop where
  ctime : 0 ≤ x.ctime
  rtime : 0 ≤ x.rtime
  aging : 0 ≤ x.aging_time
  sum : x.ctime + x.rtime + x.aging_time ≤ now

def Proc.idle (now : ℕ) (x : Proc) : ℤ := now - x.ctime - x.rtime - x.aging_time

section Process

variable {now : ℕ} {x : Proc}

theorem InClock.waited (h : InClock now x) (hnow : now < 2 ^ 31) : x.waited now = x.idle now := by
  have := h.ctime
  have := h.rtime
  have := h.aging
  have := h.sum
  exact int32_of_lt (by omega) (by omega)

theorem Proc.woken_eq (c : Option Chan) (x : Proc) : ∃ st, x.woken c = { x with state := st } := by
  simp only [Proc.woken]
  split_ifs
  · exact ⟨_, rfl⟩
  · exact ⟨x.state, rfl⟩

theorem InClock.woken (h : InClock now x) (c : Option Chan) : InClock (now + 1) (x.woken c) ∧
    (x.woken c).idle (now + 1) = x.idle now + 1 ∧ (x.woken c).qno = x.qno := by
  obtain ⟨st, hsame⟩ := x.woken_eq c
  have hsum := h.sum
  rw [hsame]
  refine ⟨⟨h.ctime, h.rtime, h.aging, ?_⟩, ?_, rfl⟩
  · change x.ctime + x.rtime + x.aging_time ≤ _
    push_cast
    omega
  · simp only [Proc.idle]
    push_cast
    omega

theorem InClock.idle_nonneg (h : InClock now x) : 0 ≤ x.idle now := by
  have := h.sum
  simp only [Proc.idle]
  omega

theorem Proc.promoted_qno (x : Proc) : x.promoted.qno.val = x.qno.val - 1 := by
  rcases level_cases x.qno with h | h | h | h | h <;> simp only [Proc.promoted, h] <;> rfl

theorem InClock.aged (h : InClock now x) (hnow : now < 2 ^ 31) : InClock now (x.aged now) ∧
    (x.state = RUNNABLE ∧ 50 < x.idle now ∧ (x.aged now).idle now = 0 ∧
        (x.aged now).qno.val = x.qno.val - 1 ∨
      ¬(x.state = RUNNABLE ∧ 50 < x.idle now) ∧ x.aged now = x) := by
  have hct := h.ctime
  have hrt := h.rtime
  have hag := h.aging
  have hsum := h.sum
  rw [Proc.aged, h.waited hnow]
  split_ifs with hlong
  · obtain ⟨l, rr, hprom⟩ := x.promoted_eq
    have hqno := x.promoted_qno
    have hnew : int32 ((now : ℤ) - (x.ctime + x.rtime)) = now - (x.ctime + x.rtime) :=
      int32_of_lt (by omega) (by omega)
    rw [hprom] at hqno
    rw [hprom, hnew]
    refine ⟨⟨hct, hrt, ?_, ?_⟩, .inl ⟨hlong.1, hlong.2, ?_, hqno⟩⟩
    · change 0 ≤ (now : ℤ) - (x.ctime + x.rtime)
      omega
    · change x.ctime + x.rtime + ((now : ℤ) - (x.ctime + x.rtime)) ≤ now
      omega
    · simp only [Proc.idle]
      omega
  · exact ⟨h, .inr ⟨hlong, rfl⟩⟩

theorem Proc.timed_running (hx : x.state = RUNNING) : x.timed .MLFQ now true = x.accounted := by
  have hwoken : x.woken (some .ticks) = x := if_neg fun h => by
    rw [hx] at h
    cases h.1
  have haged : x.aged now = x := if_neg fun h => by
    rw [hx] at h
    cases h.1
  simp only [Proc.timed, hwoken, haged, if_true]

theorem Proc.timed_other (hx : x.state ≠ RUNNING) (current : Bool) :
    ∃ t, x.timed .MLFQ now current = { (x.woken (some .ticks)).aged now with iotime := t } := by
  obtain ⟨l, rr, a, haged⟩ := (x.woken (some .ticks)).aged_eq now
  have hstate : ((x.woken (some .ticks)).aged now).state ≠ RUNNING := by
    rw [haged]
    exact mt woken_running.mp hx
  simp only [Proc.timed, if_true]
  split_ifs
  · rw [Proc.accounted, if_neg hstate]
    split_ifs
    · exact ⟨_, rfl⟩
    · exact ⟨_, rfl⟩
  · exact ⟨_, rfl⟩

theorem Proc.qno_le_nextSlice (x : Proc) : x.qno ≤ x.nextSlice.qno := by
  rcases level_cases x.qno with h | h | h | h | h <;> simp only [Proc.nextSlice, Proc.moved, h]
  case inr.inr.inr.inr => exact h.ge
  all_goals decide

end Process

structure Ages (k : Kernel) : Prop where
  ctl : Ctl k
  sole : Sole k
  room : k.ticks < 2 ^ 31
  times : ∀ s, Started k s → InClock k.ticks (k.proc s)

section Steps

variable {k k' : Kernel} {e : Event} {s : Slot}

theorem started_of_ne (hc : Ctl k) (hu : (k.proc s).state ≠ UNUSED)
    (he : (k.proc s).state ≠ EMBRYO) : Started k s :=
  ⟨hu, fun p hp => he (hc.fork p s (by rw [hp]; rfl)).1⟩

theorem tick_ticks {b : Build} (hroom : ClockRoom k e) (h : step b k e = some k')
    (ht : e.isTick = true) : k'.ticks = k.ticks + 1 ∧ k.nextTick = k.ticks + 1 ∧
      k.ticks + 1 < 2 ^ 31 := by
  have hlt := hroom ht
  have hnext : k.nextTick = k.ticks + 1 := Nat.mod_eq_of_lt (by omega)
  exact ⟨by rw [step_ticks h, ht, if_pos rfl, hnext], hnext, hlt⟩

theorem timer_current (hcur : k.cur = some s) (hs : (k.proc s).state = RUNNING) :
    (k.timer .MLFQ).proc s = (k.proc s).accounted := by
  rw [timer_proc, decide_eq_true hcur, Proc.timed_running hs]

theorem tick_idle_running (ha : Ages k) (hroom : ClockRoom k e) (h : step .MLFQ k e = some k')
    (ht : e.isTick = true) (hstart : Started k s) (hs : (k.proc s).state = RUNNING) :
    InClock k'.ticks (k'.proc s) ∧ (k'.proc s).idle k'.ticks = (k.proc s).idle k.ticks ∧
      (k.proc s).qno ≤ (k'.proc s).qno := by
  obtain ⟨hticks, -, hlt⟩ := tick_ticks hroom h ht
  have hin := ha.times s hstart
  have hct := hin.ctime
  have hrt := hin.rtime
  have hag := hin.aging
  have hsum := hin.sum
  have hran : int32 ((k.proc s).rtime + 1) = (k.proc s).rtime + 1 :=
    int32_of_lt (by omega) (by omega)
  obtain ⟨hcpu, hcur⟩ := ha.sole s hs
  cases step_cases h with
  | tick p user _ hp _ =>
    cases hcur.symm.trans hp
    have htimer := timer_current hcur hs
    -- Whatever the end of the slice does, it leaves the times alone.
    have hfields : ∃ st l rr, (k.proc s).qno ≤ l ∧ (k.tick .MLFQ s user).proc s =
        { (k.proc s).accounted with state := st, qno := l, rrtime := rr } := by
      have hqno : (k.proc s).accounted.qno = (k.proc s).qno := by
        simp only [Proc.accounted, hs, if_true]
      obtain ⟨l, rr, hnext⟩ := (k.proc s).accounted.nextSlice_eq
      have hle := (k.proc s).accounted.qno_le_nextSlice
      rw [hnext, hqno] at hle
      rcases tick_proc_self .MLFQ k user _ htimer (by rw [← htimer]; exact timer_running.mpr hs)
        with h | h | ⟨-, -, h⟩
      · exact ⟨_, _, _, hqno.ge, h⟩
      · exact ⟨_, _, _, hqno.ge, h⟩
      · exact ⟨_, l, rr, hle, by rw [h, hnext]⟩
    obtain ⟨st, l, rr, hle, hproc⟩ := hfields
    rw [hproc, hticks]
    simp only [Proc.accounted, hs, if_true, Proc.idle, hran]
    refine ⟨⟨hct, ?_, hag, ?_⟩, ?_, hle⟩
    · change 0 ≤ (k.proc s).rtime + 1
      omega
    · change (k.proc s).ctime + ((k.proc s).rtime + 1) + (k.proc s).aging_time ≤ _
      push_cast
      omega
    · push_cast
      omega
  | tickIdle user hidle =>
    rw [hcpu] at hidle
    cases hidle
  | _ => cases ht

theorem tick_other_proc (hc : Ctl k) (h : step .MLFQ k e = some k') (ht : e.isTick = true)
    (hs : (k.proc s).state ≠ RUNNING) : ∃ t, k'.proc s =
      { ((k.proc s).woken (some .ticks)).aged k.nextTick with iotime := t } := by
  have htimer : k'.proc s = (k.timer .MLFQ).proc s := by
    cases step_cases h with
    | tick p user hcpu hcur _ =>
      refine tick_proc_of_ne .MLFQ k user ?_
      rintro rfl
      exact hs (hc.state_cur hcpu hcur)
    | tickIdle user _ => rfl
    | _ => cases ht
  rw [htimer, timer_proc]
  exact Proc.timed_other hs _

theorem tick_idle_other (ha : Ages k) (hroom : ClockRoom k e) (h : step .MLFQ k e = some k')
    (ht : e.isTick = true) (hstart : Started k s) (hs : (k.proc s).state ≠ RUNNING) :
    InClock k'.ticks (k'.proc s) ∧
      (((k.proc s).woken (some .ticks)).state = RUNNABLE ∧ 50 ≤ (k.proc s).idle k.ticks ∧
          (k'.proc s).idle k'.ticks = 0 ∧ (k'.proc s).qno.val = (k.proc s).qno.val - 1 ∨
        ¬(((k.proc s).woken (some .ticks)).state = RUNNABLE ∧ 50 ≤ (k.proc s).idle k.ticks) ∧
          (k'.proc s).idle k'.ticks = (k.proc s).idle k.ticks + 1 ∧
          (k'.proc s).qno = (k.proc s).qno) := by
  obtain ⟨hticks, hnext, hlt⟩ := tick_ticks hroom h ht
  have hin := ha.times s hstart
  obtain ⟨t, hproc⟩ := tick_other_proc ha.ctl h ht hs
  rw [hnext, ← hticks] at hproc
  obtain ⟨hin', hidle, hqno⟩ := hin.woken (some .ticks)
  rw [← hticks] at hin' hidle
  obtain ⟨hclock, hcases⟩ := hin'.aged (by rw [hticks]; exact hlt)
  rw [hidle, hqno] at hcases
  rw [hproc]
  refine ⟨⟨hclock.ctime, hclock.rtime, hclock.aging, hclock.sum⟩, ?_⟩
  rcases hcases with ⟨hst, hlong, hzero, hpred⟩ | ⟨hnot, hsame⟩
  · exact .inl ⟨hst, by omega, hzero, hpred⟩
  · refine .inr ⟨fun hlong => hnot ⟨hlong.1, by omega⟩, ?_, ?_⟩
    · rw [← hidle, hsame]
      rfl
    · rw [hsame]
      exact hqno

theorem started_cases {b : Build} (hc : Ctl k) (hroom : k.ticks < 2 ^ 31)
    (h : step b k e = some k') (hs : Started k' s) : Started k s ∨
      e.isTick = false ∧ InClock k'.ticks (k'.proc s) ∧ (k'.proc s).idle k'.ticks = 0 := by
  by_cases hu : (k.proc s).state = UNUSED
  · exfalso
    cases ht : e.isTick with
    | true => exact hs.used ((tick_times hc h ht s).2.2.mpr hu)
    | false =>
      obtain ⟨-, ⟨p, hk⟩, -⟩ := taken_of_used hc h ht hu hs.used
      exact hs.stack p hk
  · by_cases hk : ∃ p, k.kont p = .forkStack s
    · obtain ⟨p, hp⟩ := hk
      rcases forkStack_step h hp with hp' | ⟨hcur, page, rfl⟩
      · exact absurd hp' (hs.stack p)
      · have hnow : int32 (k.ticks : ℤ) = k.ticks := int32_of_lt (by omega) (by omega)
        obtain rfl := stack_step h hcur hp
        have hpage : page ≠ 0 := by
          rintro rfl
          exact hs.used (by rw [setKont_proc, allocStack, setProc_self, if_pos rfl])
        have hticks : ((k.allocStack s page).setKont p
            (if page = 0 then .user else .forkCopy s)).ticks = k.ticks := rfl
        refine .inr ⟨rfl, ?_⟩
        rw [setKont_proc, allocStack_self k s hpage, hnow, hticks]
        exact ⟨⟨Int.natCast_nonneg _, le_refl _, le_refl _, by simp⟩, by simp [Proc.idle]⟩
    · exact .inl ⟨hu, fun p hp => hk ⟨p, hp⟩⟩

theorem idle_kept {b : Build} (ha : Ages k) (h : step b k e = some k') (ht : e.isTick = false)
    (hs : Started k s) (hs' : (k'.proc s).state ≠ UNUSED) :
    InClock k'.ticks (k'.proc s) ∧ (k'.proc s).idle k'.ticks = (k.proc s).idle k.ticks := by
  have hin := ha.times s hs
  have hticks := step_ticks h
  rw [ht, if_neg Bool.false_ne_true] at hticks
  obtain ⟨hct, hrt, -, hag, -⟩ :=
    Created.times ⟨ha.ctl, ha.sole, hs.stack⟩ h ht hs.used hs'
  refine ⟨⟨by rw [hct]; exact hin.ctime, by rw [hrt]; exact hin.rtime,
    by rw [hag]; exact hin.aging, ?_⟩, ?_⟩
  · rw [hct, hrt, hag, hticks]
    exact hin.sum
  · rw [Proc.idle, Proc.idle, hct, hrt, hag, hticks]

theorem Ages.step (ha : Ages k) (hroom : ClockRoom k e) (h : step .MLFQ k e = some k') :
    Ages k' := by
  have hticks := step_ticks h
  refine ⟨(step_effect ha.ctl h).1, ha.sole.step ha.ctl h, ?_, fun s hs => ?_⟩
  · cases ht : e.isTick with
    | true =>
      obtain ⟨hticks, -, hlt⟩ := tick_ticks hroom h ht
      omega
    | false =>
      rw [hticks, ht, if_neg Bool.false_ne_true]
      exact ha.room
  · rcases started_cases ha.ctl ha.room h hs with hstart | ⟨-, hin, -⟩
    · cases ht : e.isTick with
      | true =>
        by_cases hrun : (k.proc s).state = RUNNING
        · exact (tick_idle_running ha hroom h ht hstart hrun).1
        · exact (tick_idle_other ha hroom h ht hstart hrun).1
      | false => exact (idle_kept ha h ht hstart hs.used).1
    · exact hin

end Steps

theorem boot_ages (kstack pgdir : ℕ) : Ages (boot kstack pgdir) := by
  refine ⟨boot_ctl _ _, boot_sole _ _, Nat.zero_lt_succ _, fun s hs => ?_⟩
  by_cases h0 : s = 0
  · subst h0
    have htimes : ((boot kstack pgdir).proc 0).ctime = 0 ∧ ((boot kstack pgdir).proc 0).rtime = 0 ∧
        ((boot kstack pgdir).proc 0).aging_time = 0 := by
      have hticks : (image.allocproc 0).ticks = 0 := rfl
      have hzero : int32 ((0 : ℕ) : ℤ) = 0 := int32_of_lt (le_refl 0) (by norm_num)
      simp only [boot, allocStack, setProc_self, hticks, hzero]
      split_ifs <;> exact ⟨rfl, rfl, rfl⟩
    obtain ⟨hct, hrt, hag⟩ := htimes
    exact ⟨hct.ge, hrt.ge, hag.ge, by rw [hct, hrt, hag]; exact Int.natCast_nonneg _⟩
  · exact absurd (by rw [boot_proc _ _ h0]; rfl) hs.used

theorem run_ages {kstack pgdir : ℕ} {es : List Event} {k : Kernel}
    (hrun : Runs.exec (step .MLFQ) (boot kstack pgdir) es = some k)
    (hroom : Runs.Meets (step .MLFQ) ClockRoom (boot kstack pgdir) es) : Ages k :=
  Runs.exec_preserves (step .MLFQ) (I := Ages) (fun _ _ _ hI hC h => hI.step hC h)
    (boot_ages _ _) hroom hrun

def Promotion (s : Slot) (k : Kernel) (e : Event) (k' : Kernel) : Prop :=
  e.isTick = true ∧ (k'.proc s).qno < (k.proc s).qno

structure Starved (s : Slot) (l : ℕ) (k : Kernel) (n : ℕ) : Prop where
  ages : Ages k
  level : ∃ j : ℕ, (n : ℤ) ≤ 51 * j + min ((k.proc s).idle k.ticks) 50 ∧
    (k.proc s).qno.val + min j l = l

structure SincePromotion (s : Slot) (k : Kernel) (n : ℕ) : Prop where
  ages : Ages k
  idle : Started k s → (k.proc s).idle k.ticks ≤ n

section Promotions

variable {k k' : Kernel} {e : Event} {s : Slot} {l n : ℕ}

theorem runnable_qno (hc : Ctl k) (h : step .MLFQ k e = some k') (ht : e.isTick = false)
    (hs : (k.proc s).state = RUNNABLE) :
    (k'.proc s).qno = (k.proc s).qno ∧ (k'.proc s).state ≠ UNUSED := by
  have hinfo : (k.info s).state = RUNNABLE := hs
  change (k'.info s).qno = (k.info s).qno ∧ (k'.info s).state ≠ UNUSED
  cases step_change hc h ht s with
  | kept hi => rw [hi, hinfo]; exact ⟨rfl, nofun⟩
  | prioritized pid pr he hi => rw [hi]; exact ⟨rfl, by rw [hinfo]; nofun⟩
  | dispatched he hst hi hcpu hcur => rw [hi]; exact ⟨rfl, nofun⟩
  | woken hst hi | taken p he hk hst hi | stacked p page he hk hp hst hi | dropped hst hi
  | copied p pgdir he hk hst hi | readied p hk hst hi | slept hst hi | exited hst hi
  | reaped hst hi => rw [hinfo] at hst; cases hst

theorem Starved.step (hst : Starved s l k n) (hroom : ClockRoom k e)
    (hs : (k.proc s).state = RUNNABLE) (h : step .MLFQ k e = some k') :
    Starved s l k' (n + e.isTick.toNat) := by
  refine ⟨hst.ages.step hroom h, ?_⟩
  obtain ⟨j, hn, hl⟩ := hst.level
  have hstart : Started k s := started_of_ne hst.ages.ctl (by rw [hs]; nofun) (by rw [hs]; nofun)
  have hidle := (hst.ages.times s hstart).sum
  cases ht : e.isTick with
  | false =>
    obtain ⟨hqno, hused⟩ := runnable_qno hst.ages.ctl h ht hs
    rw [(idle_kept hst.ages h ht hstart hused).2, hqno]
    exact ⟨j, by simpa using hn, hl⟩
  | true =>
    have hwoken : ((k.proc s).woken (some .ticks)).state = RUNNABLE := by
      rcases (k.proc s).woken_state (some .ticks) with h | ⟨-, h⟩
      · rw [h, hs]
      · exact h
    rw [Bool.toNat_true]
    rcases (tick_idle_other hst.ages hroom h ht hstart (by rw [hs]; nofun)).2 with
      ⟨-, hlong, hzero, hqno⟩ | ⟨hnot, hone, hqno⟩
    · refine ⟨j + 1, ?_, ?_⟩
      · rw [hzero]
        push_cast
        omega
      · omega
    · have hshort : ¬50 ≤ (k.proc s).idle k.ticks := fun hlong => hnot ⟨hwoken, hlong⟩
      refine ⟨j, ?_, by rw [hqno]; exact hl⟩
      rw [hone]
      push_cast
      omega

theorem SincePromotion.step (hp : SincePromotion s k n) (hroom : ClockRoom k e)
    (h : step .MLFQ k e = some k') :
    SincePromotion s k' (n + (ticksIn s (· != RUNNING) k e k').toNat) := by
  refine ⟨hp.ages.step hroom h, fun hs => ?_⟩
  rcases started_cases hp.ages.ctl hp.ages.room h hs with hstart | ⟨-, -, hzero⟩
  · have hidle := hp.idle hstart
    cases ht : e.isTick with
    | false =>
      rw [(idle_kept hp.ages h ht hstart hs.used).2]
      simpa [ticksIn, ht] using hidle
    | true =>
      by_cases hrun : (k.proc s).state = RUNNING
      · rw [(tick_idle_running hp.ages hroom h ht hstart hrun).2.1]
        simpa [ticksIn, ht, hrun] using hidle
      · have hone : (ticksIn s (· != RUNNING) k e k').toNat = 1 := by simp [ticksIn, ht, hrun]
        rw [hone]
        rcases (tick_idle_other hp.ages hroom h ht hstart hrun).2 with ⟨-, -, h, -⟩ | ⟨-, h, -⟩ <;>
          rw [h] <;> push_cast <;> omega
  · rw [hzero]
    omega

theorem Promotion.idle (ha : Ages k) (hroom : ClockRoom k e) (h : step .MLFQ k e = some k')
    (hp : Promotion s k e k') : Started k s ∧ (k.proc s).state ≠ RUNNING ∧
      50 ≤ (k.proc s).idle k.ticks ∧ (k'.proc s).idle k'.ticks = 0 := by
  obtain ⟨ht, hlt⟩ := hp
  have hrun : (k.proc s).state ≠ RUNNING := fun hrun =>
    absurd hlt (not_lt.mpr (tick_idle_running ha hroom h ht
      (started_of_ne ha.ctl (by rw [hrun]; nofun) (by rw [hrun]; nofun)) hrun).2.2)
  -- A slot that is not in use, or is being filled in, keeps its level.
  have hstate : ∀ st, (k.proc s).state = st → st = UNUSED ∨ st = EMBRYO → False := by
    rintro st rfl hst
    obtain ⟨t, hproc⟩ := tick_other_proc ha.ctl h ht hrun
    have hwoken : (k.proc s).woken (some .ticks) = k.proc s := if_neg fun hw => by
      rw [hw.1] at hst
      simp at hst
    have haged : (k.proc s).aged k.nextTick = k.proc s := if_neg fun hw => by
      rw [hw.1] at hst
      simp at hst
    rw [hproc, hwoken, haged] at hlt
    exact lt_irrefl _ hlt
  have hstart : Started k s :=
    started_of_ne ha.ctl (fun hu => hstate _ hu (.inl rfl)) fun he => hstate _ he (.inr rfl)
  refine ⟨hstart, hrun, ?_⟩
  rcases (tick_idle_other ha hroom h ht hstart hrun).2 with ⟨-, hlong, hzero, -⟩ | ⟨-, -, hqno⟩
  · exact ⟨hlong, hzero⟩
  · rw [hqno] at hlt
    exact absurd hlt (lt_irrefl _)

end Promotions

def Kernel.agingAt (k : Kernel) (s : Slot) : Kernel := (slots.take s).foldl agingOne k.ticked

theorem agingAt_proc (k : Kernel) (s : Slot) : (k.agingAt s).ticks = k.nextTick ∧
    (k.agingAt s).proc s = (k.proc s).woken (some .ticks) := by
  have hnodup : (slots.take s).Nodup := (List.nodup_finRange NPROC).sublist (List.take_sublist _ _)
  have hnot : s ∉ slots.take s := by
    intro hmem
    obtain ⟨i, hi, hget⟩ := List.mem_iff_getElem.mp hmem
    have hlt : i < s.val := (List.length_take .. ▸ hi).trans_le (min_le_left _ _)
    simp only [slots, List.getElem_take, List.getElem_finRange] at hget
    rw [← hget] at hlt
    exact lt_irrefl i hlt
  obtain ⟨hclock, hproc⟩ := foldl_agingOne (slots.take s) hnodup k.ticked
  exact ⟨hclock.ticks, (hproc s).trans (if_neg hnot)⟩

theorem mlfq_aging (kstack pgdir : ℕ) (es : List Event) (k : Kernel)
    (hrun : Runs.exec (step .MLFQ) (boot kstack pgdir) es = some k)
    (hroom : Runs.Meets (step .MLFQ) ClockRoom (boot kstack pgdir) es) :
    (∀ s j fs k', Runs.exec (step .MLFQ) k fs = some k' →
      Runs.Meets (step .MLFQ) (fun k e => ClockRoom k e ∧ (k.proc s).state = RUNNABLE) k fs →
      51 * j ≤ Runs.count (step .MLFQ) (fun _ e _ => e.isTick) k fs →
      (k'.proc s).qno.val + min j (k.proc s).qno.val ≤ (k.proc s).qno.val) ∧
    (∀ s e k₁ fs k₂ e' k₃, step .MLFQ k e = some k₁ → Promotion s k e k₁ →
      Runs.exec (step .MLFQ) k₁ fs = some k₂ → step .MLFQ k₂ e' = some k₃ →
      Promotion s k₂ e' k₃ → Runs.Meets (step .MLFQ) ClockRoom k (e :: (fs ++ [e'])) →
      51 ≤ Runs.count (step .MLFQ) (ticksIn s (· != RUNNING)) k₁ (fs ++ [e'])) ∧
    (∀ s user k', step .MLFQ k (.tick user) = some k' → ClockRoom k (.tick user) →
      ((k.agingAt s).proc s).state = RUNNABLE → 0 ≤ (k.agingAt s).waited s) := by
  have ha := run_ages hrun hroom
  refine ⟨?_, ?_, ?_⟩
  · intro s j fs k' hfs hmeets hcount
    cases fs with
    | nil =>
      cases hfs
      have hj : j = 0 := by
        simp only [Runs.count] at hcount
        omega
      simp [hj]
    | cons e fs =>
      have hs := hmeets.1.2
      have hin := ha.times s (started_of_ne ha.ctl (by rw [hs]; decide) (by rw [hs]; decide))
      have hidle := hin.idle_nonneg
      have hstart : Starved s (k.proc s).qno.val k 0 := ⟨ha, 0, by simpa using hidle, by simp⟩
      obtain ⟨n, hn, hl⟩ := (Runs.exec_count (step .MLFQ) (C := fun _ e _ => e.isTick)
        (I := Starved s (k.proc s).qno.val) (fun _ _ _ _ hI hD h => hI.step hD.1 hD.2 h) hstart
        hmeets hfs).level
      omega
  · intro s e k₁ fs k₂ e' k₃ h₁ hp₁ hfs h₃ hp₃ hmeets
    have hrest := hmeets.2 k₁ h₁
    have ha₁ := ha.step hmeets.1 h₁
    have hzero := (hp₁.idle ha hmeets.1 h₁).2.2.2
    have hsince := Runs.exec_count (step .MLFQ) (C := ticksIn s (· != RUNNING)) (n := 0)
      (I := SincePromotion s) (fun _ _ _ _ hI hD h => hI.step hD h)
      ⟨ha₁, fun _ => hzero.le⟩ (Runs.Meets.left _ hrest) hfs
    obtain ⟨hstart, hnot, hlong, -⟩ :=
      hp₃.idle hsince.ages (Runs.Meets.of_append _ hrest hfs).1 h₃
    have hidle := hsince.idle hstart
    have hlast : Runs.count (step .MLFQ) (ticksIn s (· != RUNNING)) k₂ [e'] = 1 := by
      rw [Runs.count_cons _ h₃]
      simp [ticksIn, hp₃.1, hnot, Runs.count]
    rw [Runs.count_append _ hfs, hlast]
    omega
  · intro s user k' hk' hclock hs
    obtain ⟨hticks, hproc⟩ := agingAt_proc k s
    obtain ⟨-, hnext, hlt⟩ := tick_ticks hclock hk' rfl
    have hwaited : (k.agingAt s).waited s =
        ((k.agingAt s).proc s).waited (k.agingAt s).ticks := rfl
    have hstart : Started k s := by
      rw [hproc] at hs
      rcases (k.proc s).woken_state (some .ticks) with h | ⟨h, -⟩
      · exact started_of_ne ha.ctl (by rw [← h, hs]; decide) (by rw [← h, hs]; decide)
      · exact started_of_ne ha.ctl (by rw [h]; decide) (by rw [h]; decide)
    have hin := ((ha.times s hstart).woken (some .ticks)).1
    rw [hwaited, hproc, hticks, hnext, hin.waited hlt]
    exact hin.idle_nonneg

/-- The first process uses up its slice at level 0 and is not dispatched again. -/
def demotedRun : List Event := [.schedule, .tick true]

theorem mlfq_aging_demotedRun : ∃ k k', Runs.exec (step .MLFQ) (boot 1 1) demotedRun = some k ∧
    (k.proc 0).qno = 1 ∧
    Runs.exec (step .MLFQ) k (List.replicate 51 (.tick true)) = some k' ∧
    (k'.proc 0).qno.val + min 1 1 ≤ 1 := by
  obtain ⟨k, hk, k', hk', hqno, hmeets, hcount⟩ :
      ∃ k ∈ Runs.exec (step .MLFQ) (boot 1 1) demotedRun,
        ∃ k' ∈ Runs.exec (step .MLFQ) k (List.replicate 51 (.tick true)), (k.proc 0).qno = 1 ∧
          Runs.Meets (step .MLFQ) (fun k e => ClockRoom k e ∧ (k.proc 0).state = RUNNABLE)
            k (List.replicate 51 (.tick true)) ∧
          Runs.count (step .MLFQ) (fun _ e _ => e.isTick) k (List.replicate 51 (.tick true)) = 51 := by
    decide +kernel
  have hroom : Runs.Meets (step .MLFQ) ClockRoom (boot 1 1) demotedRun := by decide +kernel
  have haged := (mlfq_aging 1 1 demotedRun k hk hroom).1 0 1 _ k' hk' hmeets hcount.ge
  rw [hqno] at haged
  exact ⟨k, k', hk, hqno, hk', haged⟩

end Xv6.Sched
