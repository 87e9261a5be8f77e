import Xv6.Sched.Times

/-!
# The statistics of the MLFQ build

`trap` counts a timer interrupt of a process in `rtime`, in `stat.runtime` and in
`stat.ticks[qno]`, and the scheduler counts a dispatch in `stat.num_run`.
-/

namespace Xv6.Sched
open Lib ProcState Kernel Function

structure Tally where
  ticks : Level → ℕ
  dispatches : ℕ
  clock : ℕ

namespace Tally

def boot : Tally := ⟨fun _ => 0, 0, 0⟩

def create (t : Tally) : Tally := ⟨fun _ => 0, 0, t.clock⟩

def interrupt (t : Tally) (l : Level) : Tally :=
  { t with ticks := update t.ticks l (t.ticks l + 1) }

def total (t : Tally) : ℕ := ∑ l, t.ticks l

def record (s : Slot) (t : Tally) (k : Kernel) (e : Event) (k' : Kernel) : Tally :=
  match e with
  | .alloc => if k.firstUnused = some s then t.create else t
  | .tick _ =>
    if k.cpu = .running ∧ k.cur = some s then
      { t.interrupt (k.proc s).qno with clock := t.clock + 1 }
    else { t with clock := t.clock + 1 }
  | .schedule =>
    if k'.cpu = .running ∧ k'.cur = some s then { t with dispatches := t.dispatches + 1 } else t
  | _ => t

theorem total_interrupt (t : Tally) (l : Level) : (t.interrupt l).total = t.total + 1 := by
  have hmem : l ∈ (Finset.univ : Finset Level) := Finset.mem_univ l
  simp only [total, interrupt]
  rw [Finset.sum_update_of_mem hmem, ← Finset.add_sum_erase _ t.ticks hmem,
    Finset.sdiff_singleton_eq_erase]
  omega

end Tally

def ProcStat.interrupted (x : ProcStat) (l : Level) : ProcStat :=
  { x with
    runtime := int32 (x.runtime + 1)
    ticks := update x.ticks l (int32 (x.ticks l + 1)) }

theorem Proc.timed_stat (b : Build) (now : ℕ) (current : Bool) (x : Proc) :
    (x.timed b now current).stat =
      if current ∧ x.state = RUNNING then x.stat.interrupted x.qno else x.stat := by
  have hwoken : ∀ y : Proc, (y.woken (some .ticks)).stat = y.stat := fun y => by
    simp only [Proc.woken]
    split_ifs <;> rfl
  have haged : ∀ y : Proc, (y.aged now).stat = y.stat ∧ (y.aged now).state = y.state := fun y => by
    obtain ⟨l, rr, a, h⟩ := y.aged_eq now
    rw [h]
    exact ⟨rfl, rfl⟩
  have haccounted : ∀ y : Proc, y.state ≠ RUNNING → y.accounted.stat = y.stat := fun y hy => by
    simp only [Proc.accounted, if_neg hy]
    split_ifs <;> rfl
  by_cases hrun : x.state = RUNNING
  · -- a running process is neither woken nor aged
    have hw : x.woken (some .ticks) = x := if_neg fun h => by
      rw [hrun] at h
      cases h.1
    have ha : x.aged now = x := if_neg fun h => by
      rw [hrun] at h
      cases h.1
    have hacc : x.accounted.stat = x.stat.interrupted x.qno := by
      simp only [Proc.accounted, if_pos hrun, ProcStat.interrupted]
    simp only [Proc.timed, hw, ha, ite_self, hrun, and_true]
    split_ifs
    · exact hacc
    · rfl
  · have hstate : (x.woken (some .ticks)).state ≠ RUNNING := mt woken_running.mp hrun
    rw [if_neg fun h => hrun h.2]
    simp only [Proc.timed]
    split_ifs
    · rw [haccounted _ (by rw [(haged _).2]; exact hstate), (haged _).1, hwoken]
    · rw [haccounted _ hstate, hwoken]
    · rw [(haged _).1, hwoken]
    · exact hwoken x

section Stat

variable {b : Build} {k k₁ k' : Kernel} {e : Event} {p s : Slot}

theorem timer_stat (hsole : Sole k) : ((k.timer b).proc s).stat =
    if (k.proc s).state = RUNNING then (k.proc s).stat.interrupted (k.proc s).qno
    else (k.proc s).stat := by
  rw [timer_proc, Proc.timed_stat]
  by_cases hrun : (k.proc s).state = RUNNING
  · simp [hrun, (hsole s hrun).2]
  · simp [hrun]

theorem tick_stat (hc : Ctl k) (hsole : Sole k) (h : step b k e = some k') (ht : e.isTick = true) :
    (k'.proc s).stat =
      if k.cpu = .running ∧ k.cur = some s then (k.proc s).stat.interrupted (k.proc s).qno
      else (k.proc s).stat := by
  have hrunning : (k.proc s).state = RUNNING ↔ k.cpu = .running ∧ k.cur = some s :=
    ⟨hsole s, fun h => hc.state_cur h.1 h.2⟩
  have htimer := timer_stat (b := b) (s := s) hsole
  simp only [hrunning] at htimer
  rw [← htimer]
  cases step_cases h with
  | tick p user hcpu hcur _ =>
    by_cases hsp : s = p
    · subst hsp
      have hrun := timer_running (b := b) |>.mpr (hc.state_cur hcpu hcur)
      obtain ⟨l, rr, hnext⟩ := ((k.timer b).proc s).nextSlice_eq
      rcases tick_proc_self b k user _ rfl hrun with h | h | ⟨-, -, h⟩
      · rw [h]
      · rw [h]
      · rw [h, hnext]
    · rw [tick_proc_of_ne b k user hsp]
  | tickIdle user _ => rfl
  | _ => cases ht

theorem schedule_stat (h : step .MLFQ k .schedule = some k') :
    (k'.proc s).stat = if k'.cpu = .running ∧ k'.cur = some s
      then { (k.proc s).stat with num_run := int32 ((k.proc s).stat.num_run + 1) }
      else (k.proc s).stat := by
  rcases (schedule_passes h).proc with ⟨p, -, hproc, hcpu, hcur⟩ | ⟨hproc, hcpu⟩
  · rw [hproc, hcpu, hcur, setProc_proc]
    by_cases hsp : s = p
    · subst hsp
      simp only [Proc.dispatched, if_true, and_self]
    · rw [if_neg hsp, if_neg fun h => hsp (Option.some.inj h.2).symm]
  · rw [hproc, hcpu, if_neg fun h => by cases h.1]

theorem stat_of_step (hc : Ctl k) (h : step b k e = some k') (ht : e.isTick = false)
    (hs : e ≠ .schedule) (ha : e ≠ .alloc) : (k'.proc s).stat = (k.proc s).stat := by
  change (k'.info s).stat = (k.info s).stat
  cases step_change hc h ht s with
  | taken p he hk hst hi => exact absurd he ha
  | dispatched he hst hi hcpu hcur => exact absurd he hs
  | _ => simp_all only

end Stat

structure Tallied (s : Slot) (k : Kernel) (t : Tally) : Prop where
  ctl : Ctl k
  sole : Sole k
  clock : k.ticks = t.clock % 2 ^ 32
  stat : (k.proc s).state ≠ UNUSED → (∀ l, (k.proc s).stat.ticks l = int32 (t.ticks l)) ∧
    (k.proc s).stat.runtime = int32 t.total ∧ (k.proc s).stat.num_run = int32 t.dispatches
  filling : ∀ p, k.kont p = .forkStack s → t.total = 0
  times : (k.proc s).state ≠ UNUSED → (∀ p, k.kont p ≠ .forkStack s) →
    (k.proc s).rtime = int32 t.total ∧
      ∃ c : ℕ, (k.proc s).ctime = int32 c ∧ c + t.total ≤ t.clock

section Tallied

variable {k k' : Kernel} {e : Event} {p s : Slot} {t : Tally}

theorem int32_zero : int32 ((0 : ℕ) : ℤ) = 0 := by decide

theorem int32_succ (n : ℕ) : int32 (int32 n + 1) = int32 (n + 1 : ℕ) := by
  refine int32_congr ?_
  have := int32_dvd n
  push_cast
  omega

theorem filling_of_step {b : Build} (hc : Ctl k) (h : step b k e = some k') (he : e ≠ .alloc)
    (hp : k'.kont p = .forkStack s) : k.kont p = .forkStack s := by
  have hembryo : (k'.proc s).state = EMBRYO := ((step_effect hc h).1.fork p s (by rw [hp]; rfl)).1
  refine (step_forkStack h hp).resolve_right (used_of_step hc h he ?_)
  rw [hembryo]
  exact nofun

theorem Tallied.alloc (hi : Tallied s k t) {r : Slot} (hk : k.kont p = .user)
    (h : step .MLFQ k .alloc = some ((k.allocproc r).setKont p (.forkStack r))) :
    Tallied s ((k.allocproc r).setKont p (.forkStack r)) (if r = s then t.create else t) := by
  have hc := (step_effect hi.ctl h).1
  have hsole := hi.sole.step hi.ctl h
  by_cases hrs : r = s
  · subst hrs
    rw [if_pos rfl]
    have hstat : ((k.allocproc r).proc r).stat = ⟨k.nextpid, 0, 0, 0, fun _ => 0⟩ := by
      simp [allocproc]
    have htotal : t.create.total = 0 := Finset.sum_const_zero
    refine ⟨hc, hsole, hi.clock, fun _ => ?_, fun q _ => htotal, fun _ hno => ?_⟩
    · rw [setKont_proc, hstat, htotal, int32_zero]
      exact ⟨fun _ => int32_zero.symm, rfl, int32_zero.symm⟩
    · exact absurd (by rw [setKont_kont, if_pos rfl]) (hno p)
  · rw [if_neg hrs]
    have hproc : ((k.allocproc r).setKont p (.forkStack r)).proc s = k.proc s :=
      allocproc_of_ne (Ne.symm hrs)
    have hkont : ∀ q, ((k.allocproc r).setKont p (.forkStack r)).kont q = .forkStack s ↔
        k.kont q = .forkStack s := by
      intro q
      rw [setKont_kont]
      by_cases hqp : q = p
      · subst hqp
        simp [hk, hrs]
      · rw [if_neg hqp]
        rfl
    refine ⟨hc, hsole, hi.clock, fun hu => ?_, fun q hq => hi.filling q ((hkont q).mp hq),
      fun hu hno => ?_⟩
    · rw [hproc] at hu ⊢
      exact hi.stat hu
    · rw [hproc] at hu ⊢
      exact hi.times hu fun q hq => hno q ((hkont q).mpr hq)

theorem Tallied.tick (hi : Tallied s k t) (h : step .MLFQ k e = some k') (ht : e.isTick = true) :
    Tallied s k' (t.record s k e k') := by
  have hticks : k'.ticks = k.nextTick := by rw [step_ticks h, ht, if_pos rfl]
  have hal : e ≠ .alloc := by
    rintro rfl
    cases ht
  have hst : ∀ page, e ≠ .stack page := by
    rintro page rfl
    cases ht
  have hrec : t.record s k e k' = if k.cpu = .running ∧ k.cur = some s
      then { t.interrupt (k.proc s).qno with clock := t.clock + 1 }
      else { t with clock := t.clock + 1 } := by
    cases e with
    | tick user => rfl
    | _ => cases ht
  have hused : (k'.proc s).state ≠ UNUSED ↔ (k.proc s).state ≠ UNUSED :=
    not_congr (tick_times hi.ctl h ht s).2.2
  have hkont : (∀ p, k'.kont p ≠ .forkStack s) → ∀ p, k.kont p ≠ .forkStack s := fun hno p hp =>
    (forkStack_step h hp).elim (hno p) fun hstack => hst _ hstack.2.choose_spec
  have hclock : k'.ticks = (t.clock + 1) % 2 ^ 32 := by
    have := hi.clock
    rw [hticks, nextTick]
    omega
  have hstat := tick_stat (s := s) hi.ctl hi.sole h ht
  have hctime : (k'.proc s).ctime = (k.proc s).ctime := ctime_of_step hi.ctl h hst
  have htimes := congrArg Times.rtime (tick_times hi.ctl h ht s).1
  by_cases hon : k.cpu = .running ∧ k.cur = some s
  · have hrun := hi.ctl.state_cur hon.1 hon.2
    have hlive : (k.proc s).state ≠ UNUSED := by
      rw [hrun]
      exact nofun
    rw [if_pos hon] at hstat hrec
    rw [if_pos hon.2] at htimes
    have hrtime : (k'.proc s).rtime = int32 ((k.proc s).rtime + 1) :=
      htimes.trans (if_pos (woken_running.mpr hrun))
    have htotal := t.total_interrupt (k.proc s).qno
    have hcount : (t.record s k e k').total = t.total + 1 := by
      rw [hrec]
      exact htotal
    obtain ⟨hlevel, hruntime, hnum⟩ := hi.stat hlive
    refine ⟨(step_effect hi.ctl h).1, hi.sole.step hi.ctl h, by rw [hrec]; exact hclock,
      fun _ => ?_, fun p hp => ?_, fun _ hno => ?_⟩
    · rw [hcount, hstat, hrec]
      refine ⟨fun l => ?_, ?_, hnum⟩
      · simp only [ProcStat.interrupted, Tally.interrupt]
        by_cases hl : l = (k.proc s).qno
        · rw [hl, update_self, update_self, hlevel, int32_succ]
        · rw [update_of_ne hl, update_of_ne hl, hlevel]
      · simp only [ProcStat.interrupted, hruntime, int32_succ]
    · -- a process that is being set up is not RUNNING
      have hembryo := (hi.ctl.fork p s (by rw [filling_of_step hi.ctl h hal hp]; rfl)).1
      rw [hrun] at hembryo
      cases hembryo
    · obtain ⟨hr, c, hc, hle⟩ := hi.times hlive (hkont hno)
      rw [hcount, hrtime, hr, hctime, int32_succ]
      refine ⟨rfl, c, hc, ?_⟩
      rw [hrec]
      exact Nat.succ_le_succ hle
  · rw [if_neg hon] at hstat hrec
    have hrtime : (k'.proc s).rtime = (k.proc s).rtime := by
      have hnot : (k.proc s).state ≠ RUNNING := fun hrun => hon (hi.sole s hrun)
      split_ifs at htimes
      · exact htimes.trans (if_neg (mt woken_running.mp hnot))
      · exact htimes
    have hcount : (t.record s k e k').total = t.total := by
      rw [hrec]
      rfl
    refine ⟨(step_effect hi.ctl h).1, hi.sole.step hi.ctl h, by rw [hrec]; exact hclock,
      fun hu => ?_, fun p hp => ?_, fun hu hno => ?_⟩
    · rw [hcount, hstat, hrec]
      exact hi.stat (hused.mp hu)
    · rw [hcount]
      exact hi.filling p (filling_of_step hi.ctl h hal hp)
    · obtain ⟨hr, c, hc, hle⟩ := hi.times (hused.mp hu) (hkont hno)
      rw [hcount, hrtime, hctime, hrec]
      exact ⟨hr, c, hc, Nat.le_succ_of_le hle⟩

theorem Tallied.stack {page : ℕ} (hi : Tallied s k t) (hcur : k.cur = some p)
    (hk : k.kont p = .forkStack s) (h : step .MLFQ k (.stack page) = some k') : Tallied s k' t := by
  have htotal := hi.filling p hk
  have hkont : ∀ q, k'.kont q ≠ .forkStack s := by
    intro q hq
    have hold := filling_of_step hi.ctl h nofun hq
    obtain rfl := hi.ctl.inj q p s (by rw [hold]; rfl) (by rw [hk]; rfl)
    rw [stack_step h hcur hk, setKont_kont, if_pos rfl] at hq
    split_ifs at hq
  refine ⟨(step_effect hi.ctl h).1, hi.sole.step hi.ctl h, ?_, fun hu => ?_,
    fun q hq => absurd hq (hkont q), fun hu _ => ?_⟩
  · rw [step_ticks h]
    exact hi.clock
  · rw [stat_of_step hi.ctl h rfl nofun nofun]
    exact hi.stat (used_of_step hi.ctl h nofun hu)
  · have hpage : page ≠ 0 := by
      rintro rfl
      refine hu ?_
      rw [stack_step h hcur hk, setKont_proc, allocStack, setProc_self, if_pos rfl]
    rw [stack_step h hcur hk, setKont_proc, allocStack_self k s hpage, htotal]
    have hnow : int32 (k.ticks : ℤ) = int32 (t.clock : ℤ) := int32_congr (by
      have := hi.clock
      omega)
    refine ⟨int32_zero.symm, t.clock, ?_, le_rfl⟩
    dsimp only
    exact hnow

theorem Tallied.step (hi : Tallied s k t) (h : Sched.step .MLFQ k e = some k') :
    Tallied s k' (t.record s k e k') := by
  by_cases hal : e = .alloc
  · subst hal
    cases step_cases h with
    | alloc p r hcpu hcur hk hfree =>
      have hrec : t.record s k .alloc ((k.allocproc r).setKont p (.forkStack r)) =
          if r = s then t.create else t := by
        simp only [Tally.record, hfree, Option.some.injEq]
      rw [hrec]
      exact hi.alloc hk h
    | full p hcpu hcur hfull =>
      have hrec : t.record s k .alloc k = t := by
        simp [Tally.record, hfull]
      rw [hrec]
      exact hi
  cases ht : e.isTick with
  | true => exact hi.tick h ht
  | false =>
    by_cases hfill : ∃ p page, e = .stack page ∧ k.cur = some p ∧ k.kont p = .forkStack s
    · obtain ⟨p, page, rfl, hcur, hk⟩ := hfill
      exact hi.stack hcur hk h
    have hticks : k'.ticks = k.ticks := by rw [step_ticks h, ht, if_neg Bool.false_ne_true]
    have hused : (k'.proc s).state ≠ UNUSED → (k.proc s).state ≠ UNUSED :=
      used_of_step hi.ctl h hal
    have hkont : (∀ p, k'.kont p ≠ .forkStack s) → ∀ p, k.kont p ≠ .forkStack s :=
      fun hno p hp => (forkStack_step h hp).elim (hno p) fun ⟨hcur, page, he⟩ =>
        hfill ⟨p, page, he, hcur, hp⟩
    have hcounts : (t.record s k e k').clock = t.clock ∧ (t.record s k e k').ticks = t.ticks := by
      cases e with
      | alloc => exact absurd rfl hal
      | tick user => cases ht
      | schedule =>
        simp only [Tally.record]
        split_ifs <;> exact ⟨rfl, rfl⟩
      | _ => exact ⟨rfl, rfl⟩
    have htotal : (t.record s k e k').total = t.total := by
      simp only [Tally.total, hcounts.2]
    refine ⟨(step_effect hi.ctl h).1, hi.sole.step hi.ctl h, by rw [hticks, hcounts.1]; exact hi.clock,
      fun hu => ?_, fun p hp => ?_, fun hu hno => ?_⟩
    · rw [htotal, hcounts.2]
      obtain ⟨hlevel, hruntime, hnum⟩ := hi.stat (hused hu)
      by_cases hs : e = .schedule
      · subst hs
        rw [schedule_stat h]
        simp only [Tally.record]
        split_ifs
        · exact ⟨hlevel, hruntime, by rw [hnum, int32_succ]⟩
        · exact ⟨hlevel, hruntime, hnum⟩
      · have hrec : t.record s k e k' = t := by
          cases e with
          | alloc => exact absurd rfl hal
          | tick user => cases ht
          | schedule => exact absurd rfl hs
          | _ => rfl
        rw [stat_of_step hi.ctl h ht hs hal, hrec]
        exact ⟨hlevel, hruntime, hnum⟩
    · rw [htotal]
      exact hi.filling p (filling_of_step hi.ctl h hal hp)
    · have hno' := hkont hno
      have hcreated : Created s k := ⟨hi.ctl, hi.sole, hno'⟩
      obtain ⟨hct, hrt, -⟩ := hcreated.times h ht (hused hu) hu
      rw [htotal, hcounts.1, hct, hrt]
      exact hi.times (hused hu) hno'

theorem boot_tallied (kstack pgdir : ℕ) (s : Slot) : Tallied s (boot kstack pgdir) .boot := by
  have htotal : Tally.boot.total = 0 := Finset.sum_const_zero
  have hproc : ((boot kstack pgdir).proc s).stat.ticks = (fun _ => 0) ∧
      ((boot kstack pgdir).proc s).stat.runtime = 0 ∧
      ((boot kstack pgdir).proc s).stat.num_run = 0 ∧ ((boot kstack pgdir).proc s).rtime = 0 ∧
      ((boot kstack pgdir).proc s).ctime = 0 := by
    by_cases hs : s = 0
    · subst hs
      have hnow : (image.allocproc 0).ticks = 0 := rfl
      have hslot : (image.allocproc 0).proc 0 = { unusedProc with
          state := EMBRYO
          priority := 60
          pid := 1
          stat := ⟨1, 0, 0, 0, fun _ => 0⟩ } := by
        simp only [allocproc, setQ_proc, setProc_self]
        rfl
      simp only [boot, setProc_self, allocStack, hnow, hslot, int32_zero]
      split_ifs <;> exact ⟨rfl, rfl, rfl, rfl, rfl⟩
    · rw [boot_proc kstack pgdir hs]
      exact ⟨rfl, rfl, rfl, rfl, rfl⟩
  obtain ⟨hticks, hruntime, hnum, hrtime, hctime⟩ := hproc
  refine ⟨boot_ctl kstack pgdir, boot_sole kstack pgdir, rfl, fun _ => ?_, fun p h => (by cases h),
    fun _ _ => ?_⟩
  · rw [htotal, hticks, hruntime, hnum]
    exact ⟨fun _ => int32_zero.symm, int32_zero.symm, int32_zero.symm⟩
  · rw [htotal, hrtime, hctime]
    exact ⟨int32_zero.symm, 0, int32_zero.symm, le_rfl⟩

end Tallied

def tally (kstack pgdir : ℕ) (es : List Event) (s : Slot) : Tally :=
  Runs.track (step .MLFQ) (Tally.record s) .boot (boot kstack pgdir) es

theorem int32_le {n : ℕ} : int32 n ≤ n := by
  have hdvd := int32_dvd n
  have hlt : int32 (n : ℤ) < 2 ^ 31 := Int.bmod_lt (m := 2 ^ 32) (by decide)
  have hge : -(2 ^ 31) ≤ int32 (n : ℤ) := Int.le_bmod (m := 2 ^ 32) (by decide)
  omega

theorem int32_sum (f : Level → ℕ) : int32 (∑ l, int32 (f l)) = int32 (∑ l, f l : ℕ) := by
  refine int32_congr ?_
  push_cast
  rw [← Finset.sum_sub_distrib]
  exact Finset.dvd_sum fun l _ => int32_dvd (f l)

theorem statistics_exact (kstack pgdir : ℕ) (es : List Event) (k : Kernel)
    (hrun : Runs.exec (step .MLFQ) (boot kstack pgdir) es = some k) (s : Slot)
    (hs : (k.proc s).state ≠ UNUSED) (hs' : (k.proc s).state ≠ EMBRYO) :
    (k.proc s).rtime = (k.proc s).stat.runtime ∧
      (k.proc s).rtime = int32 (∑ l, (k.proc s).stat.ticks l) ∧
      (∀ l, (k.proc s).stat.ticks l = int32 ((tally kstack pgdir es s).ticks l)) ∧
      (k.proc s).stat.num_run = int32 (tally kstack pgdir es s).dispatches ∧
      ((tally kstack pgdir es s).total < 2 ^ 31 →
        (k.proc s).rtime = ∑ l, (k.proc s).stat.ticks l ∧
          ∀ l, (k.proc s).stat.ticks l = (tally kstack pgdir es s).ticks l) ∧
      ((tally kstack pgdir es s).dispatches < 2 ^ 31 →
        (k.proc s).stat.num_run = (tally kstack pgdir es s).dispatches) ∧
      ((tally kstack pgdir es s).clock < 2 ^ 32 →
        (k.proc s).ctime + (k.proc s).rtime ≤ k.ticks) := by
  have hi : Tallied s k (tally kstack pgdir es s) :=
    Runs.exec_track (step .MLFQ) (fun _ _ _ _ hI h => hI.step h) (boot_tallied kstack pgdir s) hrun
  generalize tally kstack pgdir es s = t at hi ⊢
  have hkont : ∀ p, k.kont p ≠ .forkStack s := fun p hp =>
    hs' (hi.ctl.fork p s (by rw [hp]; rfl)).1
  obtain ⟨hlevel, hruntime, hnum⟩ := hi.stat hs
  obtain ⟨hrtime, c, hctime, hle⟩ := hi.times hs hkont
  have hsum : int32 (∑ l, (k.proc s).stat.ticks l) = int32 t.total := by
    simp only [hlevel]
    exact int32_sum t.ticks
  have hfits : ∀ {n : ℕ}, n < 2 ^ 31 → int32 n = n := fun hn =>
    int32_of_lt (Int.natCast_nonneg _) (by exact_mod_cast hn)
  refine ⟨by rw [hrtime, hruntime], by rw [hrtime, hsum], hlevel, hnum, fun hlt => ?_,
    fun hlt => by rw [hnum, hfits hlt], fun hwrap => ?_⟩
  · have hticks : ∀ l, (k.proc s).stat.ticks l = t.ticks l := fun l => by
      have hl : t.ticks l ≤ t.total := Finset.single_le_sum (fun _ _ => Nat.zero_le _)
        (Finset.mem_univ l)
      rw [hlevel, hfits (lt_of_le_of_lt hl hlt)]
    refine ⟨?_, hticks⟩
    rw [hrtime, hfits hlt]
    simp only [hticks, Tally.total, Nat.cast_sum]
  · have hclock := hi.clock
    rw [Nat.mod_eq_of_lt hwrap] at hclock
    have hc : int32 (c : ℤ) ≤ c := int32_le
    have ht : int32 (t.total : ℤ) ≤ t.total := int32_le
    rw [hctime, hrtime, hclock]
    omega

def threeTicksRun : List Event :=
  [.schedule, .tick true, .schedule, .tick true, .tick true, .schedule]

theorem statistics_exact_threeTicksRun : ∃ k,
    Runs.exec (step .MLFQ) (boot 1 1) threeTicksRun = some k ∧
      (k.proc 0).stat.ticks 0 = 1 ∧ (k.proc 0).stat.ticks 1 = 2 ∧ (k.proc 0).stat.num_run = 3 ∧
      (k.proc 0).rtime = ∑ l, (k.proc 0).stat.ticks l := by
  obtain ⟨k, hk, hstate⟩ : ∃ k ∈ Runs.exec (step .MLFQ) (boot 1 1) threeTicksRun,
      (k.proc 0).state = RUNNING := by decide +kernel
  have ht : (tally 1 1 threeTicksRun 0).total < 2 ^ 31 ∧
      (tally 1 1 threeTicksRun 0).dispatches = 3 ∧ (tally 1 1 threeTicksRun 0).ticks 0 = 1 ∧
      (tally 1 1 threeTicksRun 0).ticks 1 = 2 := by decide +kernel
  obtain ⟨htotal, hdisp, hzero, hone⟩ := ht
  obtain ⟨-, -, -, -, hexact, hnum, -⟩ := statistics_exact 1 1 threeTicksRun k hk 0
    (by rw [hstate]; exact nofun) (by rw [hstate]; exact nofun)
  obtain ⟨hsum, hticks⟩ := hexact htotal
  refine ⟨k, hk, ?_, ?_, ?_, hsum⟩
  · rw [hticks, hzero]
    rfl
  · rw [hticks, hone]
    rfl
  · rw [hnum (by rw [hdisp]; decide), hdisp]
    rfl

def napCycle : List Event := [.sleep (.other 0), .wakeup (.other 0), .schedule]

structure Napping (k : Kernel) : Prop where
  cpu : k.cpu = .running
  cur : k.cur = some 0
  kont : k.kont 0 = .user
  queue : (k.q 0).cnt = 1
  head : (k.q 0).arr 0 = 0

theorem Napping.cycle {k : Kernel} (h : Napping k) : ∃ k',
    Runs.exec (step .MLFQ) k napCycle = some k' ∧ Napping k' ∧ ∀ t,
      (Runs.track (step .MLFQ) (Tally.record 0) t k napCycle).dispatches = t.dispatches + 1 := by
  -- asleep, then awake
  have hsleep : step .MLFQ k (.sleep (.other 0)) = some (k.sleep .MLFQ 0 (.other 0)) := by
    simp only [step, h.cpu, h.cur, procStep, h.kont]
  have hwake : step .MLFQ (k.sleep .MLFQ 0 (.other 0)) (.wakeup (.other 0)) =
      some ((k.sleep .MLFQ 0 (.other 0)).wakeup1 (some (.other 0))) := rfl
  have hready : (((k.sleep .MLFQ 0 (.other 0)).wakeup1 (some (.other 0))).proc 0).state =
      RUNNABLE := by
    simp [Kernel.sleep, Kernel.sched, Kernel.wakeup1]
  have hidle : ((k.sleep .MLFQ 0 (.other 0)).wakeup1 (some (.other 0))).cpu = .idle := rfl
  have hq : ((k.sleep .MLFQ 0 (.other 0)).wakeup1 (some (.other 0))).q = k.q := rfl
  have hkont : ((k.sleep .MLFQ 0 (.other 0)).wakeup1 (some (.other 0))).kont = k.kont := rfl
  generalize (k.sleep .MLFQ 0 (.other 0)).wakeup1 (some (.other 0)) = m at *
  have hfind : m.findRunnable 0 = (some 0, (m.q 0).touch 0) := by
    have hcnt : (m.q 0).cnt.toNat = 1 := by rw [hq, h.queue]; rfl
    have hhead : (m.q 0).arr 0 = 0 := by rw [hq, h.head]
    simp only [findRunnable, CountedArray.findFirst, hcnt, CountedArray.findFirstFrom, hhead, hready,
      beq_self_eq_true, if_true]
  have hpass : step .MLFQ m .schedule = some (dispatch .MLFQ (m.setQ 0 ((m.q 0).touch 0)) 0) := by
    have hhead : ((m.q 0).touch 0).arr 0 = 0 := by rw [CountedArray.touch_arr, hq, h.head]
    simp only [step, hidle, schedulePass, queuePass, hfind, hhead]
  refine ⟨_, (Runs.exec_cons _).mpr ⟨_, hsleep, (Runs.exec_cons _).mpr ⟨_, hwake,
    (Runs.exec_cons _).mpr ⟨_, hpass, rfl⟩⟩⟩, ⟨rfl, rfl, ?_, ?_, ?_⟩, fun t => ?_⟩
  · exact (congrFun hkont 0).trans h.kont
  · change ((m.setQ 0 ((m.q 0).touch 0)).q 0).cnt = 1
    rw [setQ_q, if_pos rfl, CountedArray.touch_cnt, hq, h.queue]
  · change ((m.setQ 0 ((m.q 0).touch 0)).q 0).arr 0 = 0
    rw [setQ_q, if_pos rfl, CountedArray.touch_arr, hq, h.head]
  · simp only [napCycle, Runs.track, hsleep, hwake, hpass]
    rfl

theorem Napping.cycles {k : Kernel} (h : Napping k) (n : ℕ) (t : Tally) : ∃ k',
    Runs.exec (step .MLFQ) k (List.replicate n napCycle).flatten = some k' ∧ Napping k' ∧
      (Runs.track (step .MLFQ) (Tally.record 0) t k
        (List.replicate n napCycle).flatten).dispatches = t.dispatches + n := by
  induction n generalizing k t with
  | zero => exact ⟨k, rfl, h, rfl⟩
  | succ n ih =>
    obtain ⟨m, hm, hnap, hcount⟩ := h.cycle
    obtain ⟨k', hk', hnap', hcounts⟩ := ih hnap (Runs.track (step .MLFQ) (Tally.record 0) t k napCycle)
    rw [List.replicate_succ, List.flatten_cons]
    refine ⟨k', (Runs.exec_append _).mpr ⟨m, hm, hk'⟩, hnap', ?_⟩
    rw [Runs.track_append _ hm, hcounts, hcount t]
    omega

theorem dispatched_often (n : ℕ) : ∃ es k, Runs.exec (step .MLFQ) (boot 1 1) es = some k ∧
    (k.proc 0).state = RUNNING ∧ (tally 1 1 es 0).dispatches = n + 1 ∧
    (k.proc 0).stat.num_run = int32 (n + 1 : ℕ) := by
  obtain ⟨m, hm, hcpu, hcur, hkont, hcnt, hhead, hfirst⟩ :
      ∃ k ∈ step .MLFQ (boot 1 1) .schedule, k.cpu = .running ∧ k.cur = some 0 ∧ k.kont 0 = .user ∧
        (k.q 0).cnt = 1 ∧ (k.q 0).arr 0 = 0 ∧
        (Tally.record 0 .boot (boot 1 1) .schedule k).dispatches = 1 := by decide +kernel
  have hnap : Napping m := ⟨hcpu, hcur, hkont, hcnt, hhead⟩
  obtain ⟨k, hk, hnap', hcount⟩ := hnap.cycles n (Tally.record 0 .boot (boot 1 1) .schedule m)
  have hrun : Runs.exec (step .MLFQ) (boot 1 1)
      (.schedule :: (List.replicate n napCycle).flatten) = some k :=
    (Runs.exec_cons _).mpr ⟨m, hm, hk⟩
  have hi : Tallied 0 k (tally 1 1 (.schedule :: (List.replicate n napCycle).flatten) 0) :=
    Runs.exec_track (step .MLFQ) (fun _ _ _ _ hI h => hI.step h) (boot_tallied 1 1 0) hrun
  have hstate := hi.ctl.state_cur hnap'.cpu hnap'.cur
  have hdisp : (tally 1 1 (.schedule :: (List.replicate n napCycle).flatten) 0).dispatches =
      n + 1 := by
    simp only [tally, Runs.track, Option.mem_def.mp hm]
    rw [hcount, hfirst, Nat.add_comm]
  refine ⟨_, k, hrun, hstate, hdisp, ?_⟩
  rw [(hi.stat (by rw [hstate]; decide)).2.2, hdisp]

/-- After `2 ^ 31` dispatches `num_run` is negative. -/
theorem num_run_overflows : ∃ es k, Runs.exec (step .MLFQ) (boot 1 1) es = some k ∧
    (k.proc 0).state = RUNNING ∧ (tally 1 1 es 0).dispatches = 2 ^ 31 ∧
    (k.proc 0).stat.num_run = -2 ^ 31 := by
  obtain ⟨es, k, hrun, hstate, hdisp, hnum⟩ := dispatched_often (2 ^ 31 - 1)
  have hwrap : int32 ((2 ^ 31 - 1 + 1 : ℕ) : ℤ) = -2 ^ 31 := by decide
  exact ⟨es, k, hrun, hstate, hdisp, hnum.trans hwrap⟩

end Xv6.Sched
