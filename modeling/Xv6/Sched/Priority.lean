import Xv6.Sched.RoundRobin

/-!
# The priority scheduler of the PBS build

`scheduler` computes the smallest priority value of the RUNNABLE processes, capped at 200, and then
stops at the processes that have exactly this value.
-/

namespace Xv6.Sched
open Lib Lib.RoundRobin ProcState Kernel

def lower (t : Slot → Proc) (m : ℤ) (s : Slot) : ℤ :=
  if (t s).state = RUNNABLE ∧ (t s).priority < m then (t s).priority else m

def lowest (t : Slot → Proc) (cap : ℤ) : ℤ := slots.foldl (lower t) cap

theorem minPriority_eq (k : Kernel) : k.minPriority = lowest k.proc 200 := rfl

theorem foldl_lower (t : Slot → Proc) (ss : List Slot) (cap : ℤ) : ss.foldl (lower t) cap ≤ cap ∧
    (∀ s ∈ ss, (t s).state = RUNNABLE → ss.foldl (lower t) cap ≤ (t s).priority) ∧
    (ss.foldl (lower t) cap = cap ∨
      ∃ s ∈ ss, (t s).state = RUNNABLE ∧ ss.foldl (lower t) cap = (t s).priority) := by
  induction ss generalizing cap with
  | nil => exact ⟨le_refl _, by simp, .inl rfl⟩
  | cons r ss ih =>
    obtain ⟨hcap, hle, hmin⟩ := ih (lower t cap r)
    rw [List.foldl_cons]
    by_cases hr : (t r).state = RUNNABLE ∧ (t r).priority < cap
    · have hlow : lower t cap r = (t r).priority := if_pos hr
      rw [hlow] at hcap hle hmin ⊢
      refine ⟨hcap.trans (le_of_lt hr.2), fun s hs hrun => ?_, .inr ?_⟩
      · rcases List.mem_cons.mp hs with rfl | hs
        · exact hcap
        · exact hle s hs hrun
      · rcases hmin with hmin | ⟨s, hs, hrun, hmin⟩
        · exact ⟨r, List.mem_cons_self, hr.1, hmin⟩
        · exact ⟨s, List.mem_cons_of_mem r hs, hrun, hmin⟩
    · have hlow : lower t cap r = cap := if_neg hr
      rw [hlow] at hcap hle hmin ⊢
      refine ⟨hcap, fun s hs hrun => ?_, hmin.imp_right ?_⟩
      · rcases List.mem_cons.mp hs with rfl | hs
        · have hge : cap ≤ (t s).priority := by
            by_contra hlt
            exact hr ⟨hrun, by omega⟩
          exact hcap.trans hge
        · exact hle s hs hrun
      · rintro ⟨s, hs, hrun, hmin⟩
        exact ⟨s, List.mem_cons_of_mem r hs, hrun, hmin⟩

theorem lowest_le_cap (t : Slot → Proc) (cap : ℤ) : lowest t cap ≤ cap :=
  (foldl_lower t slots cap).1

theorem lowest_le {t : Slot → Proc} {s : Slot} (cap : ℤ) (hs : (t s).state = RUNNABLE) :
    lowest t cap ≤ (t s).priority :=
  (foldl_lower t slots cap).2.1 s (List.mem_finRange s) hs

theorem lowest_cases (t : Slot → Proc) (cap : ℤ) :
    lowest t cap = cap ∨ ∃ s, (t s).state = RUNNABLE ∧ lowest t cap = (t s).priority :=
  (foldl_lower t slots cap).2.2.imp_right fun ⟨s, _, h⟩ => ⟨s, h⟩

section Steps

variable {k k' : Kernel} {e : Event} {p q s : Slot}

theorem sched_pbs_cpu (m : Kernel) (p : Slot) : (sched .PBS m p).cpu =
    if lowest m.proc 101 < m.mxprt then .idle else .pass (p + 1) :=
  apply_ite Kernel.cpu (lowest m.proc 101 < m.mxprt) { m with cpu := .idle }
    { m with cpu := .pass (p + 1), cur := none }

theorem Kernel.Leaves.pbs (h : Leaves .PBS k k' p) : k'.mxprt = k.mxprt ∧
    (lowest k'.proc 101 < k.mxprt ∧ k'.cpu = .idle ∨
      k.mxprt ≤ lowest k'.proc 101 ∧ k'.cpu = .pass (p + 1)) := by
  obtain ⟨m, rfl, hm, -⟩ := h
  have hproc := sched_proc (k := m) .PBS p
  have hlow : lowest m.proc 101 = lowest (sched .PBS m p).proc 101 := by rw [hproc]
  refine ⟨(sched_calm .PBS m p).2.1.trans hm.mxprt, ?_⟩
  rw [← hlow, ← hm.mxprt, sched_pbs_cpu]
  by_cases hlt : lowest m.proc 101 < m.mxprt
  · exact .inl ⟨hlt, if_pos hlt⟩
  · exact .inr ⟨by omega, if_neg hlt⟩

theorem pbs_pass (h : step .PBS k .schedule = some k') :
    ∃ m, m.proc = k.proc ∧ m.pos = k.pos ∧ k'.mxprt = m.mxprt ∧
      (m = k ∧ k.cpu ≠ .idle ∨ m.mxprt = lowest k.proc 200 ∧ k.cpu = .idle) ∧
      Scans m (·.priority == m.mxprt) .schedule k' := by
  have hmx : ∀ (m : Kernel) (i : ℕ) (P : Proc → Bool), (tablePass .PBS m i P).mxprt = m.mxprt := by
    intro m i P
    simp only [tablePass]
    split <;> rfl
  cases step_cases h with
  | pass i m hpass hm =>
    cases hm
    exact ⟨k, rfl, rfl, hmx _ _ _, .inl ⟨rfl, by simp [hpass]⟩,
      tablePass_scans (pos_pass hpass) rfl⟩
  | schedule hidle =>
    refine ⟨{ k with mxprt := k.minPriority }, rfl, rfl, hmx _ _ _,
      .inr ⟨minPriority_eq k, hidle⟩, ?_⟩
    exact tablePass_scans (pos_idle hidle) rfl

def PassLow (k : Kernel) : Prop :=
  ∀ i, k.cpu = .pass i → ∀ s, (k.proc s).state = RUNNABLE → k.mxprt ≤ (k.proc s).priority

theorem passLow_step (h : step .PBS k e = some k') : PassLow k' := by
  have leaves : ∀ {m : Kernel} {p : Slot}, Leaves .PBS m k' p → PassLow k' := by
    intro m p hleave i hi s hs
    obtain ⟨hmx, ⟨-, hidle⟩ | ⟨hge, -⟩⟩ := hleave.pbs
    · rw [hidle] at hi
      cases hi
    · rw [hmx]
      exact hge.trans (lowest_le 101 hs)
  by_cases hsched : e = .schedule
  · subst hsched
    intro i hi
    rcases (schedule_passes h).proc with ⟨p, -, -, hcpu, -⟩ | ⟨-, hcpu⟩ <;>
      rw [hcpu] at hi <;> cases hi
  · intro i hi
    -- Only the scheduler acts while it is in a pass.
    have hnot : ∀ j, k.cpu ≠ .pass j := by
      intro j hj
      cases e <;> simp [step, hj] at h hsched
    cases ht : e.isTick with
    | false =>
      rcases step_control h hsched ht with hsame | ⟨p, -, -, -, hleave⟩
      · exact absurd (hsame.cpu ▸ hi) (hnot i)
      · exact leaves hleave i hi
    | true =>
      cases step_cases h with
      | tick p user _ _ _ =>
        rcases tick_control .PBS k p user with hsame | hleave
        · exact absurd ((hsame.cpu.trans (timer_cpu .PBS k).cpu) ▸ hi) (hnot i)
        · exact leaves hleave i hi
      | tickIdle user _ => exact absurd ((timer_cpu .PBS k).cpu ▸ hi) (hnot i)
      | _ => cases ht

theorem PassLow.dispatch (hl : PassLow k) (h : step .PBS k .schedule = some k')
    (hd : IsDispatch p k .schedule k') (hs : (k.proc s).state = RUNNABLE) :
    (k.proc p).priority ≤ (k.proc s).priority := by
  obtain ⟨m, hproc, -, -, hwhich, hscan⟩ := pbs_pass h
  rcases hscan with ⟨he, -⟩ | ⟨c, hc, hnext⟩ | ⟨hidle, -⟩
  · exact absurd rfl he
  · have hcp : c = p := Option.some.inj (hc.2.2.symm.trans hd.2.2)
    subst hcp
    obtain ⟨r, hr, -, hprio⟩ := hnext.found
    rw [Fin.ext hr, beq_iff_eq, hproc] at hprio
    rw [hprio]
    rcases hwhich with ⟨rfl, hne⟩ | ⟨hmx, -⟩
    · cases hcpu : m.cpu with
      | idle => exact absurd hcpu hne
      | pass i => exact hl i hcpu s hs
      | running =>
        cases step_cases h with
        | pass i _ hpass _ => rw [hcpu] at hpass; cases hpass
        | schedule hidle => rw [hcpu] at hidle; cases hidle
    · rw [hmx]
      exact lowest_le 200 hs
  · rw [hd.2.1] at hidle
    cases hidle

end Steps

def BackFromTimer (p : Slot) (k : Kernel) (e : Event) (k' : Kernel) : Prop :=
  (e.isTick = true ∨ e = .schedule) ∧ k'.cpu = .running ∧ k'.cur = some p ∧ k'.kont p = k.kont p

theorem pbs_tick_returns {k : Kernel} {p s : Slot} {user : Bool}
    (hrun : (k.proc p).state = RUNNING) (huser : user = true → k.kont p = .user)
    (hback : (k.tick .PBS p user).cpu = .running) (hkont : (k.tick .PBS p user).kont p = k.kont p)
    (hs : ((k.tick .PBS p user).proc s).state = RUNNABLE) :
    ((k.tick .PBS p user).proc p).priority ≤ ((k.tick .PBS p user).proc s).priority := by
  have hrun' : ((k.timer .PBS).proc p).state = RUNNING := timer_running.mpr hrun
  by_cases hkill : (((k.timer .PBS).proc p).killed && user) = true
  · have hexit : k.tick .PBS p user = (k.timer .PBS).setKont p .exiting := by
      simp only [tick, hkill, if_true]
    rw [hexit, setKont_kont, if_pos rfl, huser (Bool.and_eq_true_iff.mp hkill).2] at hkont
    cases hkont
  · have htick : k.tick .PBS p user =
        if (k.timer .PBS).check_priority ((k.timer .PBS).proc p).priority
        then yield .PBS (k.timer .PBS) p else k.timer .PBS := by
      simp only [tick, hkill, if_false, Bool.false_eq_true]
      exact preempt_eq .PBS (k.timer .PBS) p hrun'
    by_cases hcheck : (k.timer .PBS).check_priority ((k.timer .PBS).proc p).priority = true
    · rw [htick, if_pos hcheck] at hback
      exact absurd hback (sched_cpu .PBS p)
    · rw [htick, if_neg hcheck] at hs ⊢
      by_contra hlt
      refine hcheck (List.any_eq_true.mpr ⟨s, List.mem_finRange s, ?_⟩)
      simp only [hs, Bool.and_eq_true, beq_self_eq_true, decide_eq_true_eq, true_and]
      omega

theorem pbs_never_runs_worse (kstack pgdir : ℕ) (es : List Event) (k : Kernel) (e : Event)
    (k' : Kernel) (hrun : Runs.exec (step .PBS) (boot kstack pgdir) es = some k)
    (hstep : step .PBS k e = some k') :
    (∀ p, IsDispatch p k e k' → ∀ s, (k.proc s).state = RUNNABLE →
      (k.proc p).priority ≤ (k.proc s).priority) ∧
    (∀ p, BackFromTimer p k e k' → ∀ s, (k'.proc s).state = RUNNABLE →
      (k'.proc p).priority ≤ (k'.proc s).priority) := by
  have hc := (run_sole hrun).1
  have hlow : PassLow k :=
    Runs.exec_invariant (step .PBS) (I := PassLow) (fun _ _ _ _ h => passLow_step h)
      (fun i hi => by cases hi) hrun
  have hdispatch : ∀ p, IsDispatch p k e k' → ∀ s, (k.proc s).state = RUNNABLE →
      (k.proc p).priority ≤ (k.proc s).priority := by
    rintro p hd s hs
    obtain rfl := hd.1
    exact hlow.dispatch hstep hd hs
  refine ⟨hdispatch, ?_⟩
  rintro p ⟨htick | rfl, hcpu, hcur, hkont⟩ s hs
  · cases step_cases hstep with
    | tick r user hcpu' hcur' huser =>
      have hrp : r = p := by
        rcases tick_control .PBS k r user with hsame | hl
        · have := (hsame.cur.trans (timer_cpu .PBS k).cur).symm.trans hcur
          rw [hcur'] at this
          exact Option.some.inj this
        · obtain ⟨m, hm, -, -⟩ := hl
          rw [hm] at hcpu
          exact absurd hcpu (sched_cpu .PBS r)
      subst hrp
      exact pbs_tick_returns (hc.state_cur hcpu' hcur') huser hcpu hkont hs
    | tickIdle user hidle =>
      rw [(timer_cpu .PBS k).cpu, hidle] at hcpu
      cases hcpu
    | _ => cases htick
  · -- After a dispatch the RUNNABLE processes are those of before, without `p`.
    rcases (schedule_passes hstep).proc with ⟨r, -, hproc, -, hcur'⟩ | ⟨-, hidle⟩
    · have hrp : r = p := Option.some.inj (hcur'.symm.trans hcur)
      subst hrp
      rw [hproc, setProc_proc] at hs
      by_cases hsr : s = r
      · rw [if_pos hsr] at hs
        cases hs
      · rw [if_neg hsr] at hs
        rw [hproc, setProc_self, setProc_of_ne k r _ hsr]
        exact hdispatch r ⟨rfl, hcpu, hcur⟩ s hs
    · rw [hidle] at hcpu
      cases hcpu

theorem pbs_never_runs_worse_sharedRun : ∃ k k',
    Runs.exec (step .PBS) (boot 1 1) sharedRun = some k ∧ step .PBS k .schedule = some k' ∧
      k'.cur = some 1 ∧ (k.proc 0).state = RUNNABLE ∧
      (k.proc 1).priority ≤ (k.proc 0).priority := by
  obtain ⟨k, hk, k', hk', hd, hs⟩ : ∃ k ∈ Runs.exec (step .PBS) (boot 1 1) sharedRun,
      ∃ k' ∈ step .PBS k .schedule, IsDispatch 1 k .schedule k' ∧ (k.proc 0).state = RUNNABLE := by
    decide +kernel
  exact ⟨k, k', hk, hk', hd.2.2, hs,
    (pbs_never_runs_worse 1 1 _ k .schedule k' hk hk').1 1 hd 0 hs⟩

theorem pbs_work_conserving (k : Kernel) (hidle : k.cpu = .idle) :
    (∃ k' p, step .PBS k .schedule = some k' ∧ IsDispatch p k .schedule k') ↔
      ∃ s, (k.proc s).state = RUNNABLE ∧ (k.proc s).priority ≤ 200 := by
  have hstep : step .PBS k .schedule = some (k.schedulePass .PBS) := by simp only [step, hidle]
  obtain ⟨m, hproc, hpos, -, hwhich, hscan⟩ := pbs_pass hstep
  have hmx : m.mxprt = lowest k.proc 200 := by
    rcases hwhich with ⟨-, hne⟩ | ⟨hmx, -⟩
    · exact absurd hidle hne
    · exact hmx
  constructor
  · rintro ⟨k', p, hk', hd⟩
    cases hstep.symm.trans hk'
    rcases hscan with ⟨he, -⟩ | ⟨c, hc, hnext⟩ | ⟨hno, -⟩
    · exact absurd rfl he
    · obtain ⟨s, -, hs, hprio⟩ := hnext.found
      rw [hproc] at hs hprio
      refine ⟨s, hs, ?_⟩
      rw [beq_iff_eq.mp hprio, hmx]
      exact lowest_le_cap k.proc 200
    · rw [hd.2.1] at hno
      cases hno
  · rintro ⟨s, hs, hle⟩
    -- The minimum is attained, by `s` itself if it is the cap.
    have hmin : ∃ r, (k.proc r).state = RUNNABLE ∧ (k.proc r).priority = lowest k.proc 200 := by
      rcases lowest_cases k.proc 200 with hcap | ⟨r, hr, hlow⟩
      · have hlow := lowest_le 200 hs
        exact ⟨s, hs, by omega⟩
      · exact ⟨r, hr, hlow.symm⟩
    obtain ⟨r, hr, hlow⟩ := hmin
    have hready : m.Ready (·.priority == m.mxprt) r :=
      ready_of_runnable (by rw [hproc, hr]) (by rw [hproc, hlow, hmx, beq_self_eq_true])
    rcases hscan with ⟨he, -⟩ | ⟨c, hc, -⟩ | ⟨-, hdone⟩
    · exact absurd rfl he
    · exact ⟨_, c, hstep, hc⟩
    · rw [hpos, pos_idle hidle] at hdone
      exact absurd hready (hdone r (Nat.zero_le _))

theorem pbs_work_conserving_boot : (boot 1 1).cpu = .idle ∧
    ∃ k' p, step .PBS (boot 1 1) .schedule = some k' ∧ IsDispatch p (boot 1 1) .schedule k' :=
  ⟨rfl, (pbs_work_conserving (boot 1 1) rfl).mpr ⟨0, by decide +kernel⟩⟩

def cappedRun : List Event :=
  [.schedule, .setPriority 1 300, .sleep (.other 0), .schedule, .wakeup (.other 0)]

theorem pbs_idle_cappedRun : ∃ k k', Runs.exec (step .PBS) (boot 1 1) cappedRun = some k ∧
    k.cpu = .idle ∧ (k.proc 0).state = RUNNABLE ∧ step .PBS k .schedule = some k' ∧
    ∀ p, ¬IsDispatch p k .schedule k' := by
  obtain ⟨k, hk, k', hk', hidle, hs, hidle'⟩ : ∃ k ∈ Runs.exec (step .PBS) (boot 1 1) cappedRun,
      ∃ k' ∈ step .PBS k .schedule, k.cpu = .idle ∧ (k.proc 0).state = RUNNABLE ∧ k'.cpu = .idle := by
    decide +kernel
  refine ⟨k, k', hk, hidle, hs, hk', fun p hd => ?_⟩
  rw [hd.2.1] at hidle'
  cases hidle'

theorem tick_priority {k k' : Kernel} {e : Event} {b : Build} (hc : Ctl k)
    (h : step b k e = some k') (ht : e.isTick = true) (s : Slot) :
    (k'.proc s).priority = (k.proc s).priority := by
  have htimer : ((k.timer b).proc s).priority = (k.proc s).priority := by
    have hwoken : ((k.proc s).woken (some .ticks)).priority = (k.proc s).priority := by
      simp only [Proc.woken]
      split_ifs <;> rfl
    have haged : ∀ x : Proc, (x.aged k.nextTick).priority = x.priority := fun x => by
      obtain ⟨l, rr, a, h⟩ := x.aged_eq k.nextTick
      rw [h]
    have hacc : ∀ x : Proc, x.accounted.priority = x.priority := fun x => by
      simp only [Proc.accounted]
      split_ifs <;> rfl
    rw [timer_proc]
    simp only [Proc.timed]
    split_ifs
    · rw [hacc, haged, hwoken]
    · rw [hacc, hwoken]
    · rw [haged, hwoken]
    · rw [hwoken]
  cases step_cases h with
  | tick p user hcpu hcur _ =>
    by_cases hsp : s = p
    · subst hsp
      have hrun := timer_running (b := b) |>.mpr (hc.state_cur hcpu hcur)
      rw [← htimer]
      obtain ⟨l, rr, hnext⟩ := ((k.timer b).proc s).nextSlice_eq
      rcases tick_proc_self b k user _ rfl hrun with h | h | ⟨-, -, h⟩ <;> rw [h]
      rw [hnext]
    · rw [tick_proc_of_ne b k user hsp, htimer]
  | tickIdle user _ => exact htimer
  | _ => cases ht

section Equals

variable {k k' : Kernel} {e : Event} {p q s : Slot} {prio : ℤ}

namespace Kernel

def readyAfter (k : Kernel) (e : Event) (s : Slot) : Bool :=
  (k.proc s).state == RUNNABLE || e.isTick && (k.proc s).state == RUNNING ||
    (k.proc s).state == SLEEPING && match e, k.cur with
      | .tick _, _ => (k.proc s).chan == some .ticks
      | .exit, some p => (k.proc s).chan == (k.proc p).parent.map .proc ||
          (k.proc s).chan == some (.proc k.initproc)
      | _, _ => false

structure Reparents (k k' : Kernel) : Prop where
  initproc : k'.initproc = k.initproc
  priority : ∀ s, (k'.proc s).priority = (k.proc s).priority
  chan : ∀ s, (k'.proc s).chan = (k.proc s).chan
  state : ∀ s, (k'.proc s).state = (k.proc s).state ∨
    (k.proc s).state = SLEEPING ∧ (k.proc s).chan = some (.proc k.initproc)

theorem Reparents.refl (k : Kernel) : Reparents k k :=
  ⟨rfl, fun _ => rfl, fun _ => rfl, fun _ => .inl rfl⟩

theorem Reparents.trans {k₁ k₂ : Kernel} (h : Reparents k k₁) (h' : Reparents k₁ k₂) :
    Reparents k k₂ := by
  refine ⟨h'.initproc.trans h.initproc, fun s => (h'.priority s).trans (h.priority s),
    fun s => (h'.chan s).trans (h.chan s), fun s => ?_⟩
  rcases h.state s with hs | hs
  · rcases h'.state s with hs' | hs'
    · exact .inl (hs'.trans hs)
    · rw [hs, h.chan, h.initproc] at hs'
      exact .inr hs'
  · exact .inr hs

theorem reparents_reparent (k : Kernel) (p : Slot) : Reparents k (k.reparent p) := by
  refine foldl_rel Reparents.refl Reparents.trans (fun k s => ?_) slots k
  have hset : Reparents k (k.setProc s fun x => { x with parent := some k.initproc }) := by
    refine ⟨rfl, fun t => ?_, fun t => ?_, fun t => .inl ?_⟩ <;>
      rw [setProc_proc] <;> split_ifs with ht
    all_goals first
      | rw [ht]
      | rfl
  split_ifs
  · refine hset.trans ⟨rfl, fun t => ?_, fun t => ?_, fun t => ?_⟩ <;>
      simp only [wakeup1] <;> split_ifs with ht
    all_goals first
      | rfl
      | exact .inl rfl
      | exact .inr ht
  · exact hset
  · exact .refl k

end Kernel

theorem exitWakes_ready (hcur : k.cur = some p) (hs : ((k.exitWakes p).proc s).state = RUNNABLE) :
    k.readyAfter .exit s = true ∧ ((k.exitWakes p).proc s).priority = (k.proc s).priority := by
  have hrep : Reparents ((k.setKont p .user).wakeup1 ((k.proc p).parent.map .proc))
      (k.exitWakes p) := reparents_reparent _ p
  have hwoken : ((k.setKont p .user).wakeup1 ((k.proc p).parent.map .proc)).proc s =
      (k.proc s).woken ((k.proc p).parent.map .proc) := rfl
  have hstate := hrep.state s
  have hprio := hrep.priority s
  rw [hwoken] at hstate hprio
  simp only [readyAfter, hcur, Event.isTick, Bool.false_and, Bool.or_false, Bool.or_eq_true,
    Bool.and_eq_true, beq_iff_eq]
  by_cases hwake : (k.proc s).state = SLEEPING ∧ (k.proc s).chan = (k.proc p).parent.map .proc
  · rw [Proc.woken, if_pos hwake] at hprio
    exact ⟨.inr ⟨hwake.1, .inl hwake.2⟩, hprio⟩
  · rw [Proc.woken, if_neg hwake] at hprio hstate
    refine ⟨?_, hprio⟩
    rcases hstate with h | ⟨hsleep, hchan⟩
    · exact .inl (h.symm.trans hs)
    · exact .inr ⟨hsleep, .inr hchan⟩

theorem sched_kept {f : Proc → Proc} (hf : ∀ x, (f x).state ≠ RUNNABLE)
    (hs : ((sched .PBS (k.setProc p f) p).proc s).state = RUNNABLE) :
    (sched .PBS (k.setProc p f) p).proc s = k.proc s := by
  rw [sched_proc] at hs ⊢
  by_cases hsp : s = p
  · rw [hsp, setProc_self] at hs
    exact absurd hs (hf _)
  · exact setProc_of_ne k p f hsp

theorem waitScan_kept (hs : ((k.waitScan .PBS p).proc s).state = RUNNABLE) :
    (k.waitScan .PBS p).proc s = k.proc s := by
  simp only [waitScan] at hs ⊢
  split at hs
  · rename_i r _ _
    by_cases hsr : s = r
    · rw [hsr, setKont_proc, setProc_self] at hs
      cases hs
    · exact setProc_of_ne k r _ hsr
  · split_ifs at hs ⊢
    · rfl
    · exact sched_kept (fun _ => by simp) hs

theorem timer_ready (user : Bool) (hs : ((k.timer .PBS).proc s).state = RUNNABLE) :
    k.readyAfter (.tick user) s = true := by
  rw [timer_proc, Proc.timed_state, Proc.woken] at hs
  split_ifs at hs with hwake
  · simp [readyAfter, hwake.1, hwake.2]
  · simp [readyAfter, hs]

theorem readyAfter_of_runnable (hc : Ctl k) (h : step .PBS k e = some k')
    (hg : e.givesUp = true) (hs : (k'.proc s).state = RUNNABLE) :
    k.readyAfter e s = true ∧ (k'.proc s).priority = (k.proc s).priority := by
  have kept : k'.proc s = k.proc s →
      k.readyAfter e s = true ∧ (k'.proc s).priority = (k.proc s).priority := by
    intro hsame
    rw [hsame] at hs ⊢
    exact ⟨by simp [readyAfter, hs], rfl⟩
  cases step_cases h with
  | exit p hcpu hcur _ _ =>
    rw [exit_eq] at hs ⊢
    have hsame := sched_kept (by intro _ h; cases h) hs
    rw [hsame] at hs ⊢
    exact exitWakes_ready hcur hs
  | wait p hcpu hcur _ => exact kept (waitScan_kept hs)
  | sleep p c hcpu hcur => exact kept (sched_kept (fun _ => nofun) hs)
  | tick p user hcpu hcur _ =>
    refine ⟨?_, tick_priority hc h rfl s⟩
    by_cases hsp : s = p
    · simp [readyAfter, hsp, hc.state_cur hcpu hcur, Event.isTick]
    · exact timer_ready user (tick_proc_of_ne .PBS k user hsp ▸ hs)
  | tickIdle user hidle => exact ⟨timer_ready user hs, tick_priority hc h rfl s⟩
  | _ => cases hg

def Undisturbed (k : Kernel) (e : Event) : Prop :=
  k.cpu = .running → e.givesUp = true →
    k.mxprt ≤ 101 ∧ ∀ s, k.readyAfter e s = true → k.mxprt ≤ (k.proc s).priority

instance (k : Kernel) (e : Event) : Decidable (Undisturbed k e) :=
  inferInstanceAs (Decidable (_ → _ → _ ∧ _))

theorem pbs_stays (hc : Ctl k) (h : step .PBS k e = some k') (he : e ≠ .schedule) :
    k'.mxprt = k.mxprt ∧ (k'.pos = k.pos ∧ (k'.cpu = .idle ↔ k.cpu = .idle) ∨
      k'.cpu = .idle ∧ ¬Undisturbed k e) := by
  have leaves : ∀ {m : Kernel} {p : Slot}, SameCpu k m → k.cpu = .running → k.cur = some p →
      e.givesUp = true → Leaves .PBS m k' p → k'.mxprt = k.mxprt ∧
        (k'.pos = k.pos ∧ (k'.cpu = .idle ↔ k.cpu = .idle) ∨ k'.cpu = .idle ∧ ¬Undisturbed k e) := by
    intro m p hm hcpu hcur hg hleave
    obtain ⟨hmx, ⟨hlt, hidle⟩ | ⟨-, hpass⟩⟩ := hleave.pbs
    · rw [hm.mxprt] at hmx hlt
      refine ⟨hmx, .inr ⟨hidle, fun hun => ?_⟩⟩
      obtain ⟨hcap, hready⟩ := hun hcpu hg
      rcases lowest_cases k'.proc 101 with hlow | ⟨s, hs, hlow⟩
      · omega
      · obtain ⟨hr, hprio⟩ := readyAfter_of_runnable hc h hg hs
        have := hready s hr
        omega
    · refine ⟨hmx.trans hm.mxprt, .inl ⟨?_, ?_⟩⟩
      · rw [pos_pass hpass, pos_running hcpu hcur]
      · simp [hpass, hcpu]
  cases ht : e.isTick with
  | false =>
    rcases step_control h he ht with hsame | ⟨p, hcpu, hcur, hg, hl⟩
    · exact ⟨hsame.mxprt, .inl ⟨hsame.toSameCpu.pos, by rw [hsame.cpu]⟩⟩
    · exact leaves ⟨rfl, rfl, rfl⟩ hcpu hcur hg hl
  | true =>
    have htimer := timer_cpu .PBS k
    cases step_cases h with
    | tick p user hcpu hcur _ =>
      rcases tick_control .PBS k p user with hsame | hl
      · have hall := htimer.trans hsame.toSameCpu
        exact ⟨hall.mxprt, .inl ⟨hall.pos, by rw [hall.cpu]⟩⟩
      · exact leaves htimer hcpu hcur rfl hl
    | tickIdle user _ => exact ⟨htimer.mxprt, .inl ⟨htimer.pos, by rw [htimer.cpu]⟩⟩
    | _ => cases ht

structure Waits (p q : Slot) (prio : ℤ) (k : Kernel) : Prop where
  ctl : Ctl k
  runnable : (k.proc q).state = RUNNABLE
  ahead : k.cpu ≠ .idle → k.mxprt = prio → Ahead p q k.pos
  same : p < q → k.cpu ≠ .idle ∧ k.mxprt = prio

theorem Waits.pass (hw : Waits p q prio k) (hpq : p ≠ q) (hp : (k.proc p).priority = prio)
    (hq : (k.proc q).priority = prio) (hrun : (k'.proc q).state = RUNNABLE)
    (h : step .PBS k .schedule = some k') : IsDispatch q k .schedule k' ∨
      ¬IsDispatch p k .schedule k' ∧ Waits p q prio k' := by
  have hctl := (step_effect hw.ctl h).1
  obtain ⟨m, hproc, hpos, hmx', hwhich, hscan⟩ := pbs_pass h
  -- A pass that begins here is one at which `q` comes before `p` in the table.
  have hold : p < q → m = k := fun hlt => by
    rcases hwhich with ⟨hm, -⟩ | ⟨-, hidle⟩
    · exact hm
    · exact absurd hidle (hw.same hlt).1
  have hahead : m.mxprt = prio → Ahead p q m.pos := fun hmx => by
    rw [hpos]
    rcases hwhich with ⟨rfl, hne⟩ | ⟨-, hidle⟩
    · exact hw.ahead hne hmx
    · rw [pos_idle hidle]
      by_cases hlt : p < q
      · exact absurd hidle (hw.same hlt).1
      · exact ahead_zero (lt_of_le_of_ne (not_lt.mp hlt) fun h => hpq (Fin.ext h.symm))
  have hsame : p < q → k'.mxprt = prio := fun hlt => by
    rw [hmx', hold hlt]
    exact (hw.same hlt).2
  have hready : m.mxprt = prio → m.Ready (·.priority == m.mxprt) q := fun hmx =>
    ready_of_runnable (by rw [hproc, hw.runnable]) (by rw [hproc, hq, hmx, beq_self_eq_true])
  rcases hscan with ⟨he, -⟩ | ⟨c, hd, hnext⟩ | ⟨hidle, hdone⟩
  · exact absurd rfl he
  · by_cases hcq : c = q
    · exact .inl (hcq ▸ hd)
    · have hcur : ∀ r, IsDispatch r k .schedule k' → c = r := fun r hr =>
        Option.some.inj (hd.2.2.symm.trans hr.2.2)
      have hne : (c : ℕ) ≠ q := fun h => hcq (Fin.ext h)
      refine .inr ⟨fun hdp => ?_, hctl, hrun, fun _ hmx => ?_, fun hlt => ⟨?_, hsame hlt⟩⟩
      · have hcp := hcur p hdp
        obtain ⟨r, hr, -, hprio⟩ := hnext.found
        rw [Fin.ext hr, hcp, hproc, beq_iff_eq, hp] at hprio
        exact ((hahead hprio.symm).next hnext (hready hprio.symm) hne).1 (by rw [hcp])
      · rw [hmx'] at hmx
        rw [pos_running hd.2.1 hd.2.2]
        exact ((hahead hmx).next hnext (hready hmx) hne).2
      · rw [hd.2.1]
        nofun
  · refine .inr ⟨fun hdp => ?_, hctl, hrun, fun hne => absurd hidle hne, fun hlt => ?_⟩
    · rw [hdp.2.1] at hidle
      cases hidle
    · have hmx := hmx' ▸ hsame hlt
      exact absurd (hready hmx) (hdone q ((hahead hmx).le hlt))

theorem Waits.step (hw : Waits p q prio k) (hpq : p ≠ q) (hp : (k.proc p).priority = prio)
    (hq : (k.proc q).priority = prio) (hun : q < p ∨ Undisturbed k e)
    (h : Sched.step .PBS k e = some k') :
    IsDispatch q k e k' ∨ ¬IsDispatch p k e k' ∧ Waits p q prio k' := by
  rcases runnable_step hw.ctl h hw.runnable with hrun | hd
  · by_cases he : e = .schedule
    · subst he
      exact hw.pass hpq hp hq hrun h
    · have hstays := pbs_stays hw.ctl h he
      refine .inr ⟨fun hp => he hp.1, (step_effect hw.ctl h).1, hrun, fun hne hmx => ?_,
        fun hlt => ?_⟩
      · obtain ⟨hmx', ⟨hpos, hidle⟩ | ⟨hidle, -⟩⟩ := hstays
        · rw [hpos]
          exact hw.ahead (fun hi => hne (hidle.mpr hi)) (hmx'.symm.trans hmx)
        · exact absurd hidle hne
      · obtain ⟨hne, hmx⟩ := hw.same hlt
        obtain ⟨hmx', ⟨-, hidle⟩ | ⟨-, hnot⟩⟩ := hstays
        · exact ⟨fun hi => hne (hidle.mp hi), hmx'.trans hmx⟩
        · exact absurd (hun.resolve_left (lt_asymm hlt)) hnot
  · exact .inl hd

theorem dispatch_mxprt (h : step .PBS k .schedule = some k') (hd : IsDispatch p k .schedule k') :
    k'.mxprt = (k'.proc p).priority := by
  obtain ⟨m, hproc, -, hmx, -, hscan⟩ := pbs_pass h
  have hkeep : (k'.proc p).priority = (k.proc p).priority := by
    rcases (schedule_passes h).proc with ⟨r, -, hproc', -, hcur⟩ | ⟨-, hidle⟩
    · have hrp : r = p := Option.some.inj (hcur.symm.trans hd.2.2)
      rw [hproc', hrp, setProc_self]
      rfl
    · rw [hd.2.1] at hidle
      cases hidle
  rcases hscan with ⟨he, -⟩ | ⟨c, hc, hnext⟩ | ⟨hidle, -⟩
  · exact absurd rfl he
  · have hcp : c = p := Option.some.inj (hc.2.2.symm.trans hd.2.2)
    obtain ⟨r, hr, -, hprio⟩ := hnext.found
    rw [Fin.ext hr, hcp, hproc, beq_iff_eq] at hprio
    rw [hmx, hkeep, hprio]
  · rw [hd.2.1] at hidle
    cases hidle

end Equals

theorem pbs_round_robin (kstack pgdir : ℕ) (es : List Event) (k : Kernel)
    (hrun : Runs.exec (step .PBS) (boot kstack pgdir) es = some k) (p q : Slot) (prio : ℤ)
    (fs : List Event) (k₁ k₂ k₃ : Kernel) (h₁ : step .PBS k .schedule = some k₁)
    (hd₁ : IsDispatch p k .schedule k₁) (hpq : p ≠ q) (hq : (k₁.proc q).state = RUNNABLE)
    (hfs : Runs.exec (step .PBS) k₁ fs = some k₂) (h₃ : step .PBS k₂ .schedule = some k₃)
    (hd₃ : IsDispatch p k₂ .schedule k₃)
    (hprio : Runs.Meets (step .PBS)
      (fun k _ => (k.proc p).priority = prio ∧ (k.proc q).priority = prio) k₁ (fs ++ [.schedule]))
    (hcond : q < p ∨ Runs.Meets (step .PBS) Undisturbed k₁ fs) :
    Runs.Occurs (step .PBS) (IsDispatch q) k₁ fs := by
  have hstart : Waits p q prio k₁ := by
    refine ⟨(step_effect (run_sole hrun).1 h₁).1, hq, fun _ _ => ?_, fun _ => ⟨?_, ?_⟩⟩
    · rw [pos_running hd₁.2.1 hd₁.2.2]
      exact ahead_succ _ _
    · rw [hd₁.2.1]
      nofun
    · rw [dispatch_mxprt h₁ hd₁]
      cases fs with
      | nil => exact hprio.1.1
      | cons e fs => exact hprio.1.1
  have hall : Runs.Meets (step .PBS) (fun k e => ((k.proc p).priority = prio ∧
      (k.proc q).priority = prio) ∧ (q < p ∨ Undisturbed k e)) k₁ fs := by
    refine Runs.Meets.and _ (Runs.Meets.left _ hprio) ?_
    rcases hcond with hlt | hun
    · exact Runs.Meets.of_forall _ (fun _ _ _ => .inl hlt) _
    · exact Runs.Meets.mono _ (fun _ _ h => .inr h) hun
  have hlast := (Runs.Meets.of_append _ hprio hfs).1
  rcases Runs.occurs_or (step .PBS) (C := IsDispatch q) (I := Waits p q prio)
    (fun m e m' hI hD hm => (hI.step hpq hD.1.1 hD.1.2 hD.2 hm).imp_right And.right)
    hstart hall hfs with hocc | hw
  · exact hocc
  · -- The second dispatch of `p` would overtake `q`.
    rcases hw.step hpq hlast.1 hlast.2 (.inr fun _ hg => by cases hg) h₃ with hdq | ⟨hnot, -⟩
    · exact absurd (Option.some.inj (hd₃.2.2.symm.trans hdq.2.2)) hpq
    · exact absurd hd₃ hnot

def equalsRun : List Event :=
  [.schedule, .alloc, .stack 2, .copy 3, .run, .alloc, .stack 4, .copy 5, .run,
    .setPriority 1 0, .sleep (.other 0)]

def alternateRun : List Event := [.tick true, .schedule, .tick true, .schedule]

theorem pbs_round_robin_alternateRun : ∃ k k₁,
    Runs.exec (step .PBS) (boot 1 1) equalsRun = some k ∧ step .PBS k .schedule = some k₁ ∧
      k₁.cur = some 1 ∧ (k₁.proc 2).state = RUNNABLE ∧
      Runs.Occurs (step .PBS) (IsDispatch 2) k₁ alternateRun := by
  obtain ⟨k, hk, k₁, h₁, k₂, h₂, k₃, h₃, hd₁, hq, hd₃, hprio, hun⟩ :
      ∃ k ∈ Runs.exec (step .PBS) (boot 1 1) equalsRun, ∃ k₁ ∈ step .PBS k .schedule,
      ∃ k₂ ∈ Runs.exec (step .PBS) k₁ alternateRun, ∃ k₃ ∈ step .PBS k₂ .schedule,
        IsDispatch 1 k .schedule k₁ ∧ (k₁.proc 2).state = RUNNABLE ∧ IsDispatch 1 k₂ .schedule k₃ ∧
        Runs.Meets (step .PBS) (fun k _ => (k.proc 1).priority = 1 ∧ (k.proc 2).priority = 1) k₁
          (alternateRun ++ [.schedule]) ∧
        Runs.Meets (step .PBS) Undisturbed k₁ alternateRun := by
    decide +kernel
  exact ⟨k, k₁, hk, h₁, hd₁.2.2, hq, pbs_round_robin 1 1 equalsRun k hk 1 2 1 alternateRun
    k₁ k₂ k₃ h₁ hd₁ (by decide) hq h₂ h₃ hd₃ hprio (.inr hun)⟩

def overtakenRun : List Event :=
  [.wakeup (.other 0), .tick true, .schedule, .sleep (.other 0), .schedule]

theorem pbs_overtaken : ∃ k k₁ k₂ k₃,
    Runs.exec (step .PBS) (boot 1 1) equalsRun = some k ∧ step .PBS k .schedule = some k₁ ∧
      IsDispatch 1 k .schedule k₁ ∧ (k₁.proc 2).state = RUNNABLE ∧
      Runs.exec (step .PBS) k₁ overtakenRun = some k₂ ∧ step .PBS k₂ .schedule = some k₃ ∧
      IsDispatch 1 k₂ .schedule k₃ ∧
      Runs.Meets (step .PBS) (fun k _ => (k.proc 1).priority = 1 ∧ (k.proc 2).priority = 1) k₁
        (overtakenRun ++ [.schedule]) ∧
      ¬Runs.Occurs (step .PBS) (IsDispatch 2) k₁ overtakenRun := by
  obtain ⟨k, hk, k₁, h₁, k₂, h₂, k₃, h₃, hd₁, hq, hrest⟩ :
      ∃ k ∈ Runs.exec (step .PBS) (boot 1 1) equalsRun, ∃ k₁ ∈ step .PBS k .schedule,
      ∃ k₂ ∈ Runs.exec (step .PBS) k₁ overtakenRun, ∃ k₃ ∈ step .PBS k₂ .schedule,
        IsDispatch 1 k .schedule k₁ ∧ (k₁.proc 2).state = RUNNABLE ∧ IsDispatch 1 k₂ .schedule k₃ ∧
        Runs.Meets (step .PBS) (fun k _ => (k.proc 1).priority = 1 ∧ (k.proc 2).priority = 1) k₁
          (overtakenRun ++ [.schedule]) ∧
        ¬Runs.Occurs (step .PBS) (IsDispatch 2) k₁ overtakenRun := by
    decide +kernel
  exact ⟨k, k₁, k₂, k₃, hk, h₁, hd₁, hq, h₂, h₃, hrest⟩

end Xv6.Sched
