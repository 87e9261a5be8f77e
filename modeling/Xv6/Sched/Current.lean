import Xv6.Sched.Priority

/-!
# The current process of a CPU

Each scheduler sets `c->proc` before a `swtch` and clears it after; the PBS scheduler has a `break`
between the two, which leaves the process that has just given up the CPU in `c->proc`.
-/

namespace Xv6.Sched
open Lib ProcState Kernel

def Kernel.share (k m : Kernel) : Kernel := { m with cpu := k.cpu, cur := k.cur, mxprt := k.mxprt }

inductive CpuEvent
  | own (e : Event)
  | others (m : Kernel)

instance (k : Kernel) : Decidable (Ctl k) :=
  decidable_of_iff ((k.cpu = .running → ∃ p, k.cur = some p ∧ (k.proc p).state = RUNNING) ∧
    (∀ p np, (k.kont p).child = some np → (k.proc np).state = EMBRYO ∧ (k.proc np).qno = 0) ∧
    ∀ p p' np, (k.kont p).child = some np → (k.kont p').child = some np → p = p')
    ⟨fun h => ⟨h.1, h.2.1, h.2.2⟩, fun h => ⟨h.running, h.fork, h.inj⟩⟩

def cpuStep (b : Build) (k : Kernel) : CpuEvent → Option Kernel
  | .own e => step b k e
  | .others m => if Ctl (k.share m) then some (k.share m) else none

def Unbroken (b : Build) (k : Kernel) : CpuEvent → Prop
  | .own e => b = .PBS → Undisturbed k e
  | .others _ => True

def Vacant (k : Kernel) : Prop := k.cpu ≠ .running → k.cur = none

section Steps

variable {b : Build} {k k' m : Kernel} {e : Event} {p : Slot}

theorem Vacant.same (h : Vacant k) (hs : SameCpu k k') : Vacant k' := by
  intro hcpu
  rw [hs.cpu] at hcpu
  rw [hs.cur]
  exact h hcpu

theorem sched_cur (b : Build) (m : Kernel) (p : Slot)
    (hcpu : b = .PBS → (sched b m p).cpu ≠ .idle) : (sched b m p).cur = none := by
  cases b with
  | DEFAULT => rfl
  | FCFS => rfl
  | MLFQ => rfl
  | PBS =>
    have hstay := hcpu rfl
    rw [sched_pbs_cpu] at hstay
    have hge : ¬lowest m.proc 101 < m.mxprt := fun hlt => hstay (if_pos hlt)
    exact (apply_ite Kernel.cur (lowest m.proc 101 < m.mxprt) { m with cpu := .idle }
      { m with cpu := .pass (p + 1), cur := none }).trans (if_neg hge)

theorem vacant_of_leaves (hc : Ctl k) (h : step b k e = some k') (he : e ≠ .schedule)
    (hun : b = .PBS → Undisturbed k e) (hcpu : k.cpu = .running) (hl : Leaves b m k' p) :
    Vacant k' := by
  obtain ⟨m', rfl, -, -⟩ := hl
  refine fun _ => sched_cur b m' p ?_
  rintro rfl hidle
  rcases (pbs_stays hc h he).2 with ⟨-, hiff⟩ | ⟨-, hbad⟩
  · have := hiff.mp hidle
    rw [hcpu] at this
    cases this
  · exact hbad (hun rfl)

theorem Vacant.schedule (hv : Vacant k) (h : step b k .schedule = some k') : Vacant k' := by
  have hpass : ∀ (m : Kernel) (i : ℕ) (P : Proc → Bool), Vacant m → m.cpu ≠ .running →
      Vacant (tablePass b m i P) := by
    intro m i P hm hcpu
    simp only [tablePass]
    split
    · exact fun hrun => absurd rfl hrun
    · exact fun _ => hm hcpu
  have hqueue : ∀ (ls : List Level) (m : Kernel), Vacant m → m.cpu ≠ .running →
      Vacant (queuePass m ls) := by
    intro ls
    induction ls with
    | nil => exact fun m hm hcpu _ => hm hcpu
    | cons l ls ih =>
      intro m hm hcpu
      simp only [queuePass]
      split
      · exact fun hrun => absurd rfl hrun
      · next a _ => exact ih (m.setQ l a) hm hcpu
  cases step_cases h with
  | pass i m hcpu hm =>
    have hrun : k.cpu ≠ .running := by
      simp [hcpu]
    cases b with
    | DEFAULT | PBS => cases hm; exact hpass k i _ hv hrun
    | FCFS => cases hm
    | MLFQ => cases hm
  | schedule hidle =>
    have hrun : k.cpu ≠ .running := by
      rw [hidle]
      decide
    cases b with
    | DEFAULT => exact hpass k 0 _ hv hrun
    | FCFS =>
      simp only [schedulePass]
      split
      · exact fun hrun => absurd rfl hrun
      · exact hv
    | PBS => exact hpass { k with mxprt := k.minPriority } 0 _ hv hrun
    | MLFQ => exact hqueue _ k hv hrun

theorem Vacant.step (hc : Ctl k) (hv : Vacant k) (hun : b = .PBS → Undisturbed k e)
    (h : step b k e = some k') : Vacant k' := by
  by_cases he : e = .schedule
  · subst he
    exact hv.schedule h
  cases ht : e.isTick with
  | false =>
    rcases step_control h he ht with hsame | ⟨p, hcpu, -, -, hl⟩
    · exact hv.same hsame.toSameCpu
    · exact vacant_of_leaves hc h he hun hcpu hl
  | true =>
    have htimer := timer_cpu b k
    cases step_cases h with
    | tick p user hcpu _ _ =>
      rcases tick_control b k p user with hsame | hl
      · exact hv.same (htimer.trans hsame.toSameCpu)
      · exact vacant_of_leaves hc h he hun hcpu hl
    | tickIdle user _ => exact hv.same htimer
    | _ => cases ht

theorem cpuStep_vacant {ev : CpuEvent} (hk : Ctl k ∧ Vacant k) (hun : Unbroken b k ev)
    (h : cpuStep b k ev = some k') : Ctl k' ∧ Vacant k' := by
  cases ev with
  | own e => exact ⟨(step_effect hk.1 h).1, hk.2.step hk.1 hun h⟩
  | others m =>
    simp only [cpuStep] at h
    split_ifs at h with hm
    cases h
    exact ⟨hm, hk.2⟩

end Steps

theorem scheduler_has_no_process (b : Build) (kstack pgdir : ℕ) (es : List CpuEvent) (k : Kernel)
    (hrun : Runs.exec (cpuStep b) (boot kstack pgdir) es = some k)
    (hun : Runs.Meets (cpuStep b) (Unbroken b) (boot kstack pgdir) es) (hidle : k.cpu = .idle) :
    k.cur = none := by
  have hboot : Ctl (boot kstack pgdir) ∧ Vacant (boot kstack pgdir) :=
    ⟨boot_ctl kstack pgdir, fun _ => rfl⟩
  have hk := Runs.exec_preserves (cpuStep b) (fun _ _ _ => cpuStep_vacant) hboot hun hrun
  refine hk.2 ?_
  rw [hidle]
  nofun

def restRun : List CpuEvent := [.own .schedule, .own (.sleep (.other 0)), .own .schedule]

instance (b : Build) (k : Kernel) (ev : CpuEvent) : Decidable (Unbroken b k ev) :=
  match ev with
  | .own e => inferInstanceAs (Decidable (b = .PBS → Undisturbed k e))
  | .others _ => .isTrue trivial

theorem scheduler_has_no_process_restRun : ∃ k,
    Runs.exec (cpuStep .PBS) (boot 1 1) restRun = some k ∧ k.cpu = .idle ∧ k.cur = none := by
  obtain ⟨k, hk, hidle⟩ : ∃ k ∈ Runs.exec (cpuStep .PBS) (boot 1 1) restRun, k.cpu = .idle := by
    decide +kernel
  exact ⟨k, hk, hidle, scheduler_has_no_process .PBS 1 1 restRun k hk (by decide +kernel) hidle⟩

def brokenRun : List CpuEvent :=
  equalsRun.map .own ++ [.own .schedule, .own (.wakeup (.other 0)), .own (.tick true)]

/-- The scheduler of the PBS build is back at its top with the child in `c->proc`. -/
theorem brokenRun_keeps_process : ∃ k,
    Runs.exec (cpuStep .PBS) (boot 1 1) brokenRun = some k ∧ k.cpu = .idle ∧ k.cur = some 1 ∧
      (k.proc 1).state = RUNNABLE := by
  change ∃ k ∈ Runs.exec _ _ _, _
  decide +kernel

end Xv6.Sched
