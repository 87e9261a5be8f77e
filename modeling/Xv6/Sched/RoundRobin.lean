import Xv6.Sched.Course
import Xv6.Lib.RoundRobin

/-!
# Round robin in the DEFAULT build

The only state of the round robin is how far the table loop of `scheduler` has come.
-/

namespace Xv6.Sched
open Lib Lib.RoundRobin ProcState Kernel

def IsDispatch (p : Slot) (_ : Kernel) (e : Event) (k' : Kernel) : Prop :=
  e = .schedule ∧ k'.cpu = .running ∧ k'.cur = some p

instance (p : Slot) (k : Kernel) (e : Event) (k' : Kernel) : Decidable (IsDispatch p k e k') :=
  inferInstanceAs (Decidable (_ ∧ _))

def dispatches (_ : Kernel) (e : Event) (k' : Kernel) : Bool := e == .schedule && k'.cpu == .running

namespace Kernel

def pos (k : Kernel) : ℕ :=
  match k.cpu, k.cur with
  | .pass i, _ => i
  | .running, some p => p + 1
  | _, _ => 0

def Ready (k : Kernel) (P : Proc → Bool) (j : ℕ) : Prop :=
  ∃ s : Slot, s.val = j ∧ (k.proc s).state = RUNNABLE ∧ P (k.proc s) = true

variable {b : Build} {k k' : Kernel} {p : Slot}

theorem ready_of_runnable {P : Proc → Bool} (hs : (k.proc p).state = RUNNABLE)
    (hP : P (k.proc p) = true) : k.Ready P p := ⟨p, rfl, hs, hP⟩

theorem pos_running (hcpu : k.cpu = .running) (hcur : k.cur = some p) : k.pos = p + 1 := by
  simp only [pos, hcpu, hcur]

theorem pos_idle (hcpu : k.cpu = .idle) : k.pos = 0 := by
  simp only [pos, hcpu]

theorem pos_pass {i : ℕ} (hcpu : k.cpu = .pass i) : k.pos = i := by
  simp only [pos, hcpu]

theorem SameCpu.pos (h : SameCpu k k') : k'.pos = k.pos := by
  simp only [Kernel.pos, h.cpu, h.cur]

theorem tablePass_scan (b : Build) (k : Kernel) (i : ℕ) (P : Proc → Bool) :
    (∃ c, tablePass b k i P = dispatch b k c ∧ Next (k.Ready P) i c) ∨
      tablePass b k i P = { k with cpu := .idle } ∧ Done (k.Ready P) i := by
  simp only [tablePass]
  split
  · rename_i c hc
    refine .inl ⟨c, rfl, ?_⟩
    obtain ⟨hfound, j, hj, hget, hbefore⟩ := List.find?_eq_some_iff_getElem.mp hc
    simp only [slots, List.getElem_finRange] at hget hbefore
    simp only [Bool.and_eq_true, decide_eq_true_eq, beq_iff_eq] at hfound
    refine ⟨hfound.1.1, ready_of_runnable hfound.1.2 hfound.2, ?_⟩
    rintro n hin hnc ⟨s, rfl, hs, hP⟩
    have hjc : j = c.val := by rw [← hget]; rfl
    have hnot := hbefore s.val (by omega)
    simp only [Bool.not_eq_true', Bool.and_eq_false_iff, decide_eq_false_iff_not,
      beq_eq_false_iff_ne] at hnot
    rcases hnot with (h | h) | h
    · exact h hin
    · exact h hs
    · exact Bool.false_ne_true (h.symm.trans hP)
  · rename_i hnone
    refine .inr ⟨rfl, ?_⟩
    rintro n hin ⟨s, rfl, hs, hP⟩
    have hnot := List.find?_eq_none.mp hnone s (List.mem_finRange s)
    simp only [Bool.and_eq_true, decide_eq_true_eq, beq_iff_eq] at hnot
    exact hnot ⟨⟨hin, hs⟩, hP⟩

end Kernel

inductive Scans (k : Kernel) (P : Proc → Bool) (e : Event) (k' : Kernel) : Prop
  | stays (he : e ≠ .schedule) (h : k'.pos = k.pos)
  | stops (c : Slot) (h : IsDispatch c k e k') (hnext : Next (k.Ready P) k.pos c)
  | wraps (h : k'.cpu = .idle) (hdone : Done (k.Ready P) k.pos)

section Default

variable {k k' : Kernel} {e : Event} {p q : Slot}

theorem tablePass_scans {b : Build} {i : ℕ} {P : Proc → Bool} (hpos : k.pos = i)
    (hk : k' = tablePass b k i P) : Scans k P .schedule k' := by
  subst hpos hk
  rcases tablePass_scan b k k.pos P with ⟨c, hc, hnext⟩ | ⟨hc, hdone⟩
  · exact .stops c ⟨rfl, by rw [hc]; rfl, by rw [hc]; rfl⟩ hnext
  · exact .wraps (by rw [hc]) hdone

theorem Kernel.Leaves.pos_default (hcpu : k.cpu = .running) (hcur : k.cur = some p)
    (h : Leaves .DEFAULT k k' p) : k'.pos = k.pos := by
  obtain ⟨m, rfl, -, -⟩ := h
  rw [pos_running hcpu hcur]
  rfl

theorem default_scans (h : step .DEFAULT k e = some k') : Scans k (fun _ => true) e k' := by
  by_cases hsched : e = .schedule
  · subst hsched
    cases step_cases h with
    | pass i m hpass hm =>
      cases hm
      exact tablePass_scans (pos_pass hpass) rfl
    | schedule hidle => exact tablePass_scans (pos_idle hidle) rfl
  · refine .stays hsched ?_
    cases ht : e.isTick with
    | false =>
      rcases step_control h hsched ht with hsame | ⟨p, hcpu, hcur, -, hl⟩
      · exact hsame.toSameCpu.pos
      · exact hl.pos_default hcpu hcur
    | true =>
      cases step_cases h with
      | tick p user hcpu hcur _ =>
        have htimer := timer_cpu .DEFAULT k
        rcases tick_control .DEFAULT k p user with hsame | hl
        · exact (htimer.trans hsame.toSameCpu).pos
        · rw [hl.pos_default (htimer.cpu.trans hcpu) (htimer.cur.trans hcur), htimer.pos]
      | tickIdle user _ => exact (timer_cpu .DEFAULT k).pos
      | _ => cases ht

theorem default_ahead (hc : Ctl k) (hq : (k.proc q).state = RUNNABLE) (ha : Ahead p q k.pos)
    (h : step .DEFAULT k e = some k') : IsDispatch q k e k' ∨
      ¬IsDispatch p k e k' ∧ (k'.proc q).state = RUNNABLE ∧ Ahead p q k'.pos := by
  have hready : k.Ready (fun _ => true) q := ready_of_runnable hq rfl
  rcases runnable_step hc h hq with hrun | hd
  · rcases default_scans h with ⟨he, hpos⟩ | ⟨c, hd, hnext⟩ | ⟨hidle, hdone⟩
    · exact .inr ⟨fun hp => he hp.1, hrun, by rwa [hpos]⟩
    · by_cases hcq : c = q
      · exact .inl (hcq ▸ hd)
      · obtain ⟨hcp, ha'⟩ := ha.next hnext hready (fun h => hcq (Fin.ext h))
        refine .inr ⟨fun hp => hcp ?_, hrun, by rwa [pos_running hd.2.1 hd.2.2]⟩
        have hcur := hd.2.2.symm.trans hp.2.2
        rw [Option.some.inj hcur]
    · refine .inr ⟨fun hp => ?_, hrun, by rw [pos_idle hidle]; exact ha.wrap hdone hready⟩
      rw [hp.2.1] at hidle
      cases hidle
  · exact .inl hd

theorem default_gap (hc : Ctl k) (hq : (k.proc q).state = RUNNABLE)
    (h : step .DEFAULT k e = some k') : IsDispatch q k e k' ∨ (k'.proc q).state = RUNNABLE ∧
      (dispatches k e k').toNat + gap NPROC q k'.pos ≤ gap NPROC q k.pos := by
  have hready : k.Ready (fun _ => true) q := ready_of_runnable hq rfl
  rcases runnable_step hc h hq with hrun | hd
  · rcases default_scans h with ⟨he, hpos⟩ | ⟨c, hd, hnext⟩ | ⟨hidle, hdone⟩
    · have hno : dispatches k e k' = false := by simp [dispatches, he]
      exact .inr ⟨hrun, by rw [hno, hpos]; simp⟩
    · by_cases hcq : c = q
      · exact .inl (hcq ▸ hd)
      · have hlt := hnext.gap_lt hready (fun h => hcq (Fin.ext h)) c.isLt
        have hyes : dispatches k e k' = true := by simp [dispatches, hd.1, hd.2.1]
        refine .inr ⟨hrun, ?_⟩
        rw [hyes, pos_running hd.2.1 hd.2.2, Bool.toNat_true]
        omega
    · have hno : dispatches k e k' = false := by simp [dispatches, hidle]
      have hle := hdone.gap_le (n := NPROC) hready
      exact .inr ⟨hrun, by rw [hno, pos_idle hidle]; simpa using hle⟩
  · exact .inl hd

theorem pos_le {i : ℕ} (hpass : ∀ i, k.cpu = .pass i → i ≤ NPROC) (hpos : k.pos = i) :
    i ≤ NPROC := by
  subst hpos
  cases hcpu : k.cpu with
  | idle => rw [pos_idle hcpu]; omega
  | pass i => rw [pos_pass hcpu]; exact hpass i hcpu
  | running =>
    cases hcur : k.cur with
    | none => simp [pos, hcpu, hcur]
    | some p => rw [pos_running hcpu hcur]; exact p.isLt

theorem default_count {es : List Event} (hc : Ctl k) (hq : (k.proc q).state = RUNNABLE)
    (hrun : Runs.exec (step .DEFAULT) k es = some k')
    (hnot : ¬Runs.Occurs (step .DEFAULT) (IsDispatch q) k es) :
    Runs.count (step .DEFAULT) dispatches k es ≤ gap NPROC q k.pos := by
  induction es generalizing k with
  | nil => exact Nat.zero_le _
  | cons e es ih =>
    obtain ⟨m, hm, ht⟩ := (Runs.exec_cons _).mp hrun
    rw [Runs.count_cons _ hm]
    rcases default_gap hc hq hm with hd | ⟨hq', hle⟩
    · exact absurd ⟨m, hm, .inl hd⟩ hnot
    · have hrest := ih (step_effect hc hm).1 hq' ht fun hocc => hnot ⟨m, hm, .inr hocc⟩
      omega

theorem pass_le {b : Build} (hlt : ∀ i, k.cpu = .pass i → i ≤ NPROC) (h : step b k e = some k')
    (i : ℕ) (hi : k'.cpu = .pass i) : i ≤ NPROC := by
  have leaves : ∀ {m : Kernel} {p : Slot}, Leaves b m k' p → i ≤ NPROC := by
    rintro m p ⟨n, rfl, -, -⟩
    have hp := p.isLt
    cases b with
    | DEFAULT => cases hi; exact hp
    | FCFS => cases hi
    | MLFQ => cases hi
    | PBS =>
      simp only [sched] at hi
      split_ifs at hi
      cases hi
      exact hp
  by_cases hsched : e = .schedule
  · subst hsched
    rcases (schedule_passes h).proc with ⟨p, -, -, hcpu, -⟩ | ⟨-, hcpu⟩ <;>
      rw [hcpu] at hi <;> cases hi
  · cases ht : e.isTick with
    | false =>
      rcases step_control h hsched ht with hsame | ⟨p, -, -, -, hl⟩
      · exact hlt i (hsame.cpu ▸ hi)
      · exact leaves hl
    | true =>
      cases step_cases h with
      | tick p user _ _ _ =>
        rcases tick_control b k p user with hsame | hl
        · exact hlt i ((hsame.cpu.trans (timer_cpu b k).cpu) ▸ hi)
        · exact leaves hl
      | tickIdle user _ => exact hlt i ((timer_cpu b k).cpu ▸ hi)
      | _ => cases ht

end Default

theorem default_round_robin (kstack pgdir : ℕ) (es : List Event) (k : Kernel)
    (hrun : Runs.exec (step .DEFAULT) (boot kstack pgdir) es = some k) :
    (∀ p q fs k₁ k₂ k₃, step .DEFAULT k .schedule = some k₁ → IsDispatch p k .schedule k₁ →
      p ≠ q → (k₁.proc q).state = RUNNABLE → Runs.exec (step .DEFAULT) k₁ fs = some k₂ →
      step .DEFAULT k₂ .schedule = some k₃ → IsDispatch p k₂ .schedule k₃ →
      Runs.Occurs (step .DEFAULT) (IsDispatch q) k₁ fs) ∧
    (∀ q fs k', (k.proc q).state = RUNNABLE → Runs.exec (step .DEFAULT) k fs = some k' →
      ¬Runs.Occurs (step .DEFAULT) (IsDispatch q) k fs →
      Runs.count (step .DEFAULT) dispatches k fs ≤ NPROC - 1) := by
  have hc := (run_sole hrun).1
  constructor
  · intro p q fs k₁ k₂ k₃ h₁ hd₁ hpq hq hfs h₃ hd₃
    have hstart : Ctl k₁ ∧ (k₁.proc q).state = RUNNABLE ∧ Ahead p q k₁.pos :=
      ⟨(step_effect hc h₁).1, hq, by rw [pos_running hd₁.2.1 hd₁.2.2]; exact ahead_succ _ _⟩
    rcases Runs.occurs_or (step .DEFAULT) (C := IsDispatch q) (D := fun _ _ => True)
      (I := fun k => Ctl k ∧ (k.proc q).state = RUNNABLE ∧ Ahead p q k.pos)
      (fun m e m' hI _ hm => (default_ahead hI.1 hI.2.1 hI.2.2 hm).imp_right fun h =>
        ⟨(step_effect hI.1 hm).1, h.2⟩)
      hstart (Runs.Meets.of_forall _ (fun _ _ _ => trivial) _) hfs with hocc | ⟨hc₂, hq₂, ha₂⟩
    · exact hocc
    · -- The second dispatch of `p` would overtake `q`.
      rcases default_ahead hc₂ hq₂ ha₂ h₃ with hdq | ⟨hnot, -⟩
      · have hcur := hd₃.2.2.symm.trans hdq.2.2
        exact absurd (Option.some.inj hcur) hpq
      · exact absurd hd₃ hnot
  · intro q fs k' hq hfs hnot
    have hpass : ∀ i, k.cpu = .pass i → i ≤ NPROC :=
      Runs.exec_invariant (step .DEFAULT) (I := fun k => ∀ i, k.cpu = .pass i → i ≤ NPROC)
        (fun _ _ _ hI h => pass_le hI h) (fun i hi => by cases hi) hrun
    have hgap := gap_lt q.isLt (pos_le hpass rfl)
    have hcount := default_count hc hq hfs hnot
    omega

def sharedRun : List Event := [.schedule, .alloc, .stack 2, .copy 3, .run, .tick true]

/-- The child is preempted, the loop starts again, and the parent has its turn. -/
def turnRun : List Event := [.tick true, .schedule, .schedule, .tick true]

theorem default_round_robin_sharedRun : ∃ k k₁,
    Runs.exec (step .DEFAULT) (boot 1 1) sharedRun = some k ∧
      step .DEFAULT k .schedule = some k₁ ∧ k₁.cur = some 1 ∧ (k₁.proc 0).state = RUNNABLE ∧
      Runs.Occurs (step .DEFAULT) (IsDispatch 0) k₁ turnRun := by
  obtain ⟨k, hk, k₁, h₁, k₂, h₂, k₃, h₃, hcpu₁, hcur₁, hq, hcpu₃, hcur₃⟩ :
      ∃ k ∈ Runs.exec (step .DEFAULT) (boot 1 1) sharedRun, ∃ k₁ ∈ step .DEFAULT k .schedule,
      ∃ k₂ ∈ Runs.exec (step .DEFAULT) k₁ turnRun, ∃ k₃ ∈ step .DEFAULT k₂ .schedule,
        k₁.cpu = .running ∧ k₁.cur = some 1 ∧ (k₁.proc 0).state = RUNNABLE ∧
        k₃.cpu = .running ∧ k₃.cur = some 1 := by decide +kernel
  exact ⟨k, k₁, hk, h₁, hcur₁, hq, (default_round_robin 1 1 sharedRun k hk).1 1 0 turnRun k₁ k₂ k₃
    h₁ ⟨rfl, hcpu₁, hcur₁⟩ (by decide) hq h₂ h₃ ⟨rfl, hcpu₃, hcur₃⟩⟩

end Xv6.Sched
