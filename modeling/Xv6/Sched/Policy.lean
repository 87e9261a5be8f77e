import Xv6.Sched.Queues

/-!
# The dispatch policy of the MLFQ scheduler

The scheduler picks by membership in the queues, so it obeys the levels only while no process has
an entry in a queue above its level.
-/

namespace Xv6.Sched
open Lib ProcState Kernel

structure Ordered (k : Kernel) : Prop where
  nodup : ∀ l, (k.q l).toList.Nodup
  above : ∀ s l, (k.proc s).state ≠ UNUSED → s ∈ (k.q l).toList → (k.proc s).qno ≤ l

section Steps

variable {k k' : Kernel} {p s : Slot} {src dst : Level}

theorem Ordered.of_quiet (ho : Ordered k) (h : Quiet k k') : Ordered k' where
  nodup l := (h.q l).toList ▸ ho.nodup l
  above s l hs hmem := by
    rw [h.qno]
    exact ho.above s l (h.live s hs) ((h.q l).toList ▸ hmem)

theorem Ordered.move {c c' : Cmp} {d : Scan} {ind : ℤ} (hq : Queued k) (ho : Ordered k)
    (hp : (k.proc p).state ≠ UNUSED) (hsrc : (k.proc p).qno = src) (hne : src ≠ dst)
    (hle : dst.val ≤ src.val + 1) : Ordered (k.move p src dst c d ind c') := by
  have hm : Moved k (k.move p src dst c d ind c') p src dst := hq.moved hp hsrc hne
  refine ⟨fun l => hm.nodup (ho.nodup l), fun s l hs hmem => ?_⟩
  rw [move_state] at hs
  rw [move_qno]
  split_ifs with hsp
  · subst hsp
    by_cases hl : l = src
    · -- The only entry of `s` in the queue it leaves is the one removed.
      obtain ⟨j, hj, hget, heq⟩ := hm.left
      rw [hl, heq, ← hget] at hmem
      exact absurd hmem (notMem_eraseIdx (ho.nodup src) hj)
    · by_cases hl' : l = dst
      · rw [hl']
      · rw [hm.other l hl hl'] at hmem
        have := ho.above s l hp hmem
        rw [hsrc] at this
        have hlt : src < l := lt_of_le_of_ne this (Ne.symm hl)
        exact Fin.le_def.mpr (by have := Fin.lt_def.mp hlt; omega)
  · exact ho.above s l hs (hm.mem_of_mem hmem hsp)

theorem Ordered.rotate4 (hq : Queued k) (ho : Ordered k) (hp : (k.proc p).state ≠ UNUSED)
    (h4 : (k.proc p).qno = 4) : Ordered (k.rotate4 p) := by
  have hr := hq.rotated hp h4
  refine ⟨fun l => (hr.perm l).nodup_iff.mpr (ho.nodup l), fun s l hs hmem => ?_⟩
  rw [(rotate4_proc s).1] at hs
  rw [(rotate4_proc s).2.2]
  exact ho.above s l hs ((hr.perm l).mem_iff.mp hmem)

theorem Ordered.micro (h : Queued k ∧ Ordered k) (hm : Micro k k') : Queued k' ∧ Ordered k' := by
  refine ⟨h.1.micro hm, ?_⟩
  cases hm with
  | quiet hq => exact h.2.of_quiet hq
  | move p src dst c d ind c' hp hsrc hne hle => exact h.2.move h.1 (live_of_runs hp) hsrc hne hle
  | rotate p hp h4 => exact h.2.rotate4 h.1 (live_of_runs hp) h4

theorem Ordered.allocproc (hq : Queued k) (ho : Ordered k) (hs : s ∉ (k.q 0).toList) :
    Ordered (k.allocproc s) := by
  refine ⟨fun l => ?_, fun t l ht hmem => ?_⟩
  · rw [allocproc_q]
    split_ifs
    · rw [CountedArray.push_toList _ _ (hq.cnt 0)]
      exact (ho.nodup 0).append (List.nodup_singleton s) (by simpa using hs)
    · exact ho.nodup l
  · by_cases hts : t = s
    · rw [hts, allocproc_self.2.2]
      exact Fin.zero_le l
    · rw [allocproc_of_ne hts] at ht ⊢
      refine ho.above t l ht ?_
      rw [allocproc_q] at hmem
      split_ifs at hmem with hl
      · rw [CountedArray.push_toList _ _ (hq.cnt 0)] at hmem
        rw [hl]
        simpa [hts] using hmem
      · exact hmem

end Steps

def FreshSlot (k : Kernel) (e : Event) : Prop :=
  PidRoom k e ∧ (e = .alloc → ∀ s, k.firstUnused = some s → s ∉ (k.q 0).toList)

instance (k : Kernel) (e : Event) : Decidable (FreshSlot k e) :=
  inferInstanceAs (Decidable (_ ∧ (_ → _)))

theorem Ordered.step {k k' : Kernel} {e : Event} (hc : Ctl k) (hq : Queued k) (ho : Ordered k)
    (hC : FreshSlot k e) (h : step .MLFQ k e = some k') : Ordered k' := by
  cases (step_effect hc h).2 with
  | alloc p s hu hs => exact (ho.allocproc hq (hC.2 rfl s hs)).of_quiet (setKont_quiet _ _)
  | micros hm =>
    exact (micros_preserve (I := fun k => Queued k ∧ Ordered k) Ordered.micro ⟨hq, ho⟩ hm).2

theorem boot_ordered (kstack pgdir : ℕ) : Ordered (boot kstack pgdir) := by
  refine ⟨fun l => ?_, fun s l hs _ => ?_⟩
  · rw [boot_q]
    split_ifs <;> simp
  · by_cases h0 : s = 0
    · rw [h0, (boot_init kstack pgdir).2.2]
      exact Fin.zero_le l
    · rw [boot_proc kstack pgdir h0] at hs
      exact absurd rfl hs

def DispatchesBest (k : Kernel) : Prop :=
  ∀ k' p, step .MLFQ k .schedule = some k' → k'.cpu = .running → k'.cur = some p →
    ∀ s, (k.proc s).state = RUNNABLE → (k.proc p).qno ≤ (k.proc s).qno

theorem le_of_scan {pre post : List Level} {l m : Level}
    (h : [0, 1, 2, 3, 4] = pre ++ l :: post) (hm : m ∉ pre) : l ≤ m := by
  have hmem : m ∈ pre ++ l :: post := h ▸ mem_levels m
  have hsorted : (pre ++ l :: post).Pairwise (· < ·) := by
    rw [← h]
    decide
  have htail := (List.pairwise_append.mp hsorted).2.1
  rcases List.mem_append.mp hmem with hm' | hm'
  · exact absurd hm' hm
  · rcases List.mem_cons.mp hm' with rfl | hm'
    · exact le_refl _
    · exact le_of_lt (List.rel_of_pairwise_cons htail hm')

theorem Ordered.dispatchesBest {k : Kernel} (hq : Queued k) (ho : Ordered k) :
    DispatchesBest k := by
  intro k' p hstep hcpu hcur s hs
  cases step_cases hstep with
  | pass i m hpass hm => cases hm
  | schedule hidle =>
    rcases queuePass_spec k [0, 1, 2, 3, 4] with
      ⟨pre, l, post, p', hls, hpre, hmem, hrun, _, hcur', _⟩ | ⟨_, hidle'⟩
    · have hp : p' = p := by
        have h2 : some p' = some p := hcur'.symm.trans hcur
        exact Option.some.inj h2
      subst hp
      have hlow : (k.proc p').qno ≤ l := ho.above p' l (by rw [hrun]; decide) hmem
      have hnot : (k.proc s).qno ∉ pre := by
        intro h
        exact hpre _ h s (hq.mem s (by rw [hs]; decide)) hs
      exact hlow.trans (le_of_scan hls hnot)
    · have h2 : Cpu.idle = Cpu.running := hidle'.symm.trans hcpu
      cases h2

theorem dispatch_policy (kstack pgdir : ℕ) (es : List Event) (k : Kernel)
    (hC : Runs.Meets (step .MLFQ) FreshSlot (boot kstack pgdir) es)
    (hrun : Runs.exec (step .MLFQ) (boot kstack pgdir) es = some k) : DispatchesBest k := by
  have hI := Runs.exec_preserves (step .MLFQ) (I := fun k => (Ctl k ∧ Queued k) ∧ Ordered k)
    (fun k e k' hI hC h => ⟨⟨(step_effect hI.1.1 h).1, hI.1.2.step hI.1.1 hC.1 h⟩,
      hI.2.step hI.1.1 hI.1.2 hC h⟩)
    ⟨⟨boot_ctl _ _, boot_queued _ _⟩, boot_ordered _ _⟩ hC hrun
  exact hI.2.dispatchesBest hI.1.2

def forkRun : List Event := [.schedule, .alloc, .stack 2, .copy 3, .run, .tick true]

theorem dispatch_policy_forkRun : ∃ k, Runs.exec (step .MLFQ) (boot 1 1) forkRun = some k ∧
    (step .MLFQ k .schedule).bind Kernel.cur = some 1 ∧ DispatchesBest k := by
  have h : ((Runs.exec (step .MLFQ) (boot 1 1) forkRun).bind fun k =>
      (step .MLFQ k .schedule).bind Kernel.cur) = some 1 := by decide +kernel
  obtain ⟨k, hk, hcur⟩ := Option.bind_eq_some_iff.mp h
  exact ⟨k, hk, hcur, dispatch_policy 1 1 forkRun k (by decide +kernel) hk⟩

def staleRun : List Event :=
  [.schedule, .alloc, .stack 2, .copy 3, .run, .wait, .schedule, .exit, .schedule, .wait,
    .alloc, .stack 4, .copy 5, .run, .wait, .schedule, .alloc, .stack 6, .copy 7, .run,
    .tick true]

theorem dispatch_policy_fails : ∃ k, Runs.exec (step .MLFQ) (boot 1 1) staleRun = some k ∧
    ¬DispatchesBest k := by
  obtain ⟨k, hk, k', hstep, hcpu, hcur, hq1, hs2, hq2⟩ :
      ∃ k ∈ Runs.exec (step .MLFQ) (boot 1 1) staleRun, ∃ k' ∈ step .MLFQ k .schedule,
        k'.cpu = .running ∧ k'.cur = some 1 ∧ (k.proc 1).qno = 1 ∧ (k.proc 2).state = RUNNABLE ∧
        (k.proc 2).qno = 0 := by decide +kernel
  refine ⟨k, hk, fun hbest => ?_⟩
  have hle := hbest k' 1 hstep hcpu hcur 2 hs2
  rw [hq1, hq2] at hle
  exact absurd hle (by decide)

end Xv6.Sched
