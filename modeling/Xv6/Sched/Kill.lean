import Xv6.Sched.Fate

/-!
# Who is killed

`kill` looks for the pid in every slot, whatever its state.
-/

namespace Xv6.Sched
open Lib ProcState Kernel

variable {b : Build} {k k' : Kernel} {e : SmpEvent} {s : Slot}

def killReturns (k : Kernel) (pid : ℤ) : ℤ := if (k.target pid).isSome then 0 else -1

def KillsProcess (k : Kernel) : SmpEvent → Prop
  | .act _ (.kill pid) =>
    match k.target pid with
    | some s => (k.proc s).state ≠ UNUSED ∧ (k.proc s).state ≠ EMBRYO
    | none => True
  | _ => True

instance (k : Kernel) (e : SmpEvent) : Decidable (KillsProcess k e) := by
  unfold KillsProcess
  split
  · split <;> infer_instance
  · infer_instance

def Unmarked (k : Kernel) : Prop := ∀ s, Fresh (k.proc s).state → (k.proc s).killed = false

def AimedAt (k : Kernel) (e : SmpEvent) (s : Slot) : Prop :=
  (∃ p, e = .act p (.kill (k.proc s).pid)) ∨ e = .fault s

theorem target_pid {pid : ℤ} (h : k.target pid = some s) : (k.proc s).pid = pid := by
  simpa using List.find?_some h

theorem Struck.aimedAt (h : Struck k e s) : AimedAt k e s := by
  rcases h with ⟨p, pid, rfl, ht⟩ | h
  · exact .inl ⟨p, by rw [target_pid ht]⟩
  · exact .inr h

theorem Struck.not_fresh (h : Struck k e s) (hC : KillsProcess k e) (he : smpStep b k e = some k') :
    ¬ Fresh (k.proc s).state := by
  rcases h with ⟨p, pid, rfl, ht⟩ | rfl
  · simp only [KillsProcess, ht] at hC
    rintro (hu | hem)
    · exact hC.1 hu
    · exact hC.2 hem
  · simp only [smpStep] at he
    split_ifs at he with hp
    rw [hp.1]
    simp [Fresh]

theorem Unmarked.smpStep (h : Unmarked k) (hf : Family k) (hC : KillsProcess k e)
    (he : Sched.smpStep b k e = some k') : Unmarked k' := by
  intro s hs
  cases smpStep_fate hf he s with
  | kept hpid hkilled hfresh hlive => rw [hkilled, h s (hfresh hs)]
  | taken p he' hun hnext hpid hkilled => rw [hkilled, h s (.inl (firstUnused_state hun))]
  | freed hstate hpid hkilled => exact hkilled
  | struck hst hpid hkilled hfresh hlive => exact absurd (hfresh hs) (hst.not_fresh hC he)

theorem killed_step (h : Unmarked k) (hf : Family k) (he : smpStep b k e = some k')
    (hs : (k'.proc s).killed = true) :
    (k'.proc s).pid = (k.proc s).pid ∧ ((k.proc s).killed = true ∨ AimedAt k e s) := by
  cases smpStep_fate hf he s with
  | kept hpid hkilled hfresh hlive => exact ⟨hpid, .inl (hkilled ▸ hs)⟩
  | taken p he' hun hnext hpid hkilled =>
    rw [hkilled, h s (.inl (firstUnused_state hun))] at hs
    cases hs
  | freed hstate hpid hkilled =>
    rw [hkilled] at hs
    cases hs
  | struck hst hpid hkilled hfresh hlive => exact ⟨hpid, .inr hst.aimedAt⟩

theorem boot_unmarked (kstack pgdir : ℕ) : Unmarked (boot kstack pgdir) := by
  intro s hs
  by_cases h0 : s = 0
  · rw [h0, (boot_init kstack pgdir).1] at hs
    simp [Fresh] at hs
  · rw [boot_proc kstack pgdir h0]
    rfl

section Runs

variable {kstack pgdir : ℕ} {es : List SmpEvent}

theorem unmarked_run (hC : Runs.Meets (smpStep b) KillsProcess k es) (hf : Family k)
    (hu : Unmarked k) (hrun : Runs.exec (smpStep b) k es = some k') : Family k' ∧ Unmarked k' :=
  Runs.exec_preserves (smpStep b) (I := fun k => Family k ∧ Unmarked k)
    (fun _ _ _ h hC he => ⟨h.1.smpStep he, h.2.smpStep h.1 hC he⟩) ⟨hf, hu⟩ hC hrun

theorem aimed_run (hC : Runs.Meets (smpStep b) KillsProcess k es) (hf : Family k) (hu : Unmarked k)
    (hrun : Runs.exec (smpStep b) k es = some k') (hs : (k'.proc s).killed = true)
    (hk : (k.proc s).killed = false) :
    ∃ e ∈ es, (∃ p, e = .act p (.kill (k'.proc s).pid)) ∨ e = .fault s := by
  induction es using List.reverseRecOn generalizing k' with
  | nil =>
    cases hrun
    rw [hk] at hs
    cases hs
  | append_singleton es e ih =>
    obtain ⟨m, hm, hlast⟩ := (Runs.exec_append _).mp hrun
    obtain ⟨k'', he, hnil⟩ := (Runs.exec_cons _).mp hlast
    cases hnil
    obtain ⟨hfm, hum⟩ := unmarked_run hC.left hf hu hm
    obtain ⟨hpid, hkilled | haim⟩ := killed_step hum hfm he hs
    · obtain ⟨e', he', haim⟩ := ih hC.left hm hkilled
      exact ⟨e', List.mem_append_left _ he', by rwa [hpid]⟩
    · exact ⟨e, by simp, by rwa [hpid]⟩

theorem killed_only_when_aimed_at (b : Build) (kstack pgdir : ℕ) (es : List SmpEvent) (k : Kernel)
    (hC : Runs.Meets (smpStep b) KillsProcess (boot kstack pgdir) es)
    (hrun : Runs.exec (smpStep b) (boot kstack pgdir) es = some k) :
    (∀ p np k', k.kont p = .forkRun np → smpStep b k (.act p .run) = some k' →
      (k'.proc np).state = RUNNABLE ∧ (k'.proc np).killed = false) ∧
    (∀ s pre post m, es = pre ++ post → Runs.exec (smpStep b) (boot kstack pgdir) pre = some m →
      (m.proc s).state = UNUSED ∨ (m.proc s).state = EMBRYO → (k.proc s).killed = true →
      ∃ e ∈ post, (∃ p, e = .act p (.kill (k.proc s).pid)) ∨ e = .fault s) ∧
    ∀ p pid, KillsProcess k (.act p (.kill pid)) →
      (∀ s, (k.proc s).state ≠ UNUSED → (k.proc s).pid ≠ pid) →
      killReturns k pid = -1 ∧ k.kill pid = k := by
  obtain ⟨hf, hu⟩ := unmarked_run hC (boot_family kstack pgdir) (boot_unmarked kstack pgdir) hrun
  refine ⟨fun p np k' hk he => ?_, fun s pre post m hes hm hs hkilled => ?_, fun p pid hkp hno => ?_⟩
  · have hemb := hf.fork p np (by rw [hk]; rfl)
    simp only [smpStep] at he
    split_ifs at he with hp
    have hkon : (k.on p).kont p = .forkRun np := hk
    simp only [procStep, hkon] at he
    cases he
    rw [setKont_proc, setProc_self]
    exact ⟨rfl, hu np (.inr hemb)⟩
  · subst hes
    obtain ⟨m', hm', hpost⟩ := (Runs.exec_append _).mp hrun
    rw [hm] at hm'
    cases hm'
    obtain ⟨hfm, hum⟩ := unmarked_run hC.left (boot_family kstack pgdir)
      (boot_unmarked kstack pgdir) hm
    exact aimed_run (hC.of_append _ hm) hfm hum hpost hkilled (hum s hs)
  · have hnone : k.target pid = none := by
      cases ht : k.target pid with
      | none => rfl
      | some s =>
        simp only [KillsProcess, ht] at hkp
        exact absurd (target_pid ht) (hno s hkp.1)
    refine ⟨by simp [killReturns, hnone], ?_⟩
    unfold Kernel.target at hnone
    simp only [Kernel.kill, hnone]

def aimedRun : List SmpEvent :=
  [.dispatch 0, .act 0 .alloc, .act 0 (.stack 1), .act 0 (.copy 1), .act 0 .run, .act 0 (.kill 2)]

theorem killed_only_when_aimed_at_aimedRun :
    ∃ k, Runs.exec (smpStep .DEFAULT) (boot 1 1) aimedRun = some k ∧ (k.proc 1).killed = true ∧
      ∃ e ∈ aimedRun, (∃ p, e = .act p (.kill (k.proc 1).pid)) ∨ e = .fault 1 := by
  obtain ⟨k, hk, hkilled⟩ : ∃ k ∈ Runs.exec (smpStep .DEFAULT) (boot 1 1) aimedRun,
      (k.proc 1).killed = true := by decide +kernel
  have hC : Runs.Meets (smpStep .DEFAULT) KillsProcess (boot 1 1) aimedRun := by decide +kernel
  obtain ⟨-, haimed, -⟩ := killed_only_when_aimed_at .DEFAULT 1 1 aimedRun k hC hk
  exact ⟨k, hk, hkilled, haimed 1 [] aimedRun _ rfl rfl (.inl rfl) hkilled⟩

def strayRun : List SmpEvent :=
  [.dispatch 0, .act 0 (.kill 0), .act 0 .alloc, .act 0 (.stack 1), .act 0 (.copy 1), .act 0 .run]

theorem kill_zero_kills_next_child :
    (∃ k, Runs.exec (smpStep .DEFAULT) (boot 1 1) [.dispatch 0] = some k ∧
      (∀ s, (k.proc s).state ≠ UNUSED → (k.proc s).pid ≠ 0) ∧ killReturns k 0 = 0) ∧
    ∃ k, Runs.exec (smpStep .DEFAULT) (boot 1 1) strayRun = some k ∧
      (k.proc 1).state = RUNNABLE ∧ (k.proc 1).pid = 2 ∧ (k.proc 1).killed = true := by
  change (∃ k ∈ Runs.exec _ _ _, _) ∧ ∃ k ∈ Runs.exec _ _ _, _
  decide +kernel

end Runs

end Xv6.Sched
