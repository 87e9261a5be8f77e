import Xv6.Sched.Fate

/-!
# Finding a process by its pid: `set_priority` and `getpinfo`

Both calls scan the table for a pid. `set_priority` takes the first slot with that pid, in use or
not.
-/

namespace Xv6.Sched
open Lib ProcState Kernel

def Proc.pinfo (x : Proc) : ProcStat :=
  ⟨x.pid, x.stat.runtime, x.stat.num_run, x.qno.val, x.stat.ticks⟩

namespace Kernel

def set_priority (k : Kernel) (pid priority : ℤ) : ℤ × Kernel :=
  (match slots.find? fun s => (k.proc s).pid == pid with
    | some s => (k.proc s).priority
    | none => -1, k.setPriority pid priority)

def getpinfo (k : Kernel) (p : ProcStat) (pid : ℤ) : ℤ × ProcStat :=
  match slots.find? fun s => (k.proc s).state == RUNNABLE && (k.proc s).pid == pid with
  | some s => (1, (k.proc s).pinfo)
  | none => (0, p)

structure Bears (k : Kernel) (pid : ℤ) (s : Slot) : Prop where
  used : (k.proc s).state ≠ UNUSED
  pid_eq : (k.proc s).pid = pid
  sole : ∀ t, (k.proc t).state ≠ UNUSED → (k.proc t).pid = pid → t = s

end Kernel

section Scan

variable {k : Kernel} {pid : ℤ} {s : Slot}

theorem find?_slots_iff {P : Slot → Bool} :
    slots.find? P = some s ↔ P s = true ∧ ∀ t < s, P t = false := by
  have hsorted : slots.Pairwise (· < ·) := List.pairwise_lt_finRange NPROC
  rw [List.find?_eq_some_iff_append]
  constructor
  · rintro ⟨hs, as, bs, heq, hno⟩
    refine ⟨hs, fun t ht => ?_⟩
    have hmem : t ∈ slots := List.mem_finRange t
    rw [heq] at hmem hsorted
    rcases List.mem_append.mp hmem with ha | hb
    · simpa using hno t ha
    · obtain ⟨-, hcons, -⟩ := List.pairwise_append.mp hsorted
      rcases List.mem_cons.mp hb with rfl | hb
      · exact absurd ht (lt_irrefl t)
      · exact absurd ht (lt_asymm ((List.pairwise_cons.mp hcons).1 t hb))
  · rintro ⟨hs, hno⟩
    obtain ⟨as, bs, heq⟩ : ∃ as bs, slots = as ++ s :: bs := List.append_of_mem (List.mem_finRange s)
    refine ⟨hs, as, bs, heq, fun t ht => ?_⟩
    rw [heq] at hsorted
    simpa using hno t ((List.pairwise_append.mp hsorted).2.2 t ht s List.mem_cons_self)

theorem Kernel.set_priority_of_first (hs : (k.proc s).pid = pid) (hno : ∀ t < s, (k.proc t).pid ≠ pid)
    (priority : ℤ) : k.set_priority pid priority =
      ((k.proc s).priority, k.setProc s fun x => { x with priority := priority }) := by
  have hfind : (slots.find? fun t => (k.proc t).pid == pid) = some s :=
    find?_slots_iff.mpr ⟨beq_iff_eq.mpr hs, fun t ht => beq_eq_false_iff_ne.mpr (hno t ht)⟩
  simp only [Kernel.set_priority, setPriority, hfind]

/-- With the pid in some slot, the first one of them is written to. -/
theorem Kernel.exists_first (hs : (k.proc s).pid = pid) :
    ∃ t ≤ s, (k.proc t).pid = pid ∧ ∀ priority, k.set_priority pid priority =
      ((k.proc t).priority, k.setProc t fun x => { x with priority := priority }) := by
  cases hfind : slots.find? fun t => (k.proc t).pid == pid with
  | none => exact absurd hs (by simpa using List.find?_eq_none.mp hfind s (List.mem_finRange s))
  | some t =>
    obtain ⟨ht, hno⟩ := find?_slots_iff.mp hfind
    refine ⟨t, le_of_not_gt fun hlt => ?_, beq_iff_eq.mp ht, fun priority => ?_⟩
    · exact beq_eq_false_iff_ne.mp (hno s hlt) hs
    · exact set_priority_of_first (beq_iff_eq.mp ht) (fun u hu => beq_eq_false_iff_ne.mp (hno u hu)) priority

theorem Kernel.Bears.set_priority_iff (h : k.Bears pid s) :
    (∀ priority, k.set_priority pid priority =
      ((k.proc s).priority, k.setProc s fun x => { x with priority := priority })) ↔
      ∀ t < s, (k.proc t).pid ≠ pid := by
  refine ⟨fun hset t hlt ht => ?_, fun hno => set_priority_of_first h.pid_eq hno⟩
  obtain ⟨u, hle, -, hu⟩ := exists_first ht
  -- the priority of the process itself is not written
  have hsame := congrArg (fun r => (r.2.proc s).priority)
    ((hset ((k.proc s).priority + 1)).symm.trans (hu ((k.proc s).priority + 1)))
  simp only [setProc_proc, if_true, if_neg (lt_of_le_of_lt hle hlt).ne'] at hsame
  omega

theorem Kernel.set_priority_fails_iff :
    (∀ priority, k.set_priority pid priority = (-1, k)) ↔ ∀ s, (k.proc s).pid ≠ pid := by
  refine ⟨fun hset s hs => ?_, fun hno priority => ?_⟩
  · obtain ⟨t, -, -, ht⟩ := exists_first hs
    have hsame := congrArg (fun r => (r.2.proc t).priority)
      ((hset ((k.proc t).priority + 1)).symm.trans (ht ((k.proc t).priority + 1)))
    simp only [setProc_proc, if_true] at hsame
    omega
  · have hfind : (slots.find? fun t => (k.proc t).pid == pid) = none :=
      List.find?_eq_none.mpr fun t _ => by simp [hno t]
    simp only [Kernel.set_priority, setPriority, hfind]

theorem getpinfo_none (h : ∀ t, (k.proc t).pid = pid → (k.proc t).state ≠ RUNNABLE) (p : ProcStat) :
    k.getpinfo p pid = (0, p) := by
  have hfind : (slots.find? fun t => (k.proc t).state == RUNNABLE && (k.proc t).pid == pid) =
      none := by
    refine List.find?_eq_none.mpr fun t _ ht => ?_
    obtain ⟨hst, hpid⟩ := Bool.and_eq_true_iff.mp ht
    exact h t (beq_iff_eq.mp hpid) (beq_iff_eq.mp hst)
  simp only [Kernel.getpinfo, hfind]

theorem Kernel.Bears.getpinfo_iff (h : k.Bears pid s) (p : ProcStat) :
    k.getpinfo p pid = (1, (k.proc s).pinfo) ↔ (k.proc s).state = RUNNABLE := by
  have hsole : ∀ t, (k.proc t).pid = pid → (k.proc t).state = RUNNABLE → t = s := by
    intro t hpid hrun
    exact h.sole t (by rw [hrun]; decide) hpid
  constructor
  · intro hget
    by_contra hne
    rw [getpinfo_none fun t ht hrun => hne (hsole t ht hrun ▸ hrun)] at hget
    simp at hget
  · intro hrun
    have hfind : (slots.find? fun t => (k.proc t).state == RUNNABLE && (k.proc t).pid == pid) =
        some s := by
      refine find?_slots_iff.mpr ⟨by simp [hrun, h.pid_eq], fun t hlt => Bool.eq_false_iff.mpr fun ht => ?_⟩
      obtain ⟨hst, hpid⟩ := Bool.and_eq_true_iff.mp ht
      exact hlt.ne (hsole t (beq_iff_eq.mp hpid) (beq_iff_eq.mp hst))
    simp only [Kernel.getpinfo, hfind]

end Scan

theorem Pids.bears {k : Kernel} (h : Pids k) {s : Slot} (hs : (k.proc s).state ≠ UNUSED) :
    k.Bears (k.proc s).pid s ∧ ∀ t, (k.proc t).pid = (k.proc s).pid → t = s := by
  have hsole : ∀ t, (k.proc t).pid = (k.proc s).pid → t = s := fun t ht =>
    h.inj t s ht (ht ▸ (h.pos s hs).ne')
  exact ⟨⟨hs, rfl, fun t _ ht => hsole t ht⟩, hsole⟩

theorem calls_address_process (b : Build) (kstack pgdir : ℕ) (es : List SmpEvent) (k : Kernel)
    (hrun : Runs.exec (smpStep b) (boot kstack pgdir) es = some k) (pid : ℤ) (p : ProcStat) :
    (∀ s, k.Bears pid s →
      ((∀ priority, k.set_priority pid priority =
          ((k.proc s).priority, k.setProc s fun x => { x with priority := priority })) ↔
        ∀ t < s, (k.proc t).pid ≠ pid) ∧
      (k.getpinfo p pid = (1, (k.proc s).pinfo) ↔ (k.proc s).state = RUNNABLE) ∧
      ((k.proc s).state ≠ RUNNABLE → k.getpinfo p pid = (0, p))) ∧
    ((∀ s, (k.proc s).pid = pid → (k.proc s).state = UNUSED) →
      ((∀ priority, k.set_priority pid priority = (-1, k)) ↔ ∀ s, (k.proc s).pid ≠ pid) ∧
      k.getpinfo p pid = (0, p)) ∧
    (Runs.Meets (smpStep b) SmpPidRoom (boot kstack pgdir) es →
      ∀ s, (k.proc s).state ≠ UNUSED → (k.proc s).pid = pid →
        k.Bears pid s ∧ ∀ t, (k.proc t).pid = pid → t = s) := by
  refine ⟨fun s hs => ⟨hs.set_priority_iff, hs.getpinfo_iff p, fun hne => ?_⟩,
    fun h => ⟨set_priority_fails_iff, ?_⟩, ?_⟩
  · exact getpinfo_none (fun t ht hready => hne (hs.sole t (by rw [hready]; decide) ht ▸ hready)) p
  · exact getpinfo_none (fun t ht hready => by rw [h t ht] at hready; cases hready) p
  · rintro hroom s hs rfl
    exact (pids_run hroom hrun).bears hs

def forkedRun : List SmpEvent :=
  [.dispatch 0, .act 0 .alloc, .act 0 (.stack 2), .act 0 (.copy 3), .act 0 .run]

theorem calls_address_process_forkedRun : ∃ k p,
    Runs.exec (smpStep .MLFQ) (boot 1 1) forkedRun = some k ∧
      (k.set_priority 2 7).1 = 60 ∧ (k.getpinfo p 2).1 = 1 ∧ k.set_priority 9 7 = (-1, k) := by
  obtain ⟨k, hk, hready, hpid, hnine, hprio⟩ :
      ∃ k ∈ Runs.exec (smpStep .MLFQ) (boot 1 1) forkedRun, (k.proc 1).state = RUNNABLE ∧
        (k.proc 1).pid = 2 ∧ (∀ s, (k.proc s).pid ≠ 9) ∧ (k.proc 1).priority = 60 := by
    decide +kernel
  have hroom : Runs.Meets (smpStep .MLFQ) SmpPidRoom (boot 1 1) forkedRun := by decide +kernel
  have hused : (k.proc 1).state ≠ UNUSED := by
    rw [hready]
    decide
  obtain ⟨hact, -, hbears⟩ := calls_address_process .MLFQ 1 1 forkedRun k hk 2 unusedProc.stat
  obtain ⟨hone, hsole⟩ := hbears hroom 1 hused hpid
  obtain ⟨-, hnone, -⟩ := calls_address_process .MLFQ 1 1 forkedRun k hk 9 unusedProc.stat
  refine ⟨k, unusedProc.stat, hk, ?_, ?_, ?_⟩
  · rw [(hact 1 hone).1.mpr fun t hlt ht => hlt.ne (hsole t ht), hprio]
  · rw [(hact 1 hone).2.1.mpr hready]
  · exact (hnone fun s hs => absurd hs (hnine s)).1.mpr hnine 7

def failedForkRun : List SmpEvent := [.dispatch 0, .act 0 .alloc, .act 0 (.stack 0)]

theorem calls_miss_process : ∃ k,
    Runs.exec (smpStep .MLFQ) (boot 1 1) failedForkRun = some k ∧
      k.Bears 1 0 ∧ (k.getpinfo unusedProc.stat 1).1 = 0 ∧
      (∀ s, (k.proc s).pid = 2 → (k.proc s).state = UNUSED) ∧
      (k.set_priority 2 7).1 = 60 ∧ ((k.set_priority 2 7).2.proc 1).priority = 7 ∧
      (∀ s, (k.proc s).pid = 0 → (k.proc s).state = UNUSED) ∧
      (k.set_priority 0 7).1 = 0 ∧ ((k.set_priority 0 7).2.proc 2).priority = 7 := by
  obtain ⟨k, hk, hused, hpid, hsole, hrest⟩ :
      ∃ k ∈ Runs.exec (smpStep .MLFQ) (boot 1 1) failedForkRun,
        (k.proc 0).state ≠ UNUSED ∧ (k.proc 0).pid = 1 ∧
        (∀ t, (k.proc t).state ≠ UNUSED → (k.proc t).pid = 1 → t = 0) ∧
        (k.getpinfo unusedProc.stat 1).1 = 0 ∧
        (∀ s, (k.proc s).pid = 2 → (k.proc s).state = UNUSED) ∧
        (k.set_priority 2 7).1 = 60 ∧ ((k.set_priority 2 7).2.proc 1).priority = 7 ∧
        (∀ s, (k.proc s).pid = 0 → (k.proc s).state = UNUSED) ∧
        (k.set_priority 0 7).1 = 0 ∧ ((k.set_priority 0 7).2.proc 2).priority = 7 := by
    decide +kernel
  exact ⟨k, hk, ⟨hused, hpid, hsole⟩, hrest⟩

end Xv6.Sched
