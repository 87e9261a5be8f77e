import Xv6.Sched.Policy

/-!
# The capacity of the queues

`q1..q4` only get a process that they do not hold yet, so they never hold more than NPROC entries.
-/

namespace Xv6.Sched
open Lib ProcState Kernel

def outside (k : Kernel) : Finset Slot :=
  Finset.univ.filter fun s => (k.proc s).state ≠ UNUSED ∧ s ∉ (k.q 0).toList

def load (k : Kernel) : ℤ := (k.q 0).cnt + (outside k).card

section Load

variable {k k' : Kernel} {p s : Slot} {src dst : Level}

theorem mem_outside : s ∈ outside k ↔ (k.proc s).state ≠ UNUSED ∧ s ∉ (k.q 0).toList := by
  simp [outside]

theorem Queued.cnt_eq (hq : Queued k) (l : Level) : (k.q l).cnt = (k.q l).toList.length := by
  have := hq.cnt l
  rw [CountedArray.length_toList]
  omega

theorem load_quiet (h : Quiet k k') : load k' ≤ load k := by
  have hsub : outside k' ⊆ outside k := by
    intro s hs
    rw [mem_outside] at hs ⊢
    exact ⟨h.live s hs.1, (h.q 0).toList ▸ hs.2⟩
  have hcard := Finset.card_le_card hsub
  have hcnt := (h.q 0).cnt
  simp only [load]
  omega

theorem load_moved (hq : Queued k) (hq' : Queued k') (hm : Moved k k' p src dst)
    (hne : src ≠ dst) (hp : (k.proc p).state ≠ UNUSED)
    (hstate : ∀ s, (k'.proc s).state = (k.proc s).state) : load k' ≤ load k := by
  simp only [load, hq.cnt_eq, hq'.cnt_eq]
  by_cases hsrc : src = 0
  · obtain ⟨j, hj, hget, heq⟩ := hm.left
    subst hsrc
    have hlen : ((k'.q 0).toList).length = (k.q 0).toList.length - 1 := by
      rw [heq, List.length_eraseIdx_of_lt hj]
    have hsub : outside k' ⊆ insert p (outside k) := by
      intro s hs
      rw [mem_outside, hstate, heq] at hs
      rw [Finset.mem_insert, mem_outside]
      by_cases hsp : s = p
      · exact .inl hsp
      · exact .inr ⟨hs.1, fun h => hs.2 (mem_eraseIdx_of_ne hj hget h hsp)⟩
    have hcard := (Finset.card_le_card hsub).trans (Finset.card_insert_le p (outside k))
    omega
  · by_cases hdst : dst = 0
    · subst hdst
      rcases hm.joined with ⟨_, heq⟩ | ⟨hpn, heq⟩
      · have hsub : outside k' ⊆ outside k := by
          intro s hs
          rw [mem_outside, hstate, heq] at hs
          exact mem_outside.mpr hs
        have hcard := Finset.card_le_card hsub
        rw [heq]
        omega
      · have hsub : outside k' ⊆ (outside k).erase p := by
          intro s hs
          rw [mem_outside, hstate, heq, List.mem_append, List.mem_singleton] at hs
          rw [Finset.mem_erase, mem_outside]
          exact ⟨fun h => hs.2 (.inr h), hs.1, fun h => hs.2 (.inl h)⟩
        have hpo : p ∈ outside k := mem_outside.mpr ⟨hp, hpn⟩
        have hcard := Finset.card_le_card hsub
        rw [Finset.card_erase_of_mem hpo] at hcard
        have hpos := Finset.card_pos.mpr ⟨p, hpo⟩
        rw [heq, List.length_append, List.length_singleton]
        push_cast
        omega
    · have heq := hm.other 0 (Ne.symm hsrc) (Ne.symm hdst)
      have hout : outside k' = outside k := by
        ext s
        rw [mem_outside, mem_outside, hstate, heq]
      rw [hout, heq]

theorem load_micro (hq : Queued k) (h : Micro k k') : load k' ≤ load k := by
  have hq' := hq.micro h
  cases h with
  | quiet h => exact load_quiet h
  | move p src dst c d ind c' hp hsrc hne _ =>
    exact load_moved hq hq' (hq.moved (live_of_runs hp) hsrc hne) hne (live_of_runs hp) move_state
  | rotate p hp h4 =>
    have hr := hq.rotated (live_of_runs hp) h4
    have heq := hr.other 0 (by decide)
    have hout : outside (k.rotate4 p) = outside k := by
      ext s
      rw [mem_outside, mem_outside, (rotate4_proc s).1, heq]
    simp only [load, heq, hout]
    exact le_refl _

theorem load_allocproc (hq : Queued k) : load (k.allocproc s) ≤ load k + 1 := by
  have hlist : ((k.allocproc s).q 0).toList = (k.q 0).toList ++ [s] := by
    rw [allocproc_q, if_pos rfl, CountedArray.push_toList _ _ (hq.cnt 0)]
  have hsub : outside (k.allocproc s) ⊆ outside k := by
    intro t ht
    rw [mem_outside, hlist, List.mem_append, List.mem_singleton] at ht
    have hts : t ≠ s := fun h => ht.2 (.inr h)
    rw [allocproc_of_ne hts] at ht
    exact mem_outside.mpr ⟨ht.1, fun h => ht.2 (.inl h)⟩
  have hcard := Finset.card_le_card hsub
  have hcnt : ((k.allocproc s).q 0).cnt = (k.q 0).cnt + 1 := by
    rw [allocproc_q, if_pos rfl]
    rfl
  simp only [load]
  omega

end Load

def InBounds (k : Kernel) : Prop :=
  ∀ l, 0 ≤ (k.q l).cnt ∧ (k.q l).cnt ≤ 1000 ∧ (k.q l).oob = false

structure Bounded (k : Kernel) : Prop where
  nodup : ∀ l, l ≠ 0 → (k.q l).toList.Nodup
  oob : ∀ l, (k.q l).oob = false
  load : load k ≤ 1000

section Bounded

variable {k k' : Kernel} {p s : Slot} {src dst : Level}

section

variable (hq : Queued k) (hb : Bounded k)
include hq hb

theorem Bounded.cnt_le {l : Level} (hl : l ≠ 0) : (k.q l).cnt ≤ 64 := by
  have hlen := (hb.nodup l hl).length_le_card
  rw [Fintype.card_fin] at hlen
  rw [hq.cnt_eq]
  exact_mod_cast hlen

theorem Bounded.inBounds : InBounds k := by
  intro l
  refine ⟨hq.cnt l, ?_, hb.oob l⟩
  by_cases hl : l = 0
  · have := hb.load
    simp only [Sched.load] at this
    rw [hl]
    omega
  · have := hb.cnt_le hq hl
    omega

theorem Bounded.of_quiet (h : Quiet k k') : Bounded k' where
  nodup l hl := (h.q l).toList ▸ hb.nodup l hl
  oob l := ((h.q l).oob (by exact_mod_cast (hb.inBounds hq l).2.1)).trans (hb.oob l)
  load := (load_quiet h).trans hb.load

theorem Bounded.move {c c' : Cmp} {d : Scan} {ind : ℤ}
    (hp : (k.proc p).state ≠ UNUSED) (hsrc : (k.proc p).qno = src) (hne : src ≠ dst) :
    Bounded (k.move p src dst c d ind c') := by
  have hm : Moved k (k.move p src dst c d ind c') p src dst := hq.moved hp hsrc hne
  have hq' : Queued (k.move p src dst c d ind c') := hq.move hp hsrc hne
  have hload := (load_moved hq hq' hm hne hp move_state).trans hb.load
  have hnodup : ∀ l, l ≠ 0 → ((k.move p src dst c d ind c').q l).toList.Nodup :=
    fun l hl => hm.nodup (hb.nodup l hl)
  have hdst : ((k.move p src dst c d ind c').q dst).cnt ≤ 1000 := by
    by_cases hd : dst = 0
    · simp only [Sched.load] at hload
      rw [hd] at hload ⊢
      omega
    · have hlen := (hnodup dst hd).length_le_card
      rw [Fintype.card_fin] at hlen
      rw [hq'.cnt_eq]
      have : (NPROC : ℤ) ≤ 1000 := by decide
      omega
  refine ⟨hnodup, fun l => ?_, hload⟩
  by_cases hl : l = src
  · rw [hl, hm.srcOob (hb.inBounds hq src).2.1]
    exact hb.oob src
  · by_cases hl' : l = dst
    · rw [hl', hm.dstOob hdst]
      exact hb.oob dst
    · rw [hm.other l hl hl']
      exact hb.oob l

theorem Bounded.rotate4 (hp : (k.proc p).state ≠ UNUSED)
    (hp' : (k.proc p).state = RUNNABLE ∨ (k.proc p).state = RUNNING)
    (h4 : (k.proc p).qno = 4) : Bounded (k.rotate4 p) := by
  have hr := hq.rotated hp h4
  have hcnt := hb.cnt_le hq (l := 4) (by decide)
  refine ⟨fun l hl => (hr.perm l).nodup_iff.mpr (hb.nodup l hl), fun l => ?_,
    (load_micro hq (.rotate p hp' h4)).trans hb.load⟩
  by_cases hl : l = 4
  · rw [hl, hr.oob (by omega)]
    exact hb.oob 4
  · rw [hr.other l hl]
    exact hb.oob l

end

theorem Bounded.micro (h : Queued k ∧ Bounded k) (hm : Micro k k') : Queued k' ∧ Bounded k' := by
  refine ⟨h.1.micro hm, ?_⟩
  cases hm with
  | quiet hq => exact h.2.of_quiet h.1 hq
  | move p src dst c d ind c' hp hsrc hne _ => exact h.2.move h.1 (live_of_runs hp) hsrc hne
  | rotate p hp h4 => exact h.2.rotate4 h.1 (live_of_runs hp) hp h4

theorem Bounded.allocproc (hq : Queued k) (hb : Bounded k) (hload : Sched.load k < 1000) :
    Bounded (k.allocproc s) := by
  have h0 : (k.q 0).cnt < 1000 := by
    simp only [Sched.load] at hload
    omega
  refine ⟨fun l hl => ?_, fun l => ?_, ?_⟩
  · rw [allocproc_q, if_neg hl]
    exact hb.nodup l hl
  · rw [allocproc_q]
    split_ifs with hl
    · rw [CountedArray.push_oob _ _ (hq.cnt 0) (by exact_mod_cast h0)]
      exact hb.oob 0
    · exact hb.oob l
  · have := load_allocproc (s := s) hq
    omega

end Bounded

def QueueRoom (k : Kernel) (e : Event) : Prop :=
  PidRoom k e ∧ (e = .alloc → k.firstUnused.isSome → load k < 1000)

instance (k : Kernel) (e : Event) : Decidable (QueueRoom k e) :=
  inferInstanceAs (Decidable (_ ∧ (_ → _ → _)))

theorem Bounded.step {b : Build} {k k' : Kernel} {e : Event} (hc : Ctl k) (hq : Queued k)
    (hb : Bounded k) (hC : QueueRoom k e) (h : step b k e = some k') : Bounded k' := by
  cases (step_effect hc h).2 with
  | alloc p s hu hs =>
    have hload := hC.2 rfl (by rw [hs]; rfl)
    exact (hb.allocproc hq hload).of_quiet (hq.allocproc (hC.1 rfl)) (setKont_quiet _ _)
  | micros hm =>
    exact (micros_preserve (I := fun k => Queued k ∧ Bounded k) Bounded.micro ⟨hq, hb⟩ hm).2

theorem boot_load (kstack pgdir : ℕ) : load (boot kstack pgdir) = 1 := by
  have hout : outside (boot kstack pgdir) = ∅ := by
    ext s
    rw [mem_outside, boot_q, if_pos rfl]
    simp only [List.mem_singleton, Finset.notMem_empty, iff_false]
    intro ⟨hs, h0⟩
    rw [boot_proc kstack pgdir h0] at hs
    exact hs rfl
  have hcnt : ((boot kstack pgdir).q 0).cnt = 1 := by
    simp only [boot, allocStack, setProc_q, allocproc_q]
    rfl
  simp only [load, hout, hcnt]
  rfl

theorem boot_bounded (kstack pgdir : ℕ) : Bounded (boot kstack pgdir) := by
  refine ⟨fun l hl => ?_, fun l => ?_, ?_⟩
  · rw [boot_q, if_neg hl]
    exact List.nodup_nil
  · simp only [boot, allocStack, setProc_q, allocproc_q]
    split_ifs <;> rfl
  · rw [boot_load]
    decide

theorem queue_capacity (b : Build) (kstack pgdir : ℕ) (es : List Event) (k : Kernel)
    (hC : Runs.Meets (step b) QueueRoom (boot kstack pgdir) es)
    (hrun : Runs.exec (step b) (boot kstack pgdir) es = some k) : InBounds k := by
  have hI := Runs.exec_preserves (step b) (I := fun k => (Ctl k ∧ Queued k) ∧ Bounded k)
    (fun k e k' hI hC h => ⟨⟨(step_effect hI.1.1 h).1, hI.1.2.step hI.1.1 hC.1 h⟩,
      hI.2.step hI.1.1 hI.1.2 hC h⟩)
    ⟨⟨boot_ctl _ _, boot_queued _ _⟩, boot_bounded _ _⟩ hC hrun
  exact hI.2.inBounds hI.1.2

theorem queue_capacity_reuseRun : ∃ k, Runs.exec (step .MLFQ) (boot 1 1) reuseRun = some k ∧
    InBounds k := by
  have h : (Runs.exec (step .MLFQ) (boot 1 1) reuseRun).isSome := by decide +kernel
  obtain ⟨k, hk⟩ := Option.isSome_iff_exists.mp h
  exact ⟨k, hk, queue_capacity .MLFQ 1 1 reuseRun k (by decide +kernel) hk⟩

structure Looping (k : Kernel) (n : ℤ) : Prop where
  cpu : k.cpu = .running
  cur : k.cur = some 0
  kont : k.kont 0 = .user
  unused : k.firstUnused = some 1
  cnt : (k.q 0).cnt = n

def failedFork : List Event := [.alloc, .stack 0]

theorem Looping.round {b : Build} {k : Kernel} {n : ℤ} (h : Looping k n) :
    ∃ k', Runs.exec (step b) k failedFork = some k' ∧ Looping k' (n + 1) := by
  have halloc : step b k .alloc = some ((k.allocproc 1).setKont 0 (.forkStack 1)) := by
    simp only [step, h.cpu, h.cur, procStep, h.kont, h.unused]
  have hkont : ((k.allocproc 1).setKont 0 (.forkStack 1)).kont 0 = .forkStack 1 := by
    rw [setKont_kont, if_pos rfl]
  have hstack : step b ((k.allocproc 1).setKont 0 (.forkStack 1)) (.stack 0) =
      some ((((k.allocproc 1).setKont 0 (.forkStack 1)).allocStack 1 0).setKont 0 .user) := by
    have hcpu : ((k.allocproc 1).setKont 0 (.forkStack 1)).cpu = .running := h.cpu
    have hcur : ((k.allocproc 1).setKont 0 (.forkStack 1)).cur = some 0 := h.cur
    simp only [step, hcpu, hcur, procStep, hkont, if_true]
  refine ⟨_, (Runs.exec_cons _).mpr ⟨_, halloc, (Runs.exec_cons _).mpr ⟨_, hstack, rfl⟩⟩, ?_⟩
  refine ⟨h.cpu, h.cur, by rw [setKont_kont, if_pos rfl], ?_, ?_⟩
  · -- Slot 1 is UNUSED again, so every slot has the state it had.
    rw [← h.unused]
    have hu := firstUnused_state h.unused
    simp only [firstUnused]
    congr 1
    funext s
    by_cases hs : s = 1
    · subst hs
      simp [allocStack, hu]
    · simp [allocStack, setProc_of_ne, hs, allocproc_of_ne]
  · have : ((((k.allocproc 1).setKont 0 (.forkStack 1)).allocStack 1 0).setKont 0 .user).q 0 =
        (k.allocproc 1).q 0 := rfl
    rw [this, allocproc_q, if_pos rfl, CountedArray.push_cnt, h.cnt]

theorem Looping.rounds {b : Build} {k : Kernel} {n : ℤ} (h : Looping k n) (m : ℕ) :
    ∃ k', Runs.exec (step b) k (List.replicate m failedFork).flatten = some k' ∧
      Looping k' (n + m) := by
  induction m generalizing k n with
  | zero => exact ⟨k, rfl, by simpa using h⟩
  | succ m ih =>
    obtain ⟨k₁, h₁, hl₁⟩ := h.round (b := b)
    obtain ⟨k₂, h₂, hl₂⟩ := ih hl₁
    refine ⟨k₂, ?_, ?_⟩
    · rw [List.replicate_succ, List.flatten_cons]
      exact (Runs.exec_append _).mpr ⟨k₁, h₁, h₂⟩
    · have : n + 1 + (m : ℤ) = n + (m + 1 : ℕ) := by push_cast; ring
      rwa [this] at hl₂

def starvedRun : List Event := .schedule :: (List.replicate 1000 failedFork).flatten

theorem queue_capacity_fails : ∃ k,
    Runs.exec (step .DEFAULT) (boot 1 1) starvedRun = some k ∧ ¬InBounds k := by
  obtain ⟨k₁, hk₁, hcpu, hcur, hkont, hunused, hcnt⟩ :
      ∃ k ∈ step .DEFAULT (boot 1 1) .schedule, k.cpu = .running ∧ k.cur = some 0 ∧
        k.kont 0 = .user ∧ k.firstUnused = some 1 ∧ (k.q 0).cnt = 1 := by decide +kernel
  have hl : Looping k₁ 1 := ⟨hcpu, hcur, hkont, hunused, hcnt⟩
  obtain ⟨k, hk, hlk⟩ := hl.rounds (b := .DEFAULT) 1000
  refine ⟨k, (Runs.exec_cons _).mpr ⟨k₁, hk₁, hk⟩, fun hin => ?_⟩
  have := (hin 0).2.1
  rw [hlk.cnt] at this
  norm_num at this

end Xv6.Sched
