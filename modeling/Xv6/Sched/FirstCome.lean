import Xv6.Sched.Times

/-!
# First come, first served

The FCFS scheduler runs the RUNNABLE process with the least `ctime`, and of two such processes the
one in the lower slot.
-/

namespace Xv6.Sched
open Lib ProcState Kernel Function

/-- The processes created so far, and the number of the last one in each slot. -/
structure Arrivals where
  count : ℕ
  born : Slot → ℕ

def Arrivals.boot : Arrivals := ⟨1, fun _ => 0⟩

def Arrivals.take (a : Arrivals) (s : Slot) : Arrivals :=
  ⟨a.count + 1, update a.born s a.count⟩

def Arrivals.record (a : Arrivals) (k : Kernel) (e : Event) (_ : Kernel) : Arrivals :=
  match e, k.firstUnused with
  | .alloc, some s => a.take s
  | _, _ => a

def Kernel.Precedes (k : Kernel) (s t : Slot) : Prop :=
  (k.proc s).ctime < (k.proc t).ctime ∨ (k.proc s).ctime = (k.proc t).ctime ∧ s < t

def Kernel.ComesLast (k : Kernel) (np : Slot) : Prop :=
  ∀ s, s ≠ np → (k.proc s).state ≠ UNUSED →
    (k.proc s).ctime < int32 k.ticks ∨ (k.proc s).ctime = int32 k.ticks ∧ s < np

instance (k : Kernel) (np : Slot) : Decidable (k.ComesLast np) :=
  inferInstanceAs (Decidable (∀ _ : Slot, _ → _ → _ ∨ _ ∧ _))

def Queues (k : Kernel) (e : Event) : Prop :=
  match e, k.cur.map k.kont with
  | .stack _, some (.forkStack np) => k.ComesLast np
  | _, _ => True

instance (k : Kernel) (e : Event) : Decidable (Queues k e) := by
  unfold Queues
  split <;> infer_instance

section FirstCome

variable {k k' : Kernel} {e : Event} {p q s t : Slot}

theorem Kernel.Precedes.trans {r : Slot} (h : k.Precedes r s) (h' : k.Precedes s t) :
    k.Precedes r t := by
  unfold Precedes at *
  rcases h with h | ⟨h, hlt⟩ <;> rcases h' with h' | ⟨h', hlt'⟩
  · exact .inl (h.trans h')
  · exact .inl (h' ▸ h)
  · exact .inl (h ▸ h')
  · exact .inr ⟨h.trans h', hlt.trans hlt'⟩

theorem Kernel.Precedes.not_symm (h : k.Precedes s t) : ¬ k.Precedes t s := by
  unfold Precedes at *
  rintro (h' | ⟨h', hlt'⟩) <;> rcases h with h | ⟨h, hlt⟩
  · omega
  · omega
  · omega
  · exact absurd (hlt.trans hlt') (lt_irrefl s)

theorem foldl_firstCome (ss : List Slot) (hss : ss.Pairwise (· < ·)) (acc : Option Slot)
    (hacc : ∀ r, acc = some r → ∀ s ∈ ss, r < s) (r : Slot)
    (h : ss.foldl (fun q s =>
      if (k.proc s).state ≠ RUNNABLE then q
      else match q with
        | none => some s
        | some r => if (k.proc s).ctime < (k.proc r).ctime then some s else q) acc = some r) :
    (∀ a, acc = some a → r = a ∨ k.Precedes r a) ∧
      ∀ t ∈ ss, (k.proc t).state = RUNNABLE → r = t ∨ k.Precedes r t := by
  induction ss generalizing acc with
  | nil =>
    refine ⟨fun a ha => .inl ?_, fun t ht => absurd ht (List.not_mem_nil)⟩
    rw [List.foldl_nil, ha] at h
    exact (Option.some.inj h).symm
  | cons s ss ih =>
    obtain ⟨hs, hss⟩ := List.pairwise_cons.mp hss
    rw [List.foldl_cons] at h
    by_cases hrun : (k.proc s).state = RUNNABLE
    · rw [if_neg (not_not.mpr hrun)] at h
      cases acc with
      | none =>
        obtain ⟨hfirst, hrest⟩ := ih hss (some s) (fun r hr => Option.some.inj hr ▸ hs) h
        refine ⟨nofun, fun t ht ht' => ?_⟩
        rcases List.mem_cons.mp ht with rfl | ht
        · exact hfirst t rfl
        · exact hrest t ht ht'
      | some a =>
        have has : a < s := hacc a rfl s List.mem_cons_self
        dsimp only at h
        split_ifs at h with hlt
        · obtain ⟨hfirst, hrest⟩ := ih hss (some s) (fun r hr => Option.some.inj hr ▸ hs) h
          have hsa : k.Precedes s a := .inl hlt
          refine ⟨fun b hb => ?_, fun t ht ht' => ?_⟩
          · cases hb
            rcases hfirst s rfl with rfl | hr
            · exact .inr hsa
            · exact .inr (hr.trans hsa)
          · rcases List.mem_cons.mp ht with rfl | ht
            · exact hfirst t rfl
            · exact hrest t ht ht'
        · obtain ⟨hfirst, hrest⟩ := ih hss (some a)
            (fun r hr t ht => hacc r hr t (List.mem_cons_of_mem s ht)) h
          have hpre : k.Precedes a s := by
            rcases lt_or_eq_of_le (not_lt.mp hlt) with hlt' | heq
            · exact .inl hlt'
            · exact .inr ⟨heq, has⟩
          refine ⟨hfirst, fun t ht ht' => ?_⟩
          rcases List.mem_cons.mp ht with rfl | ht
          · rcases hfirst a rfl with rfl | hr
            · exact .inr hpre
            · exact .inr (hr.trans hpre)
          · exact hrest t ht ht'
    · rw [if_pos hrun] at h
      obtain ⟨hfirst, hrest⟩ := ih hss acc
        (fun r hr t ht => hacc r hr t (List.mem_cons_of_mem s ht)) h
      refine ⟨hfirst, fun t ht ht' => ?_⟩
      rcases List.mem_cons.mp ht with rfl | ht
      · exact absurd ht' hrun
      · exact hrest t ht ht'

theorem firstCome_least (h : k.firstCome = some p) (hq : (k.proc q).state = RUNNABLE) :
    p = q ∨ k.Precedes p q :=
  (foldl_firstCome slots (List.pairwise_lt_finRange _) none nofun p h).2 q (List.mem_finRange q) hq

theorem fcfs_dispatch (h : step .FCFS k .schedule = some k') (hcpu : k'.cpu = .running)
    (hcur : k'.cur = some p) : k.firstCome = some p := by
  cases step_cases h with
  | pass i m _ hm => cases hm
  | schedule hidle =>
    simp only [schedulePass] at hcpu hcur
    split at hcpu
    · next q hq =>
      rw [hq] at hcur ⊢
      exact hcur
    · rw [hidle] at hcpu
      cases hcpu

theorem tick_fcfs (k : Kernel) (p : Slot) (user : Bool) : SameCpu k (k.tick .FCFS p user) := by
  have hpre : (k.timer .FCFS).preempt .FCFS p = k.timer .FCFS := by
    simp only [preempt]
    split_ifs <;> rfl
  have htimer := timer_cpu .FCFS k
  simp only [tick, hpre]
  split_ifs
  · exact ⟨htimer.cpu, htimer.cur, htimer.mxprt⟩
  · exact htimer

theorem fcfs_keeps_cpu (hc : Ctl k) (h : step .FCFS k e = some k') (hcpu : k.cpu = .running)
    (hcur : k.cur = some p) : k'.cpu = .running ∧ k'.cur = some p ∨ (k'.proc p).state = SLEEPING ∨
      (k'.proc p).state = ZOMBIE := by
  have hrun : (k.info p).state = RUNNING := hc.state_cur hcpu hcur
  have hsame : SameCpu k k' → k'.cpu = .running ∧ k'.cur = some p ∨ (k'.proc p).state = SLEEPING ∨
      (k'.proc p).state = ZOMBIE := fun hs => .inl ⟨hs.cpu.trans hcpu, hs.cur.trans hcur⟩
  cases ht : e.isTick with
  | true =>
    cases step_cases h with
    | tick r user _ hr _ => exact hsame (tick_fcfs k r user)
    | tickIdle user hidle =>
      rw [hcpu] at hidle
      cases hidle
    | _ => cases ht
  | false =>
    have hsched : e ≠ .schedule := by
      rintro rfl
      cases step_cases h with
      | pass i m hpass _ => rw [hcpu] at hpass; cases hpass
      | schedule hidle => rw [hcpu] at hidle; cases hidle
    rcases step_control h hsched ht with hs | ⟨r, -, hr, -, hl⟩
    · exact hsame hs.toSameCpu
    · obtain rfl := Option.some.inj (hcur.symm.trans hr)
      have hstop : (k'.info p).state ≠ RUNNING := hl.state_ne
      right
      change (k'.info p).state = SLEEPING ∨ (k'.info p).state = ZOMBIE
      cases step_change hc h ht p with
      | kept hi => exact absurd (by rw [hi, hrun]) hstop
      | prioritized _ _ _ hi => exact absurd (by rw [hi]; exact hrun) hstop
      | slept _ hi => exact .inl (by rw [hi])
      | exited _ hi => exact .inr (by rw [hi])
      | woken hst _ | taken _ _ _ hst _ | stacked _ _ _ _ _ hst _ | dropped hst _
      | copied _ _ _ _ hst _ | readied _ _ hst _ | reaped hst _ | dispatched _ hst _ _ _ =>
        rw [hrun] at hst; cases hst

structure InOrder (k : Kernel) (a : Arrivals) : Prop where
  ctl : Ctl k
  bound : ∀ s, (k.proc s).state ≠ UNUSED → a.born s < a.count
  filling : ∀ p s, k.kont p = .forkStack s → k.cpu = .running ∧ k.cur = some p ∧
    ∀ t, t ≠ s → (k.proc t).state ≠ UNUSED → a.born t < a.born s
  order : ∀ s t, Started k s → Started k t → a.born s < a.born t → k.Precedes s t

variable {a : Arrivals}

theorem record_of_ne (he : e ≠ .alloc) : a.record k e k' = a := by
  cases e <;> first | rfl | exact absurd rfl he

theorem take_self (a : Arrivals) (s : Slot) : (a.take s).born s = a.count :=
  update_self ..

theorem take_of_ne (a : Arrivals) (hts : t ≠ s) : (a.take s).born t = a.born t :=
  update_of_ne hts ..

theorem filling_step (hcpu : k.cpu = .running) (hcur : k.cur = some p)
    (hk : k.kont p = .forkStack s) (h : step .FCFS k e = some k') :
    (∃ page, e = .stack page) ∨ e ≠ .alloc ∧ SameCpu k k' := by
  simp only [step, hcpu, hcur, procStep, hk] at h
  cases e with
  | stack page => exact .inl ⟨page, rfl⟩
  | wakeup c =>
    cases h
    exact .inr ⟨by simp, (calm_wakeup1 k _).toSameCpu⟩
  | tick user =>
    cases user with
    | false =>
      cases h
      exact .inr ⟨by simp, tick_fcfs k p false⟩
    | true => cases h
  | _ => cases h

theorem InOrder.alloc (hi : InOrder k a) (hcpu : k.cpu = .running) (hcur : k.cur = some p)
    (hk : k.kont p = .user) (hc : Ctl ((k.allocproc s).setKont p (.forkStack s))) :
    InOrder ((k.allocproc s).setKont p (.forkStack s)) (a.take s) := by
  have hother : ∀ t, t ≠ s → ((k.allocproc s).setKont p (.forkStack s)).proc t = k.proc t :=
    fun t ht => allocproc_of_ne ht
  have harrived : ∀ t, Started ((k.allocproc s).setKont p (.forkStack s)) t →
      t ≠ s ∧ Started k t := by
    intro t ht
    have hts : t ≠ s := fun hts => ht.stack p (by rw [setKont_kont, if_pos rfl, hts])
    refine ⟨hts, ⟨hother t hts ▸ ht.used, fun q hq => ?_⟩⟩
    refine ht.stack q ?_
    rw [setKont_kont, if_neg]
    · exact hq
    · rintro rfl
      rw [hk] at hq
      cases hq
  refine ⟨hc, fun t ht => ?_, fun q t hq => ?_, fun t u ht hu hlt => ?_⟩
  · by_cases hts : t = s
    · rw [hts, take_self]
      exact Nat.lt_succ_self _
    · rw [take_of_ne a hts]
      rw [hother t hts] at ht
      exact Nat.lt_succ_of_lt (hi.bound t ht)
  · rw [setKont_kont] at hq
    split_ifs at hq with hqp
    · cases hq
      refine ⟨hcpu, hqp ▸ hcur, fun u hu hused => ?_⟩
      rw [take_of_ne a hu, take_self]
      rw [hother u hu] at hused
      exact hi.bound u hused
    · -- a second process would be inside `allocproc`
      obtain ⟨-, hcur', -⟩ := hi.filling q t hq
      exact absurd (Option.some.inj (hcur'.symm.trans hcur)) hqp
  · obtain ⟨hts, hat⟩ := harrived t ht
    obtain ⟨hus, hau⟩ := harrived u hu
    have hpre := hi.order t u hat hau (by rwa [take_of_ne a hts, take_of_ne a hus] at hlt)
    unfold Precedes at hpre ⊢
    rwa [hother t hts, hother u hus]

theorem InOrder.stack {page : ℕ} (hi : InOrder k a) (hcur : k.cur = some p)
    (hk : k.kont p = .forkStack s) (hlast : k.ComesLast s)
    (hc : Ctl ((k.allocStack s page).setKont p (if page = 0 then .user else .forkCopy s))) :
    InOrder ((k.allocStack s page).setKont p (if page = 0 then .user else .forkCopy s)) a := by
  obtain ⟨-, -, hmax⟩ := hi.filling p s hk
  have hembryo := (hi.ctl.fork p s (by rw [hk]; rfl)).1
  have hother : ∀ t, t ≠ s → ((k.allocStack s page).setKont p
      (if page = 0 then .user else .forkCopy s)).proc t = k.proc t := fun t ht =>
    update_of_ne ht ..
  have hkont : ∀ q t, ((k.allocStack s page).setKont p
      (if page = 0 then .user else .forkCopy s)).kont q ≠ .forkStack t := by
    intro q t hq
    rw [setKont_kont] at hq
    split_ifs at hq with hqp
    obtain ⟨-, hcur', -⟩ := hi.filling q t hq
    exact hqp (Option.some.inj (hcur'.symm.trans hcur))
  have harrived : ∀ t, t ≠ s → (k.proc t).state ≠ UNUSED → Started k t := by
    refine fun t ht hused => ⟨hused, fun q hq => ?_⟩
    obtain ⟨-, hcur', -⟩ := hi.filling q t hq
    obtain rfl := Option.some.inj (hcur'.symm.trans hcur)
    rw [hk] at hq
    cases hq
    exact ht rfl
  refine ⟨hc, fun t ht => ?_, fun q t hq => absurd hq (hkont q t), fun t u ht hu hlt => ?_⟩
  · by_cases hts : t = s
    · rw [hts]
      exact hi.bound s (by rw [hembryo]; exact nofun)
    · rw [hother t hts] at ht
      exact hi.bound t ht
  · by_cases hts : t = s
    · -- nothing was taken after this slot
      subst hts
      have hut : u ≠ t := by
        rintro rfl
        exact absurd hlt (lt_irrefl _)
      have hused := hu.used
      rw [hother u hut] at hused
      exact absurd hlt (hmax u hut hused).le.not_gt
    · have hused := ht.used
      rw [hother t hts] at hused
      by_cases hus : u = s
      · subst hus
        have hpage : page ≠ 0 := by
          rintro rfl
          refine hu.used ?_
          rw [setKont_proc, allocStack, setProc_self, if_pos rfl]
        have hself : (((k.allocStack u page).setKont p
            (if page = 0 then .user else .forkCopy u)).proc u).ctime = int32 k.ticks := by
          rw [setKont_proc, allocStack_self k u hpage]
        unfold Precedes
        rw [hother t hts, hself]
        exact hlast t hts hused
      · have husedu := hu.used
        rw [hother u hus] at husedu
        have hpre := hi.order t u (harrived t hts hused) (harrived u hus husedu) hlt
        unfold Precedes at hpre ⊢
        rwa [hother t hts, hother u hus]

theorem InOrder.step (hi : InOrder k a) (hq : Queues k e) (h : Sched.step .FCFS k e = some k') :
    InOrder k' (a.record k e k') := by
  have hc := (step_effect hi.ctl h).1
  by_cases hal : e = .alloc
  · subst hal
    cases step_cases h with
    | alloc p s hcpu hcur hk hfree =>
      have hrec : a.record k .alloc ((k.allocproc s).setKont p (.forkStack s)) = a.take s := by
        simp only [Arrivals.record, hfree]
      rw [hrec]
      exact hi.alloc hcpu hcur hk hc
    | full p hcpu hcur hfull =>
      have hrec : a.record k .alloc k = a := by simp only [Arrivals.record, hfull]
      rw [hrec]
      exact hi
  rw [record_of_ne hal]
  by_cases hst : ∃ page, e = .stack page
  · obtain ⟨page, rfl⟩ := hst
    cases step_cases h with
    | stack p s _ hcpu hcur hk =>
      have hlast : k.ComesLast s := by
        have hq' : Queues k (.stack page) ↔ k.ComesLast s := by
          simp only [Queues, hcur, Option.map_some, hk]
        exact hq'.mp hq
      exact hi.stack hcur hk hlast hc
  have hused : ∀ {s}, (k'.proc s).state ≠ UNUSED → (k.proc s).state ≠ UNUSED := fun hs =>
    used_of_step hi.ctl h hal hs
  have hctime : ∀ s, (k'.proc s).ctime = (k.proc s).ctime := fun s =>
    ctime_of_step hi.ctl h fun page hpage => hst ⟨page, hpage⟩
  have harrived : ∀ {s}, Started k' s → Started k s := fun {s} hs =>
    ⟨hused hs.used, fun p hp => (forkStack_step h hp).elim (hs.stack p) fun hp => hst hp.2⟩
  refine ⟨hc, fun s hs => hi.bound s (hused hs), fun p s hp => ?_, fun s t hs ht hlt => ?_⟩
  · have hembryo : (k'.proc s).state = EMBRYO := (hc.fork p s (by rw [hp]; rfl)).1
    have hold : k.kont p = .forkStack s :=
      (step_forkStack h hp).resolve_right (hused (by rw [hembryo]; exact nofun))
    obtain ⟨hcpu, hcur, hmax⟩ := hi.filling p s hold
    obtain ⟨-, hsame⟩ := (filling_step hcpu hcur hold h).resolve_left hst
    exact ⟨hsame.cpu.trans hcpu, hsame.cur.trans hcur, fun t ht hs => hmax t ht (hused hs)⟩
  · have hpre := hi.order s t (harrived hs) (harrived ht) hlt
    unfold Precedes at hpre ⊢
    rwa [hctime s, hctime t]

theorem boot_inOrder (kstack pgdir : ℕ) : InOrder (boot kstack pgdir) .boot := by
  refine ⟨boot_ctl kstack pgdir, fun s _ => Nat.one_pos, fun p s h => (nomatch h), ?_⟩
  exact fun s t _ _ hlt => absurd hlt (lt_irrefl 0)

end FirstCome

def arrivals (kstack pgdir : ℕ) (es : List Event) : Arrivals :=
  Runs.track (step .FCFS) Arrivals.record .boot (boot kstack pgdir) es

theorem first_come_first_served (kstack pgdir : ℕ) (es : List Event) (k : Kernel)
    (hrun : Runs.exec (step .FCFS) (boot kstack pgdir) es = some k)
    (hqueues : Runs.Meets (step .FCFS) Queues (boot kstack pgdir) es) (e : Event) (k' : Kernel)
    (hstep : step .FCFS k e = some k') (p : Slot) :
    (e = .schedule → k'.cpu = .running → k'.cur = some p → ∀ q, (k.proc q).state = RUNNABLE →
      (arrivals kstack pgdir es).born p ≤ (arrivals kstack pgdir es).born q) ∧
    (k.cpu = .running → k.cur = some p → k'.cpu = .running ∧ k'.cur = some p ∨
      (k'.proc p).state = SLEEPING ∨ (k'.proc p).state = ZOMBIE) := by
  have hi : InOrder k (arrivals kstack pgdir es) :=
    Runs.exec_track_meets (step .FCFS) (fun _ _ _ _ hI hq h => hI.step hq h)
      (boot_inOrder kstack pgdir) hqueues hrun
  refine ⟨?_, fun hcpu hcur => fcfs_keeps_cpu hi.ctl hstep hcpu hcur⟩
  rintro rfl hcpu hcur q hq
  have hfirst := fcfs_dispatch hstep hcpu hcur
  have hready : ∀ s, (k.proc s).state = RUNNABLE → Started k s := by
    refine fun s hs => ⟨by rw [hs]; exact nofun, fun r hr => ?_⟩
    have hembryo := (hi.ctl.fork r s (by rw [hr]; rfl)).1
    rw [hs] at hembryo
    cases hembryo
  by_contra hlt
  have hpre := hi.order q p (hready q hq) (hready p (firstCome_runnable hfirst)) (not_le.mp hlt)
  rcases firstCome_least hfirst hq with rfl | hpre'
  · exact hlt le_rfl
  · exact hpre.not_symm hpre'

def servedRun : List Event := [.schedule, .alloc, .stack 2, .copy 3, .run, .wait]

theorem first_come_first_served_servedRun : ∃ k k',
    Runs.exec (step .FCFS) (boot 1 1) servedRun = some k ∧
      step .FCFS k .schedule = some k' ∧ k'.cur = some 1 ∧
      ∀ q, (k.proc q).state = RUNNABLE → (arrivals 1 1 servedRun).born 1 ≤
        (arrivals 1 1 servedRun).born q := by
  obtain ⟨k, hk, k', hk', hcpu, hcur⟩ : ∃ k ∈ Runs.exec (step .FCFS) (boot 1 1) servedRun,
      ∃ k' ∈ step .FCFS k .schedule, k'.cpu = .running ∧ k'.cur = some 1 := by decide +kernel
  have hqueues : Runs.Meets (step .FCFS) Queues (boot 1 1) servedRun := by decide +kernel
  exact ⟨k, k', hk, hk', hcur,
    (first_come_first_served 1 1 servedRun k hk hqueues .schedule k' hk' 1).1 rfl hcpu hcur⟩

def sameTickRun : List Event :=
  [.schedule, .alloc, .stack 2, .copy 3, .run, .alloc, .stack 4, .copy 5, .run, .wait, .schedule,
    .exit, .schedule, .wait, .alloc, .stack 6, .copy 7, .run, .wait]

/-- The third child is dispatched while the second is RUNNABLE. -/
theorem third_before_second : ∃ k k',
    Runs.exec (step .FCFS) (boot 1 1) sameTickRun = some k ∧
      step .FCFS k .schedule = some k' ∧ k'.cpu = .running ∧ k'.cur = some 1 ∧
      (k.proc 2).state = RUNNABLE ∧ (k.proc 2).pid = 3 ∧ (k.proc 1).pid = 4 ∧
      (arrivals 1 1 sameTickRun).born 2 < (arrivals 1 1 sameTickRun).born 1 := by
  obtain ⟨k, hk, k', hk', h⟩ : ∃ k ∈ Runs.exec (step .FCFS) (boot 1 1) sameTickRun,
      ∃ k' ∈ step .FCFS k .schedule, k'.cpu = .running ∧ k'.cur = some 1 ∧
        (k.proc 2).state = RUNNABLE ∧ (k.proc 2).pid = 3 ∧ (k.proc 1).pid = 4 ∧
        (arrivals 1 1 sameTickRun).born 2 < (arrivals 1 1 sameTickRun).born 1 := by decide +kernel
  exact ⟨k, k', hk, hk', h⟩

end Xv6.Sched
