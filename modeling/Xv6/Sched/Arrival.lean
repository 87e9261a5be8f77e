import Xv6.Sched.Policy
import Xv6.Sched.Slices
import Xv6.Sched.RoundRobin

/-!
# The order of arrival in the queues of the MLFQ scheduler

The scheduler takes the first RUNNABLE entry of a queue, and a process keeps its entry while it
sleeps.
-/

namespace Xv6.Sched
open Lib ProcState Kernel

section Lists

variable {α : Type*} {l : List α} {P R : α → Bool} {x : α}

theorem find?_eraseIdx_of_neg {j : ℕ} (hj : j < l.length) (h : P l[j] = false) :
    (l.eraseIdx j).find? P = l.find? P := by
  have hl : l.take j ++ l[j] :: l.drop (j + 1) = l := by
    rw [List.getElem_cons_drop, List.take_append_drop]
  have hneg : ¬P l[j] = true := by rw [h]; decide
  calc (l.eraseIdx j).find? P = (l.take j ++ l.drop (j + 1)).find? P := by
        rw [List.eraseIdx_eq_take_drop_succ]
    _ = (l.take j ++ l[j] :: l.drop (j + 1)).find? P := by
        rw [List.find?_append, List.find?_append, List.find?_cons_of_neg hneg]
    _ = l.find? P := by rw [hl]

theorem find?_stronger (h : l.find? P = some x) (hR : ∀ y, R y = true → P y = true)
    (hx : R x = true) : l.find? R = some x := by
  obtain ⟨-, as, bs, hl, has⟩ := List.find?_eq_some_iff_append.mp h
  refine List.find?_eq_some_iff_append.mpr ⟨hx, as, bs, hl, fun a ha => ?_⟩
  have hnot := has a ha
  cases hRa : R a with
  | false => rfl
  | true => rw [hR a hRa] at hnot; cases hnot

end Lists

def Front (p q : Slot) (l : Level) (k : Kernel) : Prop :=
  (k.q l).toList.find? (fun s => s == p || s == q) = some q ∧ ∀ m < l, p ∉ (k.q m).toList

instance (p q : Slot) (l : Level) (k : Kernel) : Decidable (Front p q l k) :=
  inferInstanceAs (Decidable (_ ∧ _))

section Order

variable {k k' : Kernel} {p q r : Slot} {l src dst : Level}

theorem Front.congr (h : Front p q l k) (hq : ∀ m, (k'.q m).toList = (k.q m).toList) :
    Front p q l k' := by
  simp only [Front, hq]
  exact h

theorem Front.append {L : List Slot}
    (h : L.find? (fun s => s == p || s == q) = some q) :
    (L ++ [r]).find? (fun s => s == p || s == q) = some q := by
  rw [List.find?_append, h]
  rfl

theorem either_of_ne (hp : r ≠ p) (hq : r ≠ q) : (r == p || r == q) = false := by
  simp [hp, hq]

section

variable (h : Front p q l k)
include h

theorem Front.moved (hm : Moved k k' r src dst) (hp : r ≠ p) (hq : r ≠ q) : Front p q l k' := by
  refine ⟨?_, fun m hml hmem => h.2 m hml (hm.mem_of_mem hmem hp.symm)⟩
  by_cases hsrc : l = src
  · obtain ⟨j, hj, hget, heq⟩ := hm.left
    subst hsrc
    rw [heq, find?_eraseIdx_of_neg hj (by rw [hget]; exact either_of_ne hp hq)]
    exact h.1
  · by_cases hdst : l = dst
    · subst hdst
      rcases hm.joined with ⟨_, heq⟩ | ⟨_, heq⟩ <;> rw [heq]
      · exact h.1
      · exact Front.append h.1
    · rw [hm.other l hsrc hdst]
      exact h.1

theorem Front.rotated (hr : Rotated k k' r) (hp : r ≠ p) (hq : r ≠ q) : Front p q l k' := by
  refine ⟨?_, fun m hml hmem => h.2 m hml ((hr.perm m).mem_iff.mp hmem)⟩
  by_cases h4 : l = 4
  · obtain ⟨j, hj, hget, heq⟩ := hr.q4
    subst h4
    rw [heq]
    refine Front.append ?_
    rw [find?_eraseIdx_of_neg hj (by rw [hget]; exact either_of_ne hp hq)]
    exact h.1
  · rw [hr.other l h4]
    exact h.1

theorem Front.allocproc (hk : Queued k) (hp : r ≠ p) : Front p q l (k.allocproc r) := by
  have hpush := CountedArray.push_toList (k.q 0) r (hk.cnt 0)
  refine ⟨?_, fun m hml => ?_⟩
  · rw [allocproc_q]
    split_ifs with hl
    · subst hl
      rw [hpush]
      exact Front.append h.1
    · exact h.1
  · rw [allocproc_q]
    split_ifs with hm
    · subst hm
      rw [hpush, List.mem_append, List.mem_singleton]
      rintro (hmem | rfl)
      · exact h.2 0 hml hmem
      · exact hp rfl
    · exact h.2 m hml

theorem Front.promote (hk : Queued k) (hu : (k.proc r).state ≠ UNUSED)
    (hr : r = p ∨ r = q → (k.proc r).promoted.qno = (k.proc r).qno) :
    Front p q l (k.promote r) := by
  by_cases hrpq : r = p ∨ r = q
  · have hless := (k.proc r).promoted_qno
    have h0 : (k.proc r).qno = 0 := by
      refine Fin.ext ?_
      rw [hr hrpq] at hless
      change (k.proc r).qno.val = 0
      omega
    simp only [Kernel.promote, h0]
    exact h
  · obtain ⟨hp, hq⟩ := not_or.mp hrpq
    rcases level_cases (k.proc r).qno with hl | hl | hl | hl | hl <;>
      simp only [Kernel.promote, hl]
    · exact h
    all_goals exact h.moved (hk.moved hu hl (by decide)) hp hq

theorem Front.agingOne (hk : Queued k)
    (hr : r = p ∨ r = q → ((k.proc r).aged k.ticks).qno = (k.proc r).qno) :
    Front p q l (k.agingOne r) := by
  have hw : k.waited r = (k.proc r).waited k.ticks := rfl
  simp only [Kernel.agingOne]
  split_ifs with hold
  · have hpromote : Front p q l (k.promote r) := by
      refine h.promote hk (live_of_runs (.inl hold.1)) fun hrpq => ?_
      have hstay := hr hrpq
      rwa [Proc.aged, if_pos (by rw [← hw]; exact hold)] at hstay
    exact hpromote.congr fun _ => by rw [setProc_q]
  · exact h

end

theorem Front.foldl_agingOne (ss : List Slot) (hss : ss.Nodup) (h : Front p q l k) (hk : Queued k)
    (hr : ∀ r, r = p ∨ r = q → ((k.proc r).aged k.ticks).qno = (k.proc r).qno) :
    Front p q l (ss.foldl Kernel.agingOne k) := by
  -- The slots of the rest of the list are as they were when the loop began.
  have hloop : ∀ (ss : List Slot), ss.Nodup → ∀ m : Kernel, m.ticks = k.ticks →
      (∀ s ∈ ss, m.proc s = k.proc s) → Queued m → Front p q l m →
      Front p q l (ss.foldl Kernel.agingOne m) := by
    intro ss
    induction ss with
    | nil => exact fun _ m _ _ _ hf => hf
    | cons s ss ih =>
      intro hss m ht hsame hm hf
      obtain ⟨hs, hss⟩ := List.nodup_cons.mp hss
      have hone : ∀ r, r = p ∨ r = q → r = s → ((m.proc r).aged m.ticks).qno = (m.proc r).qno := by
        rintro r hrpq rfl
        rw [hsame r List.mem_cons_self, ht]
        exact hr r hrpq
      refine ih hss (m.agingOne s) ((agingOne_clock m s).ticks.trans ht) (fun t hts => ?_)
        (micros_preserve Queued.micro hm (agingOne_works s).micros)
        (hf.agingOne hm fun hs => hone s hs rfl)
      have hne : t ≠ s := fun h => hs (h ▸ hts)
      rw [agingOne_proc, if_neg hne]
      exact hsame t (List.mem_cons_of_mem s hts)
  exact hloop ss hss k rfl (fun _ _ => rfl) hk h

theorem Front.timer (h : Front p q l k) (hk : Queued k)
    (hr : ∀ r, r = p ∨ r = q → (((k.proc r).woken (some .ticks)).aged k.nextTick).qno =
      ((k.proc r).woken (some .ticks)).qno) : Front p q l (k.timer .MLFQ) := by
  have hnow : Quiet k { k with ticks := k.nextTick } := .of_eq rfl rfl rfl rfl
  have hticked : Queued k.ticked := hk.of_quiet (hnow.trans (wakeup1_quiet _))
  have hfront : Front p q l k.ticked := h.congr fun _ => rfl
  have haging : Front p q l k.ticked.aging :=
    hfront.foldl_agingOne slots (List.nodup_finRange _) hticked hr
  rw [timer_eq, if_pos rfl]
  exact haging.congr fun m => ((account_frame (k := k.ticked.aging)).1.q m).toList

theorem Front.endSlice (h : Front p q l k) (hk : Queued k) (hu : (k.proc r).state ≠ UNUSED)
    (hp : r ≠ p) (hq : r ≠ q) : Front p q l (k.endSlice r) := by
  rcases level_cases (k.proc r).qno with hl | hl | hl | hl | hl <;> simp only [Kernel.endSlice, hl]
  case inr.inr.inr.inr => exact h.rotated (hk.rotated hu hl) hp hq
  all_goals exact h.moved (hk.moved hu hl (by decide)) hp hq

theorem Front.mlfqTick (h : Front p q l k) (hk : Queued k) (hu : (k.proc r).state ≠ UNUSED)
    (hp : r ≠ p) (hq : r ≠ q) : Front p q l (k.mlfqTick r) := by
  have hyield : ∀ {m : Kernel}, Front p q l m → Front p q l (yield .MLFQ m r) := fun hm =>
    hm.congr fun _ => by rw [yield, sched_q, setProc_q]
  have hflags : Front p q l (k.setFlags [0, 1, 2, 3]).1 :=
    h.congr fun m => ((setFlags_frame (k := k) [0, 1, 2, 3]).1.q m).toList
  rw [mlfqTick_eq]
  split_ifs
  · exact h
  · exact hyield (h.endSlice hk hu hp hq)
  · exact hyield hflags
  · exact hflags

theorem step_q {b : Build} {e : Event} (h : step b k e = some k') (ht : e.isTick = false)
    (he : e ≠ .alloc) (l : Level) : (k'.q l).toList = (k.q l).toList := by
  cases step_cases h with
  | alloc p s _ _ _ _ => exact absurd rfl he
  | full p _ _ _ => rfl
  | exit p _ _ _ _ =>
    rw [exit_eq, sched_q, setProc_q, exitWakes, ((reparent_frame p).1.q l).toList]
    rfl
  | wait p _ _ _ =>
    simp only [waitScan]
    split
    · rfl
    · split_ifs
      · rfl
      · rw [sleep, sched_q]
        rfl
  | sleep p c _ _ =>
    rw [sleep, sched_q, setProc_q]
  | kill p pid _ _ => exact ((kill_frame pid).1.q l).toList
  | setPriority p pid pr _ _ => exact ((setPriority_frame pid pr).1.q l).toList
  | tick p user _ _ _ => cases ht
  | tickIdle user _ => cases ht
  | pass i _ _ hm => exact ((schedulePassFrom_passed hm).quiet.q l).toList
  | schedule hcpu => exact ((schedulePass_passed b hcpu).quiet.q l).toList
  | _ => rfl

theorem Front.step {e : Event} (h : Front p q l k) (hc : Ctl k) (hk : Queued k)
    (hstep : Sched.step .MLFQ k e = some k')
    (hrun : ∀ r, r = p ∨ r = q → (k.proc r).state ≠ RUNNING)
    (hlive : ∀ r, r = p ∨ r = q → (k.proc r).state ≠ UNUSED)
    (hlevel : ∀ r, r = p ∨ r = q → (k'.proc r).qno = (k.proc r).qno) : Front p q l k' := by
  cases ht : e.isTick with
  | false =>
    by_cases he : e = .alloc
    · subst he
      cases step_cases hstep with
      | alloc c s _ _ _ hs =>
        have hsp : s ≠ p := fun hsp => hlive s (.inl hsp) (firstUnused_state hs)
        exact (h.allocproc hk hsp).congr fun _ => by rw [setKont_q]
      | full _ _ _ _ => exact h
    · exact h.congr (step_q hstep ht he)
  | true =>
    have hqueued : Queued (k.timer .MLFQ) :=
      micros_preserve Queued.micro hk (timer_works .MLFQ k).micros
    have htimer : Front p q l (k.timer .MLFQ) := by
      refine h.timer hk fun r hr => ?_
      obtain ⟨t, hproc⟩ := tick_other_proc hc hstep ht (hrun r hr)
      obtain ⟨st, hwoken⟩ := (k.proc r).woken_eq (some .ticks)
      have hstay := hlevel r hr
      rw [hproc] at hstay
      rw [hstay, hwoken]
    cases step_cases hstep with
    | tick c user hcpu hcur _ =>
      have hcrun : ((k.timer .MLFQ).proc c).state = RUNNING :=
        timer_running.mpr (hc.state_cur hcpu hcur)
      have hne : ¬(c = p ∨ c = q) := fun hr => hrun c hr (hc.state_cur hcpu hcur)
      obtain ⟨hcp, hcq⟩ := not_or.mp hne
      rw [tick_mlfq k user hcrun]
      split_ifs
      · exact htimer.congr fun _ => by rw [setKont_q]
      · exact htimer.mlfqTick hqueued (live_of_runs (.inr hcrun)) hcp hcq
    | tickIdle user _ => exact htimer
    | _ => cases ht

theorem Front.not_dispatched (h : Front p q l k) (hpq : p ≠ q)
    (hp : (k.proc p).state = RUNNABLE) (hq : (k.proc q).state = RUNNABLE)
    (hstep : Sched.step .MLFQ k .schedule = some k') (hcpu : k'.cpu = .running) :
    k'.cur ≠ some p := by
  intro hcur
  cases step_cases hstep with
  | pass i m _ hm => cases hm
  | schedule hidle =>
    rcases queuePass_first k [0, 1, 2, 3, 4] with
      ⟨pre, m, post, r, hls, hpre, hfind, -, hcur', -⟩ | ⟨-, hidle'⟩
    · have hr : r = p := Option.some.inj (hcur'.symm.trans hcur)
      subst hr
      have hmem : q ∈ (k.q l).toList := List.mem_of_find?_eq_some h.1
      have hle : m ≤ l := le_of_scan hls fun hl => hpre l hl q hmem hq
      rcases lt_or_eq_of_le hle with hlt | rfl
      · exact h.2 m hlt (List.mem_of_find?_eq_some hfind)
      · -- Both are RUNNABLE, so the first RUNNABLE entry is the first of the two.
        have hfirst := find?_stronger (R := fun s => s == r || s == q) hfind
          (fun s hs => by
            rcases (Bool.or_eq_true _ _).mp hs with hs | hs <;> rw [eq_of_beq hs]
            · rw [hp]; rfl
            · rw [hq]; rfl)
          (by simp)
        exact hpq (Option.some.inj (hfirst.symm.trans h.1))
    · have hboth : Cpu.idle = Cpu.running := hidle'.symm.trans hcpu
      cases hboth

end Order

structure Ranked (p q : Slot) (l : Level) (k : Kernel) : Prop where
  ctl : Ctl k
  queued : Queued k
  first : (k.proc p).state = RUNNABLE
  second : (k.proc q).state = RUNNABLE
  front : (k.proc p).qno = l → (k.proc q).qno = l → Front p q l k

def AtLevel (p q : Slot) (l : Level) (k : Kernel) (_ : Event) : Prop :=
  (k.proc p).qno = l ∧ (k.proc q).qno = l

instance (p q : Slot) (l : Level) (k : Kernel) (e : Event) : Decidable (AtLevel p q l k e) :=
  inferInstanceAs (Decidable (_ ∧ _))

section Run

variable {k k' : Kernel} {p q : Slot} {l : Level} {e : Event}

theorem Front.next (h : Front p q l k) (hc : Ctl k) (hk : Queued k) (hat : AtLevel p q l k e)
    (hstep : Sched.step .MLFQ k e = some k')
    (hp : (k.proc p).state = RUNNABLE ∨ (k.proc p).state = SLEEPING)
    (hq : (k.proc q).state = RUNNABLE) (hp' : (k'.proc p).qno = l) (hq' : (k'.proc q).qno = l) :
    Front p q l k' := by
  refine h.step hc hk hstep ?_ ?_ ?_ <;> rintro r (rfl | rfl)
  · rcases hp with hp | hp <;> rw [hp] <;> decide
  · rw [hq]; decide
  · rcases hp with hp | hp <;> rw [hp] <;> decide
  · rw [hq]; decide
  · rw [hp', hat.1]
  · rw [hq', hat.2]

theorem Ranked.step (h : Ranked p q l k) (hpq : p ≠ q) (hroom : PidRoom k e)
    (hat : AtLevel p q l k e) (hstep : Sched.step .MLFQ k e = some k') :
    IsDispatch q k e k' ∨ ¬IsDispatch p k e k' ∧ Ranked p q l k' := by
  have hfront := h.front hat.1 hat.2
  have hnot : ¬IsDispatch p k e k' := by
    rintro ⟨rfl, hcpu, hcur⟩
    exact hfront.not_dispatched hpq h.first h.second hstep hcpu hcur
  rcases runnable_step h.ctl hstep h.second with hq | hd
  · rcases runnable_step h.ctl hstep h.first with hp | hd
    · exact .inr ⟨hnot, (step_effect h.ctl hstep).1, h.queued.step h.ctl hroom hstep, hp, hq,
        hfront.next h.ctl h.queued hat hstep (.inl h.first) h.second⟩
    · exact absurd hd hnot
  · exact .inl hd

theorem schedule_sleeping (h : Sched.step .MLFQ k .schedule = some k')
    (hp : (k.proc p).state = SLEEPING) : (k'.proc p).state = SLEEPING := by
  rcases (schedule_passes h).proc with ⟨r, hr, hproc, -⟩ | ⟨hproc, -⟩
  · have hne : p ≠ r := by
      rintro rfl
      rw [hp] at hr
      cases hr
    rw [hproc, setProc_of_ne _ _ _ hne, hp]
  · rw [hproc, hp]

end Run

theorem mlfq_first_come (kstack pgdir : ℕ) (es : List Event) (e : Event) (fs : List Event)
    (k k₁ k₂ k₃ : Kernel) (p q : Slot) (l : Level)
    (hpid : Runs.Meets (step .MLFQ) PidRoom (boot kstack pgdir) (es ++ e :: (fs ++ [.schedule])))
    (hrun : Runs.exec (step .MLFQ) (boot kstack pgdir) es = some k)
    (hwake : step .MLFQ k e = some k₁) (hpq : p ≠ q)
    (hp : (k.proc p).state = SLEEPING) (hp₁ : (k₁.proc p).state = RUNNABLE)
    (hq : (k.proc q).state = RUNNABLE) (hat : AtLevel p q l k e) (hfront : Front p q l k)
    (hfs : Runs.exec (step .MLFQ) k₁ fs = some k₂)
    (hstay : Runs.Meets (step .MLFQ) (AtLevel p q l) k₁ (fs ++ [.schedule]))
    (h₃ : step .MLFQ k₂ .schedule = some k₃) (hd : IsDispatch p k₂ .schedule k₃) :
    Runs.Occurs (step .MLFQ) (IsDispatch q) k₁ fs := by
  obtain ⟨hc, hk⟩ := run_queued (Runs.Meets.left _ hpid) hrun
  have hroom := Runs.Meets.of_append _ hpid hrun
  have hq₁ : (k₁.proc q).state = RUNNABLE := by
    rcases runnable_step hc hwake hq with h | ⟨rfl, -⟩
    · exact h
    · rw [schedule_sleeping hwake hp] at hp₁
      cases hp₁
  have hstart : Ranked p q l k₁ := ⟨(step_effect hc hwake).1, hk.step hc hroom.1 hwake, hp₁, hq₁,
    hfront.next hc hk hat hwake (.inr hp) hq⟩
  have hboth := (hroom.2 k₁ hwake).and _ hstay
  have hlast := (Runs.Meets.of_append _ hboth hfs).1
  rcases Runs.occurs_or (step .MLFQ) (C := IsDispatch q) (I := Ranked p q l)
    (fun m e m' hI hD hm => (hI.step hpq hD.1 hD.2 hm).imp_right And.right)
    hstart (Runs.Meets.left _ hboth) hfs with hocc | hranked
  · exact hocc
  · rcases hranked.step hpq hlast.1 hlast.2 h₃ with hdq | ⟨hnot, -⟩
    · exact absurd (Option.some.inj (hd.2.2.symm.trans hdq.2.2)) hpq
    · exact absurd hd hnot

/-- The first process forks and sleeps, the child runs and sleeps, the parent is woken. -/
def parentReadyRun : List Event :=
  [.schedule, .alloc, .stack 2, .copy 3, .run, .sleep (.other 0), .schedule, .sleep (.other 1),
    .wakeup (.other 0)]

/-- The child wakes behind its parent and gets the CPU after it. -/
theorem mlfq_first_come_parentReadyRun : ∃ k k₁,
    Runs.exec (step .MLFQ) (boot 1 1) parentReadyRun = some k ∧
      step .MLFQ k (.wakeup (.other 1)) = some k₁ ∧ (k₁.proc 1).state = RUNNABLE ∧
      Runs.Occurs (step .MLFQ) (IsDispatch 0) k₁ [.schedule, .sleep (.other 0)] := by
  obtain ⟨k, hk, k₁, hk₁, k₂, hk₂, k₃, hk₃, hp, hp₁, hq, hat, hfront, hstay, hd⟩ :
      ∃ k ∈ Runs.exec (step .MLFQ) (boot 1 1) parentReadyRun,
      ∃ k₁ ∈ step .MLFQ k (.wakeup (.other 1)),
      ∃ k₂ ∈ Runs.exec (step .MLFQ) k₁ [.schedule, .sleep (.other 0)],
      ∃ k₃ ∈ step .MLFQ k₂ .schedule,
        (k.proc 1).state = SLEEPING ∧ (k₁.proc 1).state = RUNNABLE ∧ (k.proc 0).state = RUNNABLE ∧
        AtLevel 1 0 0 k .schedule ∧ Front 1 0 0 k ∧
        Runs.Meets (step .MLFQ) (AtLevel 1 0 0) k₁ ([.schedule, .sleep (.other 0)] ++ [.schedule]) ∧
        IsDispatch 1 k₂ .schedule k₃ := by
    decide +kernel
  exact ⟨k, k₁, hk, hk₁, hp₁, mlfq_first_come 1 1 parentReadyRun (.wakeup (.other 1))
    [.schedule, .sleep (.other 0)] k k₁ k₂ k₃ 1 0 0 (by decide +kernel) hk hk₁ (by decide) hp hp₁
    hq hat hfront hk₂ hstay hk₃ hd⟩

def parentAsleepRun : List Event := [.schedule, .alloc, .stack 2, .copy 3, .run, .sleep (.other 0)]

theorem mlfq_woken_overtakes : ∃ k k₁ k₂,
    Runs.exec (step .MLFQ) (boot 1 1) parentAsleepRun = some k ∧
      step .MLFQ k (.wakeup (.other 0)) = some k₁ ∧
      (k.proc 0).state = SLEEPING ∧ (k₁.proc 0).state = RUNNABLE ∧ (k.proc 1).state = RUNNABLE ∧
      AtLevel 0 1 0 k (.wakeup (.other 0)) ∧ AtLevel 0 1 0 k₁ .schedule ∧
      step .MLFQ k₁ .schedule = some k₂ ∧ IsDispatch 0 k₁ .schedule k₂ := by
  obtain ⟨k, hk, k₁, hk₁, k₂, hk₂, hp, hp₁, hq, hat, hat₁, hd⟩ :
      ∃ k ∈ Runs.exec (step .MLFQ) (boot 1 1) parentAsleepRun,
      ∃ k₁ ∈ step .MLFQ k (.wakeup (.other 0)), ∃ k₂ ∈ step .MLFQ k₁ .schedule,
        (k.proc 0).state = SLEEPING ∧ (k₁.proc 0).state = RUNNABLE ∧ (k.proc 1).state = RUNNABLE ∧
        AtLevel 0 1 0 k (.wakeup (.other 0)) ∧ AtLevel 0 1 0 k₁ .schedule ∧
        IsDispatch 0 k₁ .schedule k₂ := by
    decide +kernel
  exact ⟨k, k₁, k₂, hk, hk₁, hp, hp₁, hq, hat, hat₁, hk₂, hd⟩

end Xv6.Sched
