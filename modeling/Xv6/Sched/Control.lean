import Xv6.Sched.Frame

/-!
# Which process has the CPU, and which slots are being filled in

`Micro` lists what a step does to the queues: nothing, one of the eight moves of a process between
neighbouring levels, or the rotation of the last queue.
-/

namespace Xv6.Sched
open Lib ProcState Kernel Function

namespace Kernel

variable {k k₁ k₂ k' : Kernel}

theorem search_same (k : Kernel) (l : Level) (p : Slot) (c : Cmp) (d : Scan) :
    CountedArray.SameContent (k.q l) (k.search l p c d).2 := by
  cases d with
  | first => exact CountedArray.findFirst_same _ _
  | last => exact CountedArray.findLast_same _ _

theorem search_found (k : Kernel) (l : Level) (p : Slot) (c : Cmp) (d : Scan) :
    CountedArray.Found (k.isProc c p) (k.q l) (k.search l p c d).1 := by
  cases d with
  | first => exact CountedArray.findFirst_found _ _
  | last => exact CountedArray.findLast_found _ _

inductive Micro (k : Kernel) : Kernel → Prop
  | quiet {m : Kernel} : Quiet k m → Micro k m
  | move (p : Slot) (src dst : Level) (c : Cmp) (d : Scan) (ind : ℤ) (c' : Cmp) :
      (k.proc p).state = RUNNABLE ∨ (k.proc p).state = RUNNING → (k.proc p).qno = src →
      src ≠ dst → dst.val ≤ src.val + 1 → Micro k (k.move p src dst c d ind c')
  | rotate (p : Slot) : (k.proc p).state = RUNNABLE ∨ (k.proc p).state = RUNNING →
      (k.proc p).qno = 4 → Micro k (k.rotate4 p)

structure Works (k k' : Kernel) : Prop where
  micros : Relation.ReflTransGen Micro k k'
  stays : Stays k k'

structure Turn (k k' : Kernel) : Prop where
  micros : Relation.ReflTransGen Micro k k'
  tame : Tame k k'
  cpu : Stays k k' ∨ k'.cpu ≠ .running

theorem Works.refl (k : Kernel) : Works k k := ⟨.refl, .refl k⟩

theorem Works.trans (h : Works k k₁) (h' : Works k₁ k₂) : Works k k₂ :=
  ⟨h.micros.trans h'.micros, h.stays.trans h'.stays⟩

theorem Works.of_frame (h : Quiet k k' ∧ Stays k k') : Works k k' := ⟨.single (.quiet h.1), h.2⟩

theorem Works.turn (h : Works k k') : Turn k k' := ⟨h.micros, h.stays.toTame, .inl h.stays⟩

theorem Works.trans_turn (h : Works k k₁) (h' : Turn k₁ k₂) : Turn k k₂ := by
  refine ⟨h.micros.trans h'.micros, h.stays.toTame.trans h'.tame, ?_⟩
  rcases h'.cpu with hs | hc
  · exact .inl (h.stays.trans hs)
  · exact .inr hc

theorem Works.leave {b : Build} {p : Slot} {f : Proc → Proc} (h : Works k k₁)
    (hqno : ∀ x, (f x).qno = x.qno) (hpid : ∀ x, (f x).pid = x.pid)
    (hp : (k.proc p).state = RUNNING) : Turn k (sched b (k₁.setProc p f) p) := by
  have hf := leave_frame (b := b) (hqno (k₁.proc p)) (hpid _) (h.stays.running p hp)
  exact h.trans_turn ⟨.single (.quiet hf.1), hf.2, .inr (sched_cpu b p)⟩

section Moves

variable {p : Slot} {src dst : Level} {c c' : Cmp} {d : Scan} {ind : ℤ}

theorem move_proc : (k.move p src dst c d ind c').proc = (k.setLevel p src dst).proc := rfl

theorem setLevel_stays (hp : (k.proc p).state ≠ EMBRYO) : Stays k (k.setLevel p src dst) :=
  setProc_stays (fun h => absurd h hp) id

theorem move_works (hp : (k.proc p).state = RUNNABLE ∨ (k.proc p).state = RUNNING)
    (hsrc : (k.proc p).qno = src) (hne : src ≠ dst) (hle : dst.val ≤ src.val + 1) :
    Works k (k.move p src dst c d ind c') := by
  have hpe : (k.proc p).state ≠ EMBRYO := by
    intro h
    rw [h] at hp
    simp at hp
  have hs : Stays k (k.setLevel p src dst) := setLevel_stays hpe
  exact ⟨.single (.move p src dst c d ind c' hp hsrc hne hle),
    ⟨⟨fun _ => rfl, hs.embryo, hs.level⟩, rfl, rfl, hs.running⟩⟩

theorem rotate4_works (hp : (k.proc p).state = RUNNABLE ∨ (k.proc p).state = RUNNING)
    (hsrc : (k.proc p).qno = 4) : Works k (k.rotate4 p) := by
  have hs : Stays k (k.setProc p fun x => { x with rrtime := update x.rrtime 4 0 }) :=
    setProc_stays (fun h => ⟨h, rfl⟩) id
  exact ⟨.single (.rotate p hp hsrc),
    ⟨⟨fun _ => rfl, hs.embryo, hs.level⟩, rfl, rfl, hs.running⟩⟩

theorem promote_works (hp : (k.proc p).state = RUNNABLE) : Works k (k.promote p) := by
  simp only [promote]
  split
  · exact .refl k
  all_goals
    rename_i h
    exact move_works (.inl hp) h (by decide) (by decide)

end Moves

theorem agingOne_works (p : Slot) : Works k (k.agingOne p) := by
  simp only [agingOne]
  split_ifs with h
  · refine (promote_works h.1).trans (.of_frame ⟨setProc_quiet rfl (.inl rfl) id, ?_⟩)
    exact setProc_stays (fun h => ⟨h, rfl⟩) id
  · exact .refl k

theorem aging_works (k : Kernel) : Works k k.aging :=
  foldl_rel Works.refl Works.trans (fun _ _ => agingOne_works _) slots k

theorem timer_works (b : Build) (k : Kernel) : Works k (k.timer b) := by
  have hticks : Works k { k with ticks := (k.ticks + 1) % 2 ^ 32 } :=
    .of_frame ⟨.of_eq rfl rfl rfl rfl, .of_eq rfl rfl, rfl, rfl, fun _ h => h⟩
  have hwake := hticks.trans (.of_frame ⟨wakeup1_quiet (some .ticks), wakeup1_stays _⟩)
  simp only [timer]
  refine Works.trans ?_ (.of_frame account_frame)
  split_ifs
  · exact hwake.trans (aging_works _)
  · exact hwake

theorem Works.yield {b : Build} {p : Slot} (h : Works k k') (hp : (k.proc p).state = RUNNING) :
    Turn k (yield b k' p) :=
  h.leave (fun _ => rfl) (fun _ => rfl) hp

theorem mlfqTick_turn {p : Slot} (hp : (k.proc p).state = RUNNING) : Turn k (k.mlfqTick p) := by
  have hflags := Works.of_frame (setFlags_frame (k := k) [0, 1, 2, 3])
  simp only [mlfqTick]
  split_ifs with h0 hno h1 h2 h3 h4
  · exact (Works.refl k).turn
  · exact (move_works (.inr hp) hno (by decide) (by decide)).yield hp
  · exact (move_works (.inr hp) h1.1 (by decide) (by decide)).yield hp
  · exact (move_works (.inr hp) h2.1 (by decide) (by decide)).yield hp
  · exact (move_works (.inr hp) h3.1 (by decide) (by decide)).yield hp
  · exact (rotate4_works (.inr hp) h4.1).yield hp
  · exact hflags.yield hp
  · exact hflags.turn

theorem preempt_turn (b : Build) (p : Slot) : Turn k (k.preempt b p) := by
  by_cases hp : (k.proc p).state = RUNNING
  · cases b with
    | DEFAULT => simpa only [preempt, hp, ne_eq, not_true, if_false] using (Works.refl k).yield hp
    | FCFS => simpa only [preempt, hp, ne_eq, not_true, if_false] using (Works.refl k).turn
    | PBS =>
      simp only [preempt, hp, ne_eq, not_true, if_false]
      split_ifs
      · exact (Works.refl k).yield hp
      · exact (Works.refl k).turn
    | MLFQ => simpa only [preempt, hp, ne_eq, not_true, if_false] using mlfqTick_turn hp
  · simpa only [preempt, hp, ne_eq, not_false_eq_true, if_true] using (Works.refl k).turn

theorem tick_turn (b : Build) (p : Slot) (user : Bool) (huser : user = true → k.kont p = .user) :
    Turn k (k.tick b p user) := by
  have ht := timer_works b k
  simp only [tick]
  split_ifs with h
  · refine (ht.trans (.of_frame ⟨setKont_quiet _ _, setKont_stays ?_⟩)).turn
    have hu : k.kont p = .user := huser (by simpa using (Bool.and_eq_true _ _ ▸ h).2)
    rw [ht.stays.child p, hu]
    rfl
  · exact ht.trans_turn (preempt_turn b p)

theorem exit_turn {b : Build} {p : Slot} (hp : (k.proc p).state = RUNNING) :
    Turn k (k.exit b p) := by
  have hw : Works k (k.wakeup1 ((k.proc p).parent.map .proc)) :=
    .of_frame ⟨wakeup1_quiet _, wakeup1_stays _⟩
  have hr : Works k ((k.wakeup1 ((k.proc p).parent.map .proc)).reparent p) :=
    hw.trans (.of_frame (reparent_frame p))
  exact hr.leave (fun _ => rfl) (fun _ => rfl) hp

end Kernel

theorem scanChildren_some {t : Slot → Proc} {cur s : Slot} {ss : List Slot} {hk : Bool}
    (h : (scanChildren t cur ss hk).1 = some s) :
    s ∈ ss ∧ (t s).parent = some cur ∧ (t s).state = ZOMBIE := by
  induction ss generalizing hk with
  | nil => cases h
  | cons r ss ih =>
    simp only [scanChildren] at h
    split_ifs at h with hpar hz
    · exact ⟨List.mem_cons_of_mem r (ih h).1, (ih h).2⟩
    · cases h
      exact ⟨List.mem_cons_self, not_not.mp hpar, hz⟩
    · exact ⟨List.mem_cons_of_mem r (ih h).1, (ih h).2⟩

namespace Kernel

variable {k : Kernel}

theorem waitScan_turn {b : Build} {p : Slot} (hp : (k.proc p).state = RUNNING)
    (hkont : (k.kont p).child = none) : Turn k (k.waitScan b p) := by
  have huser : Works k (k.setKont p .user) :=
    .of_frame ⟨setKont_quiet _ _, setKont_stays (by rw [hkont]; rfl)⟩
  have hwait : Works k (k.setKont p .wait) :=
    .of_frame ⟨setKont_quiet _ _, setKont_stays (by rw [hkont]; rfl)⟩
  simp only [waitScan]
  split
  · rename_i s hk hscan
    have hz : (k.proc s).state = ZOMBIE := (scanChildren_some (by rw [hscan])).2.2
    have hset : Works k (k.setProc s Proc.reaped) :=
      .of_frame ⟨setProc_quiet rfl (.inr ⟨rfl, rfl⟩) (fun _ => rfl),
        setProc_stays (fun h => by rw [h] at hz; cases hz) (fun h => by rw [h] at hz; cases hz)⟩
    exact (hset.trans (.of_frame ⟨setKont_quiet _ _, setKont_stays (by simp [hkont]; rfl)⟩)).turn
  · split_ifs
    · exact huser.turn
    · exact hwait.leave (fun _ => rfl) (fun _ => rfl) hp

end Kernel

inductive Steps (b : Build) (k : Kernel) : Event → Kernel → Prop
  | alloc (p s : Slot) : k.cpu = .running → k.cur = some p → k.kont p = .user →
      k.firstUnused = some s → Steps b k .alloc ((k.allocproc s).setKont p (.forkStack s))
  | full (p : Slot) : k.cpu = .running → k.cur = some p → k.firstUnused = none →
      Steps b k .alloc k
  | stack (p np : Slot) (page : ℕ) : k.cpu = .running → k.cur = some p →
      k.kont p = .forkStack np → Steps b k (.stack page)
        ((k.allocStack np page).setKont p (if page = 0 then .user else .forkCopy np))
  | copy (p np : Slot) (pgdir : ℕ) : k.cpu = .running → k.cur = some p →
      k.kont p = .forkCopy np → Steps b k (.copy pgdir)
        ((k.forkCopy b p np pgdir).setKont p (if pgdir = 0 then .user else .forkRun np))
  | run (p np : Slot) : k.cpu = .running → k.cur = some p → k.kont p = .forkRun np →
      Steps b k .run ((k.setProc np fun x => { x with state := RUNNABLE }).setKont p .user)
  | exit (p : Slot) : k.cpu = .running → k.cur = some p → (k.kont p).child = none →
      p ≠ k.initproc → Steps b k .exit ((k.setKont p .user).exit b p)
  | wait (p : Slot) : k.cpu = .running → k.cur = some p → (k.kont p).child = none →
      Steps b k .wait (k.waitScan b p)
  | sleep (p : Slot) (c : Chan) : k.cpu = .running → k.cur = some p →
      Steps b k (.sleep c) (k.sleep b p c)
  | kill (p : Slot) (pid : ℤ) : k.cpu = .running → k.cur = some p →
      Steps b k (.kill pid) (k.kill pid)
  | setPriority (p : Slot) (pid priority : ℤ) : k.cpu = .running → k.cur = some p →
      Steps b k (.setPriority pid priority) (k.setPriority pid priority)
  | wakeup (c : Chan) : Steps b k (.wakeup c) (k.wakeup1 (some c))
  | tick (p : Slot) (user : Bool) : k.cpu = .running → k.cur = some p →
      (user = true → k.kont p = .user) → Steps b k (.tick user) (k.tick b p user)
  | tickIdle (user : Bool) : k.cpu = .idle → Steps b k (.tick user) (k.timer b)
  | pass (i : ℕ) (m : Kernel) : k.cpu = .pass i → k.schedulePassFrom b i = some m →
      Steps b k .schedule m
  | schedule : k.cpu = .idle → Steps b k .schedule (k.schedulePass b)

theorem procStep_cases {b : Build} {k k' : Kernel} {p : Slot} {e : Event}
    (hcpu : k.cpu = .running) (hcur : k.cur = some p) (h : procStep b k p e = some k') :
    Steps b k e k' := by
  unfold procStep at h
  split at h
  · rename_i hk
    split at h
    · rename_i s hs
      cases h
      exact .alloc p s hcpu hcur hk hs
    · rename_i hs
      cases h
      exact .full p hcpu hcur hs
  · rename_i np page hk
    cases h
    exact .stack p np page hcpu hcur hk
  · rename_i np pgdir hk
    cases h
    exact .copy p np pgdir hcpu hcur hk
  · rename_i np hk
    cases h
    exact .run p np hcpu hcur hk
  iterate 2
    rename_i hk
    split_ifs at h with hi
    cases h
    exact .exit p hcpu hcur (by rw [hk]; rfl) hi
  iterate 2
    rename_i hk
    cases h
    exact .wait p hcpu hcur (by rw [hk]; rfl)
  iterate 2
    cases h
    exact .sleep p _ hcpu hcur
  · cases h
    exact .kill p _ hcpu hcur
  · cases h
    exact .setPriority p _ _ hcpu hcur
  · cases h
  · cases h
    exact .wakeup _
  · rename_i hk
    cases h
    exact .tick p _ hcpu hcur fun _ => hk
  · cases h
    exact .tick p false hcpu hcur (by simp)
  · cases h

theorem step_cases {b : Build} {k k' : Kernel} {e : Event} (h : step b k e = some k') :
    Steps b k e k' := by
  cases hcpu : k.cpu with
  | running =>
    cases hcur : k.cur with
    | none => simp [step, hcpu, hcur] at h
    | some p =>
      simp only [step, hcpu, hcur] at h
      exact procStep_cases hcpu hcur h
  | pass i =>
    cases e with
    | schedule => simp only [step, hcpu] at h; exact .pass i k' hcpu h
    | _ => simp [step, hcpu] at h
  | idle =>
    cases e with
    | schedule => simp only [step, hcpu] at h; cases h; exact .schedule hcpu
    | tick user => simp only [step, hcpu] at h; cases h; exact .tickIdle user hcpu
    | wakeup c => simp only [step, hcpu] at h; cases h; exact .wakeup c
    | _ => simp [step, hcpu] at h

structure Ctl (k : Kernel) : Prop where
  running : k.cpu = .running → ∃ p, k.cur = some p ∧ (k.proc p).state = RUNNING
  fork : ∀ p np, (k.kont p).child = some np →
    (k.proc np).state = EMBRYO ∧ (k.proc np).qno = 0
  inj : ∀ p p' np, (k.kont p).child = some np → (k.kont p').child = some np → p = p'

section Ctl

variable {b : Build} {k k' : Kernel} {e : Event} {p np : Slot}

theorem Ctl.state_cur (hc : Ctl k) (hcpu : k.cpu = .running) (hcur : k.cur = some p) :
    (k.proc p).state = RUNNING := by
  obtain ⟨p', hp', hrun⟩ := hc.running hcpu
  rw [hcur] at hp'
  cases hp'
  exact hrun

theorem Ctl.of_tame (hc : Ctl k) (h : Tame k k')
    (hrun : k'.cpu = .running → ∃ p, k'.cur = some p ∧ (k'.proc p).state = RUNNING) : Ctl k' := by
  refine ⟨hrun, fun p np hp => ?_, fun p p' np hp hp' => ?_⟩
  · rw [h.child] at hp
    obtain ⟨hs, hq⟩ := hc.fork p np hp
    exact ⟨h.embryo np hs, (h.level np hs).trans hq⟩
  · rw [h.child] at hp hp'
    exact hc.inj p p' np hp hp'

theorem Ctl.of_turn (hc : Ctl k) (h : Turn k k') : Ctl k' := by
  refine hc.of_tame h.tame fun hcpu => ?_
  rcases h.cpu with hs | hn
  · obtain ⟨p, hp, hrun⟩ := hc.running (hs.cpu ▸ hcpu)
    exact ⟨p, hs.cur.trans hp, hs.running p hrun⟩
  · exact absurd hcpu hn

/-- No process but `p` uses the slot `np`, before the step and after it. -/
theorem Ctl.of_slot {m : Kernel} {x : Kont} (hc : Ctl k) (hcpu : k.cpu = .running)
    (hcur : k.cur = some p) (hcur' : m.cur = k.cur) (hkont : m.kont = k.kont)
    (hproc : ∀ t, t ≠ np → m.proc t = k.proc t) (hnp : (k.proc np).state ≠ RUNNING)
    (hfree : ∀ t, t ≠ p → (k.kont t).child ≠ some np)
    (hx : x.child = none ∨ x.child = some np ∧ (m.proc np).state = EMBRYO ∧ (m.proc np).qno = 0) :
    Ctl (m.setKont p x) := by
  have hrun := hc.state_cur hcpu hcur
  have hne : p ≠ np := by
    rintro rfl
    exact hnp hrun
  have hother : ∀ t r, t ≠ p → ((m.setKont p x).kont t).child = some r →
      r ≠ np ∧ (k.kont t).child = some r := by
    intro t r ht hr
    rw [setKont_kont, if_neg ht, hkont] at hr
    exact ⟨fun h => hfree t ht (h ▸ hr), hr⟩
  have hself : ∀ r, ((m.setKont p x).kont p).child = some r →
      r = np ∧ (m.proc np).state = EMBRYO ∧ (m.proc np).qno = 0 := by
    intro r hr
    rw [setKont_kont, if_pos rfl] at hr
    rcases hx with hd | ⟨hd, hnp⟩
    · rw [hd] at hr
      cases hr
    · rw [hd] at hr
      cases hr
      exact ⟨rfl, hnp⟩
  refine ⟨fun _ => ⟨p, hcur'.trans hcur, by rw [setKont_proc, hproc p hne]; exact hrun⟩, ?_, ?_⟩
  · intro t r hr
    by_cases ht : t = p
    · subst ht
      obtain ⟨rfl, hnp⟩ := hself r hr
      exact hnp
    · obtain ⟨hrn, hr'⟩ := hother t r ht hr
      rw [setKont_proc, hproc r hrn]
      exact hc.fork t r hr'
  · intro t t' r hr hr'
    by_cases ht : t = p <;> by_cases ht' : t' = p
    · rw [ht, ht']
    · subst ht
      exact absurd (hself r hr).1 (hother t' r ht' hr').1
    · subst ht'
      exact absurd (hself r hr').1 (hother t r ht hr).1
    · exact hc.inj t t' r (hother t r ht hr).2 (hother t' r ht' hr').2

theorem Ctl.of_fork {f : Proc → Proc} {x : Kont} (hc : Ctl k) (hcpu : k.cpu = .running)
    (hcur : k.cur = some p) (hchild : (k.kont p).child = some np)
    (hx : x.child = none ∨ x.child = some np ∧ ((k.setProc np f).proc np).state = EMBRYO ∧
      ((k.setProc np f).proc np).qno = 0) : Ctl ((k.setProc np f).setKont p x) :=
  hc.of_slot hcpu hcur rfl rfl (fun t ht => update_of_ne ht _ _)
    (by rw [(hc.fork p np hchild).1]; simp) (fun t ht h => ht (hc.inj t p np h hchild)) hx

theorem firstUnused_state {s : Slot} (h : k.firstUnused = some s) : (k.proc s).state = UNUSED := by
  simpa using List.find?_some h

theorem Ctl.alloc (hc : Ctl k) (hcpu : k.cpu = .running) (hcur : k.cur = some p) {s : Slot}
    (hs : k.firstUnused = some s) : Ctl ((k.allocproc s).setKont p (.forkStack s)) := by
  have hu := firstUnused_state hs
  refine hc.of_slot hcpu hcur rfl rfl (fun t ht => update_of_ne ht _ _) (by rw [hu]; simp)
    (fun t _ h => ?_) (.inr ⟨rfl, by simp [allocproc]⟩)
  rw [(hc.fork t s h).1] at hu
  cases hu

inductive Effect (k : Kernel) : Event → Kernel → Prop
  | alloc (p s : Slot) : (k.proc s).state = UNUSED → k.firstUnused = some s →
      Effect k .alloc ((k.allocproc s).setKont p (.forkStack s))
  | micros {e : Event} {m : Kernel} : Relation.ReflTransGen Micro k m → Effect k e m

theorem step_effect (hc : Ctl k) (h : step b k e = some k') : Ctl k' ∧ Effect k e k' := by
  have of_turn : ∀ {m : Kernel} {e : Event}, Turn k m → Ctl m ∧ Effect k e m :=
    fun ht => ⟨hc.of_turn ht, .micros ht.micros⟩
  have of_passed : ∀ {m : Kernel} {e : Event}, Passed k m → Ctl m ∧ Effect k e m :=
    fun hp => ⟨hc.of_tame hp.tame hp.running, .micros (.single (.quiet hp.quiet))⟩
  cases step_cases h with
  | alloc p s hcpu hcur hk hs => exact ⟨hc.alloc hcpu hcur hs, .alloc p s (firstUnused_state hs) hs⟩
  | full p _ _ _ => exact ⟨hc, .micros .refl⟩
  | stack p np page hcpu hcur hk =>
    have hchild : (k.kont p).child = some np := by rw [hk]; rfl
    obtain ⟨hs, hq⟩ := hc.fork p np hchild
    have hquiet : Quiet k (k.allocStack np page) := by
      refine setProc_quiet ?_ (.inl ?_) (fun h => by rw [h] at hs; cases hs) <;>
        split_ifs <;> rfl
    refine ⟨hc.of_fork hcpu hcur hchild ?_,
      .micros (.single (.quiet (hquiet.trans (setKont_quiet _ _))))⟩
    by_cases hp : page = 0
    · exact .inl (by simp [hp, Kont.child])
    · exact .inr (by simp [hp, Kont.child, hs, hq])
  | copy p np pgdir hcpu hcur hk =>
    have hchild : (k.kont p).child = some np := by rw [hk]; rfl
    obtain ⟨hs, hq⟩ := hc.fork p np hchild
    have hquiet : Quiet k (k.forkCopy b p np pgdir) := by
      refine setProc_quiet ?_ (.inl ?_) (fun h => by rw [h] at hs; cases hs) <;>
        split_ifs <;> first | rfl | exact hq.symm
    refine ⟨hc.of_fork hcpu hcur hchild ?_,
      .micros (.single (.quiet (hquiet.trans (setKont_quiet _ _))))⟩
    by_cases hp : pgdir = 0
    · exact .inl (by simp [hp, Kont.child])
    · exact .inr (by simp [hp, Kont.child, hs])
  | run p np hcpu hcur hk =>
    have hchild : (k.kont p).child = some np := by rw [hk]; rfl
    have hs := (hc.fork p np hchild).1
    have hquiet : Quiet k (k.setProc np fun x => { x with state := RUNNABLE }) :=
      setProc_quiet rfl (.inl rfl) (fun h => by rw [h] at hs; cases hs)
    exact ⟨hc.of_fork hcpu hcur hchild (.inl rfl),
      .micros (.single (.quiet (hquiet.trans (setKont_quiet _ _))))⟩
  | exit p hcpu hcur hk hinit =>
    have huser : Works k (k.setKont p .user) :=
      .of_frame ⟨setKont_quiet _ _, setKont_stays (by rw [hk]; rfl)⟩
    exact of_turn (huser.trans_turn (exit_turn (hc.state_cur hcpu hcur)))
  | wait p hcpu hcur hk => exact of_turn (waitScan_turn (hc.state_cur hcpu hcur) hk)
  | sleep p c hcpu hcur =>
    exact of_turn ((Works.refl k).leave (fun _ => rfl) (fun _ => rfl) (hc.state_cur hcpu hcur))
  | kill p pid hcpu hcur => exact of_turn (Works.of_frame (kill_frame pid)).turn
  | setPriority p pid pr hcpu hcur => exact of_turn (Works.of_frame (setPriority_frame pid pr)).turn
  | wakeup c => exact of_turn (Works.of_frame ⟨wakeup1_quiet _, wakeup1_stays _⟩).turn
  | tick p user hcpu hcur huser => exact of_turn (tick_turn b p user huser)
  | tickIdle user hcpu => exact of_turn (timer_works b k).turn
  | pass i _ hcpu hm => exact of_passed (schedulePassFrom_passed hm)
  | schedule hcpu => exact of_passed (schedulePass_passed b hcpu)

theorem boot_ctl (kstack pgdir : ℕ) : Ctl (boot kstack pgdir) where
  running h := nomatch h
  fork _ _ h := nomatch h
  inj _ _ _ h := nomatch h

end Ctl

theorem Kernel.allocproc_of_ne {k : Kernel} {s t : Slot} (h : t ≠ s) :
    (k.allocproc s).proc t = k.proc t :=
  update_of_ne h _ _

theorem boot_proc (kstack pgdir : ℕ) {s : Slot} (hs : s ≠ 0) :
    (boot kstack pgdir).proc s = unusedProc := by
  simp [boot, allocStack, setProc_of_ne, hs, allocproc_of_ne, image]

end Xv6.Sched
