import Xv6.Sched.Model
import Xv6.Lib.Runs

/-!
# What the steps of the kernel leave alone

`Quiet` is a change that matters neither to the content of the queues nor to the level of any
process, `Tame` one that leaves every fork under way as it was, `Stays` one after which the same
process has the CPU.
-/

namespace Xv6.Sched
open Lib ProcState

theorem int32_of_lt {x : ℤ} (h0 : 0 ≤ x) (hx : x < 2 ^ 31) : int32 x = x :=
  Int.bmod_eq_of_le (by norm_num; omega) (by norm_num; omega)

theorem int32_dvd (x : ℤ) : (4294967296 : ℤ) ∣ int32 x - x :=
  Int.dvd_bmod_sub_self

theorem int32_congr {x y : ℤ} (h : (4294967296 : ℤ) ∣ x - y) : int32 x = int32 y := by
  have hzero : (x - y).bmod (2 ^ 32) = 0 := Int.bmod_eq_zero_of_dvd h
  exact Int.bmod_eq_bmod_iff_bmod_sub_eq_zero.mpr hzero

namespace Kernel

section Fields

variable (k : Kernel) (s : Slot) (f : Proc → Proc) (l : Level) (a : CountedArray 1000 Slot)
  (c : Kont) (ch : Option Chan)

theorem setProc_proc (t : Slot) :
    (k.setProc s f).proc t = if t = s then f (k.proc s) else k.proc t := by
  simp only [setProc, Function.update_apply]

@[simp] theorem setProc_self : (k.setProc s f).proc s = f (k.proc s) := by
  simp [setProc_proc]

theorem setProc_of_ne {t : Slot} (h : t ≠ s) : (k.setProc s f).proc t = k.proc t := by
  simp [setProc_proc, h]

@[simp] theorem setProc_q : (k.setProc s f).q = k.q := rfl
@[simp] theorem setProc_kont : (k.setProc s f).kont = k.kont := rfl
@[simp] theorem setProc_nextpid : (k.setProc s f).nextpid = k.nextpid := rfl
@[simp] theorem setQ_proc : (k.setQ l a).proc = k.proc := rfl
theorem setQ_q (m : Level) : (k.setQ l a).q m = if m = l then a else k.q m := by
  simp only [setQ, Function.update_apply]

@[simp] theorem setKont_proc : (k.setKont s c).proc = k.proc := rfl
@[simp] theorem setKont_q : (k.setKont s c).q = k.q := rfl
theorem setKont_kont (t : Slot) : (k.setKont s c).kont t = if t = s then c else k.kont t := by
  simp only [setKont, Function.update_apply]

theorem wakeup1_proc (t : Slot) : (k.wakeup1 ch).proc t = k.proc t ∨
      (k.proc t).state = SLEEPING ∧ (k.wakeup1 ch).proc t = { k.proc t with state := RUNNABLE } := by
  simp only [wakeup1]
  split_ifs with h
  · exact .inr ⟨h.1, rfl⟩
  · exact .inl rfl

end Fields

structure Quiet (k k' : Kernel) : Prop where
  qno : ∀ s, (k'.proc s).qno = (k.proc s).qno
  live : ∀ s, (k'.proc s).state ≠ UNUSED → (k.proc s).state ≠ UNUSED
  pid : ∀ s, (k'.proc s).pid = (k.proc s).pid ∨
    (k'.proc s).pid = 0 ∧ (k'.proc s).state = UNUSED
  q : ∀ l, CountedArray.SameContent (k.q l) (k'.q l)
  nextpid : k'.nextpid = k.nextpid
  missed : k'.missed = k.missed

structure Tame (k k' : Kernel) : Prop where
  child : ∀ s, (k'.kont s).child = (k.kont s).child
  embryo : ∀ s, (k.proc s).state = EMBRYO → (k'.proc s).state = EMBRYO
  level : ∀ s, (k.proc s).state = EMBRYO → (k'.proc s).qno = (k.proc s).qno

structure Stays (k k' : Kernel) : Prop extends Tame k k' where
  cpu : k'.cpu = k.cpu
  cur : k'.cur = k.cur
  running : ∀ s, (k.proc s).state = RUNNING → (k'.proc s).state = RUNNING

theorem sameContent_refl (a : CountedArray 1000 Slot) : CountedArray.SameContent a a :=
  ⟨rfl, rfl, fun _ => rfl⟩

theorem sameContent_trans {a b c : CountedArray 1000 Slot}
    (h : CountedArray.SameContent a b) (h' : CountedArray.SameContent b c) :
    CountedArray.SameContent a c :=
  ⟨h'.arr.trans h.arr, h'.cnt.trans h.cnt,
    fun hc => (h'.oob (h.cnt ▸ hc)).trans (h.oob hc)⟩

variable {k k₁ k₂ k' : Kernel}

theorem Quiet.of_eq (hproc : k'.proc = k.proc) (hq : k'.q = k.q)
    (hnext : k'.nextpid = k.nextpid) (hmissed : k'.missed = k.missed) : Quiet k k' := by
  refine ⟨fun s => ?_, fun s => ?_, fun s => .inl ?_, fun l => ?_, hnext, hmissed⟩
  · rw [hproc]
  · rw [hproc]
    exact id
  · rw [hproc]
  · rw [hq]
    exact sameContent_refl _

theorem Tame.of_eq (hproc : k'.proc = k.proc) (hkont : k'.kont = k.kont) : Tame k k' := by
  refine ⟨fun s => ?_, fun s hs => ?_, fun s _ => ?_⟩
  · rw [hkont]
  · rwa [hproc]
  · rw [hproc]

theorem Quiet.refl (k : Kernel) : Quiet k k := .of_eq rfl rfl rfl rfl

theorem Quiet.trans (h : Quiet k k₁) (h' : Quiet k₁ k₂) : Quiet k k₂ where
  qno s := (h'.qno s).trans (h.qno s)
  live s hs := h.live s (h'.live s hs)
  pid s := by
    rcases h'.pid s with hp | hp
    · rcases h.pid s with hq | ⟨hq, hu⟩
      · exact .inl (hp.trans hq)
      · have : (k₂.proc s).state = UNUSED := by
          by_contra hne
          exact h'.live s hne hu
        exact .inr ⟨hp.trans hq, this⟩
    · exact .inr hp
  q l := sameContent_trans (h.q l) (h'.q l)
  nextpid := h'.nextpid.trans h.nextpid
  missed := h'.missed.trans h.missed

theorem Tame.trans (h : Tame k k₁) (h' : Tame k₁ k₂) : Tame k k₂ where
  child s := (h'.child s).trans (h.child s)
  embryo s hs := h'.embryo s (h.embryo s hs)
  level s hs := (h'.level s (h.embryo s hs)).trans (h.level s hs)

theorem Stays.refl (k : Kernel) : Stays k k :=
  ⟨.of_eq rfl rfl, rfl, rfl, fun _ h => h⟩

theorem Stays.trans (h : Stays k k₁) (h' : Stays k₁ k₂) : Stays k k₂ :=
  ⟨h.toTame.trans h'.toTame, h'.cpu.trans h.cpu, h'.cur.trans h.cur,
    fun s hs => h'.running s (h.running s hs)⟩

theorem setProc_quiet {s : Slot} {f : Proc → Proc} (hqno : (f (k.proc s)).qno = (k.proc s).qno)
    (hpid : (f (k.proc s)).pid = (k.proc s).pid ∨
      (f (k.proc s)).pid = 0 ∧ (f (k.proc s)).state = UNUSED)
    (hlive : (k.proc s).state = UNUSED → (f (k.proc s)).state = UNUSED) :
    Quiet k (k.setProc s f) := by
  refine ⟨fun t => ?_, fun t => ?_, fun t => ?_, fun _ => sameContent_refl _, rfl, rfl⟩ <;>
    by_cases ht : t = s
  · subst ht; simpa using hqno
  · rw [setProc_of_ne _ _ _ ht]
  · subst ht
    simp only [setProc_self]
    exact fun h hu => h (hlive hu)
  · rw [setProc_of_ne _ _ _ ht]
    exact id
  · subst ht; simpa using hpid
  · rw [setProc_of_ne _ _ _ ht]
    exact .inl rfl

theorem setProc_tame {s : Slot} {f : Proc → Proc}
    (hs : (k.proc s).state = EMBRYO → (f (k.proc s)).state = EMBRYO ∧
      (f (k.proc s)).qno = (k.proc s).qno) : Tame k (k.setProc s f) := by
  refine ⟨fun _ => rfl, fun t ht => ?_, fun t ht => ?_⟩ <;> by_cases hts : t = s
  · subst hts; simpa using (hs ht).1
  · rwa [setProc_of_ne _ _ _ hts]
  · subst hts; simpa using (hs ht).2
  · rw [setProc_of_ne _ _ _ hts]

theorem setProc_stays {s : Slot} {f : Proc → Proc}
    (hs : (k.proc s).state = EMBRYO → (f (k.proc s)).state = EMBRYO ∧
      (f (k.proc s)).qno = (k.proc s).qno)
    (hr : (k.proc s).state = RUNNING → (f (k.proc s)).state = RUNNING) :
    Stays k (k.setProc s f) := by
  refine ⟨setProc_tame hs, rfl, rfl, fun t ht => ?_⟩
  by_cases hts : t = s
  · subst hts; simpa using hr ht
  · rwa [setProc_of_ne _ _ _ hts]

theorem setKont_quiet (s : Slot) (c : Kont) : Quiet k (k.setKont s c) :=
  .of_eq rfl rfl rfl rfl

theorem setKont_stays {s : Slot} {c : Kont} (h : c.child = (k.kont s).child) :
    Stays k (k.setKont s c) := by
  refine ⟨⟨fun t => ?_, fun _ h => h, fun _ _ => rfl⟩, rfl, rfl, fun _ h => h⟩
  simp only [setKont_kont]
  split_ifs with ht
  · rw [h, ht]
  · rfl

theorem wakeup1_quiet (c : Option Chan) : Quiet k (k.wakeup1 c) := by
  refine ⟨fun t => ?_, fun t => ?_, fun t => ?_, fun _ => sameContent_refl _, rfl, rfl⟩ <;>
    rcases wakeup1_proc k c t with h | ⟨hs, h⟩ <;> simp_all

theorem wakeup1_stays (c : Option Chan) : Stays k (k.wakeup1 c) := by
  refine ⟨⟨fun _ => rfl, fun t ht => ?_, fun t ht => ?_⟩, rfl, rfl, fun t ht => ?_⟩ <;>
    rcases wakeup1_proc k c t with h | ⟨hs, h⟩ <;> simp_all

theorem foldl_rel {α : Type*} {R : Kernel → Kernel → Prop} (hrefl : ∀ k, R k k)
    (htrans : ∀ {a b c}, R a b → R b c → R a c) {f : Kernel → α → Kernel}
    (hf : ∀ k x, R k (f k x)) (xs : List α) (k : Kernel) : R k (xs.foldl f k) := by
  induction xs generalizing k with
  | nil => exact hrefl k
  | cons x xs ih => exact htrans (hf k x) (ih (f k x))

theorem reparent_frame (cur : Slot) : Quiet k (k.reparent cur) ∧ Stays k (k.reparent cur) := by
  refine foldl_rel (R := fun a b => Quiet a b ∧ Stays a b) (fun k => ⟨.refl k, .refl k⟩)
    (fun h h' => ⟨h.1.trans h'.1, h.2.trans h'.2⟩) (fun k s => ?_) slots k
  have hset : Quiet k (k.setProc s fun x => { x with parent := some k.initproc }) ∧
      Stays k (k.setProc s fun x => { x with parent := some k.initproc }) :=
    ⟨setProc_quiet rfl (.inl rfl) id, setProc_stays (fun h => ⟨h, rfl⟩) id⟩
  split_ifs
  · exact ⟨hset.1.trans (wakeup1_quiet _), hset.2.trans (wakeup1_stays _)⟩
  · exact hset
  · exact ⟨.refl k, .refl k⟩

section

variable (b : Build) (p : Slot)
include b p

theorem sched_proc : (sched b k p).proc = k.proc := by
  cases b <;> simp only [sched]
  split_ifs <;> rfl

theorem sched_kont : (sched b k p).kont = k.kont := by
  cases b <;> simp only [sched]
  split_ifs <;> rfl

theorem sched_q : (sched b k p).q = k.q := by
  cases b <;> simp only [sched]
  split_ifs <;> rfl

theorem sched_cpu : (sched b k p).cpu ≠ .running := by
  cases b <;> simp only [sched] <;> (try split_ifs) <;> simp

theorem sched_quiet : Quiet k (sched b k p) := by
  refine .of_eq (sched_proc b p) (sched_q b p) ?_ ?_
  all_goals
    cases b <;> simp only [sched]
    split_ifs <;> rfl

theorem sched_tame : Tame k (sched b k p) :=
  .of_eq (sched_proc b p) (sched_kont b p)

end

theorem leave_frame {b : Build} {p : Slot} {f : Proc → Proc}
    (hqno : (f (k.proc p)).qno = (k.proc p).qno) (hpid : (f (k.proc p)).pid = (k.proc p).pid)
    (hp : (k.proc p).state = RUNNING) :
    Quiet k (sched b (k.setProc p f) p) ∧ Tame k (sched b (k.setProc p f) p) := by
  have hq : Quiet k (k.setProc p f) :=
    setProc_quiet hqno (.inl hpid) (fun h => by rw [h] at hp; cases hp)
  have ht : Tame k (k.setProc p f) := setProc_tame (fun h => by rw [h] at hp; cases hp)
  exact ⟨hq.trans (sched_quiet b p), ht.trans (sched_tame b p)⟩

theorem dispatch_frame {b : Build} {p : Slot} (hp : (k.proc p).state = RUNNABLE) :
    Quiet k (dispatch b k p) ∧ Tame k (dispatch b k p) := by
  have hq : Quiet k (k.setProc p (Proc.dispatched b)) :=
    setProc_quiet rfl (.inl rfl) (fun h => by rw [h] at hp; cases hp)
  have ht : Tame k (k.setProc p (Proc.dispatched b)) :=
    setProc_tame (fun h => by rw [h] at hp; cases hp)
  exact ⟨hq.trans (.of_eq rfl rfl rfl rfl), ht.trans (.of_eq rfl rfl)⟩

theorem dispatch_running (b : Build) (p : Slot) : ((dispatch b k p).proc p).state = RUNNING := by
  simp [dispatch, Proc.dispatched]

theorem kill_frame (pid : ℤ) : Quiet k (k.kill pid) ∧ Stays k (k.kill pid) := by
  simp only [kill]
  split
  · refine ⟨setProc_quiet rfl (.inl rfl) (fun h => by simp [h]), setProc_stays ?_ ?_⟩
    · exact fun h => ⟨by simp [h], rfl⟩
    · exact fun h => by simp [h]
  · exact ⟨.refl k, .refl k⟩

theorem setPriority_frame (pid priority : ℤ) :
    Quiet k (k.setPriority pid priority) ∧ Stays k (k.setPriority pid priority) := by
  simp only [setPriority]
  split
  · exact ⟨setProc_quiet rfl (.inl rfl) id, setProc_stays (fun h => ⟨h, rfl⟩) id⟩
  · exact ⟨.refl k, .refl k⟩

theorem account_frame : Quiet k k.account ∧ Stays k k.account := by
  simp only [account]
  split
  · exact ⟨.refl k, .refl k⟩
  · refine ⟨setProc_quiet ?_ (.inl ?_) ?_, setProc_stays ?_ ?_⟩ <;> split_ifs <;> simp_all

theorem setQ_frame {l : Level} {a : CountedArray 1000 Slot}
    (h : CountedArray.SameContent (k.q l) a) : Quiet k (k.setQ l a) ∧ Stays k (k.setQ l a) := by
  refine ⟨⟨fun _ => rfl, fun _ h => h, fun _ => .inl rfl, fun m => ?_, rfl, rfl⟩,
    ⟨⟨fun _ => rfl, fun _ h => h, fun _ _ => rfl⟩, rfl, rfl, fun _ h => h⟩⟩
  rw [setQ_q]
  split_ifs with hm
  · exact hm ▸ h
  · exact sameContent_refl _

theorem findRunnable_frame (l : Level) :
    Quiet k (k.setQ l (k.findRunnable l).2) ∧ Stays k (k.setQ l (k.findRunnable l).2) :=
  setQ_frame (CountedArray.findFirst_same _ _)

theorem setFlags_frame (ls : List Level) :
    Quiet k (k.setFlags ls).1 ∧ Stays k (k.setFlags ls).1 := by
  induction ls generalizing k with
  | nil => exact ⟨.refl k, .refl k⟩
  | cons l ls ih =>
    have hset := findRunnable_frame (k := k) l
    exact ⟨hset.1.trans ih.1, hset.2.trans ih.2⟩

structure Passed (k k' : Kernel) : Prop where
  quiet : Quiet k k'
  tame : Tame k k'
  running : k'.cpu = .running → ∃ p, k'.cur = some p ∧ (k'.proc p).state = RUNNING

theorem Passed.of_dispatch {b : Build} {p : Slot} (hp : (k.proc p).state = RUNNABLE) :
    Passed k (dispatch b k p) :=
  ⟨(dispatch_frame hp).1, (dispatch_frame hp).2, fun _ => ⟨p, rfl, dispatch_running b p⟩⟩

theorem Passed.of_idle (k : Kernel) : Passed k { k with cpu := .idle } :=
  ⟨.of_eq rfl rfl rfl rfl, .of_eq rfl rfl, fun h => nomatch h⟩

theorem tablePass_passed (b : Build) (i : ℕ) (P : Proc → Bool) : Passed k (tablePass b k i P) := by
  simp only [tablePass]
  split
  · rename_i p hp
    have := List.find?_some hp
    simp only [Bool.and_eq_true, beq_iff_eq] at this
    exact .of_dispatch this.1.2
  · exact .of_idle k

theorem findRunnable_some {l : Level} {i : ℤ} (h : (k.findRunnable l).1 = some i) :
    (k.q l).arr i ∈ (k.q l).toList ∧ (k.proc ((k.q l).arr i)).state = RUNNABLE := by
  have harr := CountedArray.findFirst_arr (fun s => (k.proc s).state == RUNNABLE) (k.q l)
  simp only [findRunnable] at h
  rw [h] at harr
  have hfind : (k.q l).toList.find? (fun s => (k.proc s).state == RUNNABLE) =
      some ((k.q l).arr i) := harr.symm
  exact ⟨List.mem_of_find?_eq_some hfind, by simpa using List.find?_some hfind⟩

theorem findRunnable_none {l : Level} (h : (k.findRunnable l).1 = none) :
    ∀ s ∈ (k.q l).toList, (k.proc s).state ≠ RUNNABLE := by
  intro s hs
  have := (CountedArray.findFirst_found (fun s => (k.proc s).state == RUNNABLE) (k.q l)).miss h s hs
  simpa using this

theorem queuePass_passed (ls : List Level) : Passed k (queuePass k ls) := by
  induction ls generalizing k with
  | nil => exact .of_idle k
  | cons l ls ih =>
    have hset := findRunnable_frame (k := k) l
    simp only [queuePass]
    split
    · rename_i i a hr
      have hi : (k.findRunnable l).1 = some i := by rw [hr]
      have ha : (k.findRunnable l).2 = a := by rw [hr]
      have harr : a.arr = (k.q l).arr := ha ▸ (CountedArray.findFirst_same _ (k.q l)).arr
      have hrun : ((k.setQ l a).proc (a.arr i)).state = RUNNABLE := by
        rw [setQ_proc, harr]
        exact (findRunnable_some hi).2
      have hd := Passed.of_dispatch (b := .MLFQ) hrun
      have hset' : Quiet k (k.setQ l a) ∧ Stays k (k.setQ l a) := ha ▸ hset
      exact ⟨hset'.1.trans hd.quiet, hset'.2.toTame.trans hd.tame, hd.running⟩
    · rename_i a hr
      have ha : (k.findRunnable l).2 = a := by rw [hr]
      have hset' : Quiet k (k.setQ l a) ∧ Stays k (k.setQ l a) := ha ▸ hset
      have hrest := ih (k := k.setQ l a)
      exact ⟨hset'.1.trans hrest.quiet, hset'.2.toTame.trans hrest.tame, hrest.running⟩

theorem firstCome_runnable {p : Slot} (h : k.firstCome = some p) : (k.proc p).state = RUNNABLE := by
  unfold firstCome at h
  revert p
  refine List.foldlRecOn (motive := fun q => ∀ {r}, q = some r → (k.proc r).state = RUNNABLE) slots _
    (fun h => by cases h) fun q hq s _ r hr => ?_
  by_cases hs : (k.proc s).state = RUNNABLE
  · cases q with
    | none =>
      simp only [hs, ne_eq, not_true, if_false, Option.some.injEq] at hr
      exact hr ▸ hs
    | some u =>
      simp only [hs, ne_eq, not_true, if_false] at hr
      split_ifs at hr
      · cases hr
        exact hs
      · exact hq hr
  · simp only [hs, ne_eq, not_false_eq_true, if_true] at hr
    exact hq hr

theorem schedulePass_passed (b : Build) (hidle : k.cpu = .idle) : Passed k (schedulePass b k) := by
  cases b with
  | DEFAULT => exact tablePass_passed .DEFAULT 0 fun _ => true
  | FCFS =>
    simp only [schedulePass]
    split
    · rename_i q hq
      exact .of_dispatch (firstCome_runnable hq)
    · exact ⟨.refl k, (Stays.refl k).toTame, fun h => by rw [hidle] at h; cases h⟩
  | PBS =>
    have h := tablePass_passed (k := { k with mxprt := k.minPriority }) .PBS 0
      (·.priority == k.minPriority)
    have hq : Quiet k { k with mxprt := k.minPriority } := .of_eq rfl rfl rfl rfl
    have ht : Tame k { k with mxprt := k.minPriority } := .of_eq rfl rfl
    exact ⟨hq.trans h.quiet, ht.trans h.tame, h.running⟩
  | MLFQ => exact queuePass_passed _

theorem schedulePassFrom_passed {b : Build} {i : ℕ} (h : schedulePassFrom b k i = some k') :
    Passed k k' := by
  cases b <;> cases h
  · exact tablePass_passed .DEFAULT i fun _ => true
  · exact tablePass_passed .PBS i (·.priority == k.mxprt)

end Kernel

end Xv6.Sched
