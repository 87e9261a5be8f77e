import Xv6.Sched.Control

/-!
# Any number of CPUs

Every RUNNING process is on some CPU, and any of them may take the next step; a CPU that runs no
process may take any RUNNABLE one.
-/

namespace Xv6.Sched
open Lib ProcState

inductive SmpEvent
  | dispatch (p : Slot)
  | act (p : Slot) (e : Event)
  /-- A timer interrupt on another CPU, which runs `p`. -/
  | localTick (p : Slot) (user : Bool)
  | fault (p : Slot)
  | wakeup (c : Chan)
  /-- The timer interrupt of CPU 0, where `c->proc` is `cur` and no process runs. -/
  | tick (cur : Option Slot)
  deriving DecidableEq

namespace Kernel

def on (k : Kernel) (p : Slot) : Kernel := { k with cpu := .running, cur := some p }

end Kernel

open Kernel

def Event.sleepsOnProc : Event → Bool
  | .sleep (.proc _) => true
  | _ => false

def smpStep (b : Build) (k : Kernel) : SmpEvent → Option Kernel
  | .dispatch p => if (k.proc p).state = RUNNABLE then some (k.dispatch b p) else none
  | .act p e =>
    if (k.proc p).state = RUNNING ∧ e.sleepsOnProc = false then procStep b (k.on p) p e else none
  | .localTick p user =>
    if (k.proc p).state = RUNNING ∧ k.kont p ≠ .wait ∧ (user = true → k.kont p = .user) then
      some (if (k.proc p).killed && user then k.setKont p .exiting else k.preempt b p)
    else none
  | .fault p =>
    if (k.proc p).state = RUNNING ∧ k.kont p = .user then
      some ((k.setProc p fun x => { x with killed := true }).setKont p .exiting)
    else none
  | .wakeup c => some (k.wakeup1 (some c))
  | .tick cur => some ({ k with cur := cur }.timer b)

namespace Kernel

structure Stirs (k k' : Kernel) : Prop where
  pid : ∀ s, (k'.proc s).pid = (k.proc s).pid
  parent : ∀ s, (k'.proc s).parent = (k.proc s).parent
  chan : ∀ s, (k'.proc s).chan = (k.proc s).chan
  killed : ∀ s, (k'.proc s).killed = (k.proc s).killed
  state : ∀ s, (k'.proc s).state = (k.proc s).state ∨
    (k.proc s).state = SLEEPING ∧ (k'.proc s).state = RUNNABLE
  kont : k'.kont = k.kont
  nextpid : k'.nextpid = k.nextpid
  initproc : k'.initproc = k.initproc

variable {k k₁ k₂ k' : Kernel}

theorem Stirs.of_eq (hproc : k'.proc = k.proc) (hkont : k'.kont = k.kont)
    (hnext : k'.nextpid = k.nextpid) (hinit : k'.initproc = k.initproc) : Stirs k k' := by
  refine ⟨fun s => ?_, fun s => ?_, fun s => ?_, fun s => ?_, fun s => .inl ?_, hkont, hnext, hinit⟩
  all_goals rw [hproc]

theorem Stirs.refl (k : Kernel) : Stirs k k := .of_eq rfl rfl rfl rfl

theorem Stirs.trans (h : Stirs k k₁) (h' : Stirs k₁ k₂) : Stirs k k₂ where
  pid s := (h'.pid s).trans (h.pid s)
  parent s := (h'.parent s).trans (h.parent s)
  chan s := (h'.chan s).trans (h.chan s)
  killed s := (h'.killed s).trans (h.killed s)
  state s := by
    rcases h'.state s with h2 | ⟨h2, h2'⟩
    · rw [h2]
      exact h.state s
    · rcases h.state s with h1 | ⟨h1, h1'⟩
      · exact .inr ⟨h1 ▸ h2, h2'⟩
      · exact .inr ⟨h1, h2'⟩
  kont := h'.kont.trans h.kont
  nextpid := h'.nextpid.trans h.nextpid
  initproc := h'.initproc.trans h.initproc

variable {p : Slot}

theorem Stirs.running (h : Stirs k k') (hp : (k.proc p).state = RUNNING) :
    (k'.proc p).state = RUNNING := by
  rcases h.state p with he | ⟨he, -⟩
  · rw [he, hp]
  · rw [hp] at he
    cases he

theorem setProc_stirs {s : Slot} {f : Proc → Proc} (hpid : (f (k.proc s)).pid = (k.proc s).pid)
    (hparent : (f (k.proc s)).parent = (k.proc s).parent)
    (hchan : (f (k.proc s)).chan = (k.proc s).chan)
    (hkilled : (f (k.proc s)).killed = (k.proc s).killed)
    (hstate : (f (k.proc s)).state = (k.proc s).state) : Stirs k (k.setProc s f) := by
  refine ⟨fun t => ?_, fun t => ?_, fun t => ?_, fun t => ?_, fun t => .inl ?_, rfl, rfl, rfl⟩
  all_goals
    rw [setProc_proc]
    split_ifs with ht
    · rw [ht]
      assumption
    · rfl

theorem wakeup1_stirs (c : Option Chan) : Stirs k (k.wakeup1 c) := by
  refine ⟨fun t => ?_, fun t => ?_, fun t => ?_, fun t => ?_, fun t => ?_, rfl, rfl, rfl⟩
  all_goals rcases wakeup1_proc k c t with h | ⟨hs, h⟩
  all_goals rw [h]
  · exact .inl rfl
  · exact .inr ⟨hs, rfl⟩

theorem move_stirs {src dst : Level} {c c' : Cmp} {d : Scan} {ind : ℤ} :
    Stirs k (k.move p src dst c d ind c') := by
  have h : Stirs k (k.setLevel p src dst) := setProc_stirs rfl rfl rfl rfl rfl
  exact h.trans (.of_eq rfl rfl rfl rfl)

theorem rotate4_stirs : Stirs k (k.rotate4 p) := by
  have h : Stirs k (k.setProc p fun x => { x with rrtime := Function.update x.rrtime 4 0 }) :=
    setProc_stirs rfl rfl rfl rfl rfl
  exact h.trans (.of_eq rfl rfl rfl rfl)

theorem agingOne_stirs (p : Slot) : Stirs k (k.agingOne p) := by
  simp only [agingOne]
  split_ifs
  · have hp : Stirs k (k.promote p) := by
      simp only [promote]
      split
      · exact .refl k
      all_goals exact move_stirs
    exact hp.trans (setProc_stirs rfl rfl rfl rfl rfl)
  · exact .refl k

theorem account_stirs : Stirs k k.account := by
  simp only [account]
  split
  · exact .refl k
  · apply setProc_stirs <;> split_ifs <;> rfl

theorem timer_stirs (b : Build) : Stirs k (k.timer b) := by
  have hticks : Stirs k { k with ticks := (k.ticks + 1) % 2 ^ 32 } := .of_eq rfl rfl rfl rfl
  simp only [timer]
  refine Stirs.trans ?_ account_stirs
  split_ifs
  · exact (hticks.trans (wakeup1_stirs _)).trans
      (foldl_rel Stirs.refl Stirs.trans (fun _ _ => agingOne_stirs _) slots _)
  · exact hticks.trans (wakeup1_stirs _)

theorem setPriority_stirs (pid priority : ℤ) : Stirs k (k.setPriority pid priority) := by
  simp only [setPriority]
  split
  · exact setProc_stirs rfl rfl rfl rfl rfl
  · exact .refl k

theorem setFlags_stirs (ls : List Level) : Stirs k (k.setFlags ls).1 := by
  induction ls generalizing k with
  | nil => exact .refl k
  | cons l ls ih =>
    have hread : Stirs k (k.setQ l (k.findRunnable l).2) := .of_eq rfl rfl rfl rfl
    exact hread.trans ih

theorem sched_stirs (b : Build) (p : Slot) : Stirs k (sched b k p) := by
  refine .of_eq (sched_proc b p) (sched_kont b p) ?_ ?_ <;>
    cases b <;> simp only [sched] <;> split_ifs <;> rfl

def Sets (k k' : Kernel) (p : Slot) (f : Proc → Proc) : Prop :=
  ∃ m, Stirs k m ∧ Stirs (m.setProc p f) k'

theorem Stirs.yield {b : Build} (h : Stirs k k') :
    Sets k (yield b k' p) p fun x => { x with state := RUNNABLE } :=
  ⟨k', h, sched_stirs b p⟩

theorem preempt_stirs (b : Build) (p : Slot) :
    Stirs k (k.preempt b p) ∨ Sets k (k.preempt b p) p fun x => { x with state := RUNNABLE } := by
  by_cases hp : (k.proc p).state = RUNNING
  · cases b with
    | DEFAULT =>
      simp only [preempt, hp, ne_eq, not_true, if_false]
      exact .inr (Stirs.refl k).yield
    | FCFS =>
      simp only [preempt, hp, ne_eq, not_true, if_false]
      exact .inl (.refl k)
    | PBS =>
      simp only [preempt, hp, ne_eq, not_true, if_false]
      split_ifs
      · exact .inr (Stirs.refl k).yield
      · exact .inl (.refl k)
    | MLFQ =>
      simp only [preempt, hp, ne_eq, not_true, if_false, mlfqTick]
      split_ifs
      · exact .inl (.refl k)
      · exact .inr move_stirs.yield
      · exact .inr move_stirs.yield
      · exact .inr move_stirs.yield
      · exact .inr move_stirs.yield
      · exact .inr rotate4_stirs.yield
      · exact .inr (setFlags_stirs _).yield
      · exact .inl (setFlags_stirs _)
  · simp only [preempt, hp, ne_eq, not_false_eq_true, if_true]
    exact .inl (.refl k)

theorem tick_stirs (b : Build) (p : Slot) (user : Bool) : (∃ m, Stirs k m ∧ user = true ∧
    k.tick b p user = m.setKont p .exiting) ∨ Stirs k (k.tick b p user) ∨
      Sets k (k.tick b p user) p fun x => { x with state := RUNNABLE } := by
  have ht := timer_stirs (k := k) b
  simp only [tick]
  split_ifs with h
  · exact .inl ⟨_, ht, (Bool.and_eq_true _ _ ▸ h).2, rfl⟩
  · rcases preempt_stirs (k := k.timer b) b p with hs | ⟨m, hm, hs⟩
    · exact .inr (.inl (ht.trans hs))
    · exact .inr (.inr ⟨m, ht.trans hm, hs⟩)

end Kernel

inductive Acts (b : Build) (k : Kernel) (p : Slot) : Event → Kernel → Prop
  | stir {e k'} (h : Stirs k k') : Acts b k p e k'
  | yield {e k'} (h : Sets k k' p fun x => { x with state := RUNNABLE }) : Acts b k p e k'
  | flee {e m} (hp : k.kont p = .user) (h : Stirs k m) : Acts b k p e (m.setKont p .exiting)
  | alloc {s} (hp : k.kont p = .user) (hs : k.firstUnused = some s) :
      Acts b k p .alloc ((k.allocproc s).setKont p (.forkStack s))
  | stack {np page} (hp : k.kont p = .forkStack np) : Acts b k p (.stack page)
      ((k.allocStack np page).setKont p (if page = 0 then .user else .forkCopy np))
  | copy {np pgdir} (hp : k.kont p = .forkCopy np) : Acts b k p (.copy pgdir)
      ((k.forkCopy b p np pgdir).setKont p (if pgdir = 0 then .user else .forkRun np))
  | run {np} (hp : k.kont p = .forkRun np) :
      Acts b k p .run ((k.setProc np fun x => { x with state := RUNNABLE }).setKont p .user)
  | exit (hp : (k.kont p).child = none) (hi : p ≠ k.initproc) :
      Acts b k p .exit ((k.setKont p .user).exit b p)
  | wait (hp : (k.kont p).child = none) : Acts b k p .wait (k.waitScan b p)
  | sleep {c} (hp : k.kont p = .user ∨ k.kont p = .exiting) (hc : ∀ q, c ≠ .proc q) :
      Acts b k p (.sleep c) (k.sleep b p c)
  | kill {pid} : Acts b k p (.kill pid) (k.kill pid)

theorem kont_of_sleep {b : Build} {k k' : Kernel} {p : Slot} {c : Chan}
    (h : procStep b k p (.sleep c) = some k') : k.kont p = .user ∨ k.kont p = .exiting := by
  cases hp : k.kont p with
  | user => exact .inl rfl
  | exiting => exact .inr rfl
  | _ => simp [procStep, hp] at h

theorem procStep_acts {b : Build} {k k' : Kernel} {p : Slot} {e : Event} (hcpu : k.cpu = .running)
    (hcur : k.cur = some p) (hown : e.sleepsOnProc = false) (h : procStep b k p e = some k') :
    Acts b k p e k' := by
  have hself : ∀ {q}, k.cur = some q → q = p := fun hq => Option.some.inj (hq.symm.trans hcur)
  have hrun : k.cpu ≠ .idle := by
    rw [hcpu]
    exact nofun
  cases procStep_cases hcpu hcur h with
  | alloc q s _ hq hu hs =>
    cases hself hq
    exact .alloc hu hs
  | full q _ _ _ => exact .stir (.refl k)
  | stack q np page _ hq hk =>
    cases hself hq
    exact .stack hk
  | copy q np pgdir _ hq hk =>
    cases hself hq
    exact .copy hk
  | run q np _ hq hk =>
    cases hself hq
    exact .run hk
  | exit q _ hq hk hi =>
    cases hself hq
    exact .exit hk hi
  | wait q _ hq hk =>
    cases hself hq
    exact .wait hk
  | sleep q c _ hq =>
    cases hself hq
    refine .sleep (kont_of_sleep h) ?_
    rintro r rfl
    cases hown
  | kill q pid _ _ => exact .kill
  | setPriority q pid priority _ _ => exact .stir (setPriority_stirs pid priority)
  | wakeup c => exact .stir (wakeup1_stirs _)
  | tick q user _ hq hu =>
    cases hself hq
    rcases tick_stirs b p user with ⟨m, hm, huser, heq⟩ | hs | hs
    · rw [heq]
      exact .flee (hu huser) hm
    · exact .stir hs
    · exact .yield hs
  | tickIdle user hidle | schedule hidle => exact absurd hidle hrun
  | pass i m hpass _ =>
    rw [hcpu] at hpass
    cases hpass

inductive SmpSteps (b : Build) (k : Kernel) : SmpEvent → Kernel → Prop
  | dispatch {p} (hp : (k.proc p).state = RUNNABLE) : SmpSteps b k (.dispatch p) (k.dispatch b p)
  | act {p e k'} (hp : (k.proc p).state = RUNNING) (h : Acts b (k.on p) p e k') :
      SmpSteps b k (.act p e) k'
  | preempt {p user k'} (hp : (k.proc p).state = RUNNING) (h : Acts b k p (.tick user) k') :
      SmpSteps b k (.localTick p user) k'
  | fault {p} (hp : (k.proc p).state = RUNNING) (hu : k.kont p = .user) : SmpSteps b k (.fault p)
      ((k.setProc p fun x => { x with killed := true }).setKont p .exiting)
  | stir {e k'} (h : Stirs k k') : SmpSteps b k e k'

theorem smpStep_cases {b : Build} {k k' : Kernel} {e : SmpEvent} (h : smpStep b k e = some k') :
    SmpSteps b k e k' := by
  cases e with
  | dispatch p =>
    simp only [smpStep] at h
    split_ifs at h with hp
    cases h
    exact .dispatch hp
  | act p e =>
    simp only [smpStep] at h
    split_ifs at h with hp
    exact .act hp.1 (procStep_acts rfl rfl hp.2 h)
  | localTick p user =>
    simp only [smpStep] at h
    split_ifs at h with hp hk
    · cases h
      exact .preempt hp.1
        (.flee (hp.2.2 (Bool.and_eq_true _ _ ▸ hk).2) (.refl k))
    · cases h
      rcases preempt_stirs (k := k) b p with hs | hs
      · exact .stir hs
      · exact .preempt hp.1 (.yield hs)
  | fault p =>
    simp only [smpStep] at h
    split_ifs at h with hp
    cases h
    exact .fault hp.1 hp.2
  | wakeup c =>
    cases h
    exact .stir (wakeup1_stirs _)
  | tick cur =>
    cases h
    have hcur : Stirs k { k with cur := cur } := .of_eq rfl rfl rfl rfl
    exact .stir (hcur.trans (timer_stirs b))

end Xv6.Sched
