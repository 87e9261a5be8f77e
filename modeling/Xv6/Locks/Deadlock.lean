import Xv6.Locks.Sections

/-!
# The order of the spin locks

`ptable.lock` is taken under every lock that a process can sleep on, and `kmem.lock` under
`ptable.lock`.
-/

namespace Xv6.Locks
open Lib SpinLocks Sched ProcState

def Section.PrintsUnderTable : Section → Prop
  | .aging grph k => grph = false ∧ ∃ s, aged k s = true
  | .set_priority k pid => ∃ s, (k.proc s).pid = pid
  | .getpinfo k pid => ∃ s, (k.proc s).state = RUNNABLE ∧ (k.proc s).pid = pid
  | .scheduler b grph ts => ts ≠ [] ∧ ¬(b = .MLFQ ∧ grph = true)
  | _ => False

def Section.TableUnderCons : Section → Prop
  | .consoleintr i cs => consoleChars i cs ≠ []
  | .consoleread sleeps => sleeps ≠ 0
  | _ => False

def Silent {C : Type*} (_ : KernelState C) : Event C Section → Prop
  | .call _ x => ¬x.PrintsUnderTable
  | .step _ => True

def ConsoleAlone {C : Type*} (_ : KernelState C) : Event C Section → Prop
  | .call _ x => ¬x.TableUnderCons
  | .step _ => True

structure Nests (r : Lock → ℕ) : Prop where
  outer : ∀ l, l ≠ .ptable → l ≠ .kmem → l ≠ .cons → r l < r .ptable
  inner : r .ptable < r .kmem

def Balanced (r : Lock → ℕ) (H : List Lock) (body : Code) : Prop :=
  ∀ more : Code, Ordered r .ptable H more → Ordered r .ptable H (body ++ more)

section Balanced

variable {r : Lock → ℕ} {H : List Lock} {l : Lock} {a b : Code}

theorem Balanced.nil : Balanced r H [] := fun _ h => h

theorem Balanced.append (ha : Balanced r H a) (hb : Balanced r H b) : Balanced r H (a ++ b) := by
  intro more h
  rw [List.append_assoc]
  exact ha _ (hb _ h)

theorem Balanced.times (ha : Balanced r H a) (n : ℕ) : Balanced r H (times n a) := by
  induction n with
  | zero => exact .nil
  | succ n ih =>
    have : Locks.times (n + 1) a = a ++ Locks.times n a := by
      simp [Locks.times, List.replicate_succ]
    rw [this]
    exact ha.append ih

theorem Balanced.flatMap {α : Type*} {f : α → Code} (xs : List α)
    (hf : ∀ x ∈ xs, Balanced r H (f x)) : Balanced r H (xs.flatMap f) := by
  induction xs with
  | nil => exact .nil
  | cons x xs ih =>
    rw [List.flatMap_cons]
    exact (hf x List.mem_cons_self).append (ih fun y hy => hf y (List.mem_cons_of_mem x hy))

theorem Balanced.ite {p : Prop} [Decidable p] (ha : p → Balanced r H a)
    (hb : ¬p → Balanced r H b) : Balanced r H (if p then a else b) := by
  split_ifs with h
  · exact ha h
  · exact hb h

theorem Balanced.locked (hlt : ∀ h ∈ H, r h < r l) (ha : Balanced r (l :: H) a) :
    Balanced r H (locked l a) := by
  intro more h
  have : Locks.locked l a ++ more = .acquire l :: (a ++ .release l :: more) := by
    simp [Locks.locked]
  rw [this]
  exact .section_append hlt ha h

theorem Balanced.ordered (ha : Balanced r [] a) : Ordered r .ptable [] a := by
  have := ha [] rfl
  rwa [List.append_nil] at this

theorem balanced_leaf (l : Lock) : Balanced r [] (locked l []) :=
  .locked (by simp) .nil

theorem balanced_swtch : Balanced r [.ptable] [.swtch] := fun _ h => ⟨rfl, h⟩

theorem balanced_wakeup (hl : r l < r .ptable) : Balanced r [l] wakeup :=
  .locked (by simpa using hl) .nil

theorem balanced_sleep (hl : r l < r .ptable) : Balanced r [l] (sleep l) := by
  intro more h
  have hne : Lock.ptable ≠ l := by
    intro he
    rw [he] at hl
    exact absurd hl (lt_irrefl _)
  refine ⟨by simpa using hl, by simp, ?_⟩
  rw [List.erase_cons_tail (by simpa using hne), List.erase_cons_head]
  refine ⟨rfl, by simp, ?_⟩
  rw [List.erase_cons_head]
  exact ⟨by simp, h⟩

theorem balanced_cprintf (hl : r .ptable < r .cons) : Balanced r [.ptable] cprintf :=
  .locked (by simpa using hl) .nil

theorem balanced_chars (hl : r .cons < r .ptable) (i : Input) (cs : List ℕ) :
    Balanced r [.cons] (consoleChars i cs) := by
  induction cs generalizing i with
  | nil => exact .nil
  | cons c cs ih =>
    exact (Balanced.ite (fun _ => balanced_wakeup hl) fun _ => .nil).append (ih _)

end Balanced

theorem balanced_dispatches {r : Lock → ℕ} {b : Build} {grph : Bool} {ts : List Slot}
    (hp : ts ≠ [] ∧ ¬(b = .MLFQ ∧ grph = true) → r .ptable < r .cons) :
    Balanced r [.ptable] (dispatches b grph ts) := by
  refine .flatMap _ fun t ht => .append (.ite (fun _ => .nil) fun hn => ?_) ?_
  · refine balanced_cprintf (hp ⟨?_, hn⟩)
    intro hnil
    subst hnil
    simp at ht
  · exact fun _ h => ⟨rfl, h⟩

theorem section_ordered {r : Lock → ℕ} (hN : Nests r) (x : Section)
    (hp : x.PrintsUnderTable → r .ptable < r .cons)
    (hc : x.TableUnderCons → r .cons < r .ptable) : Ordered r .ptable [] x.code := by
  have hout : ∀ {l : Lock}, l ≠ .ptable → l ≠ .kmem → l ≠ .cons → r l < r .ptable :=
    fun {l} => hN.outer l
  cases x with
  | yield => exact (Balanced.locked (by simp) balanced_swtch).ordered
  | exit => exact ⟨by simp, rfl⟩
  | wait sleeps pages =>
    refine (Balanced.locked (by simp) (.append (balanced_swtch.times sleeps) ?_)).ordered
    exact (Balanced.locked (by simpa using hN.inner) .nil).times pages
  | aging grph k =>
    refine (Balanced.locked (by simp) (.flatMap _ fun s _ => .ite (fun h => ?_) fun _ => .nil)).ordered
    exact balanced_cprintf (hp ⟨by simpa using h.2, s, h.1⟩)
  | set_priority k pid =>
    refine (Balanced.locked (by simp) (.ite (fun h => ?_) fun _ => .nil)).ordered
    obtain ⟨s, _, hs⟩ := List.any_eq_true.mp h
    exact balanced_cprintf (hp ⟨s, by simpa using hs⟩)
  | getpinfo k pid =>
    refine (Balanced.locked (by simp) (.ite (fun h => ?_) fun _ => .nil)).ordered
    obtain ⟨s, _, hs⟩ := List.any_eq_true.mp h
    exact (balanced_cprintf (hp ⟨s, by simpa using hs⟩)).times 5
  | scheduler b grph ts =>
    exact (Balanced.locked (by simp) (balanced_dispatches hp)).ordered
  | consoleintr i cs =>
    refine (Balanced.locked (by simp) ?_).ordered
    by_cases h : consoleChars i cs = []
    · rw [h]
      exact .nil
    · exact balanced_chars (hc h) i cs
  | consoleread sleeps =>
    refine (Balanced.locked (by simp) ?_).ordered
    by_cases h : sleeps = 0
    · rw [h]
      exact .nil
    · exact (balanced_sleep (hc h)).times sleeps
  | tick | committed | releasesleep i | pipeclose i =>
    exact (Balanced.locked (by simp) (balanced_wakeup (hout (by simp) (by simp) (by simp)))).ordered
  | sys_sleep sleeps | iderw sleeps | begin_op sleeps | acquiresleep i sleeps =>
    exact (Balanced.locked (by simp)
      ((balanced_sleep (hout (by simp) (by simp) (by simp))).times sleeps)).ordered
  | ideintr request =>
    exact (Balanced.locked (by simp)
      (.ite (fun _ => balanced_wakeup (hout (by simp) (by simp) (by simp))) fun _ => .nil)).ordered
  | end_op do_commit =>
    exact (Balanced.locked (by simp)
      (.ite (fun _ => .nil) fun _ => balanced_wakeup (hout (by simp) (by simp) (by simp)))).ordered
  | pipewrite i sleeps fails =>
    have hl : r (.pipe i) < r .ptable := hout (by simp) (by simp) (by simp)
    exact (Balanced.locked (by simp)
      ((((balanced_wakeup hl).append (balanced_sleep hl)).times sleeps).append
        (.ite (fun _ => .nil) fun _ => balanced_wakeup hl))).ordered
  | piperead i sleeps fails =>
    have hl : r (.pipe i) < r .ptable := hout (by simp) (by simp) (by simp)
    exact (Balanced.locked (by simp)
      (((balanced_sleep hl).times sleeps).append
        (.ite (fun _ => .nil) fun _ => balanced_wakeup hl))).ordered
  | _ => exact (balanced_leaf _).ordered

def consOutside : Lock → ℕ
  | .ptable => 1
  | .kmem => 2
  | _ => 0

def consInside : Lock → ℕ
  | .ptable => 1
  | .kmem => 2
  | .cons => 2
  | _ => 0

theorem consOutside_nests : Nests consOutside :=
  ⟨fun l h1 h2 _ => by cases l <;> simp_all [consOutside], by decide⟩

theorem consInside_nests : Nests consInside :=
  ⟨fun l h1 h2 h3 => by cases l <;> simp_all [consInside], by decide⟩

theorem forkret_ordered (r : Lock → ℕ) : Ordered r .ptable [.ptable] forkret :=
  ⟨List.mem_cons_self, List.erase_cons_head _ _⟩

theorem no_spin_deadlock {C : Type*} [DecidableEq C] (es : List (Event C Section))
    (s : KernelState C)
    (hC : Runs.Meets step Silent (initial C) es ∨ Runs.Meets step ConsoleAlone (initial C) es)
    (hrun : Runs.exec step (initial C) es = some s) : ¬s.Deadlock := by
  rcases hC with hC | hC
  · refine run_no_deadlock (forkret_ordered consOutside) (hC.mono _ ?_) hrun
    intro s e he c x hx
    subst hx
    exact section_ordered consOutside_nests x (fun hp => absurd hp he) fun _ => by decide
  · refine run_no_deadlock (forkret_ordered consInside) (hC.mono _ ?_) hrun
    intro s e he c x hx
    subst hx
    exact section_ordered consInside_nests x (fun _ => by decide) fun hc => absurd hc he

def emptyInput : Input := ⟨fun _ => 0, 0, 0, 0⟩

/-- CPU 1 gets a newline while CPU 0 is in `wakeup`, and spins on `ptable.lock`. -/
def newlineRun : List (Event (Fin 2) Section) :=
  [.call 0 .wakeup, .step 0, .step 0, .call 1 (.consoleintr emptyInput ['\n'.toNat]), .step 1,
    .step 1, .step 1]

theorem no_spin_deadlock_newlineRun : ∃ s, Runs.exec step (initial (Fin 2)) newlineRun = some s ∧
    s.WaitsFor 1 0 ∧ ¬s.Deadlock := by
  obtain ⟨s, hs, h⟩ : ∃ s ∈ Runs.exec step (initial (Fin 2)) newlineRun,
      s.spin 1 = some .ptable ∧ s.holder .ptable = some 0 := by decide +kernel
  refine ⟨s, hs, ⟨.ptable, h⟩, no_spin_deadlock newlineRun s (.inl ?_) hs⟩
  refine .of_forall _ (fun e he s => ?_) _
  simp only [newlineRun, List.mem_cons, List.not_mem_nil, or_false] at he
  rcases he with rfl | rfl | rfl | rfl | rfl | rfl | rfl <;>
    simp [Silent, Section.PrintsUnderTable]

/-- CPU 0 dispatches a process while CPU 1 handles a newline from the keyboard. -/
def crossedRun : List (Event (Fin 2) Section) :=
  [.call 0 (.scheduler .DEFAULT false [0]), .step 0, .step 0,
    .call 1 (.consoleintr emptyInput ['\n'.toNat]), .step 1, .step 1, .step 0, .step 1]

/-- CPU 0 holds `ptable.lock` and spins on `cons.lock`, CPU 1 the other way round. -/
theorem spin_deadlock : ∃ s, Runs.exec step (initial (Fin 2)) crossedRun = some s ∧
    s.Deadlock := by
  obtain ⟨s, hs, h0, hcons, h1, hptable⟩ : ∃ s ∈ Runs.exec step (initial (Fin 2)) crossedRun,
      s.spin 0 = some .cons ∧ s.holder .cons = some 1 ∧ s.spin 1 = some .ptable ∧
      s.holder .ptable = some 0 := by decide +kernel
  have h01 : s.WaitsFor 0 1 := ⟨.cons, h0, hcons⟩
  have h10 : s.WaitsFor 1 0 := ⟨.ptable, h1, hptable⟩
  exact ⟨s, hs, 0, .tail (.single h01) h10⟩

end Xv6.Locks
