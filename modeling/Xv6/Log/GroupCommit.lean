import Xv6.Log.Model
import Xv6.Lib.Counting
import Xv6.Lib.Runs

/-!
# Group commit: `begin_op`, `log_write` and `end_op` by many processes

One event is one critical section of `log.lock`, or one step taken without the lock: the tests at
the start of `log_write` and each disk write of `commit`.
-/

namespace Xv6.GroupCommit
open Lib RedoLog Function

inductive Stage
  | test
  | writeLog (tail : ℕ)
  | writeHead
  | installTrans (tail : ℕ)
  | erase
  deriving DecidableEq, Repr

inductive Pc
  | idle
  | beginOp
  | sleeping
  | inOp
  | logWrite (b : ℕ)
  | commit (stage : Stage)
  | committed
  deriving DecidableEq, Repr

def Pc.InOp : Pc → Bool
  | .inOp | .logWrite _ => true
  | _ => false

def Pc.InCommit : Pc → Bool
  | .commit _ | .committed => true
  | _ => false

def Pc.Sealed : Pc → Bool
  | .commit (.installTrans _) | .commit .erase | .committed => true
  | _ => false

structure Write (P : Type*) where
  proc : P
  op : ℕ
  epoch : ℕ
  block : ℕ

structure State (P : Type*) where
  outstanding : ℤ
  committing : Bool
  lh : List ℕ
  pc : P → Pc
  panic : Option Panic
  op : P → ℕ
  writes : List (Write P)
  commits : List (List ℕ)

inductive Event (P : Type*)
  | call (p : P)
  | beginOp (p : P)
  | spurious (p : P)
  | logWrite (p : P) (b : ℕ)
  | append (p : P)
  | endOp (p : P)
  | commit (p : P)
  | finish (p : P)

variable {P : Type*} [DecidableEq P]

def initial : State P :=
  { outstanding := 0, committing := false, lh := [], pc := fun _ => .idle, panic := none,
    op := fun _ => 0, writes := [], commits := [] }

def State.goto (s : State P) (p : P) (pc : Pc) : State P :=
  { s with pc := update s.pc p pc }

def State.wakeup (s : State P) : State P :=
  { s with pc := fun p => if s.pc p = .sleeping then .beginOp else s.pc p }

def beginOp (s : State P) (p : P) : State P :=
  if s.committing then s.goto p .sleeping
  else if (s.lh.length : ℤ) + (s.outstanding + 1) * MAXOPBLOCKS > LOGSIZE then s.goto p .sleeping
  else { s.goto p .inOp with
    outstanding := s.outstanding + 1
    op := update s.op p (s.op p + 1) }

def logWriteTest (size : ℕ) (s : State P) (p : P) (b : ℕ) : State P :=
  if s.lh.length ≥ LOGSIZE ∨ (s.lh.length : ℤ) ≥ (size : ℤ) - 1 then
    { s with panic := some .tooBig }
  else if s.outstanding < 1 then { s with panic := some .outside }
  else s.goto p (.logWrite b)

def logWriteAppend (s : State P) (p : P) (b : ℕ) : State P :=
  { s.goto p .inOp with
    lh := absorb s.lh b
    writes := ⟨p, s.op p, s.commits.length, b⟩ :: s.writes }

def endOp (s : State P) (p : P) : State P :=
  if s.committing then
    { s with outstanding := s.outstanding - 1, panic := some .committing }
  else if s.outstanding - 1 = 0 then
    { s.goto p (.commit .test) with outstanding := s.outstanding - 1, committing := true }
  else { (s.goto p .idle).wakeup with outstanding := s.outstanding - 1 }

def commitStep (s : State P) (p : P) : Stage → State P
  | .test =>
    if 0 < s.lh.length then s.goto p (.commit (.writeLog 0))
    else { s.goto p .committed with commits := s.commits ++ [s.lh] }
  | .writeLog tail =>
    if tail < s.lh.length then s.goto p (.commit (.writeLog (tail + 1)))
    else s.goto p (.commit .writeHead)
  | .writeHead =>
    { s.goto p (.commit (.installTrans 0)) with commits := s.commits ++ [s.lh] }
  | .installTrans tail =>
    if tail < s.lh.length then s.goto p (.commit (.installTrans (tail + 1)))
    else s.goto p (.commit .erase)
  | .erase => { s.goto p .committed with lh := [] }

def finish (s : State P) (p : P) : State P :=
  { (s.goto p .idle).wakeup with committing := false }

def step (size : ℕ) (s : State P) (e : Event P) : Option (State P) :=
  if s.panic.isSome then none
  else match e with
    | .call p => if s.pc p = .idle then some (s.goto p .beginOp) else none
    | .beginOp p => if s.pc p = .beginOp then some (beginOp s p) else none
    | .spurious p => if s.pc p = .sleeping then some (s.goto p .beginOp) else none
    | .logWrite p b => if s.pc p = .inOp then some (logWriteTest size s p b) else none
    | .append p =>
      match s.pc p with
      | .logWrite b => some (logWriteAppend s p b)
      | _ => none
    | .endOp p => if s.pc p = .inOp then some (endOp s p) else none
    | .commit p =>
      match s.pc p with
      | .commit stage => some (commitStep s p stage)
      | _ => none
    | .finish p => if s.pc p = .committed then some (finish s p) else none

inductive Steps (size : ℕ) (s : State P) : State P → Prop
  | call (p : P) (hp : s.pc p = .idle) : Steps size s (s.goto p .beginOp)
  | sleep (p : P) (hp : s.pc p = .beginOp) : Steps size s (s.goto p .sleeping)
  | enter (p : P) (hp : s.pc p = .beginOp) (hc : s.committing = false) :
      Steps size s { s.goto p .inOp with
        outstanding := s.outstanding + 1
        op := update s.op p (s.op p + 1) }
  | spurious (p : P) (hp : s.pc p = .sleeping) : Steps size s (s.goto p .beginOp)
  | tooBig : Steps size s { s with panic := some .tooBig }
  | outside : Steps size s { s with panic := some .outside }
  | test (p : P) (b : ℕ) (hp : s.pc p = .inOp) : Steps size s (s.goto p (.logWrite b))
  | append (p : P) (b : ℕ) (hp : s.pc p = .logWrite b) : Steps size s (logWriteAppend s p b)
  | panic (p : P) (hp : s.pc p = .inOp) (hc : s.committing = true) :
      Steps size s { s with outstanding := s.outstanding - 1, panic := some .committing }
  | last (p : P) (hp : s.pc p = .inOp) (hc : s.committing = false) (hn : s.outstanding - 1 = 0) :
      Steps size s
        { s.goto p (.commit .test) with outstanding := s.outstanding - 1, committing := true }
  | leave (p : P) (hp : s.pc p = .inOp) (hc : s.committing = false) :
      Steps size s { (s.goto p .idle).wakeup with outstanding := s.outstanding - 1 }
  | move (p : P) (stage stage' : Stage) (hp : s.pc p = .commit stage)
      (hs : (Pc.commit stage').Sealed = (Pc.commit stage).Sealed) :
      Steps size s (s.goto p (.commit stage'))
  | empty (p : P) (hp : s.pc p = .commit .test) (hn : s.lh = []) :
      Steps size s { s.goto p .committed with commits := s.commits ++ [s.lh] }
  | commitPoint (p : P) (hp : s.pc p = .commit .writeHead) :
      Steps size s { s.goto p (.commit (.installTrans 0)) with commits := s.commits ++ [s.lh] }
  | erase (p : P) (hp : s.pc p = .commit .erase) :
      Steps size s { s.goto p .committed with lh := [] }
  | finish (p : P) (hp : s.pc p = .committed) : Steps size s (finish s p)

theorem commitStep_cases (size : ℕ) (s : State P) (p : P) (stage : Stage)
    (hp : s.pc p = .commit stage) : Steps size s (commitStep s p stage) := by
  cases stage with
  | test =>
    simp only [commitStep]
    split_ifs with hn
    · exact .move p .test _ hp rfl
    · exact .empty p hp (List.length_eq_zero_iff.mp (by omega))
  | writeLog tail | installTrans tail =>
    simp only [commitStep]
    split_ifs
    · exact .move p _ _ hp rfl
    · exact .move p _ _ hp rfl
  | writeHead => exact .commitPoint p hp
  | erase => exact .erase p hp

variable {s t : State P} {size : ℕ}

theorem step_cases {e : Event P} (h : step size s e = some t) : Steps size s t := by
  unfold step at h
  split at h
  · cases h
  cases e with
  | call p =>
    simp only at h
    split_ifs at h with hp
    cases h
    exact .call p hp
  | spurious p =>
    simp only at h
    split_ifs at h with hp
    cases h
    exact .spurious p hp
  | beginOp p =>
    simp only [beginOp] at h
    split_ifs at h with hp hc <;> cases h
    · exact .sleep p hp
    · exact .sleep p hp
    · exact .enter p hp (by simpa using hc)
  | logWrite p b =>
    simp only [logWriteTest] at h
    split_ifs at h with hp <;> cases h
    · exact .tooBig
    · exact .outside
    · exact .test p b hp
  | append p =>
    simp only at h
    split at h
    next b hp =>
      cases h
      exact .append p b hp
    · cases h
  | endOp p =>
    simp only [endOp] at h
    split_ifs at h with hp hc hlast <;> cases h
    · exact .panic p hp hc
    · exact .last p hp (by simpa using hc) hlast
    · exact .leave p hp (by simpa using hc)
  | commit p =>
    simp only at h
    split at h
    next stage hp =>
      cases h
      exact commitStep_cases size s p stage hp
    · cases h
  | finish p =>
    simp only at h
    split_ifs at h with hp
    cases h
    exact .finish p hp

@[simp] theorem goto_pc (s : State P) (p q : P) (pc : Pc) :
    (s.goto p pc).pc q = if q = p then pc else s.pc q := by
  by_cases h : q = p
  · subst h; simp [State.goto]
  · simp [State.goto, h]

theorem goto_elim (R : P → Pc → Prop) {p : P} {pc : Pc} (hp : R p pc)
    (hq : ∀ q ≠ p, R q (s.pc q)) (q : P) : R q ((s.goto p pc).pc q) := by
  rw [goto_pc]
  split_ifs with h
  · exact h ▸ hp
  · exact hq q h

omit [DecidableEq P] in
@[simp] theorem wakeup_inOp (s : State P) (p : P) : (s.wakeup.pc p).InOp = (s.pc p).InOp := by
  by_cases h : s.pc p = .sleeping
  · simp [State.wakeup, h, Pc.InOp]
  · simp [State.wakeup, h]

omit [DecidableEq P] in
@[simp] theorem wakeup_inCommit (s : State P) (p : P) :
    (s.wakeup.pc p).InCommit = (s.pc p).InCommit := by
  by_cases h : s.pc p = .sleeping
  · simp [State.wakeup, h, Pc.InCommit]
  · simp [State.wakeup, h]

omit [DecidableEq P] in
theorem wakeup_sealed (s : State P) (p : P) : (s.wakeup.pc p).Sealed = (s.pc p).Sealed := by
  by_cases h : s.pc p = .sleeping
  · simp [State.wakeup, h, Pc.Sealed]
  · simp [State.wakeup, h]

theorem Pc.Sealed.inCommit {pc : Pc} (h : pc.Sealed) : pc.InCommit := by
  cases pc with
  | commit stage => rfl
  | committed => rfl
  | idle | beginOp | sleeping | inOp | logWrite => simp [Pc.Sealed] at h

def OpCount (inOp : P → Bool) (n : ℤ) : Prop :=
  ∃ k : ℕ, n = k ∧ Counts (fun p => inOp p = true) k

variable {f g : P → Bool}

omit [DecidableEq P] in
theorem OpCount.congr {n : ℤ} (h : OpCount f n) (hfg : ∀ p, g p = f p) : OpCount g n := by
  obtain ⟨k, hn, hk⟩ := h
  exact ⟨k, hn, hk.congr fun p => by rw [hfg p]⟩

variable {p : P}

theorem OpCount.enter {n : ℤ} (h : OpCount f n) (hp : f p = false)
    (hg : ∀ q, g q = if q = p then true else f q) : OpCount g (n + 1) := by
  obtain ⟨k, hn, hk⟩ := h
  refine ⟨k + 1, by omega, hk.add (a := p) (by simp [hp]) fun q => ?_⟩
  rw [hg q]
  split_ifs with hq <;> simp [hq]

theorem OpCount.leave {n : ℤ} (h : OpCount f n) (hp : f p = true)
    (hg : ∀ q, g q = if q = p then false else f q) : OpCount g (n - 1) := by
  obtain ⟨k, hn, hk⟩ := h
  have hpos := hk.pos hp
  refine ⟨k - 1, by omega, hk.remove hp fun q => ?_⟩
  rw [hg q]
  split_ifs with hq <;> simp [hq]

omit [DecidableEq P] in
theorem OpCount.pos {f : P → Bool} {n : ℤ} (h : OpCount f n) (hp : f p = true) : 0 < n := by
  obtain ⟨k, hn, hk⟩ := h
  have hpos := hk.pos hp
  omega

structure Excl (s : State P) : Prop where
  count : OpCount (fun p => (s.pc p).InOp) s.outstanding
  quiet : s.committing = true → s.outstanding = 0
  committing : ∀ p, (s.pc p).InCommit → s.committing = true
  one : ∀ p q, (s.pc p).InCommit → (s.pc q).InCommit → p = q
  noPanic : s.panic ≠ some .committing

omit [DecidableEq P] in
theorem Excl.initial : Excl (initial : State P) := by
  refine ⟨⟨0, rfl, .none fun p => ?_⟩, ?_, ?_, ?_, ?_⟩ <;> simp [GroupCommit.initial, Pc.InOp, Pc.InCommit]

omit [DecidableEq P] in
theorem Excl.notInOp (h : Excl s) (hc : s.committing = true) (p : P) : (s.pc p).InOp = false := by
  by_contra hp
  have hpos := h.count.pos (p := p) (by simpa using hp)
  have hzero := h.quiet hc
  omega

theorem Excl.goto (h : Excl s) (p : P) (pc : Pc)
    (hop : pc.InOp = (s.pc p).InOp) (hcom : pc.InCommit → (s.pc p).InCommit) :
    Excl (s.goto p pc) := by
  have hback := goto_elim (fun q c => c.InCommit → (s.pc q).InCommit) hcom fun _ _ hq => hq
  exact ⟨h.count.congr (goto_elim (fun q c => c.InOp = (s.pc q).InOp) hop fun _ _ => rfl), h.quiet,
    fun q hq => h.committing q (hback q hq),
    fun q r hq hr => h.one q r (hback q hq) (hback r hr), h.noPanic⟩

omit [DecidableEq P] in
theorem Excl.congr (h : Excl s) (hpc : ∀ p, (t.pc p).InOp = (s.pc p).InOp)
    (hcom : ∀ p, (t.pc p).InCommit → (s.pc p).InCommit) (hout : t.outstanding = s.outstanding)
    (hc : t.committing = s.committing) (hp : t.panic ≠ some .committing) : Excl t :=
  ⟨hout ▸ h.count.congr hpc, by rw [hc, hout]; exact h.quiet,
    fun p hp => by rw [hc]; exact h.committing p (hcom p hp),
    fun p q hp hq => h.one p q (hcom p hp) (hcom q hq), hp⟩

theorem Excl.enter (h : Excl s) (hp : s.pc p = .beginOp) (hc : s.committing = false) :
    Excl { s.goto p .inOp with
      outstanding := s.outstanding + 1
      op := update s.op p (s.op p + 1) } := by
  have hback : ∀ q, ((s.goto p .inOp).pc q).InCommit → (s.pc q).InCommit :=
    goto_elim (fun q c => c.InCommit → (s.pc q).InCommit) (by simp [Pc.InCommit]) fun _ _ hq => hq
  refine ⟨h.count.enter (p := p) (by simp [hp, Pc.InOp]) fun q => ?_, fun hcom => ?_,
    fun q hq => h.committing q (hback q hq),
    fun q r hq hr => h.one q r (hback q hq) (hback r hr), h.noPanic⟩
  · exact goto_elim (fun q c => c.InOp = if q = p then true else (s.pc q).InOp) (by simp [Pc.InOp])
      (fun q hq => by simp [hq]) q
  · simp [State.goto, hc] at hcom

omit [DecidableEq P] in
theorem Excl.notInCommit (h : Excl s) (hc : s.committing = false) (p : P) :
    (s.pc p).InCommit = false := by
  by_contra hp
  have := h.committing p (by simpa using hp)
  simp [hc] at this

theorem Excl.last (h : Excl s) (hp : s.pc p = .inOp)
    (hc : s.committing = false) (hn : s.outstanding - 1 = 0) : Excl { s.goto p (.commit .test) with
      outstanding := s.outstanding - 1, committing := true } := by
  have hself : ∀ q, ((s.goto p (.commit .test)).pc q).InCommit → q = p := by
    intro q hq
    by_contra hqp
    simp [hqp, h.notInCommit hc q] at hq
  refine ⟨h.count.leave (p := p) (by simp [hp, Pc.InOp]) fun q => ?_, fun _ => hn, fun _ _ => rfl,
    fun q r hq hr => (hself q hq).trans (hself r hr).symm, h.noPanic⟩
  by_cases hqp : q = p
  · simp [hqp, Pc.InOp]
  · simp [hqp]

theorem Excl.leave (h : Excl s) (hp : s.pc p = .inOp) (hc : s.committing = false) :
    Excl { (s.goto p .idle).wakeup with outstanding := s.outstanding - 1 } := by
  have hnone : ∀ q, ((s.goto p .idle).wakeup.pc q).InCommit = false := by
    intro q
    rw [wakeup_inCommit, goto_pc]
    by_cases hqp : q = p
    · simp [hqp, Pc.InCommit]
    · simp [hqp, h.notInCommit hc q]
  refine ⟨h.count.leave (p := p) (by simp [hp, Pc.InOp]) fun q => ?_, fun hcom => ?_,
    fun q hq => ?_, fun q r hq _ => ?_, h.noPanic⟩
  · rw [wakeup_inOp, goto_pc]
    by_cases hqp : q = p
    · simp [hqp, Pc.InOp]
    · simp [hqp]
  · simp [State.wakeup, State.goto, hc] at hcom
  · exact absurd ((hnone q).symm.trans hq) (by simp)
  · exact absurd ((hnone q).symm.trans hq) (by simp)

theorem Excl.finish (h : Excl s) (hp : s.pc p = .committed) : Excl (finish s p) := by
  have hnone : ∀ q, ((s.goto p .idle).wakeup.pc q).InCommit = false := by
    intro q
    rw [wakeup_inCommit, goto_pc]
    by_contra hq
    by_cases hqp : q = p
    · simp [hqp, Pc.InCommit] at hq
    · exact hqp (h.one q p (by simpa [hqp] using hq) (by simp [hp, Pc.InCommit]))
  refine ⟨h.count.congr fun q => ?_, fun hc => ?_, fun q hq => ?_, fun q r hq _ => ?_, h.noPanic⟩
  · simp only [GroupCommit.finish]
    rw [wakeup_inOp, goto_pc]
    by_cases hqp : q = p
    · simp [hqp, hp, Pc.InOp]
    · simp [hqp]
  · simp [GroupCommit.finish] at hc
  · exact absurd ((hnone q).symm.trans hq) (by simp)
  · exact absurd ((hnone q).symm.trans hq) (by simp)

theorem Excl.step (h : Excl s) (hstep : Steps size s t) : Excl t := by
  cases hstep with
  | call p hp | sleep p hp | spurious p hp | test p b hp =>
    exact h.goto _ _ (by simp [hp, Pc.InOp]) (by simp [Pc.InCommit])
  | enter p hp hc => exact h.enter hp hc
  | tooBig | outside => exact h.congr (fun _ => rfl) (fun _ hp => hp) rfl rfl (by simp)
  | append p b hp =>
    have hgoto := h.goto p .inOp (by simp [hp, Pc.InOp]) (by simp [Pc.InCommit])
    exact hgoto.congr (fun _ => rfl) (fun _ hp => hp) rfl rfl hgoto.noPanic
  | panic p hp hc =>
    have := h.notInOp hc p
    simp [hp, Pc.InOp] at this
  | last p hp hc hn => exact h.last hp hc hn
  | leave p hp hc => exact h.leave hp hc
  | move p stage stage' hp _ =>
    exact h.goto _ _ (by simp [hp, Pc.InOp]) (fun _ => by simp [hp, Pc.InCommit])
  | empty p hp _ | erase p hp =>
    have hgoto := h.goto p .committed (by simp [hp, Pc.InOp])
      (fun _ => by simp [hp, Pc.InCommit])
    exact hgoto.congr (fun _ => rfl) (fun _ hp => hp) rfl rfl hgoto.noPanic
  | commitPoint p hp =>
    have hgoto := h.goto p (.commit (.installTrans 0)) (by simp [hp, Pc.InOp])
      (fun _ => by simp [hp, Pc.InCommit])
    exact hgoto.congr (fun _ => rfl) (fun _ hp => hp) rfl rfl hgoto.noPanic
  | finish p hp => exact h.finish hp

structure Hist (s : State P) : Prop where
  epoch_le : ∀ w ∈ s.writes, w.epoch ≤ s.commits.length
  committed : ∀ w ∈ s.writes, ∀ bs, s.commits[w.epoch]? = some bs → w.block ∈ bs
  logged : ∀ w ∈ s.writes, w.epoch = s.commits.length → w.block ∈ s.lh
  closed : ∀ p, (s.pc p).Sealed → ∀ w ∈ s.writes, w.epoch < s.commits.length
  op_le : ∀ w ∈ s.writes, w.op ≤ s.op w.proc
  current : ∀ w ∈ s.writes, (s.pc w.proc).InOp → w.op = s.op w.proc → w.epoch = s.commits.length
  whole : ∀ w ∈ s.writes, ∀ w' ∈ s.writes, w.proc = w'.proc → w.op = w'.op → w.epoch = w'.epoch

omit [DecidableEq P] in
theorem Hist.initial : Hist (initial : State P) := by
  constructor <;> simp [GroupCommit.initial]

omit [DecidableEq P] in
theorem Hist.congr (h : Hist s) (hw : t.writes = s.writes)
    (hcs : t.commits = s.commits) (hlh : t.lh = s.lh) (hop : t.op = s.op)
    (hin : ∀ p, (t.pc p).InOp → (s.pc p).InOp)
    (hseal : ∀ p, (t.pc p).Sealed → (s.pc p).Sealed) : Hist t := by
  constructor
  · simpa only [hw, hcs] using h.epoch_le
  · simpa only [hw, hcs] using h.committed
  · simpa only [hw, hcs, hlh] using h.logged
  · intro p hp
    simpa only [hw, hcs] using h.closed p (hseal p hp)
  · simpa only [hw, hop] using h.op_le
  · intro w hmem hp
    rw [hw] at hmem
    simpa only [hcs, hop] using h.current w hmem (hin _ hp)
  · simpa only [hw] using h.whole

theorem Hist.goto (h : Hist s) (p : P) (pc : Pc)
    (hop : pc.InOp → (s.pc p).InOp) (hseal : pc.Sealed → (s.pc p).Sealed) : Hist (s.goto p pc) := by
  exact h.congr rfl rfl rfl rfl
    (goto_elim (fun q c => c.InOp → (s.pc q).InOp) hop fun _ _ hq => hq)
    (goto_elim (fun q c => c.Sealed → (s.pc q).Sealed) hseal fun _ _ hq => hq)

theorem Hist.enter (h : Hist s) : Hist { s.goto p .inOp with
      outstanding := s.outstanding + 1
      op := update s.op p (s.op p + 1) } := by
  have hgoto : ∀ q, ((s.goto p .inOp).pc q).Sealed → (s.pc q).Sealed :=
    goto_elim (fun q c => c.Sealed → (s.pc q).Sealed) (by simp [Pc.Sealed]) fun _ _ hq => hq
  refine ⟨h.epoch_le, h.committed, h.logged, fun q hq => h.closed q (hgoto q hq),
    fun w hw => ?_, fun w hw hin heq => ?_, h.whole⟩
  · have hle := h.op_le w hw
    by_cases hwp : w.proc = p
    · simp only [hwp, update_self] at hle ⊢
      omega
    · simpa [hwp] using hle
  · by_cases hwp : w.proc = p
    · have hle := h.op_le w hw
      simp only [hwp, update_self] at hle heq
      omega
    · exact h.current w hw (by simpa [hwp] using hin) (by simpa [hwp] using heq)

theorem Hist.append (h : Hist s) (hx : Excl s) {b : ℕ}
    (hp : s.pc p = .logWrite b) : Hist (logWriteAppend s p b) := by
  have hin : (s.pc p).InOp = true := by simp [hp, Pc.InOp]
  have hgoto := h.goto p .inOp (fun _ => hin) (by simp [Pc.Sealed])
  -- while an operation runs no process is past the commit point
  have hopen : ∀ q, ((s.goto p .inOp).pc q).Sealed = false := by
    intro q
    by_contra hq
    have hcom := hx.committing q
    by_cases hqp : q = p
    · simp [hqp, Pc.Sealed] at hq
    · have hseal : (s.pc q).Sealed := by simpa [hqp] using hq
      have := hx.notInOp (hcom (Pc.Sealed.inCommit hseal)) p
      simp [hin] at this
  refine ⟨fun w hw => ?_, fun w hw bs hbs => ?_, fun w hw heq => ?_, fun q hq => ?_,
    fun w hw => ?_, fun w hw hwin heq => ?_, fun w hw w' hw' hproc hop => ?_⟩
  · rcases List.mem_cons.mp hw with rfl | hw
    · exact le_rfl
    · exact h.epoch_le w hw
  · rcases List.mem_cons.mp hw with rfl | hw
    · simp [logWriteAppend, State.goto] at hbs
    · exact h.committed w hw bs hbs
  · rcases List.mem_cons.mp hw with rfl | hw
    · exact (mem_absorb _ _ _).mpr (.inr rfl)
    · exact (mem_absorb _ _ _).mpr (.inl (h.logged w hw heq))
  · exact absurd ((hopen q).symm.trans hq) (by simp)
  · rcases List.mem_cons.mp hw with rfl | hw
    · exact le_rfl
    · exact h.op_le w hw
  · rcases List.mem_cons.mp hw with rfl | hw
    · rfl
    · exact hgoto.current w hw hwin heq
  · rcases List.mem_cons.mp hw with rfl | hw <;> rcases List.mem_cons.mp hw' with rfl | hw'
    · rfl
    · exact (h.current w' hw' (by rw [← hproc]; exact hin) (by rw [← hproc]; exact hop.symm)).symm
    · exact h.current w hw (by rw [hproc]; exact hin) (by rw [hproc]; exact hop)
    · exact h.whole w hw w' hw' hproc hop

theorem Hist.seal (h : Hist s) (hx : Excl s) {stage : Stage} {pc : Pc}
    (hp : s.pc p = .commit stage) (hpc : pc.InOp = false) :
    Hist { s.goto p pc with commits := s.commits ++ [s.lh] } := by
  have hcom : s.committing = true := hx.committing p (by simp [hp, Pc.InCommit])
  refine ⟨fun w hw => ?_, fun w hw bs hbs => ?_, fun w hw heq => ?_, fun q _ w hw => ?_,
    h.op_le, fun w hw hin _ => ?_, h.whole⟩
  · have := h.epoch_le w hw
    simp only [List.length_append, List.length_singleton]
    omega
  · rcases (h.epoch_le w hw).lt_or_eq with hlt | heq
    · exact h.committed w hw bs (by simpa [List.getElem?_append_left hlt] using hbs)
    · have hbs' : s.lh = bs := by simpa [heq] using hbs
      exact hbs' ▸ h.logged w hw heq
  · have := h.epoch_le w hw
    simp only [List.length_append, List.length_singleton] at heq
    omega
  · have := h.epoch_le w hw
    simp only [List.length_append, List.length_singleton]
    omega
  · have hnot := hx.notInOp hcom w.proc
    by_cases hwp : w.proc = p
    · simp [hwp, hpc] at hin
    · simp [hwp, hnot] at hin

theorem Hist.erase (h : Hist s) (hp : s.pc p = .commit .erase) :
    Hist { s.goto p .committed with lh := [] } := by
  have hgoto := h.goto p .committed (by simp [Pc.InOp])
    (fun _ => by simp [hp, Pc.Sealed])
  refine ⟨h.epoch_le, h.committed, fun w hw heq => ?_, hgoto.closed, h.op_le, hgoto.current,
    h.whole⟩
  have := h.closed p (by simp [hp, Pc.Sealed]) w hw
  exact absurd heq (ne_of_lt this)

theorem Hist.step (h : Hist s) (hx : Excl s) (hstep : Steps size s t) : Hist t := by
  have hwake : ∀ {s : State P} {p : P}, Hist s → Hist (s.goto p .idle).wakeup := by
    intro s p h
    have hgoto := h.goto p .idle (by simp [Pc.InOp]) (by simp [Pc.Sealed])
    refine hgoto.congr rfl rfl rfl rfl (fun q hq => ?_) fun q hq => ?_
    · rwa [wakeup_inOp] at hq
    · rwa [wakeup_sealed] at hq
  cases hstep with
  | call p hp | sleep p hp | spurious p hp =>
    exact h.goto _ _ (by simp [Pc.InOp]) (by simp [Pc.Sealed])
  | enter p hp hc => exact h.enter
  | tooBig | outside | panic p hp hc =>
    exact h.congr rfl rfl rfl rfl (fun _ hp => hp) fun _ hp => hp
  | test p b hp => exact h.goto _ _ (fun _ => by simp [hp, Pc.InOp]) (by simp [Pc.Sealed])
  | append p b hp => exact h.append hx hp
  | last p hp hc hn =>
    exact (h.goto p (.commit .test) (by simp [Pc.InOp]) (by simp [Pc.Sealed])).congr
      rfl rfl rfl rfl (fun _ hp => hp) fun _ hp => hp
  | leave p hp hc | finish p hp =>
    exact (hwake h).congr rfl rfl rfl rfl (fun _ hp => hp) fun _ hp => hp
  | move p stage stage' hp hs =>
    exact h.goto _ _ (by simp [Pc.InOp]) fun hseal => by rw [hp, ← hs]; exact hseal
  | empty p hp _ => exact h.seal hx hp rfl
  | commitPoint p hp => exact h.seal hx hp rfl
  | erase p hp => exact h.erase hp

theorem reachable {es : List (Event P)}
    (h : Runs.exec (step size) initial es = some s) : Excl s ∧ Hist s := by
  refine Runs.exec_invariant (step size) (I := fun s => Excl s ∧ Hist s) ?_
    ⟨Excl.initial, Hist.initial⟩ h
  intro s e t hs hstep
  exact ⟨hs.1.step (step_cases hstep), hs.2.step hs.1 (step_cases hstep)⟩

theorem committing_excludes (hx : Excl s) (hc : s.committing = true) (hstep : Steps size s t) :
    (∀ p, (t.pc p).InOp = false) ∧ t.writes = s.writes ∧ t.op = s.op := by
  have hno := hx.notInOp hc
  have hgoto : ∀ p (pc : Pc), pc.InOp = false → ∀ q, ((s.goto p pc).pc q).InOp = false :=
    fun p pc hpc => goto_elim (fun _ c => c.InOp = false) hpc fun q _ => hno q
  have habsurd : ∀ p, ¬ (s.pc p).InOp := fun p hp => by simp [hno p] at hp
  cases hstep with
  | call p hp | sleep p hp | spurious p hp | move p stage stage' hp _ | empty p hp _
  | commitPoint p hp | erase p hp => exact ⟨hgoto p _ rfl, rfl, rfl⟩
  | enter p hp hc' | last p hp hc' _ | leave p hp hc' => simp [hc] at hc'
  | tooBig | outside => exact ⟨hno, rfl, rfl⟩
  | test p b hp | append p b hp | panic p hp _ => exact absurd (by simp [hp, Pc.InOp]) (habsurd p)
  | finish p hp =>
    refine ⟨fun q => ?_, rfl, rfl⟩
    exact (wakeup_inOp (s.goto p .idle) q).trans (hgoto p _ rfl q)

/-- All writes of one operation are in the same commit, which starts when none is open. -/
theorem operations_whole {size : ℕ} {es : List (Event P)}
    (h : Runs.exec (step size) initial es = some s) :
    (∀ p, (s.pc p).InCommit →
      s.committing = true ∧ s.outstanding = 0 ∧ ∀ q, (s.pc q).InOp = false) ∧
    (s.committing = true → ∀ e t, step size s e = some t →
      (∀ p, (t.pc p).InOp = false) ∧ t.writes = s.writes ∧ t.op = s.op) ∧
    (∀ p q, (s.pc p).InCommit → (s.pc q).InCommit → p = q) ∧
    (∀ w ∈ s.writes, ∀ w' ∈ s.writes, w.proc = w'.proc → w.op = w'.op → w.epoch = w'.epoch) ∧
    (∀ w ∈ s.writes, ∀ bs, s.commits[w.epoch]? = some bs → w.block ∈ bs) ∧
    (∀ w ∈ s.writes, w.epoch ≤ s.commits.length ∧
      (w.epoch = s.commits.length → w.block ∈ s.lh)) ∧
    s.panic ≠ some .committing := by
  obtain ⟨hx, hh⟩ := reachable h
  refine ⟨fun p hp => ?_, fun hc e t ht => committing_excludes hx hc (step_cases ht), hx.one,
    hh.whole, hh.committed, fun w hw => ⟨hh.epoch_le w hw, hh.logged w hw⟩, hx.noPanic⟩
  have hc := hx.committing p hp
  exact ⟨hc, hx.quiet hc, hx.notInOp hc⟩

def twoOps : List (Event Bool) :=
  [.call false, .call true, .beginOp false, .beginOp true, .logWrite false 60, .append false,
    .logWrite true 61, .append true, .endOp false, .endOp true, .commit true]

theorem operations_whole_twoOps :
    ∃ s, Runs.exec (step LOGSIZE) initial twoOps = some s ∧ s.lh = [60, 61] ∧
      s.pc true = .commit (.writeLog 0) ∧ s.outstanding = 0 ∧ (s.pc false).InOp = false := by
  refine ⟨_, rfl, rfl, rfl, ?_⟩
  have hrun : Runs.exec (step LOGSIZE) initial twoOps = _ := rfl
  obtain ⟨hquiet, -⟩ := operations_whole hrun
  obtain ⟨-, hout, hin⟩ := hquiet true rfl
  exact ⟨hout, hin false⟩

end Xv6.GroupCommit
