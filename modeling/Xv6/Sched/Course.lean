import Xv6.Sched.Control

/-!
# What a step does to one process

`Info` are the fields of `struct proc` that scheduling and its accounting read and write.
-/

namespace Xv6.Sched
open Lib ProcState Kernel Function

structure Info where
  state : ProcState
  ctime : ℤ
  rtime : ℤ
  etime : ℤ
  iotime : ℤ
  priority : ℤ
  qno : Level
  aging_time : ℤ
  rrtime : Level → ℤ
  stat : ProcStat

def Proc.info (x : Proc) : Info :=
  ⟨x.state, x.ctime, x.rtime, x.etime, x.iotime, x.priority, x.qno, x.aging_time, x.rrtime,
    x.stat⟩

def Kernel.info (k : Kernel) (s : Slot) : Info := (k.proc s).info

def Info.Wakes (x y : Info) : Prop := y = x ∨ x.state = SLEEPING ∧ y = { x with state := RUNNABLE }

theorem Info.Wakes.refl (x : Info) : x.Wakes x := .inl rfl

theorem Info.Wakes.trans {x y z : Info} (h : x.Wakes y) (h' : y.Wakes z) : x.Wakes z := by
  rcases h with rfl | ⟨hs, rfl⟩
  · exact h'
  · rcases h' with rfl | ⟨hs', -⟩
    · exact .inr ⟨hs, rfl⟩
    · cases hs'

def Event.isTick : Event → Bool
  | .tick _ => true
  | _ => false

namespace Kernel

variable {b : Build} {k k₁ k₂ k' : Kernel} {p s : Slot} {e : Event}

structure SameCpu (k k' : Kernel) : Prop where
  cpu : k'.cpu = k.cpu
  cur : k'.cur = k.cur
  mxprt : k'.mxprt = k.mxprt

theorem SameCpu.trans (h : SameCpu k k₁) (h' : SameCpu k₁ k₂) : SameCpu k k₂ :=
  ⟨h'.cpu.trans h.cpu, h'.cur.trans h.cur, h'.mxprt.trans h.mxprt⟩

theorem info_congr (h : k'.proc = k.proc) (s : Slot) : k'.info s = k.info s := by
  rw [info, h, info]

structure Calm (k k' : Kernel) : Prop extends SameCpu k k' where
  ticks : k'.ticks = k.ticks
  info : ∀ s, (k.info s).Wakes (k'.info s)

theorem Calm.of_eq (hcpu : SameCpu k k') (ht : k'.ticks = k.ticks) (hproc : k'.proc = k.proc) :
    Calm k k' :=
  ⟨hcpu, ht, fun s => .inl (info_congr hproc s)⟩

theorem Calm.refl (k : Kernel) : Calm k k := .of_eq ⟨rfl, rfl, rfl⟩ rfl rfl

theorem Calm.trans (h : Calm k k₁) (h' : Calm k₁ k₂) : Calm k k₂ :=
  ⟨h.toSameCpu.trans h'.toSameCpu, h'.ticks.trans h.ticks, fun s => (h.info s).trans (h'.info s)⟩

theorem info_setProc_self (f : Proc → Proc) : (k.setProc s f).info s = (f (k.proc s)).info := by
  rw [info, setProc_self]

theorem info_setProc_of_ne (f : Proc → Proc) {t : Slot} (h : t ≠ s) :
    (k.setProc s f).info t = k.info t := by
  rw [info, setProc_of_ne k s f h, info]

theorem calm_setProc {f : Proc → Proc} (h : (k.info s).Wakes (f (k.proc s)).info) :
    Calm k (k.setProc s f) := by
  refine ⟨⟨rfl, rfl, rfl⟩, rfl, fun t => ?_⟩
  by_cases ht : t = s
  · subst ht
    rwa [info_setProc_self]
  · rw [info_setProc_of_ne f ht]
    exact .refl _

theorem calm_setKont (k : Kernel) (s : Slot) (c : Kont) : Calm k (k.setKont s c) :=
  .of_eq ⟨rfl, rfl, rfl⟩ rfl rfl

theorem calm_wakeup1 (k : Kernel) (c : Option Chan) : Calm k (k.wakeup1 c) := by
  refine ⟨⟨rfl, rfl, rfl⟩, rfl, fun t => ?_⟩
  rcases wakeup1_proc k c t with h | ⟨hs, h⟩
  · exact .inl (by rw [info, h, info])
  · exact .inr ⟨hs, by rw [info, h]; rfl⟩

theorem calm_reparent (k : Kernel) (cur : Slot) : Calm k (k.reparent cur) := by
  refine foldl_rel (R := Calm) Calm.refl Calm.trans (fun k s => ?_) slots k
  have hset : Calm k (k.setProc s fun x => { x with parent := some k.initproc }) :=
    calm_setProc (.refl _)
  split_ifs
  · exact hset.trans (calm_wakeup1 _ _)
  · exact hset
  · exact .refl k

theorem calm_kill (k : Kernel) (pid : ℤ) : Calm k (k.kill pid) := by
  simp only [kill]
  split
  · rename_i s _
    refine calm_setProc ?_
    by_cases hs : (k.proc s).state = SLEEPING
    · exact .inr ⟨hs, by simp only [hs, if_true]; rfl⟩
    · exact .inl (by simp only [hs, if_false]; rfl)
  · exact .refl k

theorem sched_calm (b : Build) (k : Kernel) (p : Slot) :
    (sched b k p).proc = k.proc ∧ (sched b k p).mxprt = k.mxprt ∧
      (sched b k p).ticks = k.ticks := by
  refine ⟨sched_proc b p, ?_, ?_⟩ <;> cases b <;> simp only [sched] <;> split_ifs <;> rfl

end Kernel

def Proc.woken (c : Option Chan) (x : Proc) : Proc :=
  if x.state = SLEEPING ∧ x.chan = c then { x with state := RUNNABLE } else x

def Proc.waited (now : ℕ) (x : Proc) : ℤ := int32 (now - x.ctime - x.rtime - x.aging_time)

def Proc.moved (l : Level) (x : Proc) : Proc :=
  { x with qno := l, rrtime := update (update x.rrtime x.qno 0) l 0 }

def Proc.promoted (x : Proc) : Proc :=
  match x.qno with
  | 0 => x
  | 1 => x.moved 0
  | 2 => x.moved 1
  | 3 => x.moved 2
  | 4 => x.moved 3

def Proc.aged (now : ℕ) (x : Proc) : Proc :=
  if x.state = RUNNABLE ∧ time_age < x.waited now then
    { x.promoted with aging_time := int32 (now - (x.ctime + x.rtime)) }
  else x

def Proc.accounted (x : Proc) : Proc :=
  if x.state = RUNNING then { x with
    rtime := int32 (x.rtime + 1)
    rrtime := update x.rrtime x.qno (int32 (x.rrtime x.qno + 1))
    stat := { x.stat with
      runtime := int32 (x.stat.runtime + 1)
      ticks := update x.stat.ticks x.qno (int32 (x.stat.ticks x.qno + 1)) } }
  else if x.state = SLEEPING then { x with iotime := int32 (x.iotime + 1) }
  else x

/-- A process after the timer case of `trap`; `now` is the new value of `ticks`. -/
def Proc.timed (b : Build) (now : ℕ) (current : Bool) (x : Proc) : Proc :=
  let x := x.woken (some .ticks)
  let x := if b = .MLFQ then x.aged now else x
  if current then x.accounted else x

def Proc.expired (x : Proc) : Bool :=
  x.rrtime x.qno ≠ 0 && (x.rrtime x.qno).tmod (2 ^ x.qno.val) = 0

def Proc.rotated (x : Proc) : Proc := { x with rrtime := update x.rrtime 4 0 }

def Proc.nextSlice (x : Proc) : Proc :=
  match x.qno with
  | 0 => x.moved 1
  | 1 => x.moved 2
  | 2 => x.moved 3
  | 3 => x.moved 4
  | 4 => x.rotated

theorem Proc.promoted_eq (x : Proc) : ∃ l rr, x.promoted = { x with qno := l, rrtime := rr } := by
  simp only [Proc.promoted]
  split
  · exact ⟨x.qno, x.rrtime, rfl⟩
  all_goals exact ⟨_, _, rfl⟩

theorem Proc.nextSlice_eq (x : Proc) : ∃ l rr, x.nextSlice = { x with qno := l, rrtime := rr } := by
  simp only [Proc.nextSlice]
  split
  case h_5 => exact ⟨x.qno, _, rfl⟩
  all_goals exact ⟨_, _, rfl⟩

theorem Proc.aged_eq (now : ℕ) (x : Proc) :
    ∃ l rr a, x.aged now = { x with qno := l, rrtime := rr, aging_time := a } := by
  obtain ⟨l, rr, h⟩ := x.promoted_eq
  simp only [Proc.aged]
  split_ifs
  · exact ⟨l, rr, _, by rw [h]⟩
  · exact ⟨x.qno, x.rrtime, x.aging_time, rfl⟩

theorem level_cases (l : Level) : l = 0 ∨ l = 1 ∨ l = 2 ∨ l = 3 ∨ l = 4 := by
  revert l
  decide

namespace Kernel

variable {b : Build} {k k₁ k₂ k' : Kernel} {p s : Slot}

def nextTick (k : Kernel) : ℕ := (k.ticks + 1) % 2 ^ 32

structure SameClock (k k' : Kernel) : Prop extends SameCpu k k' where
  ticks : k'.ticks = k.ticks

theorem SameClock.refl (k : Kernel) : SameClock k k := ⟨⟨rfl, rfl, rfl⟩, rfl⟩

theorem SameClock.trans (h : SameClock k k₁) (h' : SameClock k₁ k₂) : SameClock k k₂ :=
  ⟨h.toSameCpu.trans h'.toSameCpu, h'.ticks.trans h.ticks⟩

theorem promote_clock (k : Kernel) (p : Slot) : SameClock k (k.promote p) := by
  simp only [promote]
  split <;> exact ⟨⟨rfl, rfl, rfl⟩, rfl⟩

theorem move_moved {src : Level} (h : (k.proc p).qno = src) (dst : Level) (c c' : Cmp) (d : Scan)
    (ind : ℤ) (s : Slot) : (k.move p src dst c d ind c').proc s =
      if s = p then (k.proc p).moved dst else k.proc s := by
  subst h
  rw [move_proc, setLevel, setProc_proc]
  rfl

theorem promote_proc (k : Kernel) (p s : Slot) :
    (k.promote p).proc s = if s = p then (k.proc p).promoted else k.proc s := by
  rcases level_cases (k.proc p).qno with h | h | h | h | h <;>
    simp only [promote, Proc.promoted, h]
  · split_ifs with hs
    · rw [hs]
    · rfl
  all_goals exact move_moved h _ _ _ _ _ s

theorem agingOne_clock (k : Kernel) (p : Slot) : SameClock k (k.agingOne p) := by
  simp only [agingOne]
  split_ifs
  · exact (promote_clock k p).trans ⟨⟨rfl, rfl, rfl⟩, rfl⟩
  · exact .refl k

theorem agingOne_proc (k : Kernel) (p s : Slot) :
    (k.agingOne p).proc s = if s = p then (k.proc p).aged k.ticks else k.proc s := by
  have hw : k.waited p = (k.proc p).waited k.ticks := rfl
  have htimes : (k.proc p).promoted.ctime = (k.proc p).ctime ∧
      (k.proc p).promoted.rtime = (k.proc p).rtime := by
    obtain ⟨l, rr, h⟩ := (k.proc p).promoted_eq
    rw [h]
    exact ⟨rfl, rfl⟩
  simp only [agingOne, Proc.aged, hw]
  split_ifs with h hs hs
  · subst hs
    rw [setProc_self, promote_proc, if_pos rfl, htimes.1, htimes.2]
  · rw [setProc_of_ne _ _ _ hs, promote_proc, if_neg hs]
  · rw [hs]
  · rfl

theorem foldl_agingOne (ss : List Slot) (hss : ss.Nodup) (k : Kernel) :
    SameClock k (ss.foldl agingOne k) ∧
      ∀ s, (ss.foldl agingOne k).proc s = if s ∈ ss then (k.proc s).aged k.ticks else k.proc s := by
  induction ss generalizing k with
  | nil => exact ⟨.refl k, fun s => by simp⟩
  | cons p ss ih =>
    obtain ⟨hp, hss⟩ := List.nodup_cons.mp hss
    obtain ⟨hrest, hproc⟩ := ih hss (k.agingOne p)
    have hone := agingOne_clock k p
    refine ⟨hone.trans hrest, fun s => ?_⟩
    rw [List.foldl_cons, hproc, agingOne_proc, hone.ticks]
    by_cases hs : s = p
    · subst hs
      simp only [hp, if_false, if_true, List.mem_cons, true_or]
    · simp only [hs, if_false, List.mem_cons, false_or]

theorem aging_clock (k : Kernel) : SameClock k k.aging :=
  (foldl_agingOne slots (List.nodup_finRange _) k).1

theorem aging_proc (k : Kernel) (s : Slot) : k.aging.proc s = (k.proc s).aged k.ticks := by
  have hmem : s ∈ slots := List.mem_finRange s
  rw [aging, (foldl_agingOne slots (List.nodup_finRange _) k).2, if_pos hmem]

theorem account_clock (k : Kernel) : SameClock k k.account := by
  simp only [account]
  split <;> exact ⟨⟨rfl, rfl, rfl⟩, rfl⟩

theorem account_proc (k : Kernel) (s : Slot) :
    k.account.proc s = if k.cur = some s then (k.proc s).accounted else k.proc s := by
  simp only [account]
  split
  · rename_i h
    simp [h]
  · rename_i p h
    rw [h, setProc_proc]
    by_cases hs : s = p
    · subst hs
      simp only [if_true]
      rfl
    · simp only [hs, if_false, Option.some.injEq, Ne.symm hs]

def ticked (k : Kernel) : Kernel := { k with ticks := k.nextTick }.wakeup1 (some .ticks)

theorem timer_eq (b : Build) (k : Kernel) :
    k.timer b = (if b = .MLFQ then k.ticked.aging else k.ticked).account := rfl

theorem timer_cpu (b : Build) (k : Kernel) : SameCpu k (k.timer b) := by
  have hticked : SameCpu k k.ticked := ⟨rfl, rfl, rfl⟩
  rw [timer_eq]
  refine SameCpu.trans ?_ (account_clock _).toSameCpu
  split_ifs
  · exact hticked.trans (aging_clock _).toSameCpu
  · exact hticked

theorem timer_ticks (b : Build) (k : Kernel) : (k.timer b).ticks = k.nextTick := by
  rw [timer_eq, (account_clock _).ticks]
  split_ifs
  · exact (aging_clock _).ticks
  · rfl

theorem timer_proc (b : Build) (k : Kernel) (s : Slot) :
    (k.timer b).proc s = (k.proc s).timed b k.nextTick (k.cur = some s) := by
  have hwoken : k.ticked.proc s = (k.proc s).woken (some .ticks) := rfl
  have hticks : k.ticked.ticks = k.nextTick := rfl
  have hcur : k.ticked.cur = k.cur := rfl
  rw [timer_eq, account_proc]
  simp only [Proc.timed, decide_eq_true_eq]
  by_cases hb : b = .MLFQ
  · simp only [hb, if_true, (aging_clock _).cur, aging_proc, hwoken, hticks, hcur]
  · simp only [hb, if_false, hwoken, hcur]

theorem yield_proc (b : Build) (k : Kernel) (p s : Slot) :
    (yield b k p).proc s = if s = p then { k.proc p with state := RUNNABLE } else k.proc s := by
  rw [yield, sched_proc, setProc_proc]

def endSlice (k : Kernel) (p : Slot) : Kernel :=
  match (k.proc p).qno with
  | 0 => k.demote0 p
  | 1 => k.demote1 p
  | 2 => k.demote2 p
  | 3 => k.demote3 p
  | 4 => k.rotate4 p

theorem endSlice_clock (k : Kernel) (p : Slot) : SameClock k (k.endSlice p) := by
  simp only [endSlice]
  split <;> exact ⟨⟨rfl, rfl, rfl⟩, rfl⟩

theorem endSlice_proc (k : Kernel) (p s : Slot) :
    (k.endSlice p).proc s = if s = p then (k.proc p).nextSlice else k.proc s := by
  rcases level_cases (k.proc p).qno with h | h | h | h | h <;>
    simp only [endSlice, Proc.nextSlice, h]
  case inr.inr.inr.inr => exact setProc_proc k p Proc.rotated s
  all_goals exact move_moved h _ _ _ _ _ s

theorem setFlags_same (k : Kernel) (ls : List Level) : SameClock k (k.setFlags ls).1 ∧
    (k.setFlags ls).1.kont = k.kont ∧ (k.setFlags ls).1.proc = k.proc := by
  induction ls generalizing k with
  | nil => exact ⟨.refl k, rfl, rfl⟩
  | cons l ls ih =>
    obtain ⟨h, hkont, hproc⟩ := ih (k.setQ l (k.findRunnable l).2)
    exact ⟨⟨⟨h.cpu, h.cur, h.mxprt⟩, h.ticks⟩, hkont, hproc⟩

theorem setFlags_proc (k : Kernel) (ls : List Level) : (k.setFlags ls).1.proc = k.proc :=
  (setFlags_same k ls).2.2

def outranked (k : Kernel) (p : Slot) : Bool :=
  (k.setFlags [0, 1, 2, 3]).2.any (· < (k.proc p).qno)

theorem mlfqTick_eq (k : Kernel) (p : Slot) : k.mlfqTick p =
    if (k.proc p).rrtime (k.proc p).qno = 0 then k
    else if (k.proc p).expired then yield .MLFQ (k.endSlice p) p
    else if k.outranked p then yield .MLFQ (k.setFlags [0, 1, 2, 3]).1 p
    else (k.setFlags [0, 1, 2, 3]).1 := by
  by_cases hrr : (k.proc p).rrtime (k.proc p).qno = 0
  · simp only [mlfqTick, hrr, if_true]
  · simp only [mlfqTick, Proc.expired, endSlice, outranked, hrr, if_false, ne_eq, not_false_eq_true,
      decide_true, Bool.true_and, decide_eq_true_eq]
    rcases level_cases (k.proc p).qno with h | h | h | h | h <;> simp [h]

theorem preempt_eq (b : Build) (k : Kernel) (p : Slot) (hp : (k.proc p).state = RUNNING) :
    k.preempt b p = match b with
      | .DEFAULT => yield .DEFAULT k p
      | .FCFS => k
      | .PBS => if k.check_priority (k.proc p).priority then yield .PBS k p else k
      | .MLFQ => k.mlfqTick p := by
  cases b <;> exact if_neg (not_not.mpr hp)

def Leaves (b : Build) (k k' : Kernel) (p : Slot) : Prop :=
  ∃ m, k' = sched b m p ∧ SameClock k m ∧ (m.proc p).state ≠ RUNNING

theorem SameClock.yield (h : SameClock k k') (b : Build) (p : Slot) : Leaves b k (yield b k' p) p :=
  ⟨_, rfl, h.trans ⟨⟨rfl, rfl, rfl⟩, rfl⟩, by simp⟩

theorem preempt_forms (b : Build) (k : Kernel) (p : Slot) : ∃ m, SameClock k m ∧ m.kont = k.kont ∧
    (∀ s ≠ p, m.proc s = k.proc s) ∧ (k.preempt b p = m ∨ k.preempt b p = yield b m p) := by
  have self : ∀ m', m' = k ∨ m' = yield b k p → ∃ m, SameClock k m ∧ m.kont = k.kont ∧
      (∀ s ≠ p, m.proc s = k.proc s) ∧ (m' = m ∨ m' = yield b m p) :=
    fun _ h => ⟨k, .refl k, rfl, fun _ _ => rfl, h⟩
  by_cases hp : (k.proc p).state = RUNNING
  · rw [preempt_eq b k p hp]
    cases b with
    | DEFAULT => exact self _ (.inr rfl)
    | FCFS => exact self _ (.inl rfl)
    | PBS =>
      simp only
      split_ifs
      · exact self _ (.inr rfl)
      · exact self _ (.inl rfl)
    | MLFQ =>
      obtain ⟨hclock, hkont, hproc⟩ := setFlags_same k [0, 1, 2, 3]
      have hother : ∀ s ≠ p, (k.setFlags [0, 1, 2, 3]).1.proc s = k.proc s := fun s _ => by rw [hproc]
      have hend : (k.endSlice p).kont = k.kont := by
        simp only [endSlice]
        split <;> rfl
      simp only [mlfqTick_eq]
      split_ifs
      · exact self _ (.inl rfl)
      · exact ⟨_, endSlice_clock k p, hend, fun s hs => by rw [endSlice_proc, if_neg hs], .inr rfl⟩
      · exact ⟨_, hclock, hkont, hother, .inr rfl⟩
      · exact ⟨_, hclock, hkont, hother, .inl rfl⟩
  · exact self _ (.inl (by cases b <;> exact if_pos hp))

theorem preempt_control (b : Build) (k : Kernel) (p : Slot) :
    SameClock k (k.preempt b p) ∨ Leaves b k (k.preempt b p) p := by
  obtain ⟨m, hclock, -, -, h | h⟩ := preempt_forms b k p <;> rw [h]
  · exact .inl hclock
  · exact .inr (hclock.yield b p)

theorem tick_control (b : Build) (k : Kernel) (p : Slot) (user : Bool) :
    SameClock (k.timer b) (k.tick b p user) ∨ Leaves b (k.timer b) (k.tick b p user) p := by
  simp only [tick]
  split_ifs
  · exact .inl ⟨⟨rfl, rfl, rfl⟩, rfl⟩
  · exact preempt_control b (k.timer b) p

theorem Calm.clock (h : Calm k k') : SameClock k k' := ⟨h.toSameCpu, h.ticks⟩

theorem Calm.leave (h : Calm k k₁) (b : Build) (p : Slot) {f : Proc → Proc}
    (hf : ∀ x, (f x).state ≠ RUNNING) : Leaves b k (sched b (k₁.setProc p f) p) p :=
  ⟨_, rfl, h.clock.trans ⟨⟨rfl, rfl, rfl⟩, rfl⟩, by rw [setProc_self]; exact hf _⟩

theorem waitScan_control (b : Build) (k : Kernel) (p : Slot) :
    SameClock k (k.waitScan b p) ∨ Leaves b k (k.waitScan b p) p := by
  simp only [waitScan]
  split
  · exact .inl ⟨⟨rfl, rfl, rfl⟩, rfl⟩
  · split_ifs
    · exact .inl ⟨⟨rfl, rfl, rfl⟩, rfl⟩
    · exact .inr ((calm_setKont k p .wait).leave b p fun _ => by simp)

def exitWakes (k : Kernel) (p : Slot) : Kernel :=
  ((k.setKont p .user).wakeup1 ((k.proc p).parent.map .proc)).reparent p

theorem exit_eq (b : Build) (k : Kernel) (p : Slot) : (k.setKont p .user).exit b p =
    sched b ((k.exitWakes p).setProc p fun x =>
      { x with state := ZOMBIE, etime := int32 k.ticks }) p := rfl

theorem calm_exitWakes (k : Kernel) (p : Slot) : Calm k (k.exitWakes p) :=
  ((calm_setKont k p .user).trans (calm_wakeup1 _ _)).trans (calm_reparent _ p)

theorem setPriority_clock (k : Kernel) (pid priority : ℤ) :
    SameClock k (k.setPriority pid priority) := by
  simp only [setPriority]
  split <;> exact ⟨⟨rfl, rfl, rfl⟩, rfl⟩

theorem Leaves.ticks (h : Leaves b k k' p) : k'.ticks = k.ticks := by
  obtain ⟨m, rfl, hm, -⟩ := h
  exact (sched_calm b m p).2.2.trans hm.ticks

theorem Leaves.state_ne (h : Leaves b k k' p) : (k'.proc p).state ≠ RUNNING := by
  obtain ⟨m, rfl, -, hm⟩ := h
  rwa [sched_proc]

theorem tick_proc_of_ne (b : Build) (k : Kernel) (user : Bool) (hs : s ≠ p) :
    (k.tick b p user).proc s = (k.timer b).proc s := by
  simp only [tick]
  split_ifs
  · rfl
  · obtain ⟨m, -, -, hproc, h | h⟩ := preempt_forms b (k.timer b) p <;> rw [h]
    · exact hproc s hs
    · rw [yield_proc, if_neg hs, hproc s hs]

theorem mlfqTick_self (k : Kernel) (x : Proc) (hx : k.proc p = x) : (k.mlfqTick p).proc p =
    if x.rrtime x.qno = 0 then x else if x.expired then { x.nextSlice with state := RUNNABLE }
    else if k.outranked p then { x with state := RUNNABLE }
    else x := by
  subst hx
  rw [mlfqTick_eq]
  split_ifs
  · rfl
  · rw [yield_proc, if_pos rfl, endSlice_proc, if_pos rfl]
  · rw [yield_proc, if_pos rfl, setFlags_proc]
  · rw [setFlags_proc]

theorem tick_mlfq (k : Kernel) (user : Bool) (hrun : ((k.timer .MLFQ).proc p).state = RUNNING) :
    k.tick .MLFQ p user = if ((k.timer .MLFQ).proc p).killed && user
      then (k.timer .MLFQ).setKont p .exiting else (k.timer .MLFQ).mlfqTick p := by
  have hpre : (k.timer .MLFQ).preempt .MLFQ p = (k.timer .MLFQ).mlfqTick p :=
    preempt_eq .MLFQ _ p hrun
  rw [tick, hpre]

theorem tick_proc_self (b : Build) (k : Kernel) (user : Bool) (x : Proc)
    (hx : (k.timer b).proc p = x) (hrun : x.state = RUNNING) :
    (k.tick b p user).proc p = x ∨ (k.tick b p user).proc p = { x with state := RUNNABLE } ∨
      b = .MLFQ ∧ x.expired = true ∧
        (k.tick b p user).proc p = { x.nextSlice with state := RUNNABLE } := by
  by_cases hb : b = .MLFQ
  · subst hb
    rw [tick_mlfq k user (hx ▸ hrun), hx]
    split_ifs
    · exact .inl (by rw [setKont_proc, hx])
    · rw [mlfqTick_self _ x hx]
      split_ifs with _ hexp
      · exact .inl rfl
      · exact .inr (.inr ⟨rfl, hexp, rfl⟩)
      · exact .inr (.inl rfl)
      · exact .inl rfl
  · have hyield : (yield b (k.timer b) p).proc p = { x with state := RUNNABLE } := by
      rw [yield_proc, if_pos rfl, hx]
    simp only [tick]
    split_ifs
    · exact .inl hx
    · rw [preempt_eq b _ p (hx ▸ hrun)]
      cases b with
      | DEFAULT => exact .inr (.inl hyield)
      | FCFS => exact .inl hx
      | PBS =>
        simp only
        split_ifs
        · exact .inr (.inl hyield)
        · exact .inl hx
      | MLFQ => exact absurd rfl hb

end Kernel

def Event.givesUp : Event → Bool
  | .tick _ | .sleep _ | .wait | .exit => true
  | _ => false

theorem step_control {b : Build} {k k' : Kernel} {e : Event} (h : step b k e = some k')
    (he : e ≠ .schedule) (ht : e.isTick = false) : SameClock k k' ∨
      ∃ p, k.cpu = .running ∧ k.cur = some p ∧ e.givesUp = true ∧ Leaves b k k' p := by
  cases step_cases h with
  | exit p hcpu hcur _ _ =>
    rw [exit_eq]
    exact .inr ⟨p, hcpu, hcur, rfl, (calm_exitWakes k p).leave b p fun _ => nofun⟩
  | wait p hcpu hcur _ =>
    exact (waitScan_control b k p).imp_right fun h => ⟨p, hcpu, hcur, rfl, h⟩
  | sleep p c hcpu hcur => exact .inr ⟨p, hcpu, hcur, rfl, (Calm.refl k).leave b p fun _ => nofun⟩
  | kill p pid _ _ => exact .inl (calm_kill k pid).clock
  | setPriority p pid pr _ _ => exact .inl (setPriority_clock k pid pr)
  | wakeup c => exact .inl (calm_wakeup1 k _).clock
  | tick p user hcpu hcur _ => cases ht
  | tickIdle user _ => cases ht
  | pass i m _ _ => exact absurd rfl he
  | schedule _ => exact absurd rfl he
  | full p _ _ _ => exact .inl (.refl k)
  | _ => exact .inl ⟨⟨rfl, rfl, rfl⟩, rfl⟩

structure Passes (b : Build) (k k' : Kernel) : Prop where
  ticks : k'.ticks = k.ticks
  kont : k'.kont = k.kont
  proc : (∃ p, (k.proc p).state = RUNNABLE ∧ k'.proc = (k.setProc p (Proc.dispatched b)).proc ∧
      k'.cpu = .running ∧ k'.cur = some p) ∨ k'.proc = k.proc ∧ k'.cpu = .idle

section Passes

variable {b : Build} {k k' : Kernel}

theorem passes_dispatch {p : Slot} (hp : (k.proc p).state = RUNNABLE) :
    Passes b k (dispatch b k p) :=
  ⟨rfl, rfl, .inl ⟨p, hp, rfl, rfl, rfl⟩⟩

theorem tablePass_passes (b : Build) (k : Kernel) (i : ℕ) (P : Proc → Bool) :
    Passes b k (tablePass b k i P) := by
  simp only [tablePass]
  split
  · rename_i p hp
    have hfound := List.find?_some hp
    simp only [Bool.and_eq_true, beq_iff_eq] at hfound
    exact passes_dispatch hfound.1.2
  · exact ⟨rfl, rfl, .inr ⟨rfl, rfl⟩⟩

theorem queuePass_passes (k : Kernel) (ls : List Level) : Passes .MLFQ k (queuePass k ls) := by
  induction ls generalizing k with
  | nil => exact ⟨rfl, rfl, .inr ⟨rfl, rfl⟩⟩
  | cons l ls ih =>
    simp only [queuePass]
    split
    · rename_i i a hr
      have hi : (k.findRunnable l).1 = some i := by rw [hr]
      have ha : a.arr = (k.q l).arr := by
        have hsame := (CountedArray.findFirst_same (fun s => (k.proc s).state == RUNNABLE)
          (k.q l)).arr
        rwa [← findRunnable, hr] at hsame
      have hrun : (k.proc (a.arr i)).state = RUNNABLE := by
        rw [ha]
        exact (findRunnable_some hi).2
      exact ⟨rfl, rfl, .inl ⟨_, hrun, rfl, rfl, rfl⟩⟩
    · rename_i a hr
      have h := ih (k.setQ l a)
      exact ⟨h.ticks, h.kont, h.proc⟩

theorem schedule_passes (h : step b k .schedule = some k') : Passes b k k' := by
  cases step_cases h with
  | pass i m _ hm =>
    cases b with
    | DEFAULT => cases hm; exact tablePass_passes .DEFAULT k i _
    | PBS => cases hm; exact tablePass_passes .PBS k i _
    | FCFS => cases hm
    | MLFQ => cases hm
  | schedule hidle =>
    cases b with
    | DEFAULT => exact tablePass_passes .DEFAULT k 0 fun _ => true
    | FCFS =>
      simp only [schedulePass]
      split
      · rename_i q hq
        exact passes_dispatch (firstCome_runnable hq)
      · exact ⟨rfl, rfl, .inr ⟨rfl, hidle⟩⟩
    | PBS =>
      have hpass := tablePass_passes .PBS { k with mxprt := k.minPriority } 0
        (·.priority == k.minPriority)
      exact ⟨hpass.ticks, hpass.kont, hpass.proc⟩
    | MLFQ => exact queuePass_passes k _

end Passes

inductive Change (b : Build) (k : Kernel) (e : Event) (k' : Kernel) (s : Slot) : Prop
  | kept (h : k'.info s = k.info s)
  | woken (hs : (k.info s).state = SLEEPING)
      (h : k'.info s = { k.info s with state := RUNNABLE })
  | taken (p : Slot) (he : e = .alloc) (hk : k'.kont p = .forkStack s)
      (hs : (k.info s).state = UNUSED)
      (h : k'.info s =
        { k.info s with state := EMBRYO, priority := 60, qno := 0, rrtime := fun _ => 0
                        stat := ⟨k.nextpid, 0, 0, 0, fun _ => 0⟩ })
  | stacked (p : Slot) (page : ℕ) (he : e = .stack page) (hk : k.kont p = .forkStack s)
      (hpage : page ≠ 0) (hs : (k.info s).state = EMBRYO)
      (h : k'.info s = { k.info s with
        ctime := int32 k.ticks, rtime := 0, etime := 0, iotime := 0, aging_time := 0 })
  | dropped (hs : (k.info s).state = EMBRYO) (h : k'.info s = { k.info s with state := UNUSED })
  | copied (p : Slot) (pgdir : ℕ) (he : e = .copy pgdir) (hk : k.kont p = .forkCopy s)
      (hs : (k.info s).state = EMBRYO)
      (h : k'.info s = { k.info s with
        qno := 0
        priority := if b = .PBS then Int.tdiv (k.proc s).pid 2 else (k.info s).priority })
  | readied (p : Slot) (hk : k.kont p = .forkRun s) (hs : (k.info s).state = EMBRYO)
      (h : k'.info s = { k.info s with state := RUNNABLE })
  | slept (hs : (k.info s).state = RUNNING) (h : k'.info s = { k.info s with state := SLEEPING })
  | exited (hs : (k.info s).state = RUNNING)
      (h : k'.info s = { k.info s with state := ZOMBIE, etime := int32 k.ticks })
  | reaped (hs : (k.info s).state = ZOMBIE) (h : k'.info s = { k.info s with state := UNUSED })
  | prioritized (pid priority : ℤ) (he : e = .setPriority pid priority)
      (h : k'.info s = { k.info s with priority := priority })
  | dispatched (he : e = .schedule) (hs : (k.info s).state = RUNNABLE)
      (h : k'.info s = { k.info s with state := RUNNING, stat := ((k.proc s).dispatched b).stat })
      (hcpu : k'.cpu = .running) (hcur : k'.cur = some s)

section Change

variable {b : Build} {k k₁ k' : Kernel} {e : Event} {p s : Slot}

theorem Change.of_wakes (h : (k.info s).Wakes (k'.info s)) : Change b k e k' s := by
  rcases h with h | ⟨hs, h⟩
  · exact .kept h
  · exact .woken hs h

theorem Change.of_leave {f : Proc → Proc} (hcalm : Calm k k₁) (hrun : (k.info p).state = RUNNING)
    (hk : k' = sched b (k₁.setProc p f) p)
    (hself : ∀ x : Proc, x.info = k.info p → k'.info p = (f x).info → Change b k e k' p) :
    Change b k e k' s := by
  have hinfo : ∀ t, k'.info t = (k₁.setProc p f).info t := fun t => by
    rw [hk, info_congr (sched_proc b p) t]
  by_cases hs : s = p
  · subst hs
    refine hself (k₁.proc s) ?_ (by rw [hinfo, info_setProc_self])
    rcases hcalm.info s with h | ⟨h, -⟩
    · exact h
    · rw [hrun] at h
      cases h
  · refine .of_wakes ?_
    rw [hinfo, info_setProc_of_ne f hs]
    exact hcalm.info s

theorem waitScan_change (hp : (k.proc p).state = RUNNING) :
    Change b k .wait (k.waitScan b p) s := by
  simp only [waitScan]
  split
  · rename_i r hk hscan
    have hz : (k.proc r).state = ZOMBIE := (scanChildren_some (by rw [hscan])).2.2
    by_cases hs : s = r
    · subst hs
      exact .reaped hz (info_setProc_self _)
    · exact .kept (info_setProc_of_ne _ hs)
  · split_ifs
    · exact .kept rfl
    · refine Change.of_leave (calm_setKont k p .wait) hp rfl fun x hx hk => .slept hp ?_
      rw [hk, ← hx]
      rfl

theorem setPriority_change (pid priority : ℤ) :
    Change b k (.setPriority pid priority) (k.setPriority pid priority) s := by
  simp only [setPriority]
  split
  · rename_i r _
    by_cases hs : s = r
    · subst hs
      exact .prioritized pid priority rfl (info_setProc_self _)
    · exact .kept (info_setProc_of_ne _ hs)
  · exact .kept rfl

theorem step_change (hc : Ctl k) (h : step b k e = some k') (he : e.isTick = false) (s : Slot) :
    Change b k e k' s := by
  have slot : ∀ {np : Slot} {y : Proc} {m : Kernel}, m.proc = update k.proc np y →
      (m.info np = y.info → Change b k e m np) → Change b k e m s := by
    intro np y m hm hnp
    by_cases hs : s = np
    · subst hs
      exact hnp (by rw [info, hm, update_self])
    · exact .kept (by rw [info, hm, update_of_ne hs, info])
  have passed : Passes b k k' → e = .schedule → Change b k e k' s := by
    rintro hpass rfl
    rcases hpass.proc with ⟨p, hp, hproc, hcpu, hcur⟩ | ⟨hproc, -⟩
    · exact slot hproc fun hm => .dispatched rfl hp hm hcpu hcur
    · exact .kept (info_congr hproc s)
  cases step_cases h with
  | alloc p r hcpu hcur hk hr =>
    exact slot rfl fun hm =>
      .taken p rfl (by rw [setKont_kont, if_pos rfl]) (firstUnused_state hr) hm
  | full p _ _ _ => exact .kept rfl
  | stack p np page hcpu hcur hk =>
    have hs := (hc.fork p np (by rw [hk]; rfl)).1
    refine slot rfl fun hm => ?_
    by_cases hpage : page = 0
    · exact .dropped hs (by rw [hm]; simp only [hpage, if_true]; rfl)
    · exact .stacked p page rfl hk hpage hs
        (by rw [hm]; simp only [hpage, if_false, Proc.info, info])
  | copy p np pgdir hcpu hcur hk =>
    have hs := (hc.fork p np (by rw [hk]; rfl)).1
    refine slot rfl fun hm => ?_
    by_cases hpgdir : pgdir = 0
    · exact .dropped hs (by rw [hm]; simp only [hpgdir, if_true]; rfl)
    · exact .copied p pgdir rfl hk hs (by rw [hm]; simp only [hpgdir, if_false]; rfl)
  | run p np hcpu hcur hk =>
    exact slot rfl fun hm => .readied p hk (hc.fork p np (by rw [hk]; rfl)).1 hm
  | exit p hcpu hcur hk hinit =>
    have hrun := hc.state_cur hcpu hcur
    refine Change.of_leave (calm_exitWakes k p) hrun (exit_eq b k p) fun x hx hm => .exited hrun ?_
    rw [hm, ← hx]
    simp only [Proc.info]
  | wait p hcpu hcur hk => exact waitScan_change (hc.state_cur hcpu hcur)
  | sleep p c hcpu hcur =>
    have hrun := hc.state_cur hcpu hcur
    refine Change.of_leave (Calm.refl k) hrun rfl fun x hx hm => .slept hrun ?_
    rw [hm, ← hx]
    rfl
  | kill p pid hcpu hcur => exact .of_wakes ((calm_kill k pid).info s)
  | setPriority p pid pr hcpu hcur => exact setPriority_change pid pr
  | wakeup c => exact .of_wakes ((calm_wakeup1 k _).info s)
  | tick p user _ _ _ => cases he
  | tickIdle user _ => cases he
  | pass i m hpass hm | schedule hidle => exact passed (schedule_passes h) rfl

theorem taken_of_used (hc : Ctl k) (h : step b k e = some k') (ht : e.isTick = false)
    (hs : (k.proc s).state = UNUSED) (hs' : (k'.proc s).state ≠ UNUSED) :
    e = .alloc ∧ (∃ p, k'.kont p = .forkStack s) ∧ k'.info s =
      { k.info s with state := EMBRYO, priority := 60, qno := 0, rrtime := fun _ => 0
                      stat := ⟨k.nextpid, 0, 0, 0, fun _ => 0⟩ } := by
  change (k.info s).state = UNUSED at hs
  change (k'.info s).state ≠ UNUSED at hs'
  cases step_change hc h ht s with
  | taken p he hk hst hi => exact ⟨he, ⟨p, hk⟩, hi⟩
  | kept hi => exact absurd (by rw [hi, hs]) hs'
  | prioritized pid pr he hi => exact absurd (by rw [hi]; exact hs) hs'
  | _ => simp_all

theorem step_ticks (h : step b k e = some k') :
    k'.ticks = if e.isTick then k.nextTick else k.ticks := by
  by_cases hsched : e = .schedule
  · subst hsched
    exact (schedule_passes h).ticks
  · cases ht : e.isTick with
    | false =>
      rcases step_control h hsched ht with hsame | ⟨p, -, -, -, hleave⟩
      · exact hsame.ticks
      · exact hleave.ticks
    | true =>
      cases step_cases h with
      | tick p user _ _ _ =>
        rcases tick_control b k p user with hsame | hleave
        · exact hsame.ticks.trans (timer_ticks b k)
        · exact hleave.ticks.trans (timer_ticks b k)
      | tickIdle user _ => exact timer_ticks b k
      | _ => cases ht

end Change

section Kont

variable {b : Build} {k k' : Kernel} {e : Event} {p s : Slot}

theorem aging_kont (k : Kernel) : k.aging.kont = k.kont := by
  refine foldl_rel (R := fun a b => b.kont = a.kont) (fun _ => rfl) (fun h h' => h'.trans h)
    (fun k s => ?_) slots k
  simp only [agingOne, promote]
  split_ifs
  · split <;> rfl
  · rfl

theorem timer_kont (b : Build) (k : Kernel) : (k.timer b).kont = k.kont := by
  have haccount : ∀ m : Kernel, m.account.kont = m.kont := fun m => by
    simp only [account]
    split <;> rfl
  rw [timer_eq, haccount]
  split_ifs
  · rw [aging_kont]
    rfl
  · rfl

theorem preempt_kont (b : Build) (k : Kernel) (p : Slot) : (k.preempt b p).kont = k.kont := by
  obtain ⟨m, -, hkont, -, h | h⟩ := preempt_forms b k p <;> rw [h]
  · exact hkont
  · rw [yield, sched_kont, setProc_kont, hkont]

theorem reparent_kont (k : Kernel) (p : Slot) : (k.reparent p).kont = k.kont := by
  refine foldl_rel (R := fun a b => b.kont = a.kont) (fun _ => rfl) (fun h h' => h'.trans h)
    (fun k s => ?_) slots k
  split_ifs <;> rfl

theorem exitWakes_kont (k : Kernel) (p : Slot) :
    (k.exitWakes p).kont = (k.setKont p .user).kont := by
  rw [exitWakes, reparent_kont]
  rfl

theorem waitScan_kont (b : Build) (k : Kernel) (p : Slot) :
    ∃ c : Kont, c.child = none ∧ (k.waitScan b p).kont = (k.setKont p c).kont := by
  simp only [waitScan]
  split
  · exact ⟨.user, rfl, rfl⟩
  · split_ifs
    · exact ⟨.user, rfl, rfl⟩
    · exact ⟨.wait, rfl, by rw [Kernel.sleep, sched_kont, setProc_kont]⟩

theorem tick_kont (b : Build) (k : Kernel) (p : Slot) (user : Bool) :
    (k.tick b p user).kont = k.kont ∨
      user = true ∧ (k.tick b p user).kont = (k.setKont p .exiting).kont := by
  simp only [tick]
  split_ifs with hkill
  · exact .inr ⟨(Bool.and_eq_true_iff.mp hkill).2, by simp only [setKont, timer_kont]⟩
  · exact .inl (by rw [preempt_kont, timer_kont])

theorem step_kont (h : step b k e = some k') : k'.kont = k.kont ∨
    ∃ r c, k.cur = some r ∧ k'.kont = (k.setKont r c).kont ∧
      (c = .forkStack s → (k.proc s).state = UNUSED) ∧
      (k.kont r = .forkStack s → ∃ page, e = .stack page) := by
  cases step_cases h with
  | alloc r t _ hcur hr ht =>
    refine .inr ⟨r, _, hcur, rfl, fun hc => ?_, fun hs => by rw [hs] at hr; cases hr⟩
    cases hc
    exact firstUnused_state ht
  | full r _ _ _ => exact .inl rfl
  | stack r np page _ hcur hr =>
    exact .inr ⟨r, _, hcur, rfl, fun hc => by split_ifs at hc, fun _ => ⟨page, rfl⟩⟩
  | copy r np pgdir _ hcur hr =>
    exact .inr ⟨r, _, hcur, rfl, fun hc => by split_ifs at hc, fun hs => by rw [hs] at hr; cases hr⟩
  | run r np _ hcur hr => exact .inr ⟨r, _, hcur, rfl, by simp, fun hs => by rw [hs] at hr; cases hr⟩
  | exit r _ hcur hr _ =>
    refine .inr ⟨r, .user, hcur, ?_, by simp, fun hs => by rw [hs] at hr; cases hr⟩
    rw [exit_eq, sched_kont, setProc_kont, exitWakes_kont]
  | wait r _ hcur hr =>
    obtain ⟨c, hc, hkont⟩ := waitScan_kont b k r
    refine .inr ⟨r, c, hcur, hkont, fun hc' => ?_, fun hs => by rw [hs] at hr; cases hr⟩
    rw [hc'] at hc
    cases hc
  | sleep r c _ _ => exact .inl (by rw [Kernel.sleep, sched_kont, setProc_kont])
  | kill r pid _ _ =>
    refine .inl ?_
    simp only [Kernel.kill]
    split <;> rfl
  | setPriority r pid pr _ _ =>
    refine .inl ?_
    simp only [Kernel.setPriority]
    split <;> rfl
  | wakeup c => exact .inl rfl
  | tick r user _ hcur huser =>
    refine (tick_kont b k r user).imp_right fun hu => ⟨r, _, hcur, hu.2, by simp, fun hs => ?_⟩
    rw [hs] at huser
    cases huser hu.1
  | tickIdle user _ => exact .inl (timer_kont b k)
  | pass i m _ _ | schedule _ => exact .inl (schedule_passes h).kont

theorem step_forkStack (h : step b k e = some k') (hk : k'.kont p = .forkStack s) :
    k.kont p = .forkStack s ∨ (k.proc s).state = UNUSED := by
  rcases step_kont (s := s) h with hkont | ⟨r, c, -, hkont, hc, -⟩
  · exact .inl (hkont ▸ hk)
  · rw [hkont, setKont_kont] at hk
    split_ifs at hk
    · exact .inr (hc hk)
    · exact .inl hk

theorem forkStack_step (h : step b k e = some k') (hk : k.kont p = .forkStack s) :
    k'.kont p = .forkStack s ∨ k.cur = some p ∧ ∃ page, e = .stack page := by
  rcases step_kont (s := s) h with hkont | ⟨r, c, hcur, hkont, -, he⟩
  · exact .inl (by rw [hkont, hk])
  · by_cases hr : r = p
    · subst hr
      exact .inr ⟨hcur, he hk⟩
    · exact .inl (by rw [hkont, setKont_kont, if_neg (Ne.symm hr), hk])

theorem allocStack_self {page : ℕ} (k : Kernel) (s : Slot) (hpage : page ≠ 0) :
    (k.allocStack s page).proc s = { k.proc s with
      kstack := page, ctime := int32 k.ticks, rtime := 0, etime := 0, iotime := 0,
      aging_time := 0 } := by
  rw [allocStack, setProc_self, if_neg hpage]

theorem stack_step {page : ℕ} (h : step b k (.stack page) = some k') (hcur : k.cur = some p)
    (hk : k.kont p = .forkStack s) :
    k' = (k.allocStack s page).setKont p (if page = 0 then .user else .forkCopy s) := by
  cases step_cases h with
  | stack r np _ _ hr hk' =>
    cases hr.symm.trans hcur
    cases hk'.symm.trans hk
    rfl

end Kont

theorem Proc.timed_state (b : Build) (now : ℕ) (current : Bool) (x : Proc) :
    (x.timed b now current).state = (x.woken (some .ticks)).state := by
  have haged : ∀ y : Proc, (y.aged now).state = y.state := fun y => by
    obtain ⟨l, rr, a, h⟩ := y.aged_eq now
    rw [h]
  have hacc : ∀ y : Proc, y.accounted.state = y.state := fun y => by
    simp only [Proc.accounted]
    split_ifs <;> rfl
  simp only [Proc.timed]
  split_ifs
  · rw [hacc, haged]
  · rw [hacc]
  · rw [haged]
  · rfl

theorem Proc.woken_state (c : Option Chan) (x : Proc) : (x.woken c).state = x.state ∨
    x.state = SLEEPING ∧ (x.woken c).state = RUNNABLE := by
  simp only [Proc.woken]
  split_ifs with h
  · exact .inr ⟨h.1, rfl⟩
  · exact .inl rfl

theorem timer_state (b : Build) (k : Kernel) (s : Slot) :
    ((k.timer b).proc s).state = (k.proc s).state ∨
      (k.proc s).state = SLEEPING ∧ ((k.timer b).proc s).state = RUNNABLE := by
  rw [timer_proc, Proc.timed_state]
  exact (k.proc s).woken_state _

theorem timer_running {b : Build} {k : Kernel} {s : Slot} :
    ((k.timer b).proc s).state = RUNNING ↔ (k.proc s).state = RUNNING := by
  rcases timer_state b k s with h | ⟨h, h'⟩
  · rw [h]
  · rw [h, h']
    simp

def Sole (k : Kernel) : Prop :=
  ∀ s, (k.proc s).state = RUNNING → k.cpu = .running ∧ k.cur = some s

section Sole

variable {b : Build} {k k' : Kernel} {e : Event} {p s : Slot}

theorem Change.running (h : Change b k e k' s) (hs : (k'.info s).state = RUNNING) :
    (k.info s).state = RUNNING ∨ e = .schedule ∧ k'.cpu = .running ∧ k'.cur = some s := by
  cases h with
  | kept h => exact .inl (by rw [← h, hs])
  | copied p pgdir he hk hst h | prioritized pid pr he h | stacked p page he hk hp hst h =>
    rw [h] at hs; exact .inl hs
  | dispatched he hst h hcpu hcur => exact .inr ⟨he, hcpu, hcur⟩
  | _ => simp_all

theorem Sole.stays (h : Sole k) (hcpu : SameCpu k k')
    (hrun : ∀ s, (k'.proc s).state = RUNNING → (k.proc s).state = RUNNING) : Sole k' := by
  intro s hs
  rw [hcpu.cpu, hcpu.cur]
  exact h s (hrun s hs)

theorem Sole.leaves (h : Sole k) (hcur : k.cur = some p) (hl : (k'.proc p).state ≠ RUNNING)
    (hrun : ∀ s, (k'.proc s).state = RUNNING → (k.proc s).state = RUNNING) : Sole k' := by
  intro s hs
  have hsp := (h s (hrun s hs)).2
  rw [hcur] at hsp
  cases hsp
  exact absurd hs hl

theorem tick_running (user : Bool) (hs : ((k.tick b p user).proc s).state = RUNNING) :
    (k.proc s).state = RUNNING := by
  rw [← timer_running (b := b)]
  by_cases hsp : s = p
  · subst hsp
    by_contra hne
    have hsame : k.tick b s user = k.timer b ∨
        k.tick b s user = (k.timer b).setKont s .exiting := by
      simp only [tick]
      split_ifs
      · exact .inr rfl
      · exact .inl (by cases b <;> exact if_pos hne)
    rcases hsame with h | h <;> rw [h] at hs <;> exact hne hs
  · rwa [tick_proc_of_ne b k user hsp] at hs

theorem Sole.step (hc : Ctl k) (h : Sole k) (hstep : step b k e = some k') : Sole k' := by
  cases ht : e.isTick with
  | false =>
    have hchange := fun s => step_change hc hstep ht s
    by_cases hsched : e = .schedule
    · intro s hs
      rcases (hchange s).running hs with hrun | hd
      · -- The scheduler runs while no process is RUNNING.
        have hcpu := (h s hrun).1
        subst hsched
        cases step_cases hstep with
        | pass i m hpass hm => rw [hcpu] at hpass; cases hpass
        | schedule hidle => rw [hcpu] at hidle; cases hidle
      · exact hd.2
    · have hrun : ∀ s, (k'.proc s).state = RUNNING → (k.proc s).state = RUNNING := fun s hs =>
        ((hchange s).running hs).resolve_right fun hd => hsched hd.1
      rcases step_control hstep hsched ht with hsame | ⟨p, -, hcur, -, hl⟩
      · exact h.stays hsame.toSameCpu hrun
      · exact h.leaves hcur hl.state_ne hrun
  | true =>
    cases step_cases hstep with
    | tick p user hcpu hcur huser =>
      have hrun := fun s => tick_running (b := b) (k := k) (p := p) (s := s) user
      rcases tick_control b k p user with hsame | hl
      · exact h.stays ((timer_cpu b k).trans hsame.toSameCpu) hrun
      · exact h.leaves hcur hl.state_ne hrun
    | tickIdle user hcpu => exact h.stays (timer_cpu b k) fun s hs => timer_running.mp hs
    | _ => cases ht

theorem runnable_step (hc : Ctl k) (hstep : step b k e = some k')
    (hs : (k.proc s).state = RUNNABLE) :
    (k'.proc s).state = RUNNABLE ∨ e = .schedule ∧ k'.cpu = .running ∧ k'.cur = some s := by
  cases ht : e.isTick with
  | false =>
    have hinfo : (k.info s).state = RUNNABLE := hs
    change (k'.info s).state = RUNNABLE ∨ _
    cases step_change hc hstep ht s with
    | kept h => exact .inl (by rw [h, hinfo])
    | prioritized pid pr he h => exact .inl (by rw [h]; exact hinfo)
    | dispatched he hst h hcpu hcur => exact .inr ⟨he, hcpu, hcur⟩
    | _ => simp_all
  | true =>
    have htimer : ((k.timer b).proc s).state = RUNNABLE := by
      rcases timer_state b k s with h | ⟨-, h⟩
      · rw [h, hs]
      · exact h
    cases step_cases hstep with
    | tick p user hcpu hcur huser =>
      have hsp : s ≠ p := by
        rintro rfl
        rw [hc.state_cur hcpu hcur] at hs
        cases hs
      exact .inl (by rw [tick_proc_of_ne b k user hsp, htimer])
    | tickIdle user hcpu => exact .inl htimer
    | _ => cases ht

end Sole

theorem boot_sole (kstack pgdir : ℕ) : Sole (boot kstack pgdir) := by
  intro s hs
  exfalso
  by_cases h0 : s = 0
  · subst h0
    simp [boot] at hs
  · rw [boot_proc _ _ h0] at hs
    cases hs

theorem run_sole {b : Build} {kstack pgdir : ℕ} {es : List Event} {k : Kernel}
    (hrun : Runs.exec (step b) (boot kstack pgdir) es = some k) : Ctl k ∧ Sole k :=
  Runs.exec_invariant (step b) (I := fun k => Ctl k ∧ Sole k)
    (fun _ _ _ hI h => ⟨(step_effect hI.1 h).1, hI.2.step hI.1 h⟩)
    ⟨boot_ctl _ _, boot_sole _ _⟩ hrun

end Xv6.Sched
