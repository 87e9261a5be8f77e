import Xv6.Params
import Xv6.Lib.CountedArray

/-!
# The process table, the scheduler and the timer interrupt

One CPU. An event is one critical section of `ptable.lock` or one piece of kernel code that nothing
on the same CPU can interleave with.
-/

namespace Xv6.Sched
open Lib
open Function (update)

inductive Build
  | DEFAULT
  | FCFS
  | PBS
  | MLFQ
  deriving DecidableEq, Repr

inductive ProcState
  | UNUSED
  | EMBRYO
  | SLEEPING
  | RUNNABLE
  | RUNNING
  | ZOMBIE
  deriving DecidableEq, Repr

open ProcState

abbrev Slot := Fin NPROC
abbrev Level := Fin 5

instance neZeroFive : NeZero (5 : ℕ) := ⟨by decide⟩
instance : LawfulBEq Slot := inferInstance

def slots : List Slot := List.finRange NPROC

inductive Chan
  | proc (p : Slot)
  | ticks
  | other (addr : ℕ)
  deriving DecidableEq, Repr

/-- The value that an `int` holds after it was assigned `x`. -/
def int32 (x : ℤ) : ℤ := Int.bmod x (2 ^ 32)

structure ProcStat where
  pid : ℤ
  runtime : ℤ
  num_run : ℤ
  current_queue : ℤ
  ticks : Level → ℤ

structure Proc where
  kstack : ℕ
  pgdir : ℕ
  state : ProcState
  pid : ℤ
  parent : Option Slot
  chan : Option Chan
  killed : Bool
  name : Bytes 16
  ctime : ℤ
  rtime : ℤ
  etime : ℤ
  iotime : ℤ
  priority : ℤ
  qno : Level
  aging_time : ℤ
  rrtime : Level → ℤ
  stat : ProcStat

def Proc.dispatched (b : Build) (x : Proc) : Proc :=
  { x with
    state := RUNNING
    chan := none
    stat := if b = .MLFQ then { x.stat with num_run := int32 (x.stat.num_run + 1) }
      else x.stat }

inductive Kont
  | user
  | forkStack (np : Slot)
  | forkCopy (np : Slot)
  | forkRun (np : Slot)
  | wait
  | exiting
  deriving DecidableEq, Repr

def Kont.child : Kont → Option Slot
  | .forkStack np | .forkCopy np | .forkRun np => some np
  | _ => none

inductive Cpu
  | idle
  | pass (i : ℕ)
  | running
  deriving DecidableEq, Repr

structure Kernel where
  proc : Slot → Proc
  nextpid : ℤ
  ticks : ℕ
  q : Level → CountedArray 1000 Slot
  initproc : Slot
  cpu : Cpu
  cur : Option Slot
  mxprt : ℤ
  kont : Slot → Kont
  missed : Bool

inductive Event
  | alloc
  | stack (page : ℕ)
  | copy (pgdir : ℕ)
  | run
  | exit
  /-- One scan of `wait` or `waitx`, which do the same to the table. -/
  | wait
  | sleep (c : Chan)
  | wakeup (c : Chan)
  | kill (pid : ℤ)
  | setPriority (pid priority : ℤ)
  | tick (user : Bool)
  | schedule
  deriving DecidableEq, Repr

namespace Kernel

def setProc (k : Kernel) (s : Slot) (f : Proc → Proc) : Kernel :=
  { k with proc := update k.proc s (f (k.proc s)) }

def setQ (k : Kernel) (l : Level) (a : CountedArray 1000 Slot) : Kernel :=
  { k with q := update k.q l a }

def setKont (k : Kernel) (s : Slot) (c : Kont) : Kernel :=
  { k with kont := update k.kont s c }

def wakeup1 (k : Kernel) (chan : Option Chan) : Kernel :=
  { k with proc := fun s =>
      if (k.proc s).state = SLEEPING ∧ (k.proc s).chan = chan then
        { k.proc s with state := RUNNABLE }
      else k.proc s }

inductive Cmp
  | ptr
  | pid
  deriving DecidableEq, Repr

inductive Scan
  | first
  | last
  deriving DecidableEq, Repr

def isProc (k : Kernel) (c : Cmp) (p s : Slot) : Bool :=
  match c with
  | .ptr => s == p
  | .pid => (k.proc s).pid == (k.proc p).pid

def search (k : Kernel) (l : Level) (p : Slot) (c : Cmp) :
    Scan → Option ℤ × CountedArray 1000 Slot
  | .first => (k.q l).findFirst (k.isProc c p)
  | .last => (k.q l).findLast (k.isProc c p)

def takeOut (k : Kernel) (l : Level) (p : Slot) (c : Cmp) (d : Scan) (ind : ℤ) : Kernel :=
  { k.setQ l ((k.search l p c d).2.removeAt ((k.search l p c d).1.getD ind)) with
    missed := k.missed || (k.search l p c d).1.isNone }

def putIn (k : Kernel) (l : Level) (p : Slot) (c : Cmp) : Kernel :=
  k.setQ l (if (k.search l p c .first).1.isNone then (k.search l p c .first).2.push p
    else (k.search l p c .first).2)

def setLevel (k : Kernel) (p : Slot) (src dst : Level) : Kernel :=
  k.setProc p fun x => { x with
    qno := dst
    rrtime := update (update x.rrtime src 0) dst 0 }

def move (k : Kernel) (p : Slot) (src dst : Level) (c : Cmp) (d : Scan) (ind : ℤ)
    (c' : Cmp) : Kernel :=
  ((k.takeOut src p c d ind).setLevel p src dst).putIn dst p c'

-- The four promotions of `aging`.
def age1 (k : Kernel) (p : Slot) : Kernel := k.move p 1 0 .ptr .first 0 .ptr
def age2 (k : Kernel) (p : Slot) : Kernel := k.move p 2 1 .pid .first 0 .pid
def age3 (k : Kernel) (p : Slot) : Kernel := k.move p 3 2 .pid .first 0 .pid
def age4 (k : Kernel) (p : Slot) : Kernel := k.move p 4 3 .pid .first 0 .pid

-- The four demotions of `trap`, and the rotation of the last queue.
def demote0 (k : Kernel) (p : Slot) : Kernel := k.move p 0 1 .pid .last (-1) .pid
def demote1 (k : Kernel) (p : Slot) : Kernel := k.move p 1 2 .ptr .first 0 .pid
def demote2 (k : Kernel) (p : Slot) : Kernel := k.move p 2 3 .ptr .first 0 .pid
def demote3 (k : Kernel) (p : Slot) : Kernel := k.move p 3 4 .ptr .first 0 .pid

def rotate4 (k : Kernel) (p : Slot) : Kernel :=
  { (k.setProc p fun x => { x with rrtime := update x.rrtime 4 0 }).setQ 4
      ((k.search 4 p .ptr .first).2.rotate ((k.search 4 p .ptr .first).1.getD 0) p) with
    missed := k.missed || (k.search 4 p .ptr .first).1.isNone }

def time_age : ℤ := 50

def waited (k : Kernel) (p : Slot) : ℤ :=
  int32 (k.ticks - (k.proc p).ctime - (k.proc p).rtime - (k.proc p).aging_time)

def promote (k : Kernel) (p : Slot) : Kernel :=
  match (k.proc p).qno with
  | 0 => k
  | 1 => k.age1 p
  | 2 => k.age2 p
  | 3 => k.age3 p
  | 4 => k.age4 p

def agingOne (k : Kernel) (p : Slot) : Kernel :=
  if (k.proc p).state = RUNNABLE ∧ time_age < k.waited p then
    (k.promote p).setProc p fun x => { x with
      aging_time := int32 (k.ticks - (x.ctime + x.rtime)) }
  else k

def aging (k : Kernel) : Kernel := slots.foldl agingOne k

def findRunnable (k : Kernel) (l : Level) : Option ℤ × CountedArray 1000 Slot :=
  (k.q l).findFirst fun s => (k.proc s).state == RUNNABLE

def sched (b : Build) (k : Kernel) (p : Slot) : Kernel :=
  match b with
  | .DEFAULT => { k with cur := none, cpu := .pass (p + 1) }
  | .FCFS | .MLFQ => { k with cur := none, cpu := .idle }
  | .PBS =>
    let mx2 := slots.foldl (fun m s =>
      if (k.proc s).state = RUNNABLE ∧ (k.proc s).priority < m then (k.proc s).priority
      else m) 101
    -- The `break` skips `c->proc = 0`.
    if mx2 < k.mxprt then { k with cpu := .idle }
    else { k with cur := none, cpu := .pass (p + 1) }

def yield (b : Build) (k : Kernel) (p : Slot) : Kernel :=
  sched b (k.setProc p fun x => { x with state := RUNNABLE }) p

/-- `sleep` as far as `sched`; what follows it, `p->chan = 0`, is in `dispatch`. -/
def sleep (b : Build) (k : Kernel) (p : Slot) (c : Chan) : Kernel :=
  sched b (k.setProc p fun x => { x with chan := some c, state := SLEEPING }) p

def dispatch (b : Build) (k : Kernel) (p : Slot) : Kernel :=
  { k.setProc p (Proc.dispatched b) with cur := some p, cpu := .running }

def tablePass (b : Build) (k : Kernel) (i : ℕ) (P : Proc → Bool) : Kernel :=
  match slots.find? fun s => decide (i ≤ s.val) && (k.proc s).state == RUNNABLE && P (k.proc s) with
  | some p => dispatch b k p
  | none => { k with cpu := .idle }

def firstCome (k : Kernel) : Option Slot :=
  slots.foldl (fun q s =>
    if (k.proc s).state ≠ RUNNABLE then q
    else match q with
      | none => some s
      | some r => if (k.proc s).ctime < (k.proc r).ctime then some s else q) none

def minPriority (k : Kernel) : ℤ :=
  slots.foldl (fun m s =>
    if (k.proc s).state = RUNNABLE ∧ (k.proc s).priority < m then (k.proc s).priority
    else m) 200

def queuePass (k : Kernel) : List Level → Kernel
  | [] => { k with cpu := .idle }
  | l :: ls =>
    match k.findRunnable l with
    | (some i, a) => dispatch .MLFQ (k.setQ l a) (a.arr i)
    | (none, a) => queuePass (k.setQ l a) ls

def schedulePass (b : Build) (k : Kernel) : Kernel :=
  match b with
  | .DEFAULT => tablePass .DEFAULT k 0 fun _ => true
  | .FCFS => match k.firstCome with
    | some q => dispatch .FCFS k q
    | none => k
  | .PBS => tablePass .PBS { k with mxprt := k.minPriority } 0 (·.priority == k.minPriority)
  | .MLFQ => queuePass k [0, 1, 2, 3, 4]

/-- The schedulers that dispatch from inside their table loop, back in the loop. -/
def schedulePassFrom (b : Build) (k : Kernel) (i : ℕ) : Option Kernel :=
  match b with
  | .DEFAULT => some (tablePass .DEFAULT k i fun _ => true)
  | .PBS => some (tablePass .PBS k i (·.priority == k.mxprt))
  | .FCFS | .MLFQ => none

def firstUnused (k : Kernel) : Option Slot :=
  slots.find? fun s => (k.proc s).state == UNUSED

def allocproc (k : Kernel) (s : Slot) : Kernel :=
  { (k.setProc s fun x => { x with
      state := EMBRYO
      priority := 60
      pid := k.nextpid
      qno := 0
      stat := ⟨k.nextpid, 0, 0, 0, fun _ => 0⟩
      rrtime := fun _ => 0 }).setQ 0 ((k.q 0).push s) with
    nextpid := int32 (k.nextpid + 1) }

def allocStack (k : Kernel) (np : Slot) (page : ℕ) : Kernel :=
  k.setProc np fun x =>
    if page = 0 then { x with kstack := 0, state := UNUSED }
    else { x with
      kstack := page
      ctime := int32 k.ticks
      rtime := 0
      etime := 0
      iotime := 0
      aging_time := 0 }

end Kernel

def safestrcpyFrom (t : Bytes 16) : ℕ → ℕ → Bytes 16 → Bytes 16
  | 0, i, s => s.set i 0
  | n + 1, i, s =>
    if t.get i = 0 then (s.set i 0).set (i + 1) 0
    else safestrcpyFrom t n (i + 1) (s.set i (t.get i))

def safestrcpy (s t : Bytes 16) : Bytes 16 := safestrcpyFrom t 15 0 s

namespace Kernel

/-- `fork` from the return of `copyuvm` to its last `acquire`. -/
def forkCopy (b : Build) (k : Kernel) (cur np : Slot) (pgdir : ℕ) : Kernel :=
  k.setProc np fun x =>
    if pgdir = 0 then { x with pgdir := 0, kstack := 0, state := UNUSED }
    else { x with
      pgdir := pgdir
      parent := some cur
      name := safestrcpy x.name (k.proc cur).name
      qno := 0
      priority := if b = .PBS then Int.tdiv x.pid 2 else x.priority }

def reparent (k : Kernel) (cur : Slot) : Kernel :=
  slots.foldl (fun k s =>
    if (k.proc s).parent = some cur then
      let k' := k.setProc s fun x => { x with parent := some k.initproc }
      if (k.proc s).state = ZOMBIE then k'.wakeup1 (some (.proc k.initproc)) else k'
    else k) k

def exit (b : Build) (k : Kernel) (cur : Slot) : Kernel :=
  sched b (((k.wakeup1 ((k.proc cur).parent.map .proc)).reparent cur).setProc cur fun x =>
    { x with state := ZOMBIE, etime := int32 k.ticks }) cur

end Kernel

def scanChildren (t : Slot → Proc) (cur : Slot) : List Slot → Bool → Option Slot × Bool
  | [], havekids => (none, havekids)
  | s :: ss, havekids =>
    if (t s).parent ≠ some cur then scanChildren t cur ss havekids
    else if (t s).state = ZOMBIE then (some s, true)
    else scanChildren t cur ss true

def Proc.reaped (x : Proc) : Proc :=
  { x with
    kstack := 0
    pid := 0
    parent := none
    name := x.name.set 0 0
    killed := false
    state := UNUSED }

namespace Kernel

def waitScan (b : Build) (k : Kernel) (cur : Slot) : Kernel :=
  match scanChildren k.proc cur slots false with
  | (some s, _) => (k.setProc s Proc.reaped).setKont cur .user
  | (none, havekids) =>
    if !havekids || (k.proc cur).killed then k.setKont cur .user
    else sleep b (k.setKont cur .wait) cur (.proc cur)

def kill (k : Kernel) (pid : ℤ) : Kernel :=
  match slots.find? fun s => (k.proc s).pid == pid with
  | some s => k.setProc s fun x => { x with
      killed := true
      state := if x.state = SLEEPING then RUNNABLE else x.state }
  | none => k

def setPriority (k : Kernel) (pid priority : ℤ) : Kernel :=
  match slots.find? fun s => (k.proc s).pid == pid with
  | some s => k.setProc s fun x => { x with priority := priority }
  | none => k

def account (k : Kernel) : Kernel :=
  match k.cur with
  | none => k
  | some p => k.setProc p fun x =>
    if x.state = RUNNING then { x with
      rtime := int32 (x.rtime + 1)
      rrtime := update x.rrtime x.qno (int32 (x.rrtime x.qno + 1))
      stat := { x.stat with
        runtime := int32 (x.stat.runtime + 1)
        ticks := update x.stat.ticks x.qno (int32 (x.stat.ticks x.qno + 1)) } }
    else if x.state = SLEEPING then { x with iotime := int32 (x.iotime + 1) }
    else x

def timer (b : Build) (k : Kernel) : Kernel :=
  let k := { k with ticks := (k.ticks + 1) % 2 ^ 32 }.wakeup1 (some .ticks)
  (if b = .MLFQ then k.aging else k).account

def check_priority (k : Kernel) (prt : ℤ) : Bool :=
  slots.any fun s => (k.proc s).state == RUNNABLE && (k.proc s).priority ≤ prt

def setFlags (k : Kernel) : List Level → Kernel × List Level
  | [] => (k, [])
  | l :: ls =>
    let r := k.findRunnable l
    let rest := setFlags (k.setQ l r.2) ls
    (rest.1, if r.1.isSome then l :: rest.2 else rest.2)

def mlfqTick (k : Kernel) (p : Slot) : Kernel :=
  let rr := (k.proc p).rrtime
  let no := (k.proc p).qno
  if rr no = 0 then k
  else if no = 0 then yield .MLFQ (k.demote0 p) p
  else if no = 1 ∧ (rr 1).tmod 2 = 0 then yield .MLFQ (k.demote1 p) p
  else if no = 2 ∧ (rr 2).tmod 4 = 0 then yield .MLFQ (k.demote2 p) p
  else if no = 3 ∧ (rr 3).tmod 8 = 0 then yield .MLFQ (k.demote3 p) p
  else if no = 4 ∧ (rr 4).tmod 16 = 0 then yield .MLFQ (k.rotate4 p) p
  else if (k.setFlags [0, 1, 2, 3]).2.any (· < no) then yield .MLFQ (k.setFlags [0, 1, 2, 3]).1 p
  else (k.setFlags [0, 1, 2, 3]).1

def preempt (b : Build) (k : Kernel) (p : Slot) : Kernel :=
  if (k.proc p).state ≠ RUNNING then k
  else match b with
    | .DEFAULT => yield .DEFAULT k p
    | .FCFS => k
    | .PBS => if k.check_priority (k.proc p).priority then yield .PBS k p else k
    | .MLFQ => k.mlfqTick p

/-- The timer interrupt of `p`. A killed process does not come back from `exit`. -/
def tick (b : Build) (k : Kernel) (p : Slot) (user : Bool) : Kernel :=
  if ((k.timer b).proc p).killed && user then (k.timer b).setKont p .exiting
  else (k.timer b).preempt b p

end Kernel

open Kernel

def procStep (b : Build) (k : Kernel) (p : Slot) (e : Event) : Option Kernel :=
  match k.kont p, e with
  | .user, .alloc =>
    match k.firstUnused with
    | some s => some ((k.allocproc s).setKont p (.forkStack s))
    | none => some k
  | .forkStack np, .stack page =>
    some ((k.allocStack np page).setKont p (if page = 0 then .user else .forkCopy np))
  | .forkCopy np, .copy pgdir =>
    some ((k.forkCopy b p np pgdir).setKont p (if pgdir = 0 then .user else .forkRun np))
  | .forkRun np, .run =>
    some ((k.setProc np fun x => { x with state := RUNNABLE }).setKont p .user)
  | .user, .exit | .exiting, .exit =>
    if p = k.initproc then none else some ((k.setKont p .user).exit b p)
  | .user, .wait | .wait, .wait => some (k.waitScan b p)
  | .user, .sleep c | .exiting, .sleep c => some (k.sleep b p c)
  | .user, .kill pid => some (k.kill pid)
  | .user, .setPriority pid priority => some (k.setPriority pid priority)
  -- `wait` comes back from `sleep` with the lock held and interrupts off.
  | .wait, _ => none
  | _, .wakeup c => some (k.wakeup1 (some c))
  | .user, .tick user => some (k.tick b p user)
  | _, .tick false => some (k.tick b p false)
  | _, _ => none

def step (b : Build) (k : Kernel) (e : Event) : Option Kernel :=
  match k.cpu, k.cur, e with
  | .running, some p, _ => procStep b k p e
  | .running, none, _ => none
  | .pass i, _, .schedule => k.schedulePassFrom b i
  | .idle, _, .schedule => some (k.schedulePass b)
  | .idle, _, .tick _ => some (k.timer b)
  | .idle, _, .wakeup c => some (k.wakeup1 (some c))
  | _, _, _ => none

def unusedProc : Proc where
  kstack := 0
  pgdir := 0
  state := UNUSED
  pid := 0
  parent := none
  chan := none
  killed := false
  name := .zero 16
  ctime := 0
  rtime := 0
  etime := 0
  iotime := 0
  priority := 0
  qno := 0
  aging_time := 0
  rrtime := fun _ => 0
  stat := ⟨0, 0, 0, 0, fun _ => 0⟩

def image : Kernel where
  proc _ := unusedProc
  nextpid := 1
  ticks := 0
  q _ := ⟨fun _ => 0, 0, false⟩
  initproc := 0
  cpu := .idle
  cur := none
  mxprt := 0
  kont _ := .user
  missed := false

def initName : Bytes 16 :=
  fun i => ("initcode".toList.map fun c => BitVec.ofNat 8 c.toNat).getD i 0

def boot (kstack pgdir : ℕ) : Kernel :=
  ((image.allocproc 0).allocStack 0 kstack).setProc 0 fun x =>
    { x with pgdir := pgdir, name := safestrcpy x.name initName, state := RUNNABLE }

end Xv6.Sched
