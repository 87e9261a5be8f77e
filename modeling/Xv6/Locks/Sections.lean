import Xv6.Sched.Model
import Xv6.Lib.SpinLocks

/-!
# The critical sections of the kernel

Each stretch of code from an outermost `acquire` to the `release` that leaves the CPU without
locks, as the lock operations it makes; a system call or an interrupt is a sequence of them.
-/

namespace Xv6.Locks
open Lib SpinLocks Sched ProcState

inductive Lock
  | ptable
  | cons
  | tickslock
  | idelock
  | log
  | kmem
  | ftable
  | bcache
  | icache
  | pipe (i : ℕ)
  | sleeplock (i : ℕ)
  deriving DecidableEq, Repr

abbrev Code := List (Op Lock Slot)

def locked (l : Lock) (body : Code) : Code := .acquire l :: (body ++ [.release l])

def cprintf : Code := locked .cons []

def wakeup : Code := locked .ptable []

def sleep (lk : Lock) : Code :=
  [.acquire .ptable, .release lk, .swtch, .release .ptable, .acquire lk]

def times (n : ℕ) (body : Code) : Code := (List.replicate n body).flatten

def forkret : Code := [.release .ptable]

def INPUT_BUF : ℕ := 128

structure Input where
  buf : ℕ → ℕ
  r : ℕ
  w : ℕ
  e : ℕ

def uint (n : ℕ) : ℕ := n % 2 ^ 32

def usub (x y : ℕ) : ℕ := uint (x + (2 ^ 32 - y % 2 ^ 32))

def killLine : ℕ → Input → Input
  | 0, i => i
  | n + 1, i =>
    if i.e ≠ i.w ∧ i.buf (usub i.e 1 % INPUT_BUF) ≠ '\n'.toNat then
      killLine n { i with e := usub i.e 1 }
    else i

def consoleChar (i : Input) (c : ℕ) : Input × Bool :=
  if c = 'P'.toNat - '@'.toNat then (i, false)
  else if c = 'U'.toNat - '@'.toNat then (killLine (usub i.e i.w) i, false)
  else if c = 'H'.toNat - '@'.toNat ∨ c = 127 then
    (if i.e ≠ i.w then { i with e := usub i.e 1 } else i, false)
  else if c ≠ 0 ∧ usub i.e i.r < INPUT_BUF then
    let c := if c = '\r'.toNat then '\n'.toNat else c
    let i := { i with buf := Function.update i.buf (i.e % INPUT_BUF) c, e := uint (i.e + 1) }
    if c = '\n'.toNat ∨ c = 'D'.toNat - '@'.toNat ∨ i.e = uint (i.r + INPUT_BUF) then
      ({ i with w := i.e }, true)
    else (i, false)
  else (i, false)

def consoleChars : Input → List ℕ → Code
  | _, [] => []
  | i, c :: cs =>
    (if (consoleChar i c).2 then wakeup else []) ++ consoleChars (consoleChar i c).1 cs

def aged (k : Kernel) (s : Slot) : Bool :=
  (k.proc s).state == RUNNABLE && decide (Kernel.time_age < k.waited s) && (k.proc s).qno != 0

def dispatches (b : Build) (grph : Bool) (ts : List Slot) : Code :=
  (if b = .FCFS ∨ b = .MLFQ then ts.take 1 else ts).flatMap fun t =>
    (if b = .MLFQ ∧ grph then [] else cprintf) ++ [.dispatch t]

inductive Section
  -- proc.c
  | wakeup
  | graph
  | allocproc
  | fork
  | check_priority
  | kill
  | yield
  | exit
  | wait (sleeps pages : ℕ)
  | aging (grph : Bool) (k : Kernel)
  | set_priority (k : Kernel) (pid : ℤ)
  | getpinfo (k : Kernel) (pid : ℤ)
  | scheduler (b : Build) (grph : Bool) (ts : List Slot)
  -- trap.c and sysproc.c
  | tick
  | sys_sleep (sleeps : ℕ)
  | sys_uptime
  -- console.c
  | cprintf
  | consoleintr (i : Input) (cs : List ℕ)
  | consoleread (sleeps : ℕ)
  | consolewrite
  -- ide.c
  | ideintr (request : Bool)
  | iderw (sleeps : ℕ)
  -- log.c
  | begin_op (sleeps : ℕ)
  | end_op (do_commit : Bool)
  | committed
  | log_write
  -- sleeplock.c
  | acquiresleep (i sleeps : ℕ)
  | releasesleep (i : ℕ)
  | holdingsleep (i : ℕ)
  -- pipe.c
  | pipeclose (i : ℕ)
  | pipewrite (i sleeps : ℕ) (fails : Bool)
  | piperead (i sleeps : ℕ) (fails : Bool)
  -- kalloc.c, file.c, bio.c, fs.c
  | kalloc
  | kfree
  | filealloc
  | filedup
  | fileclose
  | bget
  | brelse
  | iget
  | idup
  | iput

def Section.code : Section → Code
  | .wakeup => Locks.wakeup
  | .graph => locked .ptable []
  | .allocproc => locked .ptable []
  | .fork => locked .ptable []
  | .check_priority => locked .ptable []
  | .kill => locked .ptable []
  | .yield => locked .ptable [.swtch]
  | .exit => [.acquire .ptable, .exit]
  | .wait sleeps pages => locked .ptable (times sleeps [.swtch] ++ times pages (locked .kmem []))
  | .aging grph k =>
    locked .ptable (slots.flatMap fun s => if aged k s ∧ ¬grph then Locks.cprintf else [])
  | .set_priority k pid =>
    locked .ptable (if slots.any fun s => (k.proc s).pid == pid then Locks.cprintf else [])
  | .getpinfo k pid =>
    locked .ptable (if slots.any fun s => (k.proc s).state == RUNNABLE && (k.proc s).pid == pid
      then times 5 Locks.cprintf else [])
  | .scheduler b grph ts => locked .ptable (dispatches b grph ts)
  | .tick => locked .tickslock Locks.wakeup
  | .sys_sleep sleeps => locked .tickslock (times sleeps (sleep .tickslock))
  | .sys_uptime => locked .tickslock []
  | .cprintf => Locks.cprintf
  | .consoleintr i cs => locked .cons (consoleChars i cs)
  | .consoleread sleeps => locked .cons (times sleeps (sleep .cons))
  | .consolewrite => locked .cons []
  | .ideintr request => locked .idelock (if request then Locks.wakeup else [])
  | .iderw sleeps => locked .idelock (times sleeps (sleep .idelock))
  | .begin_op sleeps => locked .log (times sleeps (sleep .log))
  | .end_op do_commit => locked .log (if do_commit then [] else Locks.wakeup)
  | .committed => locked .log Locks.wakeup
  | .log_write => locked .log []
  | .acquiresleep i sleeps => locked (.sleeplock i) (times sleeps (sleep (.sleeplock i)))
  | .releasesleep i => locked (.sleeplock i) Locks.wakeup
  | .holdingsleep i => locked (.sleeplock i) []
  | .pipeclose i => locked (.pipe i) Locks.wakeup
  | .pipewrite i sleeps fails =>
    locked (.pipe i) (times sleeps (Locks.wakeup ++ sleep (.pipe i)) ++
      if fails then [] else Locks.wakeup)
  | .piperead i sleeps fails =>
    locked (.pipe i) (times sleeps (sleep (.pipe i)) ++ if fails then [] else Locks.wakeup)
  | .kalloc => locked .kmem []
  | .kfree => locked .kmem []
  | .filealloc => locked .ftable []
  | .filedup => locked .ftable []
  | .fileclose => locked .ftable []
  | .bget => locked .bcache []
  | .brelse => locked .bcache []
  | .iget => locked .icache []
  | .idup => locked .icache []
  | .iput => locked .icache []

abbrev KernelState (C : Type*) := State Lock C Slot

def step {C : Type*} [DecidableEq C] : KernelState C → Event C Section → Option (KernelState C) :=
  SpinLocks.step .ptable forkret Section.code

def initial (C : Type*) : KernelState C := SpinLocks.initial forkret

end Xv6.Locks
