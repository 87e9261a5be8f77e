import Xv6.Lib.Runs
import Xv6.Params
import Xv6.Vm.Kalloc

/-!
# The open-file table and the descriptors of all processes

`ftable` of `file.c`, the `ofile` arrays, and the struct `pipe` that each pipe page holds. A system
call runs as one step.
-/

namespace Xv6.Files

open Lib Vm
open Function (update)

abbrev FileSlot := Fin NFILE
abbrev Slot := Fin NPROC
abbrev Fd := Fin NOFILE

inductive FileType
  | FD_NONE | FD_PIPE | FD_INODE
deriving DecidableEq

inductive Object
  | pipe (p : Frame) (writable : Bool)
  | inode (ip : ℕ)
deriving DecidableEq

structure File where
  type : FileType := .FD_NONE
  ref : ℕ := 0
  readable : Bool := false
  writable : Bool := false
  pipe : Frame := 0
  ip : ℕ := 0
  off : ℕ := 0

def File.object (x : File) : Option Object :=
  match x.type with
  | .FD_NONE => none
  | .FD_PIPE => some (.pipe x.pipe x.writable)
  | .FD_INODE => some (.inode x.ip)

structure Pipe where
  readopen : Bool
  writeopen : Bool

def Pipe.isOpen (x : Pipe) (writable : Bool) : Bool := if writable then x.writeopen else x.readopen

inductive ProcState
  | UNUSED | EMBRYO | LIVE | ZOMBIE
deriving DecidableEq

inductive Life
  | opened (f : FileSlot) (x : Object)
  | closed (f : FileSlot) (x : Object)

structure State where
  kmem : Kmem
  file : FileSlot → File
  pipe : Frame → Pipe
  state : Slot → ProcState
  ofile : Slot → Fd → Option FileSlot
  life : List Life

namespace State

def setFile (s : State) (f : FileSlot) (x : File) : State :=
  { s with file := update s.file f x }

def setFd (s : State) (p : Slot) (fd : Fd) (x : Option FileSlot) : State :=
  { s with ofile := update s.ofile p (update (s.ofile p) fd x) }

def setState (s : State) (p : Slot) (x : ProcState) : State :=
  { s with state := update s.state p x }

def record (s : State) (l : Life) : State := { s with life := s.life ++ [l] }

end State

def filealloc (s : State) : Option FileSlot × State :=
  match (List.finRange NFILE).find? fun f => (s.file f).ref = 0 with
  | none => (none, s)
  | some f => (some f, s.setFile f { s.file f with ref := 1 })

def filedup (s : State) (f : FileSlot) : Except Panic State :=
  if (s.file f).ref < 1 then .error .filedup
  else .ok (s.setFile f { s.file f with ref := (s.file f).ref + 1 })

def pipeclose (K : Image) (s : State) (p : Frame) (writable : Bool) : Except Panic State :=
  let x : Pipe := if writable then { s.pipe p with writeopen := false }
    else { s.pipe p with readopen := false }
  let s := { s with pipe := update s.pipe p x }
  if x.readopen = false ∧ x.writeopen = false then
    (kfree K s.kmem p).map fun m => { s with kmem := m }
  else .ok s

def fileclose (K : Image) (s : State) (f : FileSlot) : Except Panic State :=
  let ff := s.file f
  if ff.ref < 1 then .error .fileclose
  else if 0 < ff.ref - 1 then .ok (s.setFile f { ff with ref := ff.ref - 1 })
  else
    let s := s.setFile f { ff with ref := 0, type := .FD_NONE }
    match ff.type with
    | .FD_NONE => .ok s
    | .FD_PIPE => pipeclose K (s.record (.closed f (.pipe ff.pipe ff.writable))) ff.pipe ff.writable
    | .FD_INODE => .ok (s.record (.closed f (.inode ff.ip)))

def connect (s : State) (p : Frame) (f0 f1 : FileSlot) : State :=
  let s := { s with pipe := update s.pipe p { readopen := true, writeopen := true } }
  let s := s.setFile f0
    { s.file f0 with type := .FD_PIPE, readable := true, writable := false, pipe := p }
  let s := s.setFile f1
    { s.file f1 with type := .FD_PIPE, readable := false, writable := true, pipe := p }
  (s.record (.opened f0 (.pipe p false))).record (.opened f1 (.pipe p true))

def pipealloc (K : Image) (s : State) : Except Panic (Option (FileSlot × FileSlot) × State) :=
  match filealloc s with
  | (none, s) => .ok (none, s)
  | (some f0, s) =>
    match filealloc s with
    | (none, s) => do
      let s ← fileclose K s f0
      return (none, s)
    | (some f1, s) =>
      match kalloc s.kmem with
      | (none, _) => do
        let s ← fileclose K s f0
        let s ← fileclose K s f1
        return (none, s)
      | (some p, m) => .ok (some (f0, f1), connect { s with kmem := m } p f0 f1)

def argfd (s : State) (p : Slot) (fd : ℤ) : Option (Fd × FileSlot) :=
  if h : 0 ≤ fd ∧ fd < NOFILE then
    let fd : Fd := ⟨fd.toNat, by omega⟩
    (s.ofile p fd).map fun f => (fd, f)
  else none

def fdalloc (s : State) (p : Slot) (f : FileSlot) : Option Fd × State :=
  match (List.finRange NOFILE).find? fun fd => s.ofile p fd = none with
  | none => (none, s)
  | some fd => (some fd, s.setFd p fd (some f))

abbrev O_WRONLY : BitVec 32 := 0x001
abbrev O_RDWR : BitVec 32 := 0x002

def openFile (s : State) (f : FileSlot) (ip : ℕ) (omode : BitVec 32) : State :=
  let s := s.setFile f
    { s.file f with
      type := .FD_INODE, ip := ip, off := 0
      readable := omode &&& O_WRONLY = 0
      writable := omode &&& O_WRONLY ≠ 0 ∨ omode &&& O_RDWR ≠ 0 }
  s.record (.opened f (.inode ip))

def sysOpen (K : Image) (s : State) (p : Slot) (found : Option ℕ) (omode : BitVec 32) :
    Except Panic (ℤ × State) :=
  match found with
  | none => .ok (-1, s)
  | some ip =>
    match filealloc s with
    | (none, s) => .ok (-1, s)
    | (some f, s) =>
      match fdalloc s p f with
      | (none, s) => do
        let s ← fileclose K s f
        return (-1, s)
      | (some fd, s) => .ok (fd, openFile s f ip omode)

def sysDup (s : State) (p : Slot) (fd : ℤ) : Except Panic (ℤ × State) :=
  match argfd s p fd with
  | none => .ok (-1, s)
  | some (_, f) =>
    match fdalloc s p f with
    | (none, s) => .ok (-1, s)
    | (some fd, s) => do
      let s ← filedup s f
      return (fd, s)

def sysClose (K : Image) (s : State) (p : Slot) (fd : ℤ) : Except Panic (ℤ × State) :=
  match argfd s p fd with
  | none => .ok (-1, s)
  | some (fd, f) => do
    let s ← fileclose K (s.setFd p fd none) f
    return (0, s)

def sysPipe (K : Image) (s : State) (p : Slot) (arg : Bool) : Except Panic (ℤ × State) :=
  if arg = false then .ok (-1, s)
  else do
    match ← pipealloc K s with
    | (none, s) => return (-1, s)
    | (some (rf, wf), s) =>
      match fdalloc s p rf with
      | (none, s) => do
        let s ← fileclose K s rf
        let s ← fileclose K s wf
        return (-1, s)
      | (some fd0, s) =>
        match fdalloc s p wf with
        | (none, s) => do
          let s ← fileclose K (s.setFd p fd0 none) rf
          let s ← fileclose K s wf
          return (-1, s)
        | (some _, s) => return (0, s)

def forkFile (p np : Slot) (s : State) (fd : Fd) : Except Panic State :=
  match s.ofile p fd with
  | none => .ok s
  | some f => do
    let s ← filedup s f
    return s.setFd np fd (some f)

def forkFiles (s : State) (p np : Slot) : Except Panic State :=
  (List.finRange NOFILE).foldlM (forkFile p np) s

def exitFile (K : Image) (p : Slot) (s : State) (fd : Fd) : Except Panic State :=
  match s.ofile p fd with
  | none => .ok s
  | some f => do
    let s ← fileclose K s f
    return s.setFd p fd none

def exitFiles (K : Image) (s : State) (p : Slot) : Except Panic State :=
  (List.finRange NOFILE).foldlM (exitFile K p) s

def fork (s : State) (p np : Slot) (memory : Bool) : Except Panic State :=
  let s := s.setState np .EMBRYO
  if memory = false then .ok (s.setState np .UNUSED)
  else do
    let s ← forkFiles s p np
    return s.setState np .LIVE

def exit (K : Image) (s : State) (p : Slot) : Except Panic State := do
  let s ← exitFiles K s p
  return s.setState p .ZOMBIE

inductive Event
  | open (p : Slot) (found : Option ℕ) (omode : BitVec 32)
  | dup (p : Slot) (fd : ℤ)
  | pipe (p : Slot) (arg : Bool)
  | close (p : Slot) (fd : ℤ)
  | fork (p np : Slot) (memory : Bool)
  | exit (p : Slot)
  | wait (p : Slot)
  | memory (free : List Frame)

def State.Pooled (K : Image) (s : State) (free : List Frame) : Prop :=
  free.Nodup ∧ (∀ q ∈ free, K.Managed q) ∧
    ∀ f, (s.file f).type = .FD_PIPE → (s.file f).pipe ∉ free

instance (K : Image) (s : State) (free : List Frame) : Decidable (s.Pooled K free) :=
  inferInstanceAs (Decidable (_ ∧ _ ∧ _))

def step (K : Image) (s : State) : Event → Except Panic State
  | .open p found omode =>
    if s.state p = .LIVE then (sysOpen K s p found omode).map Prod.snd else .ok s
  | .dup p fd => if s.state p = .LIVE then (sysDup s p fd).map Prod.snd else .ok s
  | .pipe p arg => if s.state p = .LIVE then (sysPipe K s p arg).map Prod.snd else .ok s
  | .close p fd => if s.state p = .LIVE then (sysClose K s p fd).map Prod.snd else .ok s
  | .fork p np memory =>
    if s.state p = .LIVE ∧ s.state np = .UNUSED then fork s p np memory else .ok s
  | .exit p => if s.state p = .LIVE then exit K s p else .ok s
  | .wait p => if s.state p = .ZOMBIE then .ok (s.setState p .UNUSED) else .ok s
  | .memory free =>
    if s.Pooled K free then .ok { s with kmem := { s.kmem with freelist := free } } else .ok s

def boot (page : Frame → Page) (p : Slot) : State where
  kmem := { freelist := [], page := page }
  file _ := {}
  pipe _ := { readopen := false, writeopen := false }
  state := update (fun _ => .UNUSED) p .LIVE
  ofile _ _ := none
  life := []

def run (K : Image) (s : State) (es : List Event) : Except Panic State := es.foldlM (step K) s

end Xv6.Files
