import Xv6.Fs.Transactions
import Xv6.Vm.PageTable

/-!
# `exec`

The one system call that needs the file system, physical memory and the process at once; its
program is over the operations of all three.
-/

namespace Xv6.Exec

open Lib

structure Proc where
  pgdir : Vm.Frame
  sz : ℕ
  eip : ℕ
  esp : ℕ
  name : List Byte

structure State where
  mem : Vm.Kmem
  sys : Fs.SysState
  proc : Proc

inductive ProcOp : Type → Type
  | myproc : ProcOp Proc
  | setProc (x : Proc) : ProcOp Unit

inductive Op (β : Type)
  | mem (o : Vm.Op β)
  | sys (o : Fs.SysOp β)
  | proc (o : ProcOp β)

inductive Fault
  | mem (p : Vm.Panic)
  | fs (f : Fs.Fault)
deriving DecidableEq

def perform (K : Vm.Image) (g : Fs.Geometry) : Prog.Handler Op Fault State
  | _, .mem o, s =>
    match Vm.perform K _ o s.mem with
    | .ok (b, m) => .ok (b, { s with mem := m })
    | .error p => .error (.mem p)
  | _, .sys o, s =>
    match Fs.performS g _ o s.sys with
    | .ok (b, k) => .ok (b, { s with sys := k })
    | .error f => .error (.fs f)
  | _, .proc .myproc, s => .ok (s.proc, s)
  | _, .proc (.setProc x), s => .ok ((), { s with proc := x })

abbrev ExecProg := Prog Op Fault

def mem {α : Type} (p : Vm.VmProg α) : ExecProg α := p.lift (fun _ o => .mem o) .mem

def sys {α : Type} (p : Fs.SysProg α) : ExecProg α := p.lift (fun _ o => .sys o) .fs

def fs {α : Type} (p : Fs.FsProg α) : ExecProg α := sys (Fs.Transactions.fs p)

def beginOp : ExecProg Unit := sys Fs.Transactions.beginOp
def endOp : ExecProg Unit := sys Fs.Transactions.endOp

def myproc : ExecProg Proc := .call (.proc .myproc)
def setProc (x : Proc) : ExecProg Unit := .call (.proc (.setProc x))

open Fs (ISlot Path le)
open Vm (Frame PGSIZE pgroundup)

def loadLoop (pgdir : Frame) (addr : ℕ) (ip : ISlot) (offset sz i : ℕ) : ExecProg Bool :=
  if h : i < sz then do
    match ← mem (Vm.walkpgdir pgdir (addr + i) false) with
    | none => .fault (.mem .loaduvmExist)
    | some (pgtab, j) => do
      let pte ← mem (Vm.VmProg.load pgtab j)
      let n := if sz - i < PGSIZE then sz - i else PGSIZE
      match ← fs (Fs.readi ip ((offset + i) % 2 ^ 32) n) with
      | none => pure false
      | some bytes => do
        mem (Vm.VmProg.write (Vm.pteAddr pte) 0 (min bytes.length n) fun k => bytes.getD k 0)
        if bytes.length ≠ n then pure false
        else loadLoop pgdir addr ip offset sz (i + PGSIZE)
  else pure true
termination_by sz - i
decreasing_by
  simp only [PGSIZE]
  omega

def loaduvm (pgdir : Frame) (addr : ℕ) (ip : ISlot) (offset sz : ℕ) : ExecProg Bool :=
  if addr % PGSIZE ≠ 0 then .fault (.mem .loaduvmAligned)
  else loadLoop pgdir addr ip offset sz 0

abbrev ELF_MAGIC : ℕ := 0x464C457F
abbrev ELF_PROG_LOAD : ℕ := 1

abbrev ELFHDR : ℕ := 52

abbrev PROGHDR : ℕ := 32

def loadSegments (pgdir : Frame) (ip : ISlot) : ℕ → ℕ → ℕ → ExecProg (Option ℕ)
  | 0, _, sz => pure (some sz)
  | n + 1, off, sz => do
    match ← fs (Fs.readi ip off PROGHDR) with
    | none => pure none
    | some ph =>
      let offset := le ph 4 4
      let vaddr := le ph 8 4
      let filesz := le ph 16 4
      let memsz := le ph 20 4
      if ph.length ≠ PROGHDR then pure none
      else if le ph 0 4 ≠ ELF_PROG_LOAD then loadSegments pgdir ip n ((off + PROGHDR) % 2 ^ 32) sz
      else if memsz < filesz then pure none
      else if (vaddr + memsz) % 2 ^ 32 < vaddr then pure none
      else do
        let sz ← mem (Vm.allocuvm pgdir sz ((vaddr + memsz) % 2 ^ 32))
        if sz = 0 then pure none
        else if vaddr % PGSIZE ≠ 0 then pure none
        else do
          if ← loaduvm pgdir vaddr ip offset filesz then
            loadSegments pgdir ip n ((off + PROGHDR) % 2 ^ 32) sz
          else pure none

inductive Loaded
  | failed (pgdir : Option Frame)
  | ok (pgdir : Frame) (sz entry : ℕ)

def load (K : Vm.Image) (ip : ISlot) : ExecProg Loaded := do
  match ← fs (Fs.readi ip 0 ELFHDR) with
  | none => pure (.failed none)
  | some elf =>
    if elf.length ≠ ELFHDR then pure (.failed none)
    else if le elf 0 4 ≠ ELF_MAGIC then pure (.failed none)
    else do
      match ← mem (Vm.setupkvm K) with
      | none => pure (.failed none)
      | some pgdir => do
        match ← loadSegments pgdir ip (le elf 44 2) (le elf 28 4) 0 with
        | none => pure (.failed (some pgdir))
        | some sz => pure (.ok pgdir sz (le elf 24 4))

def pushLoop (cur pgdir : Frame) : List (List Byte) → ℕ → List ℕ → Vm.VmProg (Option (ℕ × List ℕ))
  | [], sp, ptrs => pure (some (sp, ptrs))
  | arg :: args, sp, ptrs =>
    if MAXARG ≤ ptrs.length then pure none
    else do
      let len := (arg.length + 1) % 2 ^ 32
      let sp := (sp + 2 ^ 32 - len) % 2 ^ 32 / 4 * 4
      if ← Vm.copyout cur pgdir sp (fun k => arg.getD k 0) len then
        pushLoop cur pgdir args sp (ptrs ++ [sp])
      else pure none

def uintBytes (ws : List ℕ) (k : ℕ) : Byte :=
  (BitVec.ofNat 32 (ws.getD (k / 4) 0)).extractLsb' (8 * (k % 4)) 8

/-- The argument strings and `ustack`, below `sz`; the stack pointer at the end. -/
def pushStack (cur pgdir : Frame) (sz : ℕ) (args : List (List Byte)) : Vm.VmProg (Option ℕ) := do
  match ← pushLoop cur pgdir args sz [] with
  | none => pure none
  | some (sp, ptrs) => do
    let argc := ptrs.length
    let ustack := [0xffffffff, argc, (sp + 2 ^ 32 - (argc + 1) * 4) % 2 ^ 32] ++ ptrs ++ [0]
    let sp := (sp + 2 ^ 32 - (3 + argc + 1) * 4) % 2 ^ 32
    if ← Vm.copyout cur pgdir sp (uintBytes ustack) ((3 + argc + 1) * 4) then pure (some sp)
    else pure none

def pushArgs (cur pgdir : Frame) (sz : ℕ) (args : List (List Byte)) : Vm.VmProg (Option (ℕ × ℕ)) := do
  let sz := pgroundup sz
  let sz ← Vm.allocuvm pgdir sz ((sz + 2 * PGSIZE) % 2 ^ 32)
  if sz = 0 then pure none
  else do
    Vm.clearpteu pgdir ((sz + 2 ^ 32 - 2 * PGSIZE) % 2 ^ 32)
    let sp ← pushStack cur pgdir sz args
    pure (sp.map fun sp => (sz, sp))

inductive Outcome
  | bad (pgdir : Option Frame) (ip : Option ISlot)
  | done (pgdir : Frame) (sz sp entry : ℕ)

def Outcome.pgdir : Outcome → Option Frame
  | .bad d _ => d
  | .done d _ _ _ => some d

def build (K : Vm.Image) (cur : Frame) (ip : ISlot) (args : List (List Byte)) : ExecProg Outcome := do
  match ← load K ip with
  | .failed pgdir => pure (.bad pgdir (some ip))
  | .ok pgdir sz entry => do
    fs (Fs.iunlockput ip)
    endOp
    match ← mem (pushArgs cur pgdir sz args) with
    | none => pure (.bad (some pgdir) none)
    | some (sz, sp) => pure (.done pgdir sz sp entry)

def lastElem : Path → Path → Path
  | last, [] => last
  | last, c :: s => lastElem (if c = Fs.slash then s else last) s

abbrev NAMESIZE : ℕ := 16

def commit (path : Path) (oldpgdir pgdir : Frame) (sz sp entry : ℕ) : ExecProg ℤ := do
  let path := path.takeWhile (· != 0)
  setProc ⟨pgdir, sz, entry, sp, (lastElem path path).take (NAMESIZE - 1)⟩
  mem (Vm.freevm oldpgdir)
  pure 0

def bad (pgdir : Option Frame) (ip : Option ISlot) : ExecProg ℤ := do
  match pgdir with
  | none => pure ()
  | some d => mem (Vm.freevm d)
  match ip with
  | none => pure (-1)
  | some ip => do
    fs (Fs.iunlockput ip)
    endOp
    pure (-1)

def openPath (p : Fs.Pid) (path : Path) : ExecProg (Option ISlot) := do
  beginOp
  match ← fs (Fs.namei p path) with
  | none => do
    endOp
    pure none
  | some ip => do
    fs (Fs.ilock ip)
    pure (some ip)

def exec (K : Vm.Image) (p : Fs.Pid) (path : Path) (args : List (List Byte)) : ExecProg ℤ := do
  let curproc ← myproc
  match ← openPath p path with
  | none => pure (-1)
  | some ip => do
    match ← build K curproc.pgdir ip args with
    | .bad pgdir ip => bad pgdir ip
    | .done pgdir sz sp entry => commit path curproc.pgdir pgdir sz sp entry

end Xv6.Exec
