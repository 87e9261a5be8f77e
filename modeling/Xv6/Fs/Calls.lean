import Xv6.Lib.Prog
import Xv6.Params

/-!
# The file-system calls

Directories, path names and system calls (`fs.c` from `dirlookup` on, `file.c`, `sysfile.c`, and
the file part of `exec`, `fork` and `exit`), written once over the operations of the inode layer,
which are given on inodes with byte contents in `Fs.Inodes` and on disk blocks in `Fs.Blocks`.
-/

namespace Xv6.Fs

open Lib

abbrev ISlot := Fin NINODE
abbrev FileSlot := Fin NFILE
abbrev Pid := Fin NPROC

abbrev Path := List Byte
abbrev Name := List Byte

abbrev ROOTINO : ℕ := 1
abbrev DIRSIZ : ℕ := 14
abbrev DIRENT : ℕ := 2 + DIRSIZ
abbrev NDIRECT : ℕ := 12
abbrev NINDIRECT : ℕ := BSIZE / 4
abbrev MAXFILE : ℕ := NDIRECT + NINDIRECT

instance (priority := 2000) neZeroAddrs : NeZero (NDIRECT + 1) := ⟨by decide⟩

abbrev T_DIR : BitVec 16 := 1
abbrev T_FILE : BitVec 16 := 2
abbrev T_DEV : BitVec 16 := 3

abbrev O_RDONLY : BitVec 32 := 0x000
abbrev O_WRONLY : BitVec 32 := 0x001
abbrev O_RDWR : BitVec 32 := 0x002
abbrev O_CREATE : BitVec 32 := 0x200

/-- The fields of `struct dinode` other than the block addresses. -/
structure Dinode where
  type : BitVec 16
  major : BitVec 16
  minor : BitVec 16
  nlink : BitVec 16
  size : ℕ
deriving DecidableEq, Repr

structure Dirent where
  inum : ℕ
  name : Name
deriving DecidableEq, Repr

inductive Panic
  | ilock | noType | iunlock
  | outOfBlocks | freeingFreeBlock | bmapOutOfRange
  | iallocNoInodes | igetNoInodes
  | dirlookupNotDir | dirlookupRead | dirlinkRead | dirlink
  | isdirempty | unlinkNlink | unlinkWritei | createDots | createDirlink
  | filedup | fileclose | fileread | filewrite | shortFilewrite
deriving DecidableEq, Repr

inductive Fault
  | panic (p : Panic)
  | hang
  | misuse
deriving DecidableEq, Repr

inductive FdType
  | none | inode
deriving DecidableEq, Repr

structure File where
  type : FdType
  ref : ℕ
  readable : Bool
  writable : Bool
  ip : ISlot
  off : ℕ

/-- `ftable`, and the `cwd` and `ofile` fields of the process table; a slot of the
process table without `cwd` makes no calls. -/
structure Tables where
  cwd : Pid → Option ISlot
  ofile : Pid → ℕ → Option FileSlot
  file : FileSlot → File

namespace Tables

def setCwd (t : Tables) (p : Pid) (ip : Option ISlot) : Tables :=
  { t with cwd := Function.update t.cwd p ip }

def setOfile (t : Tables) (p : Pid) (fd : ℕ) (f : Option FileSlot) : Tables :=
  { t with ofile := Function.update t.ofile p (Function.update (t.ofile p) fd f) }

def setFile (t : Tables) (f : FileSlot) (x : File) : Tables :=
  { t with file := Function.update t.file f x }

end Tables

/-- The operations of the inode layer. `readDirent` and `writeDirent` are `readi` and
`writei` of one `struct dirent`; `none` is a `readi` that did not return 16. -/
inductive Op : Type → Type
  | iget (inum : ℕ) : Op ISlot
  | idup (ip : ISlot) : Op Unit
  | ilock (ip : ISlot) : Op Unit
  | iunlock (ip : ISlot) : Op Unit
  | iput (ip : ISlot) : Op Unit
  | ialloc (type : BitVec 16) : Op ISlot
  | inum (ip : ISlot) : Op ℕ
  | dinode (ip : ISlot) : Op Dinode
  | updateNlink (ip : ISlot) (nlink : BitVec 16) : Op Unit
  | updateNew (ip : ISlot) (major minor : BitVec 16) : Op Unit
  | readi (ip : ISlot) (off n : ℕ) : Op (Option (List Byte))
  | writei (ip : ISlot) (src : List Byte) (off : ℕ) : Op ℤ
  | readDirent (ip : ISlot) (off : ℕ) : Op (Option Dirent)
  | writeDirent (ip : ISlot) (de : Dirent) (off : ℕ) : Op ℤ
  | tables : Op Tables
  | setTables (t : Tables) : Op Unit

abbrev FsProg := Prog Op Fault

def iget (inum : ℕ) : FsProg ISlot := .call (.iget inum)
def idup (ip : ISlot) : FsProg Unit := .call (.idup ip)
def ilock (ip : ISlot) : FsProg Unit := .call (.ilock ip)
def iunlock (ip : ISlot) : FsProg Unit := .call (.iunlock ip)
def iput (ip : ISlot) : FsProg Unit := .call (.iput ip)
def ialloc (type : BitVec 16) : FsProg ISlot := .call (.ialloc type)
def inum (ip : ISlot) : FsProg ℕ := .call (.inum ip)
def dinode (ip : ISlot) : FsProg Dinode := .call (.dinode ip)
def updateNlink (ip : ISlot) (n : BitVec 16) : FsProg Unit := .call (.updateNlink ip n)
def updateNew (ip : ISlot) (major minor : BitVec 16) : FsProg Unit :=
  .call (.updateNew ip major minor)
def readi (ip : ISlot) (off n : ℕ) : FsProg (Option (List Byte)) := .call (.readi ip off n)
def writei (ip : ISlot) (src : List Byte) (off : ℕ) : FsProg ℤ := .call (.writei ip src off)
def readDirent (ip : ISlot) (off : ℕ) : FsProg (Option Dirent) := .call (.readDirent ip off)
def writeDirent (ip : ISlot) (de : Dirent) (off : ℕ) : FsProg ℤ := .call (.writeDirent ip de off)
def tables : FsProg Tables := .call .tables
def setTables (t : Tables) : FsProg Unit := .call (.setTables t)
def panic {α : Type} (p : Panic) : FsProg α := .fault (.panic p)

def iunlockput (ip : ISlot) : FsProg Unit := do
  iunlock ip
  iput ip

-- The trip count of `for (off = from; off < size; off += sizeof(de))`.
def direntsFrom (size start : ℕ) : ℕ := (size - start + (DIRENT - 1)) / DIRENT

def dirlookupLoop (dp : ISlot) (name : Name) : ℕ → ℕ → FsProg (Option (ISlot × ℕ))
  | 0, _ => pure none
  | n + 1, off => do
    match ← readDirent dp off with
    | none => panic .dirlookupRead
    | some de =>
      if de.inum ≠ 0 ∧ name = de.name then do
        let ip ← iget de.inum
        pure (some (ip, off))
      else dirlookupLoop dp name n (off + DIRENT)

def dirlookup (dp : ISlot) (name : Name) : FsProg (Option (ISlot × ℕ)) := do
  let d ← dinode dp
  if d.type ≠ T_DIR then panic .dirlookupNotDir
  else dirlookupLoop dp name (direntsFrom d.size 0) 0

def emptyDirentLoop (dp : ISlot) : ℕ → ℕ → FsProg ℕ
  | 0, off => pure off
  | n + 1, off => do
    match ← readDirent dp off with
    | none => panic .dirlinkRead
    | some de => if de.inum = 0 then pure off else emptyDirentLoop dp n (off + DIRENT)

def dirlink (dp : ISlot) (name : Name) (inum : ℕ) : FsProg ℤ := do
  match ← dirlookup dp name with
  | some (ip, _) => do
    iput ip
    pure (-1)
  | none => do
    let d ← dinode dp
    let off ← emptyDirentLoop dp (direntsFrom d.size 0) 0
    let r ← writeDirent dp ⟨inum, name⟩ off
    if r ≠ DIRENT then panic .dirlink else pure 0

abbrev slash : Byte := 47
abbrev dot : Byte := 46

def skipelem (path : Path) : Option (Name × Path) :=
  match path.dropWhile (· == slash) with
  | [] => none
  | c :: cs =>
    let s := c :: cs
    some ((s.takeWhile (· != slash)).take DIRSIZ,
      (s.dropWhile (· != slash)).dropWhile (· == slash))

def pathElems : ℕ → Path → List Name
  | 0, _ => []
  | n + 1, path =>
    match skipelem path with
    | none => []
    | some (name, rest) => name :: pathElems n rest

def elems (path : Path) : List Name := pathElems path.length path

def namexLoop (nameiparent : Bool) : List Name → ISlot → FsProg (Option (ISlot × Name))
  | [], ip =>
    if nameiparent then do
      iput ip
      pure none
    else pure (some (ip, []))
  | name :: rest, ip => do
    ilock ip
    let d ← dinode ip
    if d.type ≠ T_DIR then do
      iunlockput ip
      pure none
    else if nameiparent ∧ rest = [] then do
      iunlock ip
      pure (some (ip, name))
    else do
      match ← dirlookup ip name with
      | none => do
        iunlockput ip
        pure none
      | some (next, _) => do
        iunlockput ip
        namexLoop nameiparent rest next

def namexStart (p : Pid) (path : Path) : FsProg ISlot := do
  if path.head? = some slash then iget ROOTINO
  else do
    let t ← tables
    match t.cwd p with
    | none => .fault .misuse
    | some ip => do
      idup ip
      pure ip

def namex (p : Pid) (path : Path) (nameiparent : Bool) : FsProg (Option (ISlot × Name)) := do
  let path := path.takeWhile (· != 0)
  let ip ← namexStart p path
  namexLoop nameiparent (elems path) ip

def namei (p : Pid) (path : Path) : FsProg (Option ISlot) := do
  let r ← namex p path false
  pure (r.map (·.1))

def nameiparent (p : Pid) (path : Path) : FsProg (Option (ISlot × Name)) := namex p path true

-- `ip->nlink++` and `ip->nlink--`, with the `iupdate(ip)` after them.
def addNlink (ip : ISlot) (x : BitVec 16) : FsProg Unit := do
  let d ← dinode ip
  updateNlink ip (d.nlink + x)

def sysLinkBad (ip : ISlot) : FsProg ℤ := do
  ilock ip
  addNlink ip (-1)
  iunlockput ip
  pure (-1)

def sysLink (p : Pid) (old new : Path) : FsProg ℤ := do
  match ← namei p old with
  | none => pure (-1)
  | some ip => do
    ilock ip
    let d ← dinode ip
    if d.type = T_DIR then do
      iunlockput ip
      pure (-1)
    else do
      addNlink ip 1
      iunlock ip
      match ← nameiparent p new with
      | none => sysLinkBad ip
      | some (dp, name) => do
        ilock dp
        let i ← inum ip
        let r ← dirlink dp name i
        if r < 0 then do
          iunlockput dp
          sysLinkBad ip
        else do
          iunlockput dp
          iput ip
          pure 0

def isdiremptyLoop (dp : ISlot) : ℕ → ℕ → FsProg Bool
  | 0, _ => pure true
  | n + 1, off => do
    match ← readDirent dp off with
    | none => panic .isdirempty
    | some de => if de.inum ≠ 0 then pure false else isdiremptyLoop dp n (off + DIRENT)

def isdirempty (dp : ISlot) : FsProg Bool := do
  let d ← dinode dp
  isdiremptyLoop dp (direntsFrom d.size (2 * DIRENT)) (2 * DIRENT)

def dotName : Name := [dot]
def dotdotName : Name := [dot, dot]

-- From the point where the entry at `off` of `dp` is known to go.
def sysUnlinkEntry (dp ip : ISlot) (off : ℕ) (isDir : Bool) : FsProg ℤ := do
  let r ← writeDirent dp ⟨0, []⟩ off
  if r ≠ DIRENT then panic .unlinkWritei
  else do
    if isDir then addNlink dp (-1) else pure ()
    iunlockput dp
    addNlink ip (-1)
    iunlockput ip
    pure 0

def sysUnlink (p : Pid) (path : Path) : FsProg ℤ := do
  match ← nameiparent p path with
  | none => pure (-1)
  | some (dp, name) => do
    ilock dp
    if name = dotName ∨ name = dotdotName then do
      iunlockput dp
      pure (-1)
    else do
      match ← dirlookup dp name with
      | none => do
        iunlockput dp
        pure (-1)
      | some (ip, off) => do
        ilock ip
        let d ← dinode ip
        if d.nlink.toInt < 1 then panic .unlinkNlink
        else do
          let removable ← if d.type = T_DIR then isdirempty ip else pure true
          if removable = false then do
            iunlockput ip
            iunlockput dp
            pure (-1)
          else sysUnlinkEntry dp ip off (d.type = T_DIR)

def createDots (dp ip : ISlot) (i : ℕ) : FsProg Unit := do
  addNlink dp 1
  let r ← dirlink ip dotName i
  if r < 0 then panic .createDots
  else do
    let j ← inum dp
    let r ← dirlink ip dotdotName j
    if r < 0 then panic .createDots else pure ()

-- From `ialloc` on: `dp` is locked and has no entry `name`.
def createNew (dp : ISlot) (name : Name) (type major minor : BitVec 16) : FsProg (Option ISlot) := do
  let ip ← ialloc type
  ilock ip
  updateNew ip major minor
  let i ← inum ip
  if type = T_DIR then createDots dp ip i else pure ()
  let r ← dirlink dp name i
  if r < 0 then panic .createDirlink
  else do
    iunlockput dp
    pure (some ip)

def create (p : Pid) (path : Path) (type major minor : BitVec 16) : FsProg (Option ISlot) := do
  match ← nameiparent p path with
  | none => pure none
  | some (dp, name) => do
    ilock dp
    match ← dirlookup dp name with
    | some (ip, _) => do
      iunlockput dp
      ilock ip
      let d ← dinode ip
      if type = T_FILE ∧ d.type = T_FILE then pure (some ip)
      else do
        iunlockput ip
        pure none
    | none => createNew dp name type major minor

def sysMkdir (p : Pid) (path : Path) : FsProg ℤ := do
  match ← create p path T_DIR 0 0 with
  | none => pure (-1)
  | some ip => do
    iunlockput ip
    pure 0

def sysMknod (p : Pid) (path : Path) (major minor : BitVec 16) : FsProg ℤ := do
  match ← create p path T_DEV major minor with
  | none => pure (-1)
  | some ip => do
    iunlockput ip
    pure 0

def filealloc : FsProg (Option FileSlot) := do
  let t ← tables
  match (List.finRange NFILE).find? (fun f => (t.file f).ref = 0) with
  | none => pure none
  | some f => do
    setTables (t.setFile f { t.file f with ref := 1 })
    pure (some f)

def filedup (f : FileSlot) : FsProg Unit := do
  let t ← tables
  if (t.file f).ref < 1 then panic .filedup
  else setTables (t.setFile f { t.file f with ref := (t.file f).ref + 1 })

def fileclose (f : FileSlot) : FsProg Unit := do
  let t ← tables
  let ff := t.file f
  if ff.ref < 1 then panic .fileclose
  else if 0 < ff.ref - 1 then setTables (t.setFile f { ff with ref := ff.ref - 1 })
  else do
    setTables (t.setFile f { ff with ref := 0, type := .none })
    if ff.type = .inode then iput ff.ip else pure ()

def fdalloc (p : Pid) (f : FileSlot) : FsProg (Option ℕ) := do
  let t ← tables
  match (List.range NOFILE).find? (fun fd => t.ofile p fd = none) with
  | none => pure none
  | some fd => do
    setTables (t.setOfile p fd (some f))
    pure (some fd)

def argfd (p : Pid) (fd : ℤ) : FsProg (Option (ℕ × FileSlot)) := do
  let t ← tables
  if fd < 0 ∨ (NOFILE : ℤ) ≤ fd then pure none
  else pure ((t.ofile p fd.toNat).map fun f => (fd.toNat, f))

def openInode (p : Pid) (path : Path) (omode : BitVec 32) : FsProg (Option ISlot) := do
  if omode &&& O_CREATE ≠ 0 then create p path T_FILE 0 0
  else do
    match ← namei p path with
    | none => pure none
    | some ip => do
      ilock ip
      let d ← dinode ip
      if d.type = T_DIR ∧ omode ≠ O_RDONLY then do
        iunlockput ip
        pure none
      else pure (some ip)

def sysOpen (p : Pid) (path : Path) (omode : BitVec 32) : FsProg ℤ := do
  match ← openInode p path omode with
  | none => pure (-1)
  | some ip => do
    match ← filealloc with
    | none => do
      iunlockput ip
      pure (-1)
    | some f => do
      match ← fdalloc p f with
      | none => do
        fileclose f
        iunlockput ip
        pure (-1)
      | some fd => do
        iunlock ip
        let t ← tables
        setTables (t.setFile f
          { type := .inode, ref := (t.file f).ref, ip := ip, off := 0
            readable := omode &&& O_WRONLY = 0
            writable := omode &&& O_WRONLY ≠ 0 ∨ omode &&& O_RDWR ≠ 0 })
        pure fd

def sysDup (p : Pid) (fd : ℤ) : FsProg ℤ := do
  match ← argfd p fd with
  | none => pure (-1)
  | some (_, f) => do
    match ← fdalloc p f with
    | none => pure (-1)
    | some fd' => do
      filedup f
      pure fd'

def sysClose (p : Pid) (fd : ℤ) : FsProg ℤ := do
  match ← argfd p fd with
  | none => pure (-1)
  | some (fd, f) => do
    let t ← tables
    setTables (t.setOfile p fd none)
    fileclose f
    pure 0

def filestat (f : FileSlot) : FsProg (Option Dinode) := do
  let t ← tables
  if (t.file f).type = .inode then do
    ilock (t.file f).ip
    let d ← dinode (t.file f).ip
    iunlock (t.file f).ip
    pure (some d)
  else pure none

def sysFstat (p : Pid) (fd : ℤ) : FsProg ℤ := do
  match ← argfd p fd with
  | none => pure (-1)
  | some (_, f) => do
    match ← filestat f with
    | none => pure (-1)
    | some _ => pure 0

-- `if (r > 0) f->off += r`
def advance (f : FileSlot) (r : ℤ) : FsProg Unit := do
  let t ← tables
  if 0 < r then setTables (t.setFile f { t.file f with off := ((t.file f).off + r.toNat) % 2 ^ 32 })
  else pure ()

def returned : Option (List Byte) → ℤ
  | none => -1
  | some bs => bs.length

def fileread (f : FileSlot) (n : ℕ) : FsProg (Option (List Byte)) := do
  let t ← tables
  if (t.file f).readable = false then pure none
  else match (t.file f).type with
    | .none => panic .fileread
    | .inode => do
      ilock (t.file f).ip
      -- `f->off` is read under the lock.
      let u ← tables
      let r ← readi (t.file f).ip (u.file f).off n
      advance f (returned r)
      iunlock (t.file f).ip
      pure r

def sysRead (p : Pid) (fd : ℤ) (n : ℕ) : FsProg ℤ := do
  match ← argfd p fd with
  | none => pure (-1)
  | some (_, f) => do
    let r ← fileread f n
    pure (returned r)

abbrev maxWrite : ℕ := (MAXOPBLOCKS - 1 - 1 - 2) / 2 * 512

def filewriteLoop (f : FileSlot) : ℕ → List Byte → FsProg Bool
  | 0, _ => pure true
  | fuel + 1, src =>
    if src = [] then pure true
    else do
      let t ← tables
      let ip := (t.file f).ip
      let chunk := src.take maxWrite
      ilock ip
      let u ← tables
      let r ← writei ip chunk (u.file f).off
      advance f r
      iunlock ip
      if r < 0 then pure false
      else if r ≠ chunk.length then panic .shortFilewrite
      else filewriteLoop f fuel (src.drop maxWrite)

def filewrite (f : FileSlot) (src : List Byte) : FsProg ℤ := do
  let t ← tables
  if (t.file f).writable = false then pure (-1)
  else match (t.file f).type with
    | .none => panic .filewrite
    | .inode => do
      let done ← filewriteLoop f src.length src
      pure (if done then src.length else -1)

def sysWrite (p : Pid) (fd : ℤ) (src : List Byte) : FsProg ℤ := do
  match ← argfd p fd with
  | none => pure (-1)
  | some (_, f) => filewrite f src

def sysChdir (p : Pid) (path : Path) : FsProg ℤ := do
  match ← namei p path with
  | none => pure (-1)
  | some ip => do
    ilock ip
    let d ← dinode ip
    if d.type ≠ T_DIR then do
      iunlockput ip
      pure (-1)
    else do
      iunlock ip
      -- `iput(curproc->cwd)` does not read `cwd`, so the assignment after it may come first.
      let t ← tables
      setTables (t.setCwd p (some ip))
      match t.cwd p with
      | none => .fault .misuse
      | some old => do
        iput old
        pure 0

abbrev PGSIZE : ℕ := 4096
abbrev KERNBASE : ℕ := 0x80000000

def le (bs : List Byte) (off : ℕ) : ℕ → ℕ
  | 0 => 0
  | n + 1 => (bs.getD off 0).toNat + 256 * le bs (off + 1) n

def loaduvm (ip : ISlot) (offset : ℕ) : ℕ → ℕ → FsProg Bool
  | 0, _ => pure true
  | pages + 1, sz => do
    let n := min sz PGSIZE
    match ← readi ip (offset % 2 ^ 32) n with
    | none => pure false
    | some bs =>
      if bs.length ≠ n then pure false
      else loaduvm ip (offset + PGSIZE) pages (sz - PGSIZE)

def loadSegments (ip : ISlot) (mem : ℕ → Bool) : ℕ → ℕ → FsProg Bool
  | 0, _ => pure true
  | n + 1, off => do
    match ← readi ip (off % 2 ^ 32) 32 with
    | none => pure false
    | some ph =>
      let offset := le ph 4 4
      let vaddr := le ph 8 4
      let filesz := le ph 16 4
      let memsz := le ph 20 4
      if ph.length ≠ 32 then pure false
      else if le ph 0 4 ≠ 1 then loadSegments ip mem n (off + 32)
      else if memsz < filesz ∨ (vaddr + memsz) % 2 ^ 32 < vaddr ∨ KERNBASE ≤ vaddr + memsz ∨
          mem n = false ∨ vaddr % PGSIZE ≠ 0 then pure false
      else do
        let loaded ← loaduvm ip offset ((filesz + (PGSIZE - 1)) / PGSIZE) filesz
        if loaded then loadSegments ip mem n (off + 32) else pure false

def loadElf (ip : ISlot) (mem : ℕ → Bool) : FsProg Bool := do
  match ← readi ip 0 52 with
  | none => pure false
  | some elf =>
    if elf.length ≠ 52 ∨ le elf 0 4 ≠ 0x464C457F then pure false
    else loadSegments ip mem (le elf 44 2) (le elf 28 4)

/-- The part of `exec` up to `end_op`; the rest does not touch the file system. -/
def exec (p : Pid) (path : Path) (mem : ℕ → Bool) : FsProg ℤ := do
  match ← namei p path with
  | none => pure (-1)
  | some ip => do
    ilock ip
    let loaded ← loadElf ip mem
    iunlockput ip
    pure (if loaded then 0 else -1)

def forkFile (p child : Pid) (fd : ℕ) : FsProg Unit := do
  let t ← tables
  match t.ofile p fd with
  | none => pure ()
  | some f => do
    filedup f
    let t ← tables
    setTables (t.setOfile child fd (some f))

def forkFiles (p child : Pid) : List ℕ → FsProg Unit
  | [] => pure ()
  | fd :: fds => do
    forkFile p child fd
    forkFiles p child fds

def fork (p child : Pid) : FsProg ℤ := do
  forkFiles p child (List.range NOFILE)
  let t ← tables
  match t.cwd p with
  | none => .fault .misuse
  | some ip => do
    idup ip
    setTables (t.setCwd child (some ip))
    pure 0

def exitFile (p : Pid) (fd : ℕ) : FsProg Unit := do
  let t ← tables
  match t.ofile p fd with
  | none => pure ()
  | some f => do
    fileclose f
    let t ← tables
    setTables (t.setOfile p fd none)

def exitFiles (p : Pid) : List ℕ → FsProg Unit
  | [] => pure ()
  | fd :: fds => do
    exitFile p fd
    exitFiles p fds

def exit (p : Pid) : FsProg ℤ := do
  exitFiles p (List.range NOFILE)
  -- As in `sysChdir`, the assignment to `cwd` comes first.
  let t ← tables
  setTables (t.setCwd p none)
  match t.cwd p with
  | none => .fault .misuse
  | some ip => do
    iput ip
    pure 0

inductive Call
  | open (path : Path) (omode : BitVec 32)
  | close (fd : ℤ)
  | read (fd : ℤ) (n : ℕ)
  | write (fd : ℤ) (src : List Byte)
  | fstat (fd : ℤ)
  | dup (fd : ℤ)
  | mkdir (path : Path)
  | mknod (path : Path) (major minor : BitVec 16)
  | link (old new : Path)
  | unlink (path : Path)
  | chdir (path : Path)
  | exec (path : Path) (mem : ℕ → Bool)
  | fork (child : Pid)
  | exit

def Call.prog (p : Pid) : Call → FsProg ℤ
  | .open path omode => sysOpen p path omode
  | .close fd => sysClose p fd
  | .read fd n => sysRead p fd n
  | .write fd src => sysWrite p fd src
  | .fstat fd => sysFstat p fd
  | .dup fd => sysDup p fd
  | .mkdir path => sysMkdir p path
  | .mknod path major minor => sysMknod p path major minor
  | .link old new => sysLink p old new
  | .unlink path => sysUnlink p path
  | .chdir path => sysChdir p path
  | .exec path mem => Fs.exec p path mem
  | .fork child => Fs.fork p child
  | .exit => Fs.exit p

def Call.enabled (t : Tables) (p : Pid) : Call → Bool
  | .fork child => (t.cwd p).isSome && (t.cwd child).isNone
  | _ => (t.cwd p).isSome

end Xv6.Fs
