import Xv6.Lib.Safety
import Xv6.Fs.WriteLog

/-!
# System calls with their transactions

The calls of `Fs.Calls` again, with `begin_op` and `end_op` where the source has them, the
arguments that cannot be fetched (`none`), and pipes.
-/

namespace Xv6.Fs

open Lib

namespace Logged

open Blocks

def readLoop (g : Geometry) :
    ℕ → ℕ → ℕ → Addrs → Disk → Except Fault ((List Byte × Addrs × Disk) × List ℕ)
  | 0, _, _, a, d => .ok (([], a, d), [])
  | n + 1, left, off, a, d =>
    if left = 0 then .ok (([], a, d), [])
    else
      match bmap g (off / BSIZE) a d with
      | .error f => .error f
      | .ok ((b, a', d'), log) =>
        let m := min left (BSIZE - off % BSIZE)
        match readLoop g n (left - m) (off + m) a' d' with
        | .error f => .error f
        | .ok ((bs, r), log') => .ok ((slice (d' b).get (off % BSIZE) m ++ bs, r), log ++ log')

def readi (g : Geometry) (ip : ISlot) (off n : ℕ) (s : BState) :
    Except Fault ((Option (List Byte) × BState) × List ℕ) :=
  let x := (s.cache ip).din
  if x.type = T_DEV then
    match g.conf.driver x.major with
    | none => .ok ((none, s), [])
    | some dev => .ok ((dev.read n, s), [])
  else if x.size < off ∨ (off + n) % 2 ^ 32 < off then .ok ((none, s), [])
  else
    let n' := min n (x.size - off)
    match readLoop g n' n' off (s.vol.addrs ip) s.vol.disk with
    | .error f => .error f
    | .ok ((bs, a, d), log) => .ok ((some bs, setStore s ip a d), log)

variable {g : Geometry} {a : Addrs} {d : Disk} {off n left : ℕ} {ip : ISlot} {s : BState}

theorem readLoop_value (left off : ℕ) (a : Addrs) (d : Disk) :
    (readLoop g n left off a d).map Prod.fst = Blocks.readLoop g n left off a d := by
  induction n generalizing left off a d with
  | zero => rfl
  | succ n ih =>
    simp only [readLoop, Blocks.readLoop, ← bmap_value, ← ih]
    split_ifs
    · rfl
    · cases bmap g (off / BSIZE) a d with
      | error f => rfl
      | ok r =>
        simp only [Except.map]
        cases readLoop g n _ _ r.1.2.1 r.1.2.2 <;> rfl

theorem readi_value : (readi g ip off n s).map Prod.fst = Blocks.readi g ip off n s := by
  simp only [readi, Blocks.readi, ← readLoop_value]
  split_ifs
  · cases g.conf.driver (s.cache ip).din.major <;> rfl
  · rfl
  · cases readLoop g _ _ off (s.vol.addrs ip) s.vol.disk <;> rfl

theorem bmap_mapped {bn : ℕ} (hbn : bn < MAXFILE) (h : blockOf a d (place bn) ≠ 0) :
    bmap g bn a d = .ok ((blockOf a d (place bn), a, d), []) := by
  have hens : ∀ {w : BitVec 32}, w ≠ 0 → ensure g w d = .ok ((w, d), []) := fun hw => if_neg hw
  obtain ⟨hdir, hw, hb⟩ | ⟨k, hk, rfl, hiw, hw, hb⟩ := mapped_cases hbn h
  · simp only [bmap, dif_pos hdir, hens hw, Function.update_eq_self, hb]
  · rw [bmap, dif_neg (by omega), if_pos (by omega), hb]
    simp only [Nat.add_sub_cancel_left, hens hiw, hens hw, if_neg hw, Function.update_eq_self,
      List.append_nil]

theorem readLoop_mapped (n left off : ℕ)
    (hmap : ∀ j, off ≤ j → j < off + left → j < MAXFILE * BSIZE ∧ HasBlock a d j) :
    ∃ bs, readLoop g n left off a d = .ok ((bs, a, d), []) := by
  induction n generalizing left off with
  | zero => exact ⟨[], rfl⟩
  | succ n ih =>
    rw [readLoop]
    split_ifs with h0
    · exact ⟨[], rfl⟩
    · obtain ⟨hmax, hblock⟩ := hmap off le_rfl (by omega)
      rw [bmap_mapped (block_lt hmax) hblock]
      obtain ⟨bs, hbs⟩ := ih (left - min left (BSIZE - off % BSIZE)) (off + min left (BSIZE - off % BSIZE))
        fun j h1 h2 => hmap j (by omega) (by omega)
      simp only [hbs]
      exact ⟨_, rfl⟩

theorem readi_mapped (hmap : (s.cache ip).din.type ≠ T_DEV → ∀ j, off ≤ j → j < off + n →
    j < (s.cache ip).din.size → j < MAXFILE * BSIZE ∧ HasBlock (s.vol.addrs ip) s.vol.disk j) :
    ∃ r, readi g ip off n s = .ok (r, []) := by
  simp only [readi]
  split_ifs with hdev hoff
  · cases g.conf.driver (s.cache ip).din.major <;> exact ⟨_, rfl⟩
  · exact ⟨_, rfl⟩
  · obtain ⟨bs, hbs⟩ := readLoop_mapped (g := g) (min n ((s.cache ip).din.size - off))
      (min n ((s.cache ip).din.size - off)) off fun j h1 h2 => hmap hdev j h1 (by omega) (by omega)
    rw [hbs]
    exact ⟨_, rfl⟩

end Logged

inductive LogOp : Type → Type
  | beginOp : LogOp Unit
  | endOp : LogOp Unit
  | isPipe (f : FileSlot) : LogOp Bool
  | setPipe (f : FileSlot) (b : Bool) : LogOp Unit

abbrev SysOp (β : Type) : Type := Op β ⊕ LogOp β

abbrev SysProg := Prog SysOp Fault

structure SysState where
  kernel : BState
  pipe : FileSlot → Bool
  inOp : Bool

def performS (g : Geometry) : Prog.Handler SysOp Fault SysState
  | _, .inl o, s =>
    match performB g _ o s.kernel with
    | .ok (b, k) => .ok (b, { s with kernel := k })
    | .error f => .error f
  | _, .inr .beginOp, s => .ok ((), { s with inOp := true })
  | _, .inr .endOp, s => .ok ((), { s with inOp := false })
  | _, .inr (.isPipe f), s => .ok (s.pipe f, s)
  | _, .inr (.setPipe f b), s => .ok ((), { s with pipe := Function.update s.pipe f b })

def Unlogged (g : Geometry) : ∀ β, Op β → BState → Prop
  | _, .iput _, _ | _, .ialloc _, _ | _, .updateNlink _ _, _ | _, .updateNew _ _ _, _
  | _, .writei _ _ _, _ | _, .writeDirent _ _ _, _ => False
  | _, .readi ip off n, s => ∃ r, Logged.readi g ip off n s = .ok (r, [])
  | _, .readDirent ip off, s => ∃ r, Logged.readi g ip off DIRENT s = .ok (r, [])
  | _, _, _ => True

namespace Transactions

abbrev fs {α : Type} (p : FsProg α) : SysProg α := p.inl

def beginOp : SysProg Unit := .call (.inr .beginOp)
def endOp : SysProg Unit := .call (.inr .endOp)
def isPipe (f : FileSlot) : SysProg Bool := .call (.inr (.isPipe f))
def setPipe (f : FileSlot) (b : Bool) : SysProg Unit := .call (.inr (.setPipe f b))

/-- Arguments that cannot be fetched make most calls return before they do anything. -/
def fetched {α : Type} (k : α → SysProg ℤ) : Option α → SysProg ℤ
  | none => pure (-1)
  | some a => k a

def sysLinkBad (ip : ISlot) : SysProg ℤ := do
  fs (ilock ip)
  fs (addNlink ip (-1))
  fs (iunlockput ip)
  endOp
  pure (-1)

def sysLink (p : Pid) (old new : Path) : SysProg ℤ := do
  beginOp
  match ← fs (namei p old) with
  | none => do
    endOp
    pure (-1)
  | some ip => do
    fs (ilock ip)
    let d ← fs (dinode ip)
    if d.type = T_DIR then do
      fs (iunlockput ip)
      endOp
      pure (-1)
    else do
      fs (addNlink ip 1)
      fs (iunlock ip)
      match ← fs (nameiparent p new) with
      | none => sysLinkBad ip
      | some (dp, name) => do
        fs (ilock dp)
        let i ← fs (inum ip)
        let r ← fs (dirlink dp name i)
        if r < 0 then do
          fs (iunlockput dp)
          sysLinkBad ip
        else do
          fs (iunlockput dp)
          fs (iput ip)
          endOp
          pure 0

def sysUnlinkBad (dp : ISlot) : SysProg ℤ := do
  fs (iunlockput dp)
  endOp
  pure (-1)

def sysUnlinkEntry (dp ip : ISlot) (off : ℕ) (isDir : Bool) : SysProg ℤ := do
  let r ← fs (writeDirent dp ⟨0, []⟩ off)
  if r ≠ DIRENT then fs (panic .unlinkWritei)
  else do
    fs (if isDir then addNlink dp (-1) else pure ())
    fs (iunlockput dp)
    fs (addNlink ip (-1))
    fs (iunlockput ip)
    endOp
    pure 0

def sysUnlink (p : Pid) (path : Path) : SysProg ℤ := do
  beginOp
  match ← fs (nameiparent p path) with
  | none => do
    endOp
    pure (-1)
  | some (dp, name) => do
    fs (ilock dp)
    if name = dotName ∨ name = dotdotName then sysUnlinkBad dp
    else do
      match ← fs (dirlookup dp name) with
      | none => sysUnlinkBad dp
      | some (ip, off) => do
        fs (ilock ip)
        let d ← fs (dinode ip)
        if d.nlink.toInt < 1 then fs (panic .unlinkNlink)
        else do
          let removable ← fs (if d.type = T_DIR then isdirempty ip else pure true)
          if removable = false then do
            fs (iunlockput ip)
            sysUnlinkBad dp
          else sysUnlinkEntry dp ip off (d.type = T_DIR)

-- The end of `mkdir` and `mknod`.
def created : Option ISlot → SysProg ℤ
  | none => do
    endOp
    pure (-1)
  | some ip => do
    fs (iunlockput ip)
    endOp
    pure 0

def sysMkdir (p : Pid) (path : Option Path) : SysProg ℤ := do
  beginOp
  match path with
  | none => do
    endOp
    pure (-1)
  | some path => do
    let r ← fs (create p path T_DIR 0 0)
    created r

def sysMknod (p : Pid) (args : Option (Path × BitVec 16 × BitVec 16)) : SysProg ℤ := do
  beginOp
  match args with
  | none => do
    endOp
    pure (-1)
  | some (path, major, minor) => do
    let r ← fs (create p path T_DEV major minor)
    created r

def fileclose (f : FileSlot) : SysProg Unit := do
  let t ← fs tables
  let ff := t.file f
  if ff.ref < 1 then fs (panic .fileclose)
  else if 0 < ff.ref - 1 then fs (setTables (t.setFile f { ff with ref := ff.ref - 1 }))
  else do
    let pipe ← isPipe f
    fs (setTables (t.setFile f { ff with ref := 0, type := .none }))
    setPipe f false
    -- `pipeclose` does nothing here.
    if pipe then pure ()
    else if ff.type = .inode then do
      beginOp
      fs (iput ff.ip)
      endOp
    else pure ()

def sysOpen (p : Pid) (path : Path) (omode : BitVec 32) : SysProg ℤ := do
  beginOp
  match ← fs (openInode p path omode) with
  | none => do
    endOp
    pure (-1)
  | some ip => do
    match ← fs filealloc with
    | none => do
      fs (iunlockput ip)
      endOp
      pure (-1)
    | some f => do
      match ← fs (fdalloc p f) with
      | none => do
        fileclose f
        fs (iunlockput ip)
        endOp
        pure (-1)
      | some fd => do
        fs (iunlock ip)
        endOp
        let t ← fs tables
        fs (setTables (t.setFile f
          { type := .inode, ref := (t.file f).ref, ip := ip, off := 0
            readable := omode &&& O_WRONLY = 0
            writable := omode &&& O_WRONLY ≠ 0 ∨ omode &&& O_RDWR ≠ 0 }))
        setPipe f false
        pure fd

def sysClose (p : Pid) (fd : ℤ) : SysProg ℤ := do
  match ← fs (argfd p fd) with
  | none => pure (-1)
  | some (fd, f) => do
    let t ← fs tables
    fs (setTables (t.setOfile p fd none))
    fileclose f
    pure 0

def fileread (f : FileSlot) (n : ℕ) (io : ℤ) : SysProg ℤ := do
  let t ← fs tables
  if (t.file f).readable = false then pure (-1)
  else do
    let pipe ← isPipe f
    if pipe then pure io
    else match (t.file f).type with
      | .none => fs (panic .fileread)
      | .inode => do
        fs (ilock (t.file f).ip)
        let u ← fs tables
        let r ← fs (readi (t.file f).ip (u.file f).off n)
        fs (advance f (returned r))
        fs (iunlock (t.file f).ip)
        pure (returned r)

def sysRead (p : Pid) (fd : ℤ) (n : ℕ) (io : ℤ) : SysProg ℤ := do
  match ← fs (argfd p fd) with
  | none => pure (-1)
  | some (_, f) => fileread f n io

def filewriteLoop (f : FileSlot) : ℕ → List Byte → SysProg Bool
  | 0, _ => pure true
  | fuel + 1, src =>
    if src = [] then pure true
    else do
      let t ← fs tables
      let ip := (t.file f).ip
      let chunk := src.take maxWrite
      beginOp
      fs (ilock ip)
      let u ← fs tables
      let r ← fs (writei ip chunk (u.file f).off)
      fs (advance f r)
      fs (iunlock ip)
      endOp
      if r < 0 then pure false
      else if r ≠ chunk.length then fs (panic .shortFilewrite)
      else filewriteLoop f fuel (src.drop maxWrite)

def filewrite (f : FileSlot) (src : List Byte) (io : ℤ) : SysProg ℤ := do
  let t ← fs tables
  if (t.file f).writable = false then pure (-1)
  else do
    let pipe ← isPipe f
    if pipe then pure io
    else match (t.file f).type with
      | .none => fs (panic .filewrite)
      | .inode => do
        let done ← filewriteLoop f src.length src
        pure (if done then src.length else -1)

def sysWrite (p : Pid) (fd : ℤ) (src : List Byte) (io : ℤ) : SysProg ℤ := do
  match ← fs (argfd p fd) with
  | none => pure (-1)
  | some (_, f) => filewrite f src io

def connect (f : FileSlot) (writable : Bool) : SysProg Unit := do
  let t ← fs tables
  fs (setTables (t.setFile f
    { t.file f with type := .none, readable := !writable, writable := writable }))
  setPipe f true

def pipealloc (memory : Bool) : SysProg (Option (FileSlot × FileSlot)) := do
  match ← fs filealloc with
  | none => pure none
  | some f0 => do
    match ← fs filealloc with
    | none => do
      fileclose f0
      pure none
    | some f1 =>
      if memory = false then do
        fileclose f0
        fileclose f1
        pure none
      else do
        connect f0 false
        connect f1 true
        pure (some (f0, f1))

def sysPipe (p : Pid) (memory : Bool) : SysProg ℤ := do
  match ← pipealloc memory with
  | none => pure (-1)
  | some (rf, wf) => do
    match ← fs (fdalloc p rf) with
    | none => do
      fileclose rf
      fileclose wf
      pure (-1)
    | some fd0 => do
      match ← fs (fdalloc p wf) with
      | none => do
        let t ← fs tables
        fs (setTables (t.setOfile p fd0 none))
        fileclose rf
        fileclose wf
        pure (-1)
      | some _ => pure 0

def sysChdir (p : Pid) (path : Option Path) : SysProg ℤ := do
  beginOp
  match path with
  | none => do
    endOp
    pure (-1)
  | some path => do
    match ← fs (namei p path) with
    | none => do
      endOp
      pure (-1)
    | some ip => do
      fs (ilock ip)
      let d ← fs (dinode ip)
      if d.type ≠ T_DIR then do
        fs (iunlockput ip)
        endOp
        pure (-1)
      else do
        fs (iunlock ip)
        let t ← fs tables
        fs (setTables (t.setCwd p (some ip)))
        match t.cwd p with
        | none => .fault .misuse
        | some old => do
          fs (iput old)
          endOp
          pure 0

def exec (p : Pid) (path : Path) (mem : ℕ → Bool) : SysProg ℤ := do
  beginOp
  match ← fs (namei p path) with
  | none => do
    endOp
    pure (-1)
  | some ip => do
    fs (ilock ip)
    let loaded ← fs (loadElf ip mem)
    fs (iunlockput ip)
    endOp
    pure (if loaded then 0 else -1)

def exitFile (p : Pid) (fd : ℕ) : SysProg Unit := do
  let t ← fs tables
  match t.ofile p fd with
  | none => pure ()
  | some f => do
    fileclose f
    let t ← fs tables
    fs (setTables (t.setOfile p fd none))

def exitFiles (p : Pid) : List ℕ → SysProg Unit
  | [] => pure ()
  | fd :: fds => do
    exitFile p fd
    exitFiles p fds

def exit (p : Pid) : SysProg ℤ := do
  exitFiles p (List.range NOFILE)
  beginOp
  let t ← fs tables
  fs (setTables (t.setCwd p none))
  match t.cwd p with
  | none => .fault .misuse
  | some ip => do
    fs (iput ip)
    endOp
    pure 0

end Transactions

inductive SysCall
  | open (args : Option (Path × BitVec 32))
  | close (fd : Option ℤ)
  | read (args : Option (ℤ × ℕ)) (io : ℤ)
  | write (args : Option (ℤ × List Byte)) (io : ℤ)
  | fstat (fd : Option ℤ)
  | dup (fd : Option ℤ)
  | pipe (arg : Option Unit) (memory : Bool)
  | mkdir (path : Option Path)
  | mknod (args : Option (Path × BitVec 16 × BitVec 16))
  | link (args : Option (Path × Path))
  | unlink (path : Option Path)
  | chdir (path : Option Path)
  | exec (path : Option Path) (mem : ℕ → Bool)
  | fork (child : Option Pid)
  | exit

open Transactions (fs fetched) in
def SysCall.prog (p : Pid) : SysCall → SysProg ℤ
  | .open args => fetched (fun a => Transactions.sysOpen p a.1 a.2) args
  | .close fd => fetched (Transactions.sysClose p) fd
  | .read args io => fetched (fun a => Transactions.sysRead p a.1 a.2 io) args
  | .write args io => fetched (fun a => Transactions.sysWrite p a.1 a.2 io) args
  | .fstat fd => fetched (fun fd => fs (sysFstat p fd)) fd
  | .dup fd => fetched (fun fd => fs (sysDup p fd)) fd
  | .pipe arg memory => fetched (fun _ => Transactions.sysPipe p memory) arg
  | .mkdir path => Transactions.sysMkdir p path
  | .mknod args => Transactions.sysMknod p args
  | .link args => fetched (fun a => Transactions.sysLink p a.1 a.2) args
  | .unlink path => fetched (Transactions.sysUnlink p) path
  | .chdir path => Transactions.sysChdir p path
  | .exec path mem => fetched (fun path => Transactions.exec p path mem) path
  | .fork child => fetched (fun child => fs (Fs.fork p child)) child
  | .exit => Transactions.exit p

/-- The answers where no file is a pipe. -/
def noPipes : ∀ β, LogOp β → β
  | _, .beginOp => ()
  | _, .endOp => ()
  | _, .isPipe _ => false
  | _, .setPipe _ _ => ()

namespace Transactions

/-- `q` is `l` with transactions around it, on files that are no pipes. -/
def Ties {α : Type} (q : SysProg α) (l : FsProg α) : Prop := Prog.answer noPipes q = l

section Ties

variable {α β : Type} {q q' : SysProg α} {l l' : FsProg α} {k : α → SysProg β} {j : α → FsProg β}

theorem Ties.bind (hq : Ties q l) (hk : ∀ a, Ties (k a) (j a)) : Ties (q >>= k) (l >>= j) := by
  rw [Ties, Prog.answer_bind, hq]
  exact congrArg _ (funext hk)

theorem Ties.fs (hk : ∀ a, Ties (k a) (j a)) : Ties (fs l >>= k) (l >>= j) :=
  .bind (Prog.answer_inl l) hk

theorem Ties.log {o : LogOp α} {m : FsProg β} (hk : Ties (k (noPipes α o)) m) :
    Ties (.call (.inr o) >>= k) m := hk

theorem Ties.ite {c : Prop} [Decidable c] (hq : Ties q l) (hq' : Ties q' l') :
    Ties (if c then q else q') (if c then l else l') := by
  split_ifs
  · exact hq
  · exact hq'

end Ties

variable {p : Pid} {f : FileSlot} {ip dp : ISlot}

theorem ties_sysLinkBad : Ties (sysLinkBad ip) (Fs.sysLinkBad ip) :=
  .fs fun _ => .fs fun _ => .fs fun _ => .log rfl

theorem ties_sysLink (old new : Path) : Ties (sysLink p old new) (Fs.sysLink p old new) := by
  refine .log (.fs fun r => ?_)
  cases r with
  | none => exact .log rfl
  | some ip =>
    refine .fs fun _ => .fs fun d => .ite (.fs fun _ => .log rfl)
      (.fs fun _ => .fs fun _ => .fs fun r => ?_)
    cases r with
    | none => exact ties_sysLinkBad
    | some r =>
      exact .fs fun _ => .fs fun _ => .fs fun _ => .ite (.fs fun _ => ties_sysLinkBad)
        (.fs fun _ => .fs fun _ => .log rfl)

theorem ties_sysUnlinkEntry (off : ℕ) (isDir : Bool) :
    Ties (sysUnlinkEntry dp ip off isDir) (Fs.sysUnlinkEntry dp ip off isDir) := by
  refine .fs fun _ => .ite rfl ?_
  cases isDir <;> exact .fs fun _ => .fs fun _ => .fs fun _ => .fs fun _ => .log rfl

theorem ties_sysUnlink (path : Path) : Ties (sysUnlink p path) (Fs.sysUnlink p path) := by
  refine .log (.fs fun r => ?_)
  cases r with
  | none => exact .log rfl
  | some r =>
    refine .fs fun _ => .ite (.fs fun _ => .log rfl) (.fs fun e => ?_)
    cases e with
    | none => exact .fs fun _ => .log rfl
    | some e =>
      refine .fs fun _ => .fs fun d => .ite rfl ?_
      by_cases hd : d.type = T_DIR
      · simp only [hd, if_true]
        exact .fs fun _ => .ite (.fs fun _ => .fs fun _ => .log rfl) (ties_sysUnlinkEntry _ _)
      · simp only [hd, if_false]
        exact .fs fun _ => .ite (.fs fun _ => .fs fun _ => .log rfl) (ties_sysUnlinkEntry _ _)

theorem ties_sysMkdir (path : Path) : Ties (sysMkdir p (some path)) (Fs.sysMkdir p path) := by
  refine .log (.fs fun r => ?_)
  cases r with
  | none => exact .log rfl
  | some ip => exact .fs fun _ => .log rfl

theorem ties_sysMknod (path : Path) (major minor : BitVec 16) :
    Ties (sysMknod p (some (path, major, minor))) (Fs.sysMknod p path major minor) := by
  refine .log (.fs fun r => ?_)
  cases r with
  | none => exact .log rfl
  | some ip => exact .fs fun _ => .log rfl

theorem ties_fileclose : Ties (fileclose f) (Fs.fileclose f) := by
  refine .fs fun t => .ite rfl (.ite rfl (.log (.fs fun _ => .log ?_)))
  change Ties (if (t.file f).type = .inode then _ else _) _
  exact .ite rfl rfl

theorem ties_sysOpen (path : Path) (omode : BitVec 32) :
    Ties (sysOpen p path omode) (Fs.sysOpen p path omode) := by
  refine .log (.fs fun r => ?_)
  cases r with
  | none => exact .log rfl
  | some ip =>
    refine .fs fun r => ?_
    cases r with
    | none => exact .fs fun _ => .log rfl
    | some f =>
      refine .fs fun r => ?_
      cases r with
      | none => exact .bind ties_fileclose fun _ => .fs fun _ => .log rfl
      | some fd => exact .fs fun _ => .log (.fs fun _ => .fs fun _ => .log rfl)

theorem ties_sysClose (fd : ℤ) : Ties (sysClose p fd) (Fs.sysClose p fd) := by
  refine .fs fun r => ?_
  cases r with
  | none => rfl
  | some r => exact .fs fun _ => .fs fun _ => .bind ties_fileclose fun _ => rfl

theorem ties_fileread (n : ℕ) (io : ℤ) :
    Ties (fileread f n io) (Fs.fileread f n >>= fun r => pure (returned r)) := by
  rw [Fs.fileread, bind_assoc]
  refine .fs fun t => ?_
  by_cases hr : (t.file f).readable = false
  · simp only [hr, if_true]
    rfl
  · rw [if_neg hr, if_neg hr]
    refine .log ?_
    cases (t.file f).type with
    | none => rfl
    | inode =>
      simp only [bind_assoc]
      exact .fs fun _ => .fs fun _ => .fs fun _ => .fs fun _ => .fs fun _ => rfl

theorem ties_sysRead (fd : ℤ) (n : ℕ) (io : ℤ) :
    Ties (sysRead p fd n io) (Fs.sysRead p fd n) := by
  refine .fs fun r => ?_
  cases r with
  | none => rfl
  | some r => exact ties_fileread n io

theorem ties_filewriteLoop (fuel : ℕ) (src : List Byte) :
    Ties (filewriteLoop f fuel src) (Fs.filewriteLoop f fuel src) := by
  induction fuel generalizing src with
  | zero => rfl
  | succ fuel ih =>
    exact .ite rfl (.fs fun _ => .log (.fs fun _ => .fs fun _ => .fs fun _ => .fs fun _ =>
      .fs fun _ => .log (.ite rfl (.ite rfl (ih _)))))

theorem ties_sysWrite (fd : ℤ) (src : List Byte) (io : ℤ) :
    Ties (sysWrite p fd src io) (Fs.sysWrite p fd src) := by
  refine .fs fun r => ?_
  cases r with
  | none => rfl
  | some r =>
    refine .fs fun t => .ite rfl (.log ?_)
    cases (t.file r.2).type with
    | none => rfl
    | inode => exact .bind (ties_filewriteLoop _ _) fun _ => rfl

theorem ties_sysChdir (path : Path) : Ties (sysChdir p (some path)) (Fs.sysChdir p path) := by
  refine .log (.fs fun r => ?_)
  cases r with
  | none => exact .log rfl
  | some ip =>
    refine .fs fun _ => .fs fun d => .ite (.fs fun _ => .log rfl)
      (.fs fun _ => .fs fun t => .fs fun _ => ?_)
    cases t.cwd p with
    | none => rfl
    | some old => exact .fs fun _ => .log rfl

theorem ties_exec (path : Path) (mem : ℕ → Bool) :
    Ties (exec p path mem) (Fs.exec p path mem) := by
  refine .log (.fs fun r => ?_)
  cases r with
  | none => exact .log rfl
  | some ip => exact .fs fun _ => .fs fun _ => .fs fun _ => .log rfl

theorem ties_exitFiles (fds : List ℕ) : Ties (exitFiles p fds) (Fs.exitFiles p fds) := by
  induction fds with
  | nil => rfl
  | cons fd fds ih =>
    refine .bind (.fs fun t => ?_) fun _ => ih
    cases t.ofile p fd with
    | none => rfl
    | some f => exact .bind ties_fileclose fun _ => .fs fun _ => Prog.answer_inl _

theorem ties_exit : Ties (exit p) (Fs.exit p) := by
  refine .bind (ties_exitFiles _) fun _ => .log (.fs fun t => .fs fun _ => ?_)
  cases t.cwd p with
  | none => rfl
  | some ip => exact .fs fun _ => .log rfl

end Transactions

def Call.sys : Call → SysCall
  | .open path omode => .open (some (path, omode))
  | .close fd => .close (some fd)
  | .read fd n => .read (some (fd, n)) 0
  | .write fd src => .write (some (fd, src)) 0
  | .fstat fd => .fstat (some fd)
  | .dup fd => .dup (some fd)
  | .mkdir path => .mkdir (some path)
  | .mknod path major minor => .mknod (some (path, major, minor))
  | .link old new => .link (some (old, new))
  | .unlink path => .unlink (some path)
  | .chdir path => .chdir (some path)
  | .exec path mem => .exec (some path) mem
  | .fork child => .fork (some child)
  | .exit => .exit

open Transactions in
/-- The calls of `Fs.Calls` are those with transactions, where no file is a pipe. -/
theorem ties_prog (p : Pid) (c : Call) : Ties (c.sys.prog p) (c.prog p) := by
  cases c with
  | «open» path omode => exact ties_sysOpen path omode
  | close fd => exact ties_sysClose fd
  | read fd n => exact ties_sysRead fd n 0
  | write fd src => exact ties_sysWrite fd src 0
  | fstat fd => exact Prog.answer_inl _
  | dup fd => exact Prog.answer_inl _
  | mkdir path => exact ties_sysMkdir path
  | mknod path major minor => exact ties_sysMknod path major minor
  | link old new => exact ties_sysLink old new
  | unlink path => exact ties_sysUnlink path
  | chdir path => exact ties_sysChdir path
  | exec path mem => exact ties_exec path mem
  | fork child => exact Prog.answer_inl _
  | exit => exact ties_exit

def SysCall.enabled (t : Tables) (p : Pid) : SysCall → Bool
  | .fork (some child) => (t.cwd p).isSome && (t.cwd child).isNone
  | _ => (t.cwd p).isSome

def stepS (g : Geometry) (s : SysState) (e : Pid × SysCall) : Option SysState :=
  if e.2.enabled s.kernel.tables e.1 then
    match (e.2.prog e.1).run (performS g) s with
    | .ok (_, s') => some s'
    | .error _ => none
  else none

def bootS (d : Disk) : SysState where
  kernel := bootB d
  pipe _ := false
  inOp := false

end Xv6.Fs
