import Xv6.Fs.Inodes

/-!
# The inode layer on disk blocks

`fs.c` from `balloc` to `writei`. `disk b` is what `bread` returns for block `b`; a buffer that is
changed and passed to `log_write` is an update of `disk`.
-/

namespace Xv6.Fs

open Lib
open Function (update)

structure Geometry where
  size : ℕ
  nblocks : ℕ
  ninodes : ℕ
  inodestart : ℕ
  bmapstart : ℕ
  devsw : ℕ → Option Driver

abbrev DINODE : ℕ := 64
abbrev IPB : ℕ := BSIZE / DINODE
abbrev BPB : ℕ := BSIZE * 8

namespace Geometry

def conf (g : Geometry) : Conf := ⟨g.ninodes, g.devsw⟩

/-- Boot block, superblock, log, inode blocks and bitmap come before the data blocks. -/
def nmeta (g : Geometry) : ℕ := g.size - g.nblocks

def iblock (g : Geometry) (i : ℕ) : ℕ := i / IPB + g.inodestart

def bblock (g : Geometry) (b : ℕ) : ℕ := b / BPB + g.bmapstart

end Geometry

abbrev Disk := ℕ → Block

abbrev Addrs := Fin (NDIRECT + 1) → BitVec 32

structure Store where
  disk : Disk
  addrs : ISlot → Addrs

abbrev BState := Kernel Store

namespace Blocks

def bitMask (bi : ℕ) : Byte := (1 : Byte) <<< (bi % 8)

def freeBit (bp : Block) (b size : ℕ) : ℕ → ℕ → Option ℕ
  | 0, _ => none
  | n + 1, bi =>
    if b + bi < size then
      if bp.get (bi / 8) &&& bitMask bi = 0 then some bi else freeBit bp b size n (bi + 1)
    else none

def markBit (g : Geometry) (b bi : ℕ) (d : Disk) : Disk :=
  update d (g.bblock b)
    ((d (g.bblock b)).set (bi / 8) ((d (g.bblock b)).get (bi / 8) ||| bitMask bi))

def bzero (b : ℕ) (d : Disk) : Disk := update d b (Bytes.zero BSIZE)

def ballocLoop (g : Geometry) (d : Disk) : ℕ → ℕ → Option (ℕ × Disk)
  | 0, _ => none
  | n + 1, b =>
    if b < g.size then
      match freeBit (d (g.bblock b)) b g.size BPB 0 with
      | some bi => some (b + bi, bzero (b + bi) (markBit g b bi d))
      | none => ballocLoop g d n (b + BPB)
    else none

def balloc (g : Geometry) (d : Disk) : Except Fault (ℕ × Disk) :=
  match ballocLoop g d (g.size / BPB + 1) 0 with
  | some r => .ok r
  | none => .error (.panic .outOfBlocks)

def bfree (g : Geometry) (b : ℕ) (d : Disk) : Except Fault Disk :=
  let bp := d (g.bblock b)
  let bi := b % BPB
  if bp.get (bi / 8) &&& bitMask bi = 0 then .error (.panic .freeingFreeBlock)
  else .ok (update d (g.bblock b) (bp.set (bi / 8) (bp.get (bi / 8) &&& ~~~ bitMask bi)))

def dinodeAt (bp : Block) (k : ℕ) : Dinode where
  type := bp.half (DINODE * k)
  major := bp.half (DINODE * k + 2)
  minor := bp.half (DINODE * k + 4)
  nlink := bp.half (DINODE * k + 6)
  size := (bp.word (DINODE * k + 8)).toNat

def addrsAt (bp : Block) (k : ℕ) : Addrs := fun j => bp.word (DINODE * k + 12 + 4 * j.val)

def Addrs.bytes (a : Addrs) (t : ℕ) : Byte :=
  if h : t / 4 < NDIRECT + 1 then (a ⟨t / 4, h⟩).extractLsb' (8 * (t % 4)) 8 else 0

def putDinode (bp : Block) (k : ℕ) (x : Dinode) (a : Addrs) : Block :=
  (((((bp.setHalf (DINODE * k) x.type).setHalf (DINODE * k + 2) x.major).setHalf
    (DINODE * k + 4) x.minor).setHalf (DINODE * k + 6) x.nlink).setWord (DINODE * k + 8)
      (BitVec.ofNat 32 x.size)).blit (DINODE * k + 12) (4 * (NDIRECT + 1)) (Addrs.bytes a)

def newDinode (bp : Block) (k : ℕ) (type : BitVec 16) : Block :=
  (bp.blit (DINODE * k) DINODE fun _ => 0).setHalf (DINODE * k) type

def readDinode (g : Geometry) (d : Disk) (i : ℕ) : Dinode := dinodeAt (d (g.iblock i)) (i % IPB)

def readAddrs (g : Geometry) (d : Disk) (i : ℕ) : Addrs := addrsAt (d (g.iblock i)) (i % IPB)

def writeDinode (g : Geometry) (d : Disk) (i : ℕ) (x : Dinode) (a : Addrs) : Disk :=
  update d (g.iblock i) (putDinode (d (g.iblock i)) (i % IPB) x a)

def ensure (g : Geometry) (w : BitVec 32) (d : Disk) : Except Fault (BitVec 32 × Disk) :=
  if w = 0 then
    match balloc g d with
    | .ok (b, d') => .ok (BitVec.ofNat 32 b, d')
    | .error f => .error f
  else .ok (w, d)

def bmap (g : Geometry) (bn : ℕ) (a : Addrs) (d : Disk) : Except Fault (ℕ × Addrs × Disk) :=
  if h : bn < NDIRECT then
    match ensure g (a ⟨bn, Nat.lt_succ_of_lt h⟩) d with
    | .ok (w, d') => .ok (w.toNat, update a ⟨bn, Nat.lt_succ_of_lt h⟩ w, d')
    | .error f => .error f
  else if bn - NDIRECT < NINDIRECT then
    match ensure g (a (Fin.last NDIRECT)) d with
    | .error f => .error f
    | .ok (iw, d1) =>
      let old := (d1 iw.toNat).word (4 * (bn - NDIRECT))
      match ensure g old d1 with
      | .error f => .error f
      | .ok (w, d2) =>
        .ok (w.toNat, update a (Fin.last NDIRECT) iw,
          if old = 0 then
            update d2 iw.toNat ((d2 iw.toNat).setWord (4 * (bn - NDIRECT)) w)
          else d2)
  else .error (.panic .bmapOutOfRange)

def bfreeNonzero (g : Geometry) (w : BitVec 32) (d : Disk) : Except Fault Disk :=
  if w = 0 then .ok d else bfree g w.toNat d

def freeLoop (g : Geometry) (addr : ℕ → Disk → BitVec 32) : ℕ → ℕ → Disk → Except Fault Disk
  | 0, _, d => .ok d
  | n + 1, i, d =>
    match bfreeNonzero g (addr i d) d with
    | .ok d' => freeLoop g addr n (i + 1) d'
    | .error f => .error f

def directAddr (a : Addrs) (i : ℕ) : BitVec 32 := if h : i < NDIRECT + 1 then a ⟨i, h⟩ else 0

def itruncBlocks (g : Geometry) (a : Addrs) (d : Disk) : Except Fault Disk :=
  match freeLoop g (fun i _ => directAddr a i) NDIRECT 0 d with
  | .error f => .error f
  | .ok d1 =>
    let iw := a (Fin.last NDIRECT)
    if iw = 0 then .ok d1
    else
      match freeLoop g (fun j d' => (d' iw.toNat).word (4 * j)) NINDIRECT 0 d1 with
      | .error f => .error f
      | .ok d2 => bfree g iw.toNat d2

def readLoop (g : Geometry) : ℕ → ℕ → ℕ → Addrs → Disk → Except Fault (List Byte × Addrs × Disk)
  | 0, _, _, a, d => .ok ([], a, d)
  | n + 1, left, off, a, d =>
    if left = 0 then .ok ([], a, d)
    else
      match bmap g (off / BSIZE) a d with
      | .error f => .error f
      | .ok (b, a', d') =>
        let m := min left (BSIZE - off % BSIZE)
        match readLoop g n (left - m) (off + m) a' d' with
        | .error f => .error f
        | .ok (bs, r) => .ok (slice (d' b).get (off % BSIZE) m ++ bs, r)

def writeLoop (g : Geometry) : ℕ → List Byte → ℕ → Addrs → Disk → Except Fault (Addrs × Disk)
  | 0, _, _, a, d => .ok (a, d)
  | n + 1, src, off, a, d =>
    if src = [] then .ok (a, d)
    else
      match bmap g (off / BSIZE) a d with
      | .error f => .error f
      | .ok (b, a', d') =>
        let m := min src.length (BSIZE - off % BSIZE)
        writeLoop g n (src.drop m) (off + m) a'
          (update d' b ((d' b).blit (off % BSIZE) m fun t => src.getD t 0))

def setStore (s : BState) (ip : ISlot) (a : Addrs) (d : Disk) : BState :=
  { s with vol := ⟨d, update s.vol.addrs ip a⟩ }

def iupdate (g : Geometry) (ip : ISlot) (s : BState) : BState :=
  { s with vol := { s.vol with
    disk := writeDinode g s.vol.disk (s.cache ip).inum (s.cache ip).din (s.vol.addrs ip) } }

def setDin (ip : ISlot) (x : Dinode) (s : BState) : BState :=
  s.setInode ip { s.cache ip with din := x }

def ilock (g : Geometry) (ip : ISlot) (s : BState) : Except Fault (Unit × BState) :=
  let x := s.cache ip
  if x.ref < 1 then .error (.panic .ilock)
  else if x.locked then .error .hang
  else if x.valid then .ok ((), s.setInode ip { x with locked := true })
  else
    let din := readDinode g s.vol.disk x.inum
    if din.type = 0 then .error (.panic .noType)
    else .ok ((), setStore (s.setInode ip { x with locked := true, valid := true, din := din }) ip
      (readAddrs g s.vol.disk x.inum) s.vol.disk)

def itrunc (g : Geometry) (ip : ISlot) (s : BState) : Except Fault BState :=
  match itruncBlocks g (s.vol.addrs ip) s.vol.disk with
  | .error f => .error f
  | .ok d =>
    .ok (iupdate g ip (setDin ip { (s.cache ip).din with size := 0 } (setStore s ip (fun _ => 0) d)))

def iput (g : Geometry) (ip : ISlot) (s : BState) : Except Fault (Unit × BState) :=
  let x := s.cache ip
  if x.locked then .error .hang
  else if x.valid ∧ x.din.nlink = 0 ∧ x.ref = 1 then
    match itrunc g ip s with
    | .error f => .error f
    | .ok s1 =>
      let s2 := iupdate g ip (setDin ip { (s1.cache ip).din with type := 0 } s1)
      .ok ((), s2.setInode ip
        { s2.cache ip with valid := false, ref := (s2.cache ip).ref - 1 })
  else .ok ((), s.setInode ip { x with ref := x.ref - 1 })

def ialloc (g : Geometry) (type : BitVec 16) (s : BState) : Except Fault (ISlot × BState) :=
  match (List.range' 1 (g.ninodes - 1)).find? (fun i => (readDinode g s.vol.disk i).type = 0) with
  | none => .error (.panic .iallocNoInodes)
  | some i =>
    Kernel.iget i { s with vol := { s.vol with
      disk := update s.vol.disk (g.iblock i)
        (newDinode (s.vol.disk (g.iblock i)) (i % IPB) type) } }

def readi (g : Geometry) (ip : ISlot) (off n : ℕ) (s : BState) :
    Except Fault (Option (List Byte) × BState) :=
  let x := (s.cache ip).din
  if x.type = T_DEV then
    match g.conf.driver x.major with
    | none => .ok (none, s)
    | some dev => .ok (dev.read n, s)
  else if x.size < off ∨ (off + n) % 2 ^ 32 < off then .ok (none, s)
  else
    let n' := min n (x.size - off)
    match readLoop g n' n' off (s.vol.addrs ip) s.vol.disk with
    | .error f => .error f
    | .ok (bs, a, d) => .ok (some bs, setStore s ip a d)

def writei (g : Geometry) (ip : ISlot) (src : List Byte) (off : ℕ) (s : BState) :
    Except Fault (ℤ × BState) :=
  let x := (s.cache ip).din
  if x.type = T_DEV then
    match g.conf.driver x.major with
    | none => .ok (-1, s)
    | some dev => .ok (dev.write src, s)
  else if x.size < off ∨ (off + src.length) % 2 ^ 32 < off then .ok (-1, s)
  else if MAXFILE * BSIZE < off + src.length then .ok (-1, s)
  else
    match writeLoop g src.length src off (s.vol.addrs ip) s.vol.disk with
    | .error f => .error f
    | .ok (a, d) =>
      let s' := setStore s ip a d
      if 0 < src.length ∧ x.size < off + src.length then
        .ok (src.length, iupdate g ip (setDin ip { x with size := off + src.length } s'))
      else .ok (src.length, s')

def readDirent (g : Geometry) (ip : ISlot) (off : ℕ) (s : BState) :
    Except Fault (Option Dirent × BState) :=
  match readi g ip off DIRENT s with
  | .error f => .error f
  | .ok (none, s') => .ok (none, s')
  | .ok (some bs, s') => .ok (if bs.length = DIRENT then some (.decode bs) else none, s')

end Blocks

open Blocks in
/-- The operations as the source has them, without a check of their contract. -/
def performB (g : Geometry) : Prog.Handler Op Fault BState
  | _, .iget i, s => s.iget i
  | _, .idup ip, s => .ok ((), s.idup ip)
  | _, .ilock ip, s => Blocks.ilock g ip s
  | _, .iunlock ip, s => s.iunlock ip
  | _, .iput ip, s => Blocks.iput g ip s
  | _, .ialloc type, s => Blocks.ialloc g type s
  | _, .inum ip, s => .ok ((s.cache ip).inum, s)
  | _, .dinode ip, s => .ok ((s.cache ip).din, s)
  | _, .updateNlink ip n, s =>
    .ok ((), iupdate g ip (setDin ip { (s.cache ip).din with nlink := n } s))
  | _, .updateNew ip major minor, s =>
    .ok ((), iupdate g ip (setDin ip
      { (s.cache ip).din with major := major, minor := minor, nlink := 1 } s))
  | _, .readi ip off n, s => Blocks.readi g ip off n s
  | _, .writei ip src off, s => Blocks.writei g ip src off s
  | _, .readDirent ip off, s => Blocks.readDirent g ip off s
  | _, .writeDirent ip de off, s => Blocks.writei g ip de.encode off s
  | _, .tables, s => .ok (s.tables, s)
  | _, .setTables t, s => .ok ((), { s with tables := t })

def stepB (g : Geometry) (s : BState) (e : Pid × Call) : Option BState :=
  if e.2.enabled s.tables e.1 then
    match (e.2.prog e.1).run (performB g) s with
    | .ok (_, s') => some s'
    | .error _ => none
  else none

end Xv6.Fs
