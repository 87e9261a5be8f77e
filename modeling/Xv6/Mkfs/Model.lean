import Xv6.Lib.Ensures
import Xv6.Fs.Blocks

/-!
# The program that writes the disk image

`mkfs.c`, over the image as a sequence of sectors and the two counters `freeinode` and `freeblock`.
A sector number is multiplied by `BSIZE` as a `uint`.
-/

namespace Xv6.Mkfs

open Lib Fs Fs.Blocks

abbrev NINODES : ℕ := 200

structure Superblock where
  size : ℕ
  nblocks : ℕ
  ninodes : ℕ
  nlog : ℕ
  logstart : ℕ
  inodestart : ℕ
  bmapstart : ℕ
deriving DecidableEq

namespace Superblock

def words (sb : Superblock) : List (BitVec 32) :=
  [sb.size, sb.nblocks, sb.ninodes, sb.nlog, sb.logstart, sb.inodestart, sb.bmapstart].map
    (BitVec.ofNat 32)

def encode (sb : Superblock) : Block :=
  (Bytes.zero BSIZE).blit 0 (4 * sb.words.length) fun t =>
    (sb.words.getD (t / 4) 0).extractLsb' (8 * (t % 4)) 8

def geometry (sb : Superblock) (devsw : ℕ → Option Driver) : Geometry :=
  ⟨sb.size, sb.nblocks, sb.ninodes, sb.inodestart, sb.bmapstart, devsw⟩

end Superblock

def readsb (bp : Block) : Superblock where
  size := (bp.word 0).toNat
  nblocks := (bp.word 4).toNat
  ninodes := (bp.word 8).toNat
  nlog := (bp.word 12).toNat
  logstart := (bp.word 16).toNat
  inodestart := (bp.word 20).toNat
  bmapstart := (bp.word 24).toNat

def nbitmap : ℕ := FSSIZE / (BSIZE * 8) + 1
def ninodeblocks : ℕ := NINODES / IPB + 1
def nlog : ℕ := LOGSIZE
def nmeta : ℕ := 2 + nlog + ninodeblocks + nbitmap
def nblocks : ℕ := FSSIZE - nmeta

def sb : Superblock where
  size := FSSIZE
  nblocks := nblocks
  ninodes := NINODES
  nlog := nlog
  logstart := 2
  inodestart := 2 + nlog
  bmapstart := 2 + nlog + ninodeblocks

structure State where
  disk : Disk
  -- The length of the image in sectors.
  len : ℕ
  freeinode : ℕ
  freeblock : ℕ

inductive Abort
  | usage
  | cannotOpen
  | assertion
  | read (sec : ℕ)
deriving DecidableEq

def sector (sec : ℕ) : ℕ := sec * BSIZE % 2 ^ 32 / BSIZE

def wsect (sec : ℕ) (buf : Block) (m : State) : State :=
  { m with disk := Function.update m.disk (sector sec) buf, len := max m.len (sector sec + 1) }

def rsect (sec : ℕ) (m : State) : Except Abort Block :=
  if sector sec < m.len then .ok (m.disk (sector sec)) else .error (.read sec)

def iblock (inum : ℕ) : ℕ := inum / IPB + sb.inodestart

def winode (inum : ℕ) (x : Dinode) (a : Addrs) (m : State) : Except Abort State := do
  let buf ← rsect (iblock inum) m
  pure (wsect (iblock inum) (putDinode buf (inum % IPB) x a) m)

def rinode (inum : ℕ) (m : State) : Except Abort (Dinode × Addrs) := do
  let buf ← rsect (iblock inum) m
  pure (dinodeAt buf (inum % IPB), addrsAt buf (inum % IPB))

def ialloc (type : BitVec 16) (m : State) : Except Abort (ℕ × State) := do
  let m' ← winode m.freeinode ⟨type, 0, 0, 1, 0⟩ (fun _ => 0) { m with freeinode := m.freeinode + 1 }
  pure (m.freeinode, m')

def usedBits : ℕ → Block
  | 0 => Bytes.zero BSIZE
  | i + 1 => (usedBits i).set (i / 8) ((usedBits i).get (i / 8) ||| bitMask i)

def balloc (used : ℕ) (m : State) : Except Abort State :=
  if used < BSIZE * 8 then .ok (wsect sb.bmapstart (usedBits used) m) else .error .assertion

def nextBlock (w : BitVec 32) (m : State) : BitVec 32 × State :=
  if w = 0 then (BitVec.ofNat 32 m.freeblock, { m with freeblock := m.freeblock + 1 }) else (w, m)

def fileBlock (fbn : ℕ) (a : Addrs) (m : State) : Except Abort (ℕ × Addrs × State) :=
  if h : fbn < NDIRECT then
    let (w, m1) := nextBlock (a ⟨fbn, Nat.lt_succ_of_lt h⟩) m
    .ok (w.toNat, Function.update a ⟨fbn, Nat.lt_succ_of_lt h⟩ w, m1)
  else do
    let (iw, m1) := nextBlock (a (Fin.last NDIRECT)) m
    let indirect ← rsect iw.toNat m1
    let old := indirect.word (4 * (fbn - NDIRECT))
    let (w, m2) := nextBlock old m1
    let m3 := if old = 0 then wsect iw.toNat (indirect.setWord (4 * (fbn - NDIRECT)) w) m2 else m2
    pure (w.toNat, Function.update a (Fin.last NDIRECT) iw, m3)

def iappendLoop : ℕ → List Byte → ℕ → Addrs → State → Except Abort (ℕ × Addrs × State)
  | 0, _, off, a, m => .ok (off, a, m)
  | k + 1, p, off, a, m =>
    if p = [] then .ok (off, a, m)
    else if MAXFILE ≤ off / BSIZE then .error .assertion
    else do
      let fbn := off / BSIZE
      let (x, a', m') ← fileBlock fbn a m
      let n1 := min p.length ((fbn + 1) * BSIZE - off)
      let buf ← rsect x m'
      iappendLoop k (p.drop n1) (off + n1) a'
        (wsect x (buf.blit (off - fbn * BSIZE) n1 fun t => p.getD t 0) m')

def iappend (inum : ℕ) (p : List Byte) (m : State) : Except Abort State := do
  let (din, a) ← rinode inum m
  let (off, a', m') ← iappendLoop p.length p din.size a m
  winode inum { din with size := off } a' m'

structure Input where
  name : List Byte
  reads : Option (List (List Byte))
  cstring : 0 ∉ name
  chunk : ∀ cs ∈ reads, ∀ c ∈ cs, c ≠ [] ∧ c.length ≤ BSIZE

namespace Input

def bytes (f : Input) : List Byte := (f.reads.getD []).flatten

abbrev underscore : Byte := 95

def stripped (f : Input) : List Byte := if f.name.head? = some underscore then f.name.tail else f.name

end Input

def start : State :=
  wsect 1 sb.encode ((List.range FSSIZE).foldl (fun m i => wsect i (Bytes.zero BSIZE) m)
    ⟨fun _ => Bytes.zero BSIZE, 0, 1, nmeta⟩)

def addFile (rootino : ℕ) (m : State) (f : Input) : Except Abort State :=
  if slash ∈ f.name then .error .assertion
  else
    match f.reads with
    | none => .error .cannotOpen
    | some cs => do
      let (inum, m1) ← ialloc T_FILE m
      let m2 ← iappend rootino (Dirent.encode ⟨inum, f.stripped⟩) m1
      cs.foldlM (fun m c => iappend inum c m) m2

def build (files : List Input) (m : State) : Except Abort State := do
  let (rootino, m1) ← ialloc T_DIR m
  if rootino ≠ ROOTINO then .error .assertion
  else do
    let m2 ← iappend rootino (Dirent.encode ⟨rootino, dotName⟩) m1
    let m3 ← iappend rootino (Dirent.encode ⟨rootino, dotdotName⟩) m2
    let m4 ← files.foldlM (addFile rootino) m3
    let (din, a) ← rinode rootino m4
    let m5 ← winode rootino { din with size := (din.size / BSIZE + 1) * BSIZE } a m4
    balloc m5.freeblock m5

/-- `image` is `argv[1]`, if there is one, and whether it can be opened. -/
def main (image : Option Bool) (files : List Input) : Except Abort State :=
  match image with
  | none => .error .usage
  | some false => .error .cannotOpen
  | some true => build files start

end Xv6.Mkfs
