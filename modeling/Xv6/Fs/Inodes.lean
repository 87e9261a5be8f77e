import Xv6.Lib.Runs
import Xv6.Fs.Calls

/-!
# The inode layer

The operations of `Fs.Calls` on a volume of inodes whose contents are byte sequences: `fs.c` with
the block map left out.
-/

namespace Xv6.Fs

open Lib Function

def splice (f : ℕ → Byte) (off : ℕ) (src : List Byte) : ℕ → Byte :=
  fun j => if off ≤ j ∧ j < off + src.length then src.getD (j - off) 0 else f j

def slice (f : ℕ → Byte) (off n : ℕ) : List Byte := (List.range n).map fun j => f (off + j)

def direntAt (f : ℕ → Byte) (off : ℕ) : Dirent where
  inum := (f off).toNat + 256 * (f (off + 1)).toNat
  name := (slice f (off + 2) DIRSIZ).takeWhile (· != 0)

def Dirent.decode (bs : List Byte) : Dirent := direntAt (fun j => bs.getD j 0) 0

def Dirent.encode (de : Dirent) : List Byte :=
  BitVec.ofNat 8 de.inum :: BitVec.ofNat 8 (de.inum / 256) ::
    (List.range DIRSIZ).map fun j => de.name.getD j 0

def Canon (name : Name) : Prop := name.length ≤ DIRSIZ ∧ 0 ∉ name

@[simp] theorem Dirent.length_encode (de : Dirent) : de.encode.length = DIRENT := by
  simp [Dirent.encode, DIRENT, DIRSIZ]

@[simp] theorem length_slice (f : ℕ → Byte) (off n : ℕ) : (slice f off n).length = n := by
  simp [slice]

theorem slice_congr {f g : ℕ → Byte} {off n : ℕ} (h : ∀ j < n, f (off + j) = g (off + j)) :
    slice f off n = slice g off n :=
  List.map_congr_left fun j hj => h j (List.mem_range.mp hj)

theorem direntAt_congr {f g : ℕ → Byte} {off : ℕ}
    (h : ∀ j < DIRENT, f (off + j) = g (off + j)) : direntAt f off = direntAt g off := by
  have h0 := h 0 (by norm_num)
  rw [Nat.add_zero] at h0
  have hname : slice f (off + 2) DIRSIZ = slice g (off + 2) DIRSIZ := by
    apply slice_congr
    intro j hj
    rw [Nat.add_assoc]
    exact h (2 + j) (Nat.add_lt_add_left hj 2)
  rw [direntAt, direntAt, h0, h 1 (by norm_num), hname]

theorem direntAt_splice_of_disjoint {f : ℕ → Byte} {off pos : ℕ} {src : List Byte}
    (h : pos + DIRENT ≤ off ∨ off + src.length ≤ pos) :
    direntAt (splice f off src) pos = direntAt f pos := by
  apply direntAt_congr
  intro j hj
  exact if_neg (by omega)

theorem splice_mem (f : ℕ → Byte) (off : ℕ) {j : ℕ} {src : List Byte} (hj : j < src.length) :
    splice f off src (off + j) = src.getD j 0 := by
  simp [splice, hj]

theorem direntAt_splice_inum (f : ℕ → Byte) (off : ℕ) {de : Dirent} (h : de.inum < 2 ^ 16) :
    (direntAt (splice f off de.encode) off).inum = de.inum := by
  have hlen := de.length_encode
  have h0 := splice_mem f off (hlen ▸ by decide : 0 < de.encode.length)
  have h1 := splice_mem f off (hlen ▸ by decide : 1 < de.encode.length)
  rw [Nat.add_zero] at h0
  simp only [direntAt, h0, h1]
  simp only [Dirent.encode, List.getD_cons_zero, List.getD_cons_succ, BitVec.toNat_ofNat]
  omega

theorem takeWhile_padded {name : Name} (h : Canon name) :
    ((List.range DIRSIZ).map fun j => name.getD j 0).takeWhile (· != 0) = name := by
  have hpad : (List.range DIRSIZ).map (fun j => name.getD j 0) =
      name ++ List.replicate (DIRSIZ - name.length) 0 := by
    apply List.ext_getElem
    · simp only [List.length_map, List.length_range, List.length_append, List.length_replicate]
      have := h.1
      omega
    · intro j h1 h2
      by_cases hj : j < name.length
      · simp [List.getElem_append_left hj, hj]
      · simp [List.getElem_append_right (Nat.le_of_not_lt hj), hj]
  have hall : ∀ b ∈ name, (b != 0) = true := by
    intro b hb
    exact bne_iff_ne.mpr fun h0 => h.2 (h0 ▸ hb)
  rw [hpad, List.takeWhile_append_of_pos hall]
  cases DIRSIZ - name.length <;> simp [List.replicate_succ]

theorem direntAt_splice (f : ℕ → Byte) (off : ℕ) {de : Dirent} (h : de.inum < 2 ^ 16)
    (hname : Canon de.name) : direntAt (splice f off de.encode) off = de := by
  have hslice : slice (splice f off de.encode) (off + 2) DIRSIZ =
      (List.range DIRSIZ).map fun j => de.name.getD j 0 := by
    apply List.map_congr_left
    intro j hj
    have hj' : j < DIRSIZ := List.mem_range.mp hj
    rw [Nat.add_assoc, splice_mem _ _ (by rw [Dirent.length_encode]; exact Nat.add_lt_add_left hj' 2)]
    simp [Dirent.encode, Nat.add_comm 2 j, hj']
  have hinum := direntAt_splice_inum f off h
  cases de with
  | mk inum name =>
    simp only [direntAt, Dirent.mk.injEq] at hinum ⊢
    exact ⟨hinum, by rw [hslice]; exact takeWhile_padded hname⟩

theorem decode_slice (f : ℕ → Byte) (off : ℕ) : Dirent.decode (slice f off DIRENT) = direntAt f off := by
  have h : ∀ j < DIRENT, (slice f off DIRENT).getD j 0 = f (off + j) := by
    intro j hj
    simp [slice, hj]
  have hname : slice (fun j => (slice f off DIRENT).getD j 0) (0 + 2) DIRSIZ = slice f (off + 2) DIRSIZ := by
    apply List.map_congr_left
    intro j hj
    have hj' : j < DIRSIZ := List.mem_range.mp hj
    simp only []
    rw [h _ (by simp only [DIRENT]; omega)]
    congr 1
    omega
  have h0 := h 0 (by norm_num)
  rw [Nat.add_zero] at h0
  rw [Dirent.decode, direntAt, direntAt, hname, h0, h _ (by norm_num)]

structure Volume where
  dinode : ℕ → Dinode
  bytes : ℕ → ℕ → Byte

structure Inode where
  inum : ℕ
  ref : ℕ
  valid : Bool
  locked : Bool
  din : Dinode

structure Driver where
  read : ℕ → Option (List Byte)
  write : List Byte → ℤ

structure Conf where
  ninodes : ℕ
  devsw : ℕ → Option Driver

def Conf.driver (c : Conf) (major : BitVec 16) : Option Driver :=
  if major.toInt < 0 ∨ (NDEV : ℤ) ≤ major.toInt then none else c.devsw major.toNat

/-- The memory of the kernel, over a disk as one of the two levels sees it. -/
structure Kernel (D : Type) where
  vol : D
  cache : ISlot → Inode
  tables : Tables

abbrev State := Kernel Volume

namespace Volume

def setDinode (v : Volume) (i : ℕ) (d : Dinode) : Volume :=
  { v with dinode := update v.dinode i d }

def setNlink (v : Volume) (i : ℕ) (n : BitVec 16) : Volume :=
  v.setDinode i { v.dinode i with nlink := n }

def free (v : Volume) (i : ℕ) : Volume :=
  v.setDinode i { v.dinode i with type := 0, size := 0 }

/-- `writei` of bytes that fit: the size grows with a write that ends past it. -/
def write (v : Volume) (i off : ℕ) (src : List Byte) : Volume where
  dinode := update v.dinode i
    { v.dinode i with size := if 0 < src.length then max (v.dinode i).size (off + src.length)
        else (v.dinode i).size }
  bytes := update v.bytes i (splice (v.bytes i) off src)

def writeDirent (v : Volume) (i : ℕ) (de : Dirent) (k : ℕ) : Volume :=
  v.write i (DIRENT * k) de.encode

end Volume

namespace Kernel

variable {D : Type}

def setInode (s : Kernel D) (ip : ISlot) (x : Inode) : Kernel D :=
  { s with cache := update s.cache ip x }

def iget (inum : ℕ) (s : Kernel D) : Except Fault (ISlot × Kernel D) :=
  match (List.finRange NINODE).find? (fun ip => 0 < (s.cache ip).ref ∧ (s.cache ip).inum = inum) with
  | some ip => .ok (ip, s.setInode ip { s.cache ip with ref := (s.cache ip).ref + 1 })
  | none =>
    match (List.finRange NINODE).find? (fun ip => (s.cache ip).ref = 0) with
    | some ip => .ok (ip, s.setInode ip { s.cache ip with inum := inum, ref := 1, valid := false })
    | none => .error (.panic .igetNoInodes)

def idup (ip : ISlot) (s : Kernel D) : Kernel D :=
  s.setInode ip { s.cache ip with ref := (s.cache ip).ref + 1 }

theorem iget_cases (s : Kernel D) (i : ℕ) :
    (∃ ip, 0 < (s.cache ip).ref ∧ (s.cache ip).inum = i ∧ s.iget i = .ok (ip, s.idup ip)) ∨
    (∃ ip, (s.cache ip).ref = 0 ∧ (∀ jp, 0 < (s.cache jp).ref → (s.cache jp).inum ≠ i) ∧
      s.iget i = .ok (ip, s.setInode ip { s.cache ip with inum := i, ref := 1, valid := false })) ∨
    ((∀ jp, (s.cache jp).ref ≠ 0 ∧ (s.cache jp).inum ≠ i) ∧ s.iget i = .error (.panic .igetNoInodes)) := by
  rw [Kernel.iget]
  cases hhit : (List.finRange NINODE).find?
      (fun ip => decide (0 < (s.cache ip).ref ∧ (s.cache ip).inum = i)) with
  | some ip =>
    have hip := List.find?_some hhit
    simp only [decide_eq_true_eq] at hip
    exact .inl ⟨ip, hip.1, hip.2, rfl⟩
  | none =>
    have hnone : ∀ jp, 0 < (s.cache jp).ref → (s.cache jp).inum ≠ i := fun jp hpos hjp =>
      List.find?_eq_none.mp hhit jp (List.mem_finRange jp) (decide_eq_true ⟨hpos, hjp⟩)
    cases hfree : (List.finRange NINODE).find? (fun ip => decide ((s.cache ip).ref = 0)) with
    | some ip =>
      have hip := List.find?_some hfree
      simp only [decide_eq_true_eq] at hip
      exact .inr (.inl ⟨ip, hip, hnone, rfl⟩)
    | none =>
      have hused : ∀ jp, (s.cache jp).ref ≠ 0 := fun jp h0 =>
        List.find?_eq_none.mp hfree jp (List.mem_finRange jp) (decide_eq_true h0)
      exact .inr (.inr ⟨fun jp => ⟨hused jp, hnone jp (Nat.pos_of_ne_zero (hused jp))⟩, rfl⟩)

def iunlock (ip : ISlot) (s : Kernel D) : Except Fault (Unit × Kernel D) :=
  let x := s.cache ip
  if x.locked = false ∨ x.ref < 1 then .error (.panic .iunlock)
  else .ok ((), s.setInode ip { x with locked := false })

end Kernel

namespace State

def ilock (ip : ISlot) (s : State) : Except Fault (Unit × State) :=
  let x := s.cache ip
  if x.ref < 1 then .error (.panic .ilock)
  else if x.locked then .error .hang
  else if x.valid then .ok ((), s.setInode ip { x with locked := true })
  else if (s.vol.dinode x.inum).type = 0 then .error (.panic .noType)
  else .ok ((), s.setInode ip { x with locked := true, valid := true, din := s.vol.dinode x.inum })

def iput (ip : ISlot) (s : State) : Except Fault (Unit × State) :=
  let x := s.cache ip
  if x.locked then .error .hang
  else if x.valid ∧ x.din.nlink = 0 ∧ x.ref = 1 then
    -- `itrunc(ip)`, `ip->type = 0`, `iupdate(ip)`, `ip->valid = 0`
    let d := { x.din with type := 0, size := 0 }
    .ok ((), { s.setInode ip { x with valid := false, din := d, ref := x.ref - 1 } with
      vol := s.vol.setDinode x.inum d })
  else .ok ((), s.setInode ip { x with ref := x.ref - 1 })

def ialloc (c : Conf) (type : BitVec 16) (s : State) : Except Fault (ISlot × State) :=
  match (List.range' 1 (c.ninodes - 1)).find? (fun i => (s.vol.dinode i).type = 0) with
  | none => .error (.panic .iallocNoInodes)
  | some i => Kernel.iget i { s with vol := s.vol.setDinode i ⟨type, 0, 0, 0, 0⟩ }

/-- `iupdate` after assignments that turn the inode's fields into `d`. -/
def iupdate (ip : ISlot) (d : Dinode) (s : State) : State :=
  { s.setInode ip { s.cache ip with din := d } with
    vol := s.vol.setDinode (s.cache ip).inum d }

def readi (c : Conf) (ip : ISlot) (off n : ℕ) (s : State) : Option (List Byte) :=
  let d := (s.cache ip).din
  if d.type = T_DEV then
    match c.driver d.major with
    | none => none
    | some dev => dev.read n
  else if d.size < off ∨ (off + n) % 2 ^ 32 < off then none
  else some (slice (s.vol.bytes (s.cache ip).inum) off (min n (d.size - off)))

def writei (c : Conf) (ip : ISlot) (src : List Byte) (off : ℕ) (s : State) : ℤ × State :=
  let d := (s.cache ip).din
  if d.type = T_DEV then
    match c.driver d.major with
    | none => (-1, s)
    | some dev => (dev.write src, s)
  else if d.size < off ∨ (off + src.length) % 2 ^ 32 < off then (-1, s)
  else if MAXFILE * BSIZE < off + src.length then (-1, s)
  else
    let i := (s.cache ip).inum
    let s' := { s with vol := { s.vol with
      bytes := update s.vol.bytes i (splice (s.vol.bytes i) off src) } }
    if 0 < src.length ∧ d.size < off + src.length then
      (src.length, s'.iupdate ip { d with size := off + src.length })
    else (src.length, s')

def readDirent (c : Conf) (ip : ISlot) (off : ℕ) (s : State) : Option Dirent :=
  match s.readi c ip off DIRENT with
  | none => none
  | some bs => if bs.length = DIRENT then some (.decode bs) else none

end State

/-- The operations, each with the contract its callers in `fs.c` keep: no inode number
past `sb.ninodes`, no `iput` or `idup` without a reference, no access to an inode that is
not locked, and no bytes of a user in a directory. -/
def perform (c : Conf) : Prog.Handler Op Fault State
  | _, .iget i, s => if c.ninodes ≤ i then .error .misuse else s.iget i
  | _, .idup ip, s => if (s.cache ip).ref = 0 then .error .misuse else .ok ((), s.idup ip)
  | _, .ilock ip, s => s.ilock ip
  | _, .iunlock ip, s => s.iunlock ip
  | _, .iput ip, s => if (s.cache ip).ref = 0 then .error .misuse else s.iput ip
  | _, .ialloc type, s => if type = 0 then .error .misuse else s.ialloc c type
  | _, .inum ip, s => .ok ((s.cache ip).inum, s)
  | _, .dinode ip, s => .ok ((s.cache ip).din, s)
  | _, .updateNlink ip n, s =>
    if (s.cache ip).locked = false then .error .misuse
    else .ok ((), s.iupdate ip { (s.cache ip).din with nlink := n })
  | _, .updateNew ip major minor, s =>
    if (s.cache ip).locked = false then .error .misuse
    else .ok ((), s.iupdate ip { (s.cache ip).din with major := major, minor := minor, nlink := 1 })
  | _, .readi ip off n, s =>
    if (s.cache ip).locked = false then .error .misuse else .ok (s.readi c ip off n, s)
  | _, .writei ip src off, s =>
    if (s.cache ip).locked = false ∨ (s.cache ip).din.type = T_DIR then .error .misuse
    else .ok (s.writei c ip src off)
  | _, .readDirent ip off, s =>
    if (s.cache ip).locked = false then .error .misuse else .ok (s.readDirent c ip off, s)
  | _, .writeDirent ip de off, s =>
    if (s.cache ip).locked = false ∨ (s.cache ip).din.type ≠ T_DIR ∨ c.ninodes ≤ de.inum then
      .error .misuse
    else .ok (s.writei c ip de.encode off)
  | _, .tables, s => .ok (s.tables, s)
  | _, .setTables t, s => .ok ((), { s with tables := t })

/-- A call of process `p` that returns; a fault ends the run. -/
def step (c : Conf) (s : State) (e : Pid × Call) : Option State :=
  if e.2.enabled s.tables e.1 then
    match (e.2.prog e.1).run (perform c) s with
    | .ok (_, s') => some s'
    | .error _ => none
  else none

end Xv6.Fs
