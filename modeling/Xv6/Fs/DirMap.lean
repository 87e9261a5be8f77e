import Xv6.Fs.Directories
import Xv6.Fs.FileWrite

/-!
# Directories as maps from names

`dirlookup` and `dirlink` here take any C string, as the source does, and compare and store it with
`strncmp` and `strncpy` of `DIRSIZ` bytes; on the first `DIRSIZ` bytes they agree with those of
`Fs.Calls`.
-/

namespace Xv6.Fs

open Lib Function
open Blocks (readDinode readAddrs contentOf table table_of_type)

namespace Volume

variable {v w : Volume} {d k : ℕ} {name : Name}

def Names (v : Volume) (d : ℕ) (name : Name) (k : ℕ) : Prop :=
  k < v.nents d ∧ (v.ent d k).inum ≠ 0 ∧ name = (v.ent d k).name

theorem lookupFrom_first {n m : ℕ} (h : v.lookupFrom d name n m = some k) :
    ∀ j, m ≤ j → j < k → ¬ ((v.ent d j).inum ≠ 0 ∧ name = (v.ent d j).name) := by
  induction n generalizing m with
  | zero => simp [lookupFrom] at h
  | succ n ih =>
    intro j h1 h2
    rw [lookupFrom] at h
    split_ifs at h with hm
    · cases h
      omega
    · rcases Nat.eq_or_lt_of_le h1 with rfl | h1
      · exact hm
      · exact ih h j h1 h2

theorem lookup_eq_some_iff :
    v.lookup d name = some k ↔ v.Names d name k ∧ ∀ j < k, ¬ v.Names d name j := by
  constructor
  · intro h
    exact ⟨lookup_some h, fun j hj hn => lookupFrom_first h j (Nat.zero_le _) hj hn.2⟩
  · rintro ⟨hk, hfirst⟩
    cases h : v.lookup d name with
    | none => exact absurd hk.2.2 (lookup_none h hk.1 hk.2.1)
    | some j =>
      have hj := lookup_some h
      have h1 : ¬ j < k := fun hlt => hfirst j hlt hj
      have h2 : ¬ k < j := fun hlt => lookupFrom_first h k (Nat.zero_le _) hlt hk.2
      exact congrArg some (by omega)

theorem lookup_eq_none (h : ∀ k, ¬ v.Names d name k) : v.lookup d name = none := by
  cases hk : v.lookup d name with
  | none => rfl
  | some k => exact absurd (lookup_some hk) (h k)

theorem lookup_eq_of_names (h : ∀ k, w.Names d name k ↔ v.Names d name k) :
    w.lookup d name = v.lookup d name := by
  ext k
  simp only [lookup_eq_some_iff, h]

theorem freeFrom_first (n m : ℕ) : ∀ j, m ≤ j → j < v.freeFrom d n m → (v.ent d j).inum ≠ 0 := by
  induction n generalizing m with
  | zero =>
    intro j h1 h2
    simp only [freeFrom] at h2
    omega
  | succ n ih =>
    intro j h1 h2
    rw [freeFrom] at h2
    split_ifs at h2 with hm
    · omega
    · rcases Nat.eq_or_lt_of_le h1 with rfl | h1
      · exact hm
      · exact ih (m + 1) j h1 h2

end Volume

namespace DirMap

def cstring (name : Name) : ℕ → Byte := fun j => name.getD j 0

def strncmpLoop (p q : ℕ → Byte) : ℕ → ℕ → ℤ
  | 0, _ => 0
  | n + 1, i =>
    if p i ≠ 0 ∧ p i = q i then strncmpLoop p q n (i + 1)
    else ((p i).toNat : ℤ) - (q i).toNat

def strncmp (p q : ℕ → Byte) (n : ℕ) : ℤ := strncmpLoop p q n 0

def strncpyLoop (t : ℕ → Byte) : ℕ → ℕ → List Byte
  | 0, _ => []
  | n + 1, i => if t i = 0 then 0 :: List.replicate n 0 else t i :: strncpyLoop t n (i + 1)

def strncpy (t : ℕ → Byte) (n : ℕ) : List Byte := strncpyLoop t n 0

def namecmp (s t : ℕ → Byte) : ℤ := strncmp s t DIRSIZ

-- The fields of a `struct dirent` in memory.
def deInum (de : List Byte) : ℕ := (de.getD 0 0).toNat + 256 * (de.getD 1 0).toNat

def deName (de : List Byte) : ℕ → Byte := fun j => de.getD (2 + j) 0

def deBytes (inum : ℕ) (name : List Byte) : List Byte :=
  BitVec.ofNat 8 inum :: BitVec.ofNat 8 (inum / 256) :: name

def dirlookupLoop (dp : ISlot) (name : Name) : ℕ → ℕ → FsProg (Option (ISlot × ℕ))
  | 0, _ => pure none
  | n + 1, off => do
    match ← readi dp off DIRENT with
    | none => panic .dirlookupRead
    | some de =>
      if de.length ≠ DIRENT then panic .dirlookupRead
      else if deInum de = 0 then dirlookupLoop dp name n (off + DIRENT)
      else if namecmp (cstring name) (deName de) = 0 then do
        let ip ← iget (deInum de)
        pure (some (ip, off))
      else dirlookupLoop dp name n (off + DIRENT)

def dirlookup (dp : ISlot) (name : Name) : FsProg (Option (ISlot × ℕ)) := do
  let d ← dinode dp
  if d.type ≠ T_DIR then panic .dirlookupNotDir
  else dirlookupLoop dp name (direntsFrom d.size 0) 0

def emptyDirentLoop (dp : ISlot) : ℕ → ℕ → FsProg ℕ
  | 0, off => pure off
  | n + 1, off => do
    match ← readi dp off DIRENT with
    | none => panic .dirlinkRead
    | some de =>
      if de.length ≠ DIRENT then panic .dirlinkRead
      else if deInum de = 0 then pure off
      else emptyDirentLoop dp n (off + DIRENT)

def dirlink (dp : ISlot) (name : Name) (inum : ℕ) : FsProg ℤ := do
  match ← dirlookup dp name with
  | some (ip, _) => do
    iput ip
    pure (-1)
  | none => do
    let d ← dinode dp
    let off ← emptyDirentLoop dp (direntsFrom d.size 0) 0
    let r ← writei dp (deBytes inum (strncpy (cstring name) DIRSIZ)) off
    if r ≠ DIRENT then panic .dirlink else pure 0

def clearDirent (dp : ISlot) (off : ℕ) : FsProg Unit := do
  let r ← writei dp (List.replicate DIRENT 0) off
  if r ≠ DIRENT then panic .unlinkWritei else pure ()

open Lib.Prog

variable {name : Name}

theorem slice_succ (f : ℕ → Byte) (i n : ℕ) : slice f i (n + 1) = f i :: slice f (i + 1) n := by
  simp only [slice, List.range_succ_eq_map, List.map_cons, List.map_map, Nat.add_zero]
  congr 1
  apply List.map_congr_left
  intro j _
  simp only [comp, Nat.succ_eq_add_one, Nat.add_assoc, Nat.add_comm 1 j]

theorem takeWhile_nonzero_cons (b : Byte) (l : List Byte) :
    (b :: l).takeWhile (· != 0) = if b = 0 then [] else b :: l.takeWhile (· != 0) := by
  by_cases h : b = 0 <;> simp [List.takeWhile_cons, h]

theorem strncmpLoop_eq_zero_iff (p q : ℕ → Byte) (n i : ℕ) : strncmpLoop p q n i = 0 ↔
      (slice p i n).takeWhile (· != 0) = (slice q i n).takeWhile (· != 0) := by
  induction n generalizing i with
  | zero => simp [strncmpLoop, slice]
  | succ n ih =>
    rw [strncmpLoop, slice_succ, slice_succ, takeWhile_nonzero_cons, takeWhile_nonzero_cons]
    by_cases hsame : p i = q i
    · by_cases hp : p i = 0
      · simp [← hsame, hp]
      · rw [if_pos ⟨hp, hsame⟩, ih, ← hsame, if_neg hp, if_neg hp, List.cons_inj_right]
    · have hdiff : ((p i).toNat : ℤ) - (q i).toNat ≠ 0 :=
        fun h => hsame (BitVec.eq_of_toNat_eq (by omega))
      rw [if_neg (fun h => hsame h.2)]
      refine iff_of_false hdiff fun heq => hsame ?_
      split_ifs at heq with hp hq hq
      · rw [hp, hq]
      · exact (List.cons_eq_cons.mp heq).1

theorem padded_take (name : Name) :
    ((List.range DIRSIZ).map fun j => (name.take DIRSIZ).getD j 0) =
      (List.range DIRSIZ).map fun j => name.getD j 0 := by
  apply List.map_congr_left
  intro j hj
  have hlt : j < DIRSIZ := List.mem_range.mp hj
  simp only [List.getD_eq_getElem?_getD, List.getElem?_take, if_pos hlt]

theorem canon_take (h : 0 ∉ name) : Canon (name.take DIRSIZ) :=
  ⟨List.length_take_le _ _, fun h0 => h (List.mem_of_mem_take h0)⟩

theorem takeWhile_cstring (h : 0 ∉ name) :
    (slice (cstring name) 0 DIRSIZ).takeWhile (· != 0) = name.take DIRSIZ := by
  rw [← takeWhile_padded (canon_take h), padded_take]
  simp only [slice, cstring, Nat.zero_add]

theorem namecmp_eq_zero_iff (h : 0 ∉ name) (de : List Byte) :
    namecmp (cstring name) (deName de) = 0 ↔ name.take DIRSIZ = (Dirent.decode de).name := by
  have hname : (slice (deName de) 0 DIRSIZ).takeWhile (· != 0) = (Dirent.decode de).name := by
    simp only [Dirent.decode, direntAt, slice, deName, Nat.zero_add]
  rw [namecmp, strncmp, strncmpLoop_eq_zero_iff, takeWhile_cstring h, hname]

theorem strncpyLoop_cstring (h : 0 ∉ name) (n i : ℕ) :
    strncpyLoop (cstring name) n i = slice (cstring name) i n := by
  induction n generalizing i with
  | zero => rfl
  | succ n ih =>
    rw [strncpyLoop]
    split_ifs with hi
    · -- The string has no NUL inside, so it ends here.
      have hend : name.length ≤ i := by
        by_contra hlt
        have hmem : name.getD i 0 ∈ name := by
          rw [List.getD_eq_getElem?_getD, List.getElem?_eq_getElem (by omega)]
          exact List.getElem_mem _
        exact h (hi ▸ hmem)
      have hzero : ∀ j, cstring name (i + j) = 0 := by
        intro j
        rw [cstring, List.getD_eq_getElem?_getD, List.getElem?_eq_none (by omega)]
        rfl
      rw [← List.replicate_succ, slice, List.map_congr_left fun j _ => hzero j, List.map_const']
      simp
    · rw [ih, slice_succ]

theorem deBytes_strncpy (h : 0 ∉ name) (inum : ℕ) :
    deBytes inum (strncpy (cstring name) DIRSIZ) = Dirent.encode ⟨inum, name.take DIRSIZ⟩ := by
  rw [deBytes, Dirent.encode, padded_take, strncpy, strncpyLoop_cstring h]
  simp only [slice, cstring, Nat.zero_add]

theorem replicate_eq_encode : List.replicate DIRENT (0 : Byte) = Dirent.encode ⟨0, []⟩ := rfl

variable {g : Geometry} {s s' : BState} {dp : ISlot} {d k : ℕ}

theorem run_readDirent {α : Type} (off : ℕ) (f : Option Dirent → FsProg α)
    (f' : Option (List Byte) → FsProg α) (s : BState) (hnone : f none = f' none)
    (hshort : ∀ de : List Byte, de.length ≠ DIRENT → f none = f' (some de))
    (hfull : ∀ de : List Byte, ∀ s, de.length = DIRENT →
      (f (some (.decode de))).run (performB g) s = (f' (some de)).run (performB g) s) :
    (readi dp off DIRENT >>= f').run (performB g) s =
      (readDirent dp off >>= f).run (performB g) s := by
  simp only [run_bind, readi, readDirent, call, run, performB, Blocks.readDirent]
  cases Blocks.readi g dp off DIRENT s with
  | error e => rfl
  | ok r =>
    obtain ⟨bs, s1⟩ := r
    cases bs with
    | none => exact congrArg (fun p => p.run (performB g) s1) hnone.symm
    | some de =>
      by_cases hlen : de.length = DIRENT
      · simp only [hlen, if_true]
        exact (hfull de s1 hlen).symm
      · simp only [hlen, if_false]
        rw [hshort de hlen]

theorem run_dirlookupLoop (h : 0 ∉ name) (n off : ℕ) (s : BState) :
    (dirlookupLoop dp name n off).run (performB g) s =
      (Fs.dirlookupLoop dp (name.take DIRSIZ) n off).run (performB g) s := by
  induction n generalizing off s with
  | zero => rfl
  | succ n ih =>
    refine run_readDirent off _ _ s rfl (fun de hlen => (if_pos hlen).symm) fun de s1 hlen => ?_
    have hinum : (Dirent.decode de).inum = deInum de := rfl
    simp only [if_neg (not_not.mpr hlen), hinum]
    by_cases h0 : deInum de = 0
    · rw [if_neg (fun hc => hc.1 h0), if_pos h0, ih]
    · by_cases hn : name.take DIRSIZ = (Dirent.decode de).name
      · rw [if_pos ⟨h0, hn⟩, if_neg h0, if_pos ((namecmp_eq_zero_iff h de).mpr hn)]
      · rw [if_neg (fun hc => hn hc.2), if_neg h0,
          if_neg (fun hc => hn ((namecmp_eq_zero_iff h de).mp hc)), ih]

theorem run_dirlookup_take (h : 0 ∉ name) (dp : ISlot) (s : BState) :
    (dirlookup dp name).run (performB g) s =
      (Fs.dirlookup dp (name.take DIRSIZ)).run (performB g) s := by
  simp only [dirlookup, Fs.dirlookup, run_bind, dinode, call, run, performB]
  split_ifs
  · rfl
  · exact run_dirlookupLoop h _ _ _

theorem run_emptyDirentLoop (n off : ℕ) (s : BState) :
    (emptyDirentLoop dp n off).run (performB g) s =
      (Fs.emptyDirentLoop dp n off).run (performB g) s := by
  induction n generalizing off s with
  | zero => rfl
  | succ n ih =>
    refine run_readDirent off _ _ s rfl (fun de hlen => (if_pos hlen).symm) fun de s1 hlen => ?_
    have hinum : (Dirent.decode de).inum = deInum de := rfl
    simp only [if_neg (not_not.mpr hlen), hinum]
    by_cases h0 : deInum de = 0
    · rw [if_pos h0, if_pos h0]
    · rw [if_neg h0, if_neg h0, ih]

theorem run_dirlink_take (h : 0 ∉ name) (dp : ISlot) (inum : ℕ) (s : BState) :
    (dirlink dp name inum).run (performB g) s =
      (Fs.dirlink dp (name.take DIRSIZ) inum).run (performB g) s := by
  rw [dirlink, Fs.dirlink, run_bind, run_bind, run_dirlookup_take h]
  cases (Fs.dirlookup dp (name.take DIRSIZ)).run (performB g) s with
  | error e => rfl
  | ok r =>
    obtain ⟨hit, s1⟩ := r
    cases hit with
    | some hit => rfl
    | none =>
      have hwrite : ∀ off, (writei dp (Dirent.encode ⟨inum, name.take DIRSIZ⟩) off).run (performB g) =
          (writeDirent dp ⟨inum, name.take DIRSIZ⟩ off).run (performB g) := by
        intro off
        funext s2
        simp only [writei, writeDirent, call, run, performB]
      simp only [run_bind, run_emptyDirentLoop, deBytes_strncpy h, hwrite]

structure Opened (g : Geometry) (s : BState) (dp : ISlot) (d : ℕ) : Prop where
  settled : Settled g s
  locked : (s.cache dp).locked = true
  inum : (s.cache dp).inum = d
  type : (readDinode g s.vol.disk d).type = T_DIR
  aligned : (readDinode g s.vol.disk d).size % DIRENT = 0

section

variable (h : Opened g s dp d)
include h

theorem Opened.lt : d < g.ninodes := (h.settled.locked h.locked h.inum).1

theorem Opened.din : (s.cache dp).din = readDinode g s.vol.disk d :=
  (h.settled.locked h.locked h.inum).2.2.1

theorem Opened.not_dev : (readDinode g s.vol.disk d).type ≠ T_DEV := by
  rw [h.type]
  decide

theorem Opened.size_le : (readDinode g s.vol.disk d).size ≤ MAXFILE * BSIZE :=
  h.settled.disk.size_le d _ (table_of_type h.lt (by rw [h.type]; decide))

theorem Opened.size_eq : DIRENT * ndirents g s.vol.disk d = (readDinode g s.vol.disk d).size :=
  Nat.mul_div_cancel' (Nat.dvd_of_mod_eq_zero h.aligned)

theorem Opened.direntsFrom_eq :
    direntsFrom (readDinode g s.vol.disk d).size 0 = ndirents g s.vol.disk d := by
  have := h.aligned
  simp only [direntsFrom, ndirents, DIRENT, DIRSIZ] at this ⊢
  omega

theorem Opened.readDirent (hk : k < ndirents g s.vol.disk d) :
    Blocks.readDirent g dp (DIRENT * k) s = .ok (some (dirent g s.vol.disk d k), s) := by
  have hsize := h.size_eq
  have hmax := h.size_le
  have hin : DIRENT * k + DIRENT ≤ (readDinode g s.vol.disk d).size := by
    rw [← hsize, ← Nat.mul_succ]
    exact Nat.mul_le_mul_left _ hk
  have hoff : DIRENT * k < 2 ^ 32 := by
    simp only [DIRENT, DIRSIZ, MAXFILE, NDIRECT, NINDIRECT, BSIZE] at *
    omega
  have hread := h.settled.readi h.locked h.inum h.not_dev hoff (show DIRENT < 2 ^ 32 by decide)
  have hbytes : (((volumeOf g s.vol.disk).contents d).drop (DIRENT * k)).take DIRENT =
      slice (contentOf (readAddrs g s.vol.disk d) s.vol.disk) (DIRENT * k) DIRENT := by
    rw [Volume.contents, drop_slice, take_slice, Nat.zero_add]
    have hmin : min DIRENT (((volumeOf g s.vol.disk).dinode d).size - DIRENT * k) = DIRENT :=
      min_eq_left (by change _ ≤ (readDinode g s.vol.disk d).size - _; omega)
    rw [hmin]
    rfl
  rw [if_neg (by simp only [DIRENT, DIRSIZ, MAXFILE, NDIRECT, NINDIRECT, BSIZE] at *; omega),
    hbytes] at hread
  rw [Blocks.readDirent, hread]
  simp only [length_slice, if_true, decode_slice]
  rfl

theorem Opened.run_readDirent {α : Type} {j : Option Dirent → FsProg α}
    (hk : k < ndirents g s.vol.disk d) : (Fs.readDirent dp (DIRENT * k) >>= j).run (performB g) s =
      (j (some (dirent g s.vol.disk d k))).run (performB g) s :=
  run_call (h.readDirent hk)

theorem Opened.run_lookupLoop (name : Name) {n m : ℕ}
    (hn : m + n ≤ ndirents g s.vol.disk d) :
    (Fs.dirlookupLoop dp name n (DIRENT * m)).run (performB g) s =
      match (volumeOf g s.vol.disk).lookupFrom d name n m with
      | none => .ok (none, s)
      | some k => (s.iget (dirent g s.vol.disk d k).inum).map fun r => (some (r.1, DIRENT * k), r.2) := by
  induction n generalizing m with
  | zero => rfl
  | succ n ih =>
    have hent : (volumeOf g s.vol.disk).ent d m = dirent g s.vol.disk d m := rfl
    rw [Fs.dirlookupLoop, h.run_readDirent (by omega), Volume.lookupFrom, hent]
    by_cases hm : (dirent g s.vol.disk d m).inum ≠ 0 ∧ name = (dirent g s.vol.disk d m).name
    · simp only [if_pos hm, run_bind, iget, call, run, performB]
      cases s.iget (dirent g s.vol.disk d m).inum <;> rfl
    · simp only [if_neg hm]
      rw [← Nat.mul_succ]
      exact ih (by omega)

theorem Opened.run_dirlookup (name : Name) :
    (Fs.dirlookup dp name).run (performB g) s =
      match (volumeOf g s.vol.disk).lookup d name with
      | none => .ok (none, s)
      | some k => (s.iget (dirent g s.vol.disk d k).inum).map fun r => (some (r.1, DIRENT * k), r.2) := by
  have hdin : performB g _ (.dinode dp) s = .ok (readDinode g s.vol.disk d, s) := by
    rw [← h.din]
    rfl
  rw [Fs.dirlookup, Fs.dinode, run_call hdin,
    if_neg (not_not.mpr h.type), h.direntsFrom_eq]
  exact h.run_lookupLoop name (n := ndirents g s.vol.disk d) (m := 0) (by omega)

theorem Opened.run_freeLoop {n m : ℕ} (hn : m + n ≤ ndirents g s.vol.disk d) :
    (Fs.emptyDirentLoop dp n (DIRENT * m)).run (performB g) s =
      .ok (DIRENT * (volumeOf g s.vol.disk).freeFrom d n m, s) := by
  induction n generalizing m with
  | zero => rfl
  | succ n ih =>
    have hent : (volumeOf g s.vol.disk).ent d m = dirent g s.vol.disk d m := rfl
    rw [Fs.emptyDirentLoop, h.run_readDirent (by omega), Volume.freeFrom, hent]
    by_cases hm : (dirent g s.vol.disk d m).inum = 0
    · simp only [if_pos hm]
      rfl
    · simp only [if_neg hm]
      rw [← Nat.mul_succ]
      exact ih (by omega)

end

def Gettable (s : BState) (i : ℕ) : Prop :=
  ∃ ip, (s.cache ip).ref = 0 ∨ (s.cache ip).inum = i

instance (s : BState) (i : ℕ) : Decidable (Gettable s i) :=
  inferInstanceAs (Decidable (∃ ip : Fin NINODE, (s.cache ip).ref = 0 ∨ (s.cache ip).inum = i))

def Unlocked (s : BState) (i : ℕ) : Prop :=
  ∀ ip, 0 < (s.cache ip).ref → (s.cache ip).inum = i → (s.cache ip).locked = false

theorem SameRefs.gettable (h : SameRefs s s') (i : ℕ) : Gettable s' i ↔ Gettable s i := by
  have hslot : ∀ ip, (s'.cache ip).ref = (s.cache ip).ref ∧ (s'.cache ip).inum = (s.cache ip).inum :=
    fun ip => ⟨(h ip).2, (h ip).1⟩
  simp only [Gettable, hslot]

def Unchanged (s s' : BState) : Prop :=
  s'.vol = s.vol ∧ s'.tables = s.tables ∧
    ∀ ip, (s'.cache ip).ref = (s.cache ip).ref ∧ (0 < (s.cache ip).ref → s'.cache ip = s.cache ip)

theorem iget_iput (hs : Settled g s) {i : ℕ} (hget : Gettable s i) (hfree : Unlocked s i) :
    ∃ ip s1 s2, s.iget i = .ok (ip, s1) ∧ Blocks.iput g ip s1 = .ok ((), s2) ∧ Unchanged s s2 := by
  rcases s.iget_cases i with ⟨ip, hpos, hi, hok⟩ | ⟨ip, hzero, -, hok⟩ | ⟨hno, -⟩
  · refine ⟨ip, _, s, hok, ?_, rfl, rfl, fun _ => ⟨rfl, fun _ => rfl⟩⟩
    have hone : ¬ (s.cache ip).ref + 1 = 1 := by omega
    simp only [Blocks.iput, Kernel.idup, Kernel.setInode, update_self, hfree ip hpos hi, hone,
      Bool.false_eq_true, if_false, and_false, Nat.add_sub_cancel, update_idem]
    rw [← hfree ip hpos hi, update_eq_self]
  · have hlocked : (s.cache ip).locked = false := by
      by_contra hl
      have := (hs.lock ip (by simpa using hl)).1
      omega
    refine ⟨ip, _, s.setInode ip { s.cache ip with inum := i, ref := 0, valid := false }, hok, ?_,
      rfl, rfl, fun jp => ?_⟩
    · simp only [Blocks.iput, Kernel.setInode, update_self, hlocked, Bool.false_eq_true,
        if_false, false_and, Nat.sub_self, update_idem]
    · by_cases hj : jp = ip
      · subst hj
        simp only [Kernel.setInode, update_self, hzero]
        exact ⟨trivial, fun h0 => absurd h0 (Nat.lt_irrefl 0)⟩
      · simp only [Kernel.setInode, update_of_ne hj]
        exact ⟨trivial, fun _ => trivial⟩
  · obtain ⟨ip, h0 | hi⟩ := hget
    · exact absurd h0 (hno ip).1
    · exact absurd hi (hno ip).2

def found (g : Geometry) (dp : ISlot) (name : Name) (s : BState) : Except Fault (Option (ℕ × ℕ)) :=
  match (dirlookup dp name).run (performB g) s with
  | .ok (some (ip, off), s') => .ok (some ((s'.cache ip).inum, off))
  | .ok (none, _) => .ok none
  | .error f => .error f

theorem Opened.found_eq (h : Opened g s dp d) (hname : 0 ∉ name) :
    found g dp name s = match (volumeOf g s.vol.disk).lookup d (name.take DIRSIZ) with
      | none => .ok none
      | some k => if Gettable s (dirent g s.vol.disk d k).inum
          then .ok (some ((dirent g s.vol.disk d k).inum, DIRENT * k))
          else .error (.panic .igetNoInodes) := by
  rw [found, run_dirlookup_take hname, h.run_dirlookup]
  cases (volumeOf g s.vol.disk).lookup d (name.take DIRSIZ) with
  | none => rfl
  | some k =>
    rcases s.iget_cases (dirent g s.vol.disk d k).inum with
      ⟨ip, -, hi, hok⟩ | ⟨ip, h0, -, hok⟩ | ⟨hno, herr⟩
    · simp only [hok, Except.map, Kernel.idup, Kernel.setInode, update_self, hi]
      rw [if_pos ⟨ip, .inr hi⟩]
    · simp only [hok, Except.map, Kernel.setInode, update_self]
      rw [if_pos ⟨ip, .inl h0⟩]
    · have hget : ¬ Gettable s (dirent g s.vol.disk d k).inum := fun h =>
        h.choose_spec.elim (hno _).1 (hno _).2
      simp only [herr, Except.map, if_neg hget]

/-- As `EntryPut` on the disk, where bytes past the end of the directory are not kept. -/
structure EntryWritten (g : Geometry) (x y : Disk) (d k : ℕ) (de : Dirent) : Prop where
  le : k ≤ ndirents g x d
  count : ndirents g y d = max (ndirents g x d) (k + 1)
  self : dirent g y d k = de
  other : ∀ j < ndirents g x d, j ≠ k → dirent g y d j = dirent g x d j

section EntryWritten

variable {x y z : Disk} {de : Dirent} {j : ℕ}

section

variable (h : EntryWritten g x y d k de)
include h

theorem EntryWritten.names_self : (volumeOf g y).Names d name k ↔ de.inum ≠ 0 ∧ name = de.name := by
  have hn : (volumeOf g y).nents d = max (ndirents g x d) (k + 1) := h.count
  have hself : (volumeOf g y).ent d k = de := h.self
  rw [Volume.Names, hn, hself]
  simp

theorem EntryWritten.names_ne (hj : j ≠ k) :
    (volumeOf g y).Names d name j ↔ (volumeOf g x).Names d name j := by
  have hle := h.le
  have hn : (volumeOf g y).nents d = max (ndirents g x d) (k + 1) := h.count
  have hx : (volumeOf g x).nents d = ndirents g x d := rfl
  rw [Volume.Names, Volume.Names, hn, hx]
  by_cases hlt : j < ndirents g x d
  · have hent : (volumeOf g y).ent d j = (volumeOf g x).ent d j := h.other j hlt hj
    rw [hent, and_congr_left_iff]
    exact fun _ => iff_of_true (lt_max_of_lt_left hlt) hlt
  · exact iff_of_false (fun hm => by have := hm.1; omega) fun hm => hlt hm.1

theorem EntryWritten.lookup_self (hlive : de.inum ≠ 0)
    (hnew : ∀ j, ¬ (volumeOf g x).Names d de.name j) : (volumeOf g y).lookup d de.name = some k := by
  refine Volume.lookup_eq_some_iff.mpr ⟨h.names_self.mpr ⟨hlive, rfl⟩, fun j hj hn => ?_⟩
  exact hnew j ((h.names_ne (by omega)).mp hn)

theorem EntryWritten.lookup_ne (hne : name ≠ de.name)
    (hfree : k < ndirents g x d → (dirent g x d k).inum = 0) :
    (volumeOf g y).lookup d name = (volumeOf g x).lookup d name := by
  apply Volume.lookup_eq_of_names
  intro j
  by_cases hj : j = k
  · subst hj
    exact iff_of_false (fun hm => hne (h.names_self.mp hm).2) fun hm => hm.2.1 (hfree hm.1)
  · exact h.names_ne hj

theorem EntryWritten.lookup_undone (hzero : EntryWritten g y z d k ⟨0, []⟩)
    (hfree : k < ndirents g x d → (dirent g x d k).inum = 0) :
    (volumeOf g z).lookup d name = (volumeOf g x).lookup d name := by
  apply Volume.lookup_eq_of_names
  intro j
  by_cases hj : j = k
  · subst hj
    exact iff_of_false (fun hm => (hzero.names_self.mp hm).1 rfl) fun hm => hm.2.1 (hfree hm.1)
  · exact (hzero.names_ne hj).trans (h.names_ne hj)

end

end EntryWritten

def Fits (g : Geometry) (x : Disk) (d k : ℕ) : Prop :=
  k < ndirents g x d ∨
    DIRENT * (k + 1) ≤ MAXFILE * BSIZE ∧
      Blocks.Room g (readAddrs g x d) x (Blocks.span (DIRENT * k) DIRENT)

theorem Opened.room (h : Opened g s dp d) (hfit : Fits g s.vol.disk d k) :
    DIRENT * (k + 1) ≤ MAXFILE * BSIZE ∧
      Blocks.Room g (readAddrs g s.vol.disk d) s.vol.disk (Blocks.span (DIRENT * k) DIRENT) := by
  rcases hfit with hk | hfit
  · have hin : DIRENT * (k + 1) ≤ (readDinode g s.vol.disk d).size := by
      rw [← h.size_eq]
      exact Nat.mul_le_mul_left _ hk
    refine ⟨hin.trans h.size_le, ?_⟩
    have htab : table g s.vol.disk d = some _ := table_of_type h.lt (by rw [h.type]; decide)
    have hnone : Blocks.missing (readAddrs g s.vol.disk d) s.vol.disk
        (Blocks.span (DIRENT * k) DIRENT) = ∅ := by
      refine Finset.filter_eq_empty_iff.mpr fun p hp => ?_
      obtain ⟨j, -, h2, hp⟩ := Blocks.mem_span.mp hp
      have hj : j < (readDinode g s.vol.disk d).size :=
        h2.trans_le (by rw [← Nat.mul_succ]; exact hin)
      exact Blocks.filled_of_place (Blocks.block_lt (hj.trans_le h.size_le))
        (h.settled.disk.full d _ htab j hj) hp
    rw [Blocks.Room, hnone]
    exact Nat.zero_le _
  · exact hfit

theorem Opened.write (hg : g.Ok) (h : Opened g s dp d) {de : Dirent}
    (hk : k ≤ ndirents g s.vol.disk d) (hfit : Fits g s.vol.disk d k) (hde : de.inum < 2 ^ 16)
    (hname : Canon de.name) :
    ∃ s', Blocks.writei g dp de.encode (DIRENT * k) s = .ok ((DIRENT : ℤ), s') ∧
      Opened g s' dp d ∧ SameRefs s s' ∧ SameOthers g d s.vol.disk s'.vol.disk ∧
      (volumeOf g s'.vol.disk).contents d =
        overwrite ((volumeOf g s.vol.disk).contents d) (DIRENT * k) de.encode ∧
      EntryWritten g s.vol.disk s'.vol.disk d k de := by
  obtain ⟨hmax, hroom⟩ := h.room hfit
  have hlen : de.encode.length = DIRENT := de.length_encode
  have hoff : DIRENT * k ≤ (readDinode g s.vol.disk d).size := by
    rw [← h.size_eq]
    exact Nat.mul_le_mul_left _ hk
  have hend : DIRENT * k + de.encode.length ≤ MAXFILE * BSIZE := by
    rw [hlen, ← Nat.mul_succ]
    exact hmax
  have htab : table g s.vol.disk d = some _ := table_of_type h.lt (by rw [h.type]; decide)
  have haddrs := (h.settled.locked h.locked h.inum).2.2.2
  obtain ⟨r, hr⟩ : ∃ r, Blocks.writei g dp de.encode (DIRENT * k) s = .ok r := by
    refine (writei_ok_iff (by rw [h.din]; exact h.not_dev) (by rw [h.din]; exact hoff) hend).mpr ?_
    rw [haddrs]
    obtain ⟨a, x, hloop, -⟩ := hroom.writeLoop hg h.settled.disk.accounts htab hend fun j h1 h2 p hp =>
      Blocks.mem_span.mpr ⟨j, h1, hlen ▸ h2, hp⟩
    exact ⟨a, x, hloop⟩
  obtain ⟨-, hsame, hlocks⟩ := writei_frame hr
  obtain ⟨hr1, t, hv, hR⟩ := h.settled.writes hg h.locked h.inum h.not_dev hoff hend hr
  obtain ⟨-, hbytes, htype, hothers, hset⟩ := h.settled.written hg h.locked h.inum h.not_dev hoff hend hr
  have hput : Volume.EntryPut (volumeOf g s.vol.disk) t.vol d k de := by
    rw [hv]
    exact Volume.entryPut_writeDirent rfl (fun _ => rfl) h.aligned hk hde hname
  have hdir : t.vol.Dir g.conf d := by
    refine ⟨h.lt, ?_⟩
    rw [hv, Volume.write_dinode, if_pos rfl]
    exact h.type
  have hn := hR.represents.ndirents_eq hdir
  have hent : ∀ {j}, j < t.vol.nents d → dirent g r.2.vol.disk d j = t.vol.ent d j :=
    fun hj => hR.represents.dirent_eq hdir hj
  have hsize : (readDinode g r.2.vol.disk d).size =
      max (readDinode g s.vol.disk d).size (DIRENT * (k + 1)) := by
    rw [hR.dinode d h.lt, hv]
    change ((Volume.writeDirent _ d de k).dinode d).size = _
    rw [Volume.writeDirent_dinode, if_pos rfl]
    rfl
  refine ⟨r.2, ?_, ?_, hsame, hothers, hbytes, ?_⟩
  · rw [hr, ← hlen, ← hr1]
  · refine ⟨hset, ?_, ?_, htype.trans h.type, ?_⟩
    · rw [hlocks dp]
      exact h.locked
    · rw [(hsame dp).1]
      exact h.inum
    · rw [hsize, ← h.size_eq, Nat.mul_max_mul_left]
      exact Nat.mul_mod_right _ _
  · have hnents := hput.nents
    refine ⟨hk, hn.trans hnents, ?_, fun j hj hne => ?_⟩
    · rw [hent (by omega)]
      exact hput.self
    · have hj' : j < (volumeOf g s.vol.disk).nents d := hj
      rw [hent (by omega)]
      exact hput.other j hne

def Taken (g : Geometry) (x : Disk) (d : ℕ) (name : Name) (k : ℕ) : Prop :=
  k < ndirents g x d ∧ (dirent g x d k).inum ≠ 0 ∧ (dirent g x d k).name = name.take DIRSIZ

structure FirstFree (g : Geometry) (x : Disk) (d k : ℕ) : Prop where
  le : k ≤ ndirents g x d
  free : k < ndirents g x d → (dirent g x d k).inum = 0
  used : ∀ j < k, (dirent g x d j).inum ≠ 0

theorem FirstFree.eq_freeSlot {x : Disk} (h : FirstFree g x d k) : k = (volumeOf g x).freeSlot d := by
  have hle : (volumeOf g x).freeSlot d ≤ ndirents g x d := Volume.freeSlot_le _ _
  have h1 : ¬ (volumeOf g x).freeSlot d < k := fun hlt =>
    h.used _ hlt (Volume.freeSlot_free (hlt.trans_le h.le))
  have h2 : ¬ k < (volumeOf g x).freeSlot d := fun hlt =>
    Volume.freeFrom_first _ 0 k (Nat.zero_le _) hlt (h.free (hlt.trans_le hle))
  omega

theorem taken_iff {x : Disk} : Taken g x d name k ↔ (volumeOf g x).Names d (name.take DIRSIZ) k :=
  and_congr_right fun _ => and_congr_right fun _ => eq_comm

/-- The lookup takes a reference to the inode of the entry, which `iput` gives back. -/
theorem Opened.run_dirlink_taken (h : Opened g s dp d) (hdir : DirectoryOn g s.vol.disk d)
    (hname : 0 ∉ name) (inum : ℕ) (hk : Taken g s.vol.disk d name k) :
    (dirlink dp name inum).run (performB g) s = do
      let (ip, s1) ← s.iget (dirent g s.vol.disk d k).inum
      let (_, s2) ← Blocks.iput g ip s1
      return (-1, s2) := by
  have hlook : (volumeOf g s.vol.disk).lookup d (name.take DIRSIZ) = some k := by
    refine Volume.lookup_eq_some_iff.mpr ⟨taken_iff.mp hk, fun j hj hn => ?_⟩
    -- Names are distinct in a directory, so there is no earlier entry.
    have hj' := taken_iff.mpr hn
    have := hdir.distinct j k hj'.1 hk.1 hj'.2.1 hk.2.1 (hj'.2.2.trans hk.2.2.symm)
    omega
  rw [run_dirlink_take hname, Fs.dirlink, run_bind, h.run_dirlookup, hlook]
  cases hget : s.iget (dirent g s.vol.disk d k).inum with
  | error f =>
    simp only [hget, Except.map]
    rfl
  | ok r =>
    simp only [hget, Except.map, run_bind, iput, call, run, performB]
    change _ = (Blocks.iput g r.1 r.2).bind fun r2 => .ok (-1, r2.2)
    cases Blocks.iput g r.1 r.2 <;> rfl

theorem iget_iput_hangs (hs : Settled g s) {i : ℕ} (hlocked : ¬ Unlocked s i) :
    ∃ ip s1, s.iget i = .ok (ip, s1) ∧ Blocks.iput g ip s1 = .error .hang := by
  simp only [Unlocked, not_forall, Bool.not_eq_false] at hlocked
  obtain ⟨jp, hpos, hj, hlk⟩ := hlocked
  rcases s.iget_cases i with ⟨ip, hpos', hi, hok⟩ | ⟨ip, -, hno, -⟩ | ⟨hno, -⟩
  · obtain rfl : ip = jp := hs.uniq ip jp hpos' hpos (hi.trans hj.symm)
    refine ⟨ip, _, hok, ?_⟩
    simp only [Blocks.iput, Kernel.idup, Kernel.setInode, update_self, hlk, if_true]
  · exact absurd hj (hno jp hpos)
  · exact absurd hj (hno jp).2

theorem Opened.run_dirlink_new (hg : g.Ok) (h : Opened g s dp d) (hname : 0 ∉ name) {inum : ℕ}
    (hinum : inum < 2 ^ 16) (hnew : ∀ k, ¬ Taken g s.vol.disk d name k)
    (hk : FirstFree g s.vol.disk d k) (hfit : Fits g s.vol.disk d k) :
    ∃ s', (dirlink dp name inum).run (performB g) s = .ok (0, s') ∧
      Opened g s' dp d ∧ SameRefs s s' ∧ SameOthers g d s.vol.disk s'.vol.disk ∧
      (volumeOf g s'.vol.disk).contents d = overwrite ((volumeOf g s.vol.disk).contents d) (DIRENT * k)
        (deBytes inum (strncpy (cstring name) DIRSIZ)) ∧
      EntryWritten g s.vol.disk s'.vol.disk d k ⟨inum, name.take DIRSIZ⟩ := by
  obtain ⟨s', hw, hrest⟩ := h.write hg hk.le hfit
    (show (Dirent.mk inum (name.take DIRSIZ)).inum < 2 ^ 16 from hinum) (canon_take hname)
  rw [deBytes_strncpy hname]
  refine ⟨s', ?_, hrest⟩
  have hlook : (volumeOf g s.vol.disk).lookup d (name.take DIRSIZ) = none :=
    Volume.lookup_eq_none fun j hj => hnew j (taken_iff.mpr hj)
  have hslot : (volumeOf g s.vol.disk).freeFrom d (ndirents g s.vol.disk d) 0 = k := hk.eq_freeSlot.symm
  have hfree := h.run_freeLoop (n := ndirents g s.vol.disk d) (m := 0) (by omega)
  rw [Nat.mul_zero, hslot] at hfree
  rw [run_dirlink_take hname, Fs.dirlink, run_bind, h.run_dirlookup, hlook]
  simp only [run_bind, dinode, call, run, performB, h.din, h.direntsFrom_eq, hfree, writeDirent, hw,
    ne_eq, not_true_eq_false, if_false]
  rfl

theorem Opened.run_clearDirent (hg : g.Ok) (h : Opened g s dp d) (hk : k < ndirents g s.vol.disk d) :
    ∃ s', (clearDirent dp (DIRENT * k)).run (performB g) s = .ok ((), s') ∧
      Opened g s' dp d ∧ SameRefs s s' ∧ EntryWritten g s.vol.disk s'.vol.disk d k ⟨0, []⟩ := by
  obtain ⟨s', hw, hop, hsame, -, -, hwr⟩ := h.write hg hk.le (.inl hk)
    (show (Dirent.mk 0 []).inum < 2 ^ 16 by norm_num) ⟨by norm_num, List.not_mem_nil⟩
  refine ⟨s', ?_, hop, hsame, hwr⟩
  rw [clearDirent, replicate_eq_encode]
  simp only [run_bind, writei, call, run, performB, hw, ne_eq, not_true_eq_false, if_false]
  rfl

theorem found_congr (h : Opened g s dp d) (h' : Opened g s' dp d) (hsame : SameRefs s s')
    (hname : 0 ∉ name) (hlook : (volumeOf g s'.vol.disk).lookup d (name.take DIRSIZ) =
      (volumeOf g s.vol.disk).lookup d (name.take DIRSIZ))
    (hent : ∀ k, Taken g s.vol.disk d name k → dirent g s'.vol.disk d k = dirent g s.vol.disk d k) :
    found g dp name s' = found g dp name s := by
  rw [h'.found_eq hname, h.found_eq hname, hlook]
  cases hk : (volumeOf g s.vol.disk).lookup d (name.take DIRSIZ) with
  | none => rfl
  | some k =>
    simp only [hent k (taken_iff.mpr (Volume.lookup_some hk)), SameRefs.gettable hsame]

theorem dirlink_inserts (hg : g.Ok) (h : Opened g s dp d) (hdir : DirectoryOn g s.vol.disk d)
    (hname : 0 ∉ name) {inum : ℕ} (hpos : 0 < inum) (hinum : inum < 2 ^ 16) :
    (∀ k, Taken g s.vol.disk d name k →
      (Gettable s (dirent g s.vol.disk d k).inum → Unlocked s (dirent g s.vol.disk d k).inum →
        ∃ s', (dirlink dp name inum).run (performB g) s = .ok (-1, s') ∧ Unchanged s s') ∧
      (¬ Gettable s (dirent g s.vol.disk d k).inum →
        (dirlink dp name inum).run (performB g) s = .error (.panic .igetNoInodes)) ∧
      (¬ Unlocked s (dirent g s.vol.disk d k).inum →
        (dirlink dp name inum).run (performB g) s = .error .hang)) ∧
    ∀ k, (∀ j, ¬ Taken g s.vol.disk d name j) → FirstFree g s.vol.disk d k →
      Fits g s.vol.disk d k →
      ∃ s', (dirlink dp name inum).run (performB g) s = .ok (0, s') ∧
        SameOthers g d s.vol.disk s'.vol.disk ∧
        (volumeOf g s'.vol.disk).contents d = overwrite ((volumeOf g s.vol.disk).contents d)
          (DIRENT * k) (deBytes inum (strncpy (cstring name) DIRSIZ)) ∧
        (∀ j < ndirents g s.vol.disk d, j ≠ k →
          dirent g s'.vol.disk d j = dirent g s.vol.disk d j) ∧
        (found g dp name s' = if Gettable s inum then .ok (some (inum, DIRENT * k))
          else .error (.panic .igetNoInodes)) ∧
        (∀ other : Name, 0 ∉ other → other.take DIRSIZ ≠ name.take DIRSIZ →
          found g dp other s' = found g dp other s) ∧
        ∃ s'', (clearDirent dp (DIRENT * k)).run (performB g) s' = .ok ((), s'') ∧
          (dirent g s''.vol.disk d k).inum = 0 ∧
          (∀ j < ndirents g s.vol.disk d, j ≠ k →
            dirent g s''.vol.disk d j = dirent g s.vol.disk d j) ∧
          ∀ other : Name, 0 ∉ other → found g dp other s'' = found g dp other s := by
  refine ⟨fun k hk => ?_, ?_⟩
  · rw [h.run_dirlink_taken hdir hname inum hk]
    refine ⟨fun hget hfree => ?_, fun hno => ?_, fun hlocked => ?_⟩
    · obtain ⟨ip, s1, s2, hok, hput, hsame⟩ := iget_iput h.settled hget hfree
      refine ⟨s2, ?_, hsame⟩
      simp only [Bind.bind, Except.bind, hok, hput]
      rfl
    · rcases s.iget_cases (dirent g s.vol.disk d k).inum with ⟨ip, -, hi, -⟩ | ⟨ip, h0, -, -⟩ | ⟨-, herr⟩
      · exact absurd ⟨ip, .inr hi⟩ hno
      · exact absurd ⟨ip, .inl h0⟩ hno
      · simp only [Bind.bind, Except.bind, herr]
    · obtain ⟨ip, s1, hok, hput⟩ := iget_iput_hangs h.settled hlocked
      simp only [Bind.bind, Except.bind, hok, hput]
  intro k hnew hk hfit
  obtain ⟨s', hrun, h', hsame, hothers, hbytes, hwr⟩ := h.run_dirlink_new hg hname hinum hnew hk hfit
  have hlt : k < ndirents g s'.vol.disk d := by
    rw [hwr.count]
    omega
  obtain ⟨s'', hclear, h'', hsame', hzero⟩ := h'.run_clearDirent hg hlt
  -- The slot was free, so it held no entry that a search could find.
  have hne : ∀ {other j}, Taken g s.vol.disk d other j → j ≠ k := by
    rintro other j hj rfl
    exact hj.2.1 (hk.free hj.1)
  have hkeep : ∀ j < ndirents g s.vol.disk d, j ≠ k →
      dirent g s''.vol.disk d j = dirent g s.vol.disk d j := fun j hj hjk =>
    (hzero.other j (by rw [hwr.count]; omega) hjk).trans (hwr.other j hj hjk)
  refine ⟨s', hrun, hothers, hbytes, hwr.other, ?_, fun other h0 hdiff => ?_,
    s'', hclear, by rw [hzero.self], hkeep, fun other h0 => ?_⟩
  · have hlook : (volumeOf g s'.vol.disk).lookup d (name.take DIRSIZ) = some k :=
      hwr.lookup_self (by simpa using hpos.ne') fun j hj => hnew j (taken_iff.mpr hj)
    rw [h'.found_eq hname, hlook]
    simp only [hwr.self, SameRefs.gettable hsame inum]
  · exact found_congr h h' hsame h0 (hwr.lookup_ne hdiff hk.free) fun j hj =>
      hwr.other j hj.1 (hne hj)
  · refine found_congr h h'' (fun ip => ?_) h0 (hwr.lookup_undone hzero hk.free) fun j hj =>
      hkeep j hj.1 (hne hj)
    obtain ⟨h1, h2⟩ := hsame ip
    obtain ⟨h3, h4⟩ := hsame' ip
    exact ⟨h3.trans h1, h4.trans h2⟩

theorem opened_lockedRoot : Opened xv6Geometry lockedRoot 0 ROOTINO :=
  ⟨settled_lockedRoot mkfsDisk_ok rfl rfl, rfl, rfl, by decide +kernel, by decide +kernel⟩

theorem directoryOn_lockedRoot : DirectoryOn xv6Geometry lockedRoot.vol.disk ROOTINO :=
  mkfsDisk_directory ROOTINO (by decide) (by decide +kernel)

/-- The name `f` goes to the third slot of the root directory, after `.` and `..`. -/
theorem dirlink_inserts_root :
    ∃ s', (dirlink 0 [102] 5).run (performB xv6Geometry) lockedRoot = .ok (0, s') ∧
      found xv6Geometry 0 [102] s' = .ok (some (5, 32)) := by
  have hnew : ∀ j < ndirents xv6Geometry mkfsDisk ROOTINO,
      ¬ ((dirent xv6Geometry mkfsDisk ROOTINO j).inum ≠ 0 ∧
        (dirent xv6Geometry mkfsDisk ROOTINO j).name = [102]) := by
    decide +kernel
  have hfree : FirstFree xv6Geometry mkfsDisk ROOTINO 2 :=
    ⟨by decide +kernel, by decide +kernel, by decide +kernel⟩
  have hall := dirlink_inserts xv6Geometry_ok opened_lockedRoot directoryOn_lockedRoot
    (show 0 ∉ [102] by decide) (show 0 < 5 by decide) (by decide)
  obtain ⟨s', hrun, -, -, -, hfound, -⟩ :=
    hall.2 2 (fun j hj => hnew j hj.1 hj.2) hfree (.inl (by decide +kernel))
  exact ⟨s', hrun, hfound.trans (if_pos (by decide))⟩

/-- The entry `.` of a directory is in use, and `dirlink` of it does not return `-1`. -/
theorem dirlink_dot_hangs :
    xv6Geometry.Ok ∧ Opened xv6Geometry lockedRoot 0 ROOTINO ∧
      DirectoryOn xv6Geometry lockedRoot.vol.disk ROOTINO ∧
      Taken xv6Geometry lockedRoot.vol.disk ROOTINO dotName 0 ∧
      (dirlink 0 dotName 5).run (performB xv6Geometry) lockedRoot = .error .hang := by
  refine ⟨xv6Geometry_ok, opened_lockedRoot, directoryOn_lockedRoot, ?_, rfl⟩
  exact ⟨by decide +kernel, by decide +kernel, by decide +kernel⟩

end DirMap

end Xv6.Fs
