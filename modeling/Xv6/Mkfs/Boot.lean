import Mathlib.Data.List.GetD
import Mathlib.Data.List.TakeWhile
import Xv6.Mkfs.Consistency
import Xv6.Fs.Paths

/-!
# The kernel on the image of `mkfs`

The kernel finds every file that `mkfs` was given under its name in the root directory, and reads
its bytes there.
-/

namespace Xv6.Mkfs

open Lib Lib.Prog Fs Fs.Blocks Function

variable {g : Geometry} {s : BState} {ip : ISlot} {name : Name} {files : List Input} {f : Input}
  {m m₀ : State} {i j k n : ℕ}

def Input.dirName (f : Input) : Name := f.stripped.take DIRSIZ

theorem encode_take (i : ℕ) (name : Name) :
    Dirent.encode ⟨i, name.take DIRSIZ⟩ = Dirent.encode ⟨i, name⟩ := by
  simp only [Dirent.encode]
  congr 2
  apply List.map_congr_left
  intro j hj
  rw [List.mem_range] at hj
  rw [List.getD_eq_getElem?_getD, List.getD_eq_getElem?_getD, List.getElem?_take_of_lt hj]

variable {e : Dirent} {es : List Dirent}

theorem getD_flatten_encode (hk : es[k]? = some e) (hj : j < DIRENT) :
    ((es.map Dirent.encode).flatten).getD (DIRENT * k + j) 0 = e.encode.getD j 0 := by
  induction es generalizing k with
  | nil => cases hk
  | cons e' es ih =>
    have hlen := e'.length_encode
    rw [List.map_cons, List.flatten_cons]
    cases k with
    | zero =>
      cases hk
      rw [Nat.mul_zero, Nat.zero_add, List.getD_append _ _ _ _ (by omega)]
    | succ k =>
      rw [List.getD_append_right _ _ _ _ (by rw [hlen, Nat.mul_succ]; omega), hlen]
      have hoff : DIRENT * (k + 1) + j - DIRENT = DIRENT * k + j := by rw [Nat.mul_succ]; omega
      rw [hoff]
      exact ih hk

theorem direntAt_flatten (hk : es[k]? = some e) (hi : e.inum < 2 ^ 16) (hname : 0 ∉ e.name) :
    direntAt (fun j => ((es.map Dirent.encode).flatten).getD j 0) (DIRENT * k) =
      ⟨e.inum, e.name.take DIRSIZ⟩ := by
  have hcanon : Canon (e.name.take DIRSIZ) :=
    ⟨List.length_take_le _ _, fun h0 => hname (List.mem_of_mem_take h0)⟩
  have hde : direntAt (splice (fun _ => 0) (DIRENT * k) (Dirent.encode ⟨e.inum, e.name.take DIRSIZ⟩))
      (DIRENT * k) = ⟨e.inum, e.name.take DIRSIZ⟩ := direntAt_splice _ _ hi hcanon
  rw [← hde]
  apply direntAt_congr
  intro j hj
  rw [getD_flatten_encode hk hj, splice_mem _ _ (by rw [Dirent.length_encode]; exact hj), encode_take]

theorem slice_eq {u : ℕ → Byte} {l : List Byte} (h : ∀ j < l.length, u j = l.getD j 0) :
    slice u 0 l.length = l := by
  apply List.ext_getElem (length_slice _ _ _)
  intro j h1 h2
  simp only [slice, List.getElem_map, List.getElem_range, Nat.zero_add]
  rw [h j h2, List.getD_eq_getElem _ _ h2]

theorem readi_mapped {off : ℕ} (hdev : (s.cache ip).din.type ≠ T_DEV)
    (hle : off + n ≤ (s.cache ip).din.size) (hmax : off + n ≤ MAXFILE * BSIZE)
    (hmap : ∀ j, off ≤ j → j < off + n → HasBlock (s.vol.addrs ip) s.vol.disk j) :
    Blocks.readi g ip off n s = .ok (some (slice (contentOf (s.vol.addrs ip) s.vol.disk) off n), s) := by
  have hin : ¬ ((s.cache ip).din.size < off ∨ (off + n) % 2 ^ 32 < off) := by
    simp only [MAXFILE, NDIRECT, NINDIRECT, BSIZE] at hmax
    omega
  have hmin : min n ((s.cache ip).din.size - off) = n := by omega
  simp only [Blocks.readi, if_neg hdev, if_neg hin, hmin]
  rw [readLoop_ok le_rfl hmax hmap]
  simp only [setStore, update_eq_self]

theorem readDirent_mapped {off : ℕ} (hdev : (s.cache ip).din.type ≠ T_DEV)
    (hle : off + DIRENT ≤ (s.cache ip).din.size) (hmax : off + DIRENT ≤ MAXFILE * BSIZE)
    (hmap : ∀ j, off ≤ j → j < off + DIRENT → HasBlock (s.vol.addrs ip) s.vol.disk j) :
    Blocks.readDirent g ip off s =
      .ok (some (direntAt (contentOf (s.vol.addrs ip) s.vol.disk) off), s) := by
  simp only [Blocks.readDirent, readi_mapped hdev hle hmax hmap, length_slice, if_true, decode_slice]

theorem dirlookupLoop_found
    (hread : ∀ j e, es[j]? = some e → Blocks.readDirent g ip (DIRENT * j) s = .ok (some e, s))
    (hk : es[k]? = some ⟨i, name⟩) (hi : i ≠ 0)
    (hfirst : ∀ j < k, ∀ e, es[j]? = some e → name ≠ e.name) :
    ∀ n j, j ≤ k → k < j + n →
      (dirlookupLoop ip name n (DIRENT * j)).run (performB g) s =
        (do let jp ← iget i; Pure.pure (some (jp, DIRENT * k)) : FsProg _).run (performB g) s := by
  intro n
  induction n with
  | zero =>
    intro j h1 h2
    omega
  | succ n ih =>
    intro j h1 h2
    have hlt : k < es.length := (List.getElem?_eq_some_iff.mp hk).1
    have hj : es[j]? = some es[j] := List.getElem?_eq_getElem (by omega)
    have hop : performB g _ (.readDirent ip (DIRENT * j)) s = .ok (some es[j], s) := hread j _ hj
    rw [dirlookupLoop, Fs.readDirent, run_call hop]
    dsimp only
    by_cases heq : j = k
    · subst heq
      rw [hk] at hj
      rw [← Option.some.inj hj, if_pos ⟨hi, rfl⟩]
    · have hne := hfirst j (by omega) _ hj
      rw [if_neg fun h => hne h.2]
      exact ih (j + 1) (by omega) (by omega)

structure HasEntry (g : Geometry) (d : Disk) (name : Name) (i : ℕ) : Prop where
  type : (readDinode g d ROOTINO).type = T_DIR
  nlink : (readDinode g d ROOTINO).nlink ≠ 0
  other : i ≠ ROOTINO
  inum : i ≠ 0
  found : ∃ (es : List Dirent) (k : ℕ), es[k]? = some ⟨i, name⟩ ∧
    (∀ j < k, ∀ e, es[j]? = some e → name ≠ e.name) ∧
    DIRENT * es.length ≤ (readDinode g d ROOTINO).size ∧
    ∀ (s : BState) (ip : ISlot), s.vol.disk = d → s.vol.addrs ip = readAddrs g d ROOTINO →
      (s.cache ip).din = readDinode g d ROOTINO → ∀ j e, es[j]? = some e →
        Blocks.readDirent g ip (DIRENT * j) s = .ok (some e, s)

theorem elems_name (hne : name ≠ []) (hslash : slash ∉ name) (hlen : name.length ≤ DIRSIZ) :
    elems (slash :: name) = [name] := by
  cases name with
  | nil => exact absurd rfl hne
  | cons b name =>
    have hall : ∀ x ∈ b :: name, (x != slash) = true := fun x hx => by
      simp only [bne_iff_ne]
      rintro rfl
      exact hslash hx
    have hb : b ≠ slash := fun h => hslash (h ▸ List.mem_cons_self)
    rw [(elems_eq _).2, components_slash, components_cons hb, List.takeWhile_eq_self_iff.mpr hall,
      List.dropWhile_eq_nil_iff.mpr hall, components_nil, List.map_singleton, List.take_of_length_le hlen]

def rootHeld (d : Disk) : BState := (bootB d).setInode 0 ⟨ROOTINO, 2, false, false, ⟨0, 0, 0, 0, 0⟩⟩

def rootLocked (g : Geometry) (d : Disk) : BState :=
  setStore ((rootHeld d).setInode 0 ⟨ROOTINO, 2, true, true, readDinode g d ROOTINO⟩) 0
    (readAddrs g d ROOTINO) d

def fileHeld (g : Geometry) (d : Disk) (i : ℕ) : BState :=
  (rootLocked g d).setInode 1 ⟨i, 1, false, false, ⟨0, 0, 0, 0, 0⟩⟩

variable {d : Disk}

theorem iget_root : performB g _ (.iget ROOTINO) (bootB d) = .ok (0, rootHeld d) := rfl

theorem ilock_root (htype : (readDinode g d ROOTINO).type = T_DIR) :
    performB g _ (.ilock 0) (rootHeld d) = .ok ((), rootLocked g d) := by
  have hty : (readDinode g d ROOTINO).type ≠ 0 := by
    rw [htype]
    decide
  change Blocks.ilock g 0 (rootHeld d) = _
  have hx : (rootHeld d).cache 0 = ⟨ROOTINO, 2, false, false, ⟨0, 0, 0, 0, 0⟩⟩ := rfl
  have hdisk : (rootHeld d).vol.disk = d := rfl
  simp only [Blocks.ilock, hx, hdisk, if_neg hty]
  rfl

theorem iget_file (h : HasEntry g d name i) :
    performB g _ (.iget i) (rootLocked g d) = .ok (1, fileHeld g d i) := by
  have hmiss : (List.finRange NINODE).find? (fun ip =>
      0 < ((rootLocked g d).cache ip).ref ∧ ((rootLocked g d).cache ip).inum = i) = none := by
    apply List.find?_eq_none.mpr
    intro ip _
    rw [decide_eq_true_eq]
    rintro ⟨hpos, hi⟩
    by_cases h0 : ip = 0
    · rw [h0] at hi
      exact h.other hi.symm
    · have hslot : (rootLocked g d).cache ip = (bootB d).cache ip := by
        simp only [rootLocked, rootHeld, setStore, Kernel.setInode, update_of_ne h0]
      rw [hslot] at hpos
      simp only [bootB, if_neg h0] at hpos
      omega
  have hfree : (List.finRange NINODE).find? (fun ip => ((rootLocked g d).cache ip).ref = 0) = some 1 := rfl
  change Kernel.iget i (rootLocked g d) = _
  rw [Kernel.iget, hmiss, hfree]
  rfl

theorem dirlookup_root (h : HasEntry g d name i) :
    ∃ off, (dirlookup 0 name).run (performB g) (rootLocked g d) = .ok (some (1, off), fileHeld g d i) := by
  obtain ⟨es, k, hk, hfirst, hsize, hread⟩ := h.found
  have hlt : k < es.length := (List.getElem?_eq_some_iff.mp hk).1
  have hdin : performB g _ (.dinode 0) (rootLocked g d) = .ok (readDinode g d ROOTINO, rootLocked g d) := rfl
  have hloop := dirlookupLoop_found (hread (rootLocked g d) 0 rfl rfl rfl) hk h.inum hfirst
    (direntsFrom (readDinode g d ROOTINO).size 0) 0 (Nat.zero_le k) (by
      simp only [direntsFrom, DIRENT, DIRSIZ] at hsize ⊢
      omega)
  rw [Nat.mul_zero] at hloop
  refine ⟨DIRENT * k, ?_⟩
  rw [dirlookup, dinode, run_call hdin, if_neg (not_not.mpr h.type), hloop, iget, run_call (iget_file h)]
  rfl

theorem namei_entry (h : HasEntry g d name i) (hne : name ≠ []) (hslash : slash ∉ name)
    (hzero : 0 ∉ name) (hlen : name.length ≤ DIRSIZ) (p : Pid) :
    ∃ s', (namei p (slash :: name)).run (performB g) (bootB d) = .ok (some 1, s') ∧
      s'.vol.disk = d ∧ s'.cache 1 = ⟨i, 1, false, false, ⟨0, 0, 0, 0, 0⟩⟩ := by
  have hpath : (slash :: name).takeWhile (· != 0) = slash :: name := by
    apply List.takeWhile_eq_self_iff.mpr
    intro x hx
    simp only [bne_iff_ne]
    rintro rfl
    rcases List.mem_cons.mp hx with h0 | h0
    · cases h0
    · exact hzero h0
  have hnamex : namex p (slash :: name) false =
      (do let ip ← iget ROOTINO; namexLoop false [name] ip) := by
    rw [namex, hpath, elems_name hne hslash hlen, namexStart, List.head?_cons, if_pos rfl]
  obtain ⟨off, hlookup⟩ := dirlookup_root h
  have hdin : performB g _ (.dinode 0) (rootLocked g d) = .ok (readDinode g d ROOTINO, rootLocked g d) := rfl
  -- `iunlockput` of the root directory, which keeps its name and a reference.
  have hunlock : performB g _ (.iunlock 0) (fileHeld g d i) = .ok ((), (fileHeld g d i).setInode 0
      ⟨ROOTINO, 2, true, false, readDinode g d ROOTINO⟩) := rfl
  generalize hs : (fileHeld g d i).setInode 0 ⟨ROOTINO, 2, true, false, readDinode g d ROOTINO⟩ = s at hunlock
  have hroot : s.cache 0 = ⟨ROOTINO, 2, true, false, readDinode g d ROOTINO⟩ := hs ▸ rfl
  have hput : performB g _ (.iput 0) s =
      .ok ((), s.setInode 0 ⟨ROOTINO, 1, true, false, readDinode g d ROOTINO⟩) := by
    change Blocks.iput g 0 s = _
    simp only [Blocks.iput, hroot, h.nlink, Bool.false_eq_true, false_and, and_false, if_false]
  refine ⟨s.setInode 0 ⟨ROOTINO, 1, true, false, readDinode g d ROOTINO⟩, ?_, hs ▸ rfl, hs ▸ rfl⟩
  rw [namei, hnamex, run_bind, iget, run_call iget_root, namexLoop, Fs.ilock, run_call (ilock_root h.type), dinode,
    run_call hdin, if_neg (not_not.mpr h.type), if_neg (by simp), run_bind, hlookup]
  dsimp only
  rw [run_bind, iunlockput, Fs.iunlock, run_call hunlock, Fs.iput]
  simp only [call, run, hput]
  rfl

def kernelEntries (files : List Input) : List Dirent :=
  (rootEntries files).map fun e => ⟨e.inum, e.name.take DIRSIZ⟩

theorem rootEntries_getElem? (hk : files[k]? = some f) :
    (rootEntries files)[k + 2]? = some ⟨k + 2, f.stripped⟩ := by
  rw [rootEntries, List.getElem?_cons_succ, List.getElem?_cons_succ, List.getElem?_map,
    List.getElem?_zipIdx, hk]
  simp [Nat.add_comm]

theorem stripped_cstring (f : Input) : 0 ∉ f.stripped := by
  rw [Input.stripped]
  split_ifs
  · exact fun h => f.cstring (List.mem_of_mem_tail h)
  · exact f.cstring

theorem mem_rootEntries (hj : (rootEntries files)[j]? = some e) :
    e = ⟨ROOTINO, dotName⟩ ∧ j = 0 ∨ e = ⟨ROOTINO, dotdotName⟩ ∧ j = 1 ∨
      ∃ k f, j = k + 2 ∧ files[k]? = some f ∧ e = ⟨k + 2, f.stripped⟩ := by
  match j with
  | 0 => exact .inl ⟨(Option.some.inj hj).symm, rfl⟩
  | 1 => exact .inr (.inl ⟨(Option.some.inj hj).symm, rfl⟩)
  | k + 2 =>
    have hlt := (List.getElem?_eq_some_iff.mp hj).1
    rw [length_rootEntries] at hlt
    have hk : files[k]? = some files[k] := List.getElem?_eq_getElem (by omega)
    rw [rootEntries_getElem? hk] at hj
    exact .inr (.inr ⟨k, files[k], rfl, hk, (Option.some.inj hj).symm⟩)

theorem rootEntries_wf (hfew : files.length + 1 < geo.ninodes)
    (hj : (rootEntries files)[j]? = some e) : e.inum < 2 ^ 16 ∧ 0 ∉ e.name := by
  have hninodes : geo.ninodes = 208 := rfl
  rcases mem_rootEntries hj with ⟨rfl, -⟩ | ⟨rfl, -⟩ | ⟨k, f, -, hk, rfl⟩
  · decide
  · decide
  · have hlt := (List.getElem?_eq_some_iff.mp hk).1
    exact ⟨by dsimp only; omega, stripped_cstring f⟩

namespace Finished

variable (h : Finished files m₀ m)

include h

theorem readDirent_root {devsw : ℕ → Option Driver} (hdisk : s.vol.disk = m.disk)
    (haddrs : s.vol.addrs ip = readAddrs geo m.disk ROOTINO)
    (hdin : (s.cache ip).din = readDinode geo m.disk ROOTINO) (hj : (kernelEntries files)[j]? = some e) :
    Blocks.readDirent (sb.geometry devsw) ip (DIRENT * j) s = .ok (some e, s) := by
  rw [kernelEntries, List.getElem?_map, Option.map_eq_some_iff] at hj
  obtain ⟨e', hj, rfl⟩ := hj
  obtain ⟨hi, hname⟩ := rootEntries_wf h.few hj
  have hlt := (List.getElem?_eq_some_iff.mp hj).1
  have hfew := h.few
  have hninodes : geo.ninodes = 208 := rfl
  have hlen := length_rootDir files
  rw [length_rootEntries] at hlt
  have hend : DIRENT * j + DIRENT ≤ (rootDir files).length := by
    rw [hlen]
    simp only [DIRENT, DIRSIZ]
    omega
  have hcontent : ∀ i < (rootDir files).length, _ := fun i hi => h.content (k := 0) (j := i) rfl hi
  have hroot : (s.cache ip).din = ⟨T_DIR, 0, 0, 1, rounded (rootDir files).length⟩ := by
    rw [hdin, h.written.self]
  rw [readDirent_mapped]
  · congr 2
    rw [haddrs, hdisk, ← direntAt_flatten hj hi hname]
    congr 1
    apply direntAt_congr
    intro i hi
    exact (hcontent _ (by omega)).2
  · rw [hroot]
    exact (by decide : T_DIR ≠ T_DEV)
  · rw [hroot]
    simp only [rounded, hlen, DIRENT, DIRSIZ, BSIZE] at hend ⊢
    omega
  · simp only [hlen, DIRENT, DIRSIZ, MAXFILE, NDIRECT, NINDIRECT, BSIZE] at hend ⊢
    omega
  · intro i h1 h2
    rw [haddrs, hdisk]
    exact (hcontent i (by omega)).1

theorem hasEntry {devsw : ℕ → Option Driver} (hk : files[k]? = some f)
    (hnodup : (files.map Input.dirName).Nodup) (hdots : f.dirName ≠ dotName ∧ f.dirName ≠ dotdotName) :
    HasEntry (sb.geometry devsw) m.disk f.dirName (k + 2) := by
  have hroot : readDinode (sb.geometry devsw) m.disk ROOTINO =
      ⟨T_DIR, 0, 0, 1, rounded (rootDir files).length⟩ := h.written.self
  have hlen : (kernelEntries files).length = files.length + 2 := by
    rw [kernelEntries, List.length_map, length_rootEntries]
  refine ⟨by rw [hroot], by rw [hroot]; exact (by decide : (1 : BitVec 16) ≠ 0), ?_, by omega,
    kernelEntries files, k + 2, ?_, ?_, ?_, ?_⟩
  · simp only [ROOTINO]
    omega
  · rw [kernelEntries, List.getElem?_map, rootEntries_getElem? hk]
    rfl
  · intro j hj e he
    rw [kernelEntries, List.getElem?_map, Option.map_eq_some_iff] at he
    obtain ⟨e', he, rfl⟩ := he
    rcases mem_rootEntries he with ⟨rfl, -⟩ | ⟨rfl, -⟩ | ⟨k', f', rfl, hk', rfl⟩
    · exact hdots.1
    · exact hdots.2
    · -- Names that are equal belong to the same file.
      intro heq
      have h1 : (files.map Input.dirName)[k]? = some f.dirName := by rw [List.getElem?_map, hk]; rfl
      have h2 : (files.map Input.dirName)[k']? = some f.dirName := by
        rw [List.getElem?_map, hk', heq]
        rfl
      have := (List.getElem?_inj (List.getElem?_eq_some_iff.mp h1).1 hnodup).mp (h1.trans h2.symm)
      omega
  · rw [hlen, hroot, length_rootDir]
    simp only [rounded, DIRENT, DIRSIZ, BSIZE]
    omega
  · exact fun s ip hdisk haddrs hdin j e he => h.readDirent_root hdisk haddrs hdin he

theorem kernel_accounts (devsw : ℕ → Option Driver) (hn : files.length + 1 < NINODES) :
    Accounts (sb.geometry devsw) (table (sb.geometry devsw) m.disk) m.disk := by
  have htable : table (sb.geometry devsw) m.disk = table geo m.disk := by
    funext i
    by_cases hi : i < NINODES
    · have hi' : i < geo.ninodes := hi.trans (by decide)
      have hi'' : i < (sb.geometry devsw).ninodes := hi
      simp only [table, hi', hi'', true_and]
      rfl
    · have hnone : table geo m.disk i = none := by
        rw [h.table_eq]
        apply if_neg
        rintro ⟨hlt, hty⟩
        exact hty (h.image.free i hlt (.inr (by rw [length_inodes]; omega)))
      rw [hnone]
      exact if_neg fun hx => hi hx.1
  rw [htable]
  exact h.accounts

end Finished

def readFile (p : Pid) (path : Path) : FsProg (Option (Dinode × Option (List Byte))) := do
  match ← namei p path with
  | none => Pure.pure none
  | some ip => do
    Fs.ilock ip
    let d ← dinode ip
    let bytes ← Fs.readi ip 0 d.size
    Pure.pure (some (d, bytes))

theorem Finished.readFile (h : Finished files m₀ m) {devsw : ℕ → Option Driver} (hk : files[k]? = some f)
    (hne : f.dirName ≠ []) (hnodup : (files.map Input.dirName).Nodup)
    (hdots : f.dirName ≠ dotName ∧ f.dirName ≠ dotdotName) (p : Pid) :
    ∃ s', (readFile p (slash :: f.dirName)).run (performB (sb.geometry devsw)) (bootB m.disk) =
      .ok (some (⟨T_FILE, 0, 0, 1, f.bytes.length⟩, some f.bytes), s') := by
  have hentry : HasEntry (sb.geometry devsw) m.disk f.dirName (k + 2) := h.hasEntry hk hnodup hdots
  have hcstr := stripped_cstring f
  have hslash : slash ∉ f.dirName := by
    intro hx
    have hstr := List.mem_of_mem_take hx
    have hname := h.names f (List.mem_of_getElem? hk)
    rw [Input.stripped] at hstr
    split_ifs at hstr
    · exact hname (List.mem_of_mem_tail hstr)
    · exact hname hstr
  obtain ⟨s1, hnamei, hdisk, hslot⟩ := namei_entry hentry hne hslash
    (fun hx => hcstr (List.mem_of_mem_take hx)) (List.length_take_le _ _) p
  have hinode : (inodes files)[k + 1]? = some (fileEntry f) := by
    rw [inodes, List.getElem?_cons_succ, List.getElem?_map, hk]
    rfl
  have hdin : readDinode (sb.geometry devsw) m.disk (k + 2) = ⟨T_FILE, 0, 0, 1, f.bytes.length⟩ :=
    h.dinode_file hinode (Nat.succ_ne_zero k)
  have hcontent : ∀ j < f.bytes.length, _ := fun j hj => h.content hinode hj
  -- `ilock` loads the inode, and the bytes are all there.
  generalize hs2 : setStore (s1.setInode 1 ⟨k + 2, 1, true, true, ⟨T_FILE, 0, 0, 1, f.bytes.length⟩⟩) 1
    (readAddrs (sb.geometry devsw) m.disk (k + 2)) m.disk = s2
  have hlock : performB (sb.geometry devsw) _ (.ilock 1) s1 = .ok ((), s2) := by
    change Blocks.ilock (sb.geometry devsw) 1 s1 = _
    simp only [Blocks.ilock, hslot, hdisk, hdin, ← hs2]
    rfl
  have hload : (s2.cache 1).din = ⟨T_FILE, 0, 0, 1, f.bytes.length⟩ := by
    rw [← hs2, setStore, Kernel.setInode]
    simp only [update_self]
  have haddrs : s2.vol.addrs 1 = readAddrs geo m.disk (k + 2) := by
    rw [← hs2, setStore]
    simp only [update_self]
    rfl
  have hdisk2 : s2.vol.disk = m.disk := hs2 ▸ rfl
  have hdinode : performB (sb.geometry devsw) _ (.dinode 1) s2 =
      .ok (⟨T_FILE, 0, 0, 1, f.bytes.length⟩, s2) := congrArg (fun x => Except.ok (x, s2)) hload
  have hread : performB (sb.geometry devsw) _ (.readi 1 0 f.bytes.length) s2 = .ok (some f.bytes, s2) := by
    change Blocks.readi (sb.geometry devsw) 1 0 f.bytes.length s2 = _
    rw [readi_mapped]
    · rw [haddrs, hdisk2, slice_eq fun j hj => (hcontent j hj).2]
    · rw [hload]
      exact (by decide : T_FILE ≠ T_DEV)
    · rw [hload, Nat.zero_add]
    · rw [Nat.zero_add]
      exact h.size_le hinode
    · intro j _ hj
      rw [haddrs, hdisk2]
      exact (hcontent j (by omega)).1
  refine ⟨s2, ?_⟩
  rw [Mkfs.readFile, run_bind, hnamei]
  dsimp only
  rw [Fs.ilock, run_call hlock, dinode, run_call hdinode, Fs.readi, run_call hread]
  rfl

theorem mkfs_kernel_agree (hdir : ∀ f ∈ files, f.dirName ≠ [] ∧ f.dirName ≠ dotName ∧ f.dirName ≠ dotdotName)
    (hnodup : (files.map Input.dirName).Nodup) (hsize : ∀ f ∈ files, f.bytes.length ≤ MAXFILE * BSIZE)
    (hn : files.length + 1 < NINODES) :
    ((∀ f ∈ files, slash ∉ f.name ∧ f.reads ≠ none) →
      (∀ b, FSSIZE ≤ b → main (some true) files ≠ .error (.read b)) → ∃ m, main (some true) files = .ok m) ∧
    ∀ m, main (some true) files = .ok m → ∀ devsw : ℕ → Option Driver,
      (∀ f ∈ files, ∀ p, ∃ s',
        (readFile p (slash :: f.dirName)).run (performB ((readsb (m.disk 1)).geometry devsw)) (bootB m.disk) =
          .ok (some (⟨T_FILE, 0, 0, 1, f.bytes.length⟩, some f.bytes), s')) ∧
      ∀ b < (readsb (m.disk 1)).size, inUse ((readsb (m.disk 1)).geometry devsw) m.disk b = true ↔
        b < ((readsb (m.disk 1)).geometry devsw).nmeta ∨
          ∃ o, RefersTo ((readsb (m.disk 1)).geometry devsw) m.disk o b := by
  have hn' : files.length + 1 < geo.ninodes := hn.trans (by decide)
  constructor
  · intro hopen hspace
    obtain ⟨m, hm, -⟩ := main_of_fits hn' (fun f hf => (hopen f hf).1) (fun f hf => (hopen f hf).2) hsize hspace
    exact ⟨m, hm⟩
  · intro m hm devsw
    obtain ⟨m₀, h⟩ := (main_finished hn').ok hm
    have hsb : readsb (m.disk 1) = sb := by rw [h.super_eq, readsb_encode]
    rw [hsb]
    refine ⟨fun f hf p => ?_, fun b hb => ?_⟩
    · obtain ⟨k, hk⟩ := List.mem_iff_getElem?.mp hf
      obtain ⟨hne, hdots⟩ := hdir f hf
      exact h.readFile hk hne hnodup hdots p
    · rw [inUse_iff (h.kernel_accounts devsw hn) hb]
      refine or_congr_right ⟨fun ⟨o, ho, _⟩ => ⟨o, ho⟩, fun ⟨o, ho⟩ => ⟨o, ho, fun o' ho' => ?_⟩⟩
      rw [refersTo_iff] at ho ho'
      exact (h.kernel_accounts devsw hn).inj o' o (by rw [ho'.2]; exact ho'.1) (ho'.2.trans ho.2.symm)

def smallFile : Input := ⟨[95, 97], some [[1, 2, 3]], by decide, by decide⟩

def otherFile : Input := ⟨[95, 98], some [[4, 5]], by decide, by decide⟩

theorem mkfs_kernel_agree_small : ∃ m, main (some true) [smallFile, otherFile] = .ok m ∧
    (∃ s', (readFile 0 [47, 97]).run (performB ((readsb (m.disk 1)).geometry fun _ => none)) (bootB m.disk) =
      .ok (some (⟨T_FILE, 0, 0, 1, 3⟩, some [1, 2, 3]), s')) ∧
    ∃ s', (readFile 0 [47, 98]).run (performB ((readsb (m.disk 1)).geometry fun _ => none)) (bootB m.disk) =
      .ok (some (⟨T_FILE, 0, 0, 1, 2⟩, some [4, 5]), s') := by
  have hall := @mkfs_kernel_agree [smallFile, otherFile] (by decide) (by decide) (by decide) (by decide)
  obtain ⟨m, hm⟩ := hall.1 (by decide) fun b _ => main_room (by decide) (by decide) b
  have hread := (hall.2 m hm fun _ => none).1
  exact ⟨m, hm, hread smallFile (by simp) 0, hread otherFile (by simp) 0⟩

end Xv6.Mkfs
