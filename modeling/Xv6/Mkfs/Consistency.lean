import Xv6.Mkfs.Image

/-!
# What `mkfs` writes

With fewer files than the inode blocks have room for, `mkfs` writes the root directory and the
files, each in the inode that its directory entry names.
-/

namespace Xv6.Mkfs

open Lib Fs Fs.Blocks

variable {m m' : State} {i k : ℕ} {f : Input} {done rest files : List Input}

def rootEntries (files : List Input) : List Dirent :=
  ⟨ROOTINO, dotName⟩ :: ⟨ROOTINO, dotdotName⟩ :: (files.zipIdx 2).map fun x => ⟨x.2, x.1.stripped⟩

def rootDir (files : List Input) : List Byte := ((rootEntries files).map Dirent.encode).flatten

def fileEntry (f : Input) : Entry := (T_FILE, f.bytes)

def inodes (files : List Input) : List Entry := (T_DIR, rootDir files) :: files.map fileEntry

theorem length_rootEntries (files : List Input) : (rootEntries files).length = files.length + 2 := by
  simp [rootEntries]

theorem rootEntries_concat (done : List Input) (f : Input) :
    rootEntries (done ++ [f]) = rootEntries done ++ [⟨done.length + 2, f.stripped⟩] := by
  simp [rootEntries, List.zipIdx_append, Nat.add_comm]

theorem rootDir_concat (done : List Input) (f : Input) :
    rootDir (done ++ [f]) = rootDir done ++ Dirent.encode ⟨done.length + 2, f.stripped⟩ := by
  simp only [rootDir, rootEntries_concat, List.map_append, List.flatten_append, List.map_cons, List.map_nil,
    List.flatten_cons, List.flatten_nil, List.append_nil]

theorem length_flatten_encode (es : List Dirent) :
    ((es.map Dirent.encode).flatten).length = DIRENT * es.length := by
  induction es with
  | nil => rfl
  | cons e es ih =>
    rw [List.map_cons, List.flatten_cons, List.length_append, ih, Dirent.length_encode, List.length_cons]
    ring

theorem length_rootDir (files : List Input) : (rootDir files).length = DIRENT * (files.length + 2) := by
  rw [rootDir, length_flatten_encode, length_rootEntries]

theorem length_inodes (files : List Input) : (inodes files).length = files.length + 1 := by
  simp [inodes]

theorem needs_inodes_le (done rest : List Input) : needs (inodes done) ≤ needs (inodes (done ++ rest)) := by
  have hdir : need (rootDir done).length ≤ need (rootDir (done ++ rest)).length := by
    apply need_mono
    rw [length_rootDir, length_rootDir, List.length_append]
    exact Nat.mul_le_mul_left _ (by omega)
  have hfiles := needs_append (done.map fileEntry) (rest.map fileEntry)
  rw [← List.map_append] at hfiles
  simp only [needs, inodes, List.map_cons, List.sum_cons] at hfiles ⊢
  omega

def Refused (files : List Input) (e : Abort) : Prop :=
  PastEnd e ∧ FSSIZE < nmeta + needs (inodes files) ∨
    e = .assertion ∧ (∃ f ∈ files, slash ∈ f.name ∨ MAXFILE * BSIZE < f.bytes.length) ∨
    e = .cannotOpen ∧ ∃ f ∈ files, f.reads = none

theorem Refused.mono {e : Abort} (h : Refused done e) (rest : List Input) : Refused (done ++ rest) e := by
  have hneeds := needs_inodes_le done rest
  rcases h with ⟨hpast, hfull⟩ | ⟨he, f, hf, hbad⟩ | ⟨he, f, hf, hbad⟩
  · exact .inl ⟨hpast, by omega⟩
  · exact .inr (.inl ⟨he, f, List.mem_append_left _ hf, hbad⟩)
  · exact .inr (.inr ⟨he, f, List.mem_append_left _ hf, hbad⟩)

def copying (done : List Input) (f : Input) (bs : List Byte) : List Entry :=
  (T_DIR, rootDir (done ++ [f])) :: (done.map fileEntry ++ [(T_FILE, bs)])

theorem copying_bytes (done : List Input) (f : Input) : copying done f f.bytes = inodes (done ++ [f]) := by
  rw [inodes, List.map_append]
  rfl

theorem copying_getElem? (done : List Input) (f : Input) (bs : List Byte) :
    (copying done f bs)[done.length + 1]? = some (T_FILE, bs) := by
  rw [copying, List.getElem?_cons_succ, List.getElem?_append_right (by rw [List.length_map])]
  simp

theorem copying_set (done : List Input) (f : Input) (bs bs' : List Byte) :
    (copying done f bs).set (done.length + 1) (T_FILE, bs') = copying done f bs' := by
  rw [copying, List.set_cons_succ, List.set_append_right _ _ (by rw [List.length_map])]
  simp [copying]

theorem needs_copying (done : List Input) (f : Input) (bs : List Byte) (h : bs.length ≤ f.bytes.length) :
    needs (copying done f bs) ≤ needs (inodes (done ++ [f])) := by
  have hmono := need_mono h
  simp only [needs, copying, inodes, fileEntry, List.map_append, List.map_cons, List.map_nil, List.sum_cons,
    List.sum_append, List.sum_nil]
  omega

theorem copy_image {cs : List (List Byte)} (hcs : f.reads = some cs) (h : Image m (copying done f []))
    (hn : done.length + 2 < geo.ninodes) :
    Ensures (Refused (done ++ [f])) (fun m' => Image m' (inodes (done ++ [f])))
      (cs.foldlM (fun m c => iappend (done.length + 2) c m) m) := by
  have hbytes : f.bytes = cs.flatten := by rw [Input.bytes, hcs, Option.getD_some]
  have hloop := Ensures.foldlM (E := Refused (done ++ [f])) (l := cs) (a := m)
    (f := fun m c => iappend (done.length + 2) c m)
    (I := fun cs' m => Image m (copying done f cs'.flatten)) h ?_
  · rw [← hbytes, copying_bytes] at hloop
    exact hloop
  · intro cs' c rest m hsplit hI
    have hle : (cs' ++ [c]).flatten.length ≤ f.bytes.length := by
      rw [hbytes, hsplit]
      simp only [List.flatten_append, List.flatten_cons, List.flatten_nil, List.length_append, List.length_nil]
      omega
    have hcat : cs'.flatten ++ c = (cs' ++ [c]).flatten := by simp
    have hlen : (copying done f cs'.flatten).length < geo.ninodes := by
      simp only [copying, List.length_cons, List.length_append, List.length_map, List.length_nil]
      omega
    refine (iappend_image hI hlen (copying_getElem? done f _)).mono ?_ ?_
    · intro e he
      rw [copying_set, hcat] at he
      rcases he with ⟨hpast, hfull⟩ | ⟨he, hbig⟩
      · have := needs_copying done f _ hle
        exact .inl ⟨hpast, by omega⟩
      · exact .inr (.inl ⟨he, f, List.mem_append_right _ (List.mem_singleton_self f), .inr (by omega)⟩)
    · intro m' h'
      rwa [copying_set, hcat] at h'

theorem addFile_image (h : Image m (inodes done)) (hn : done.length + 2 < geo.ninodes) :
    Ensures (Refused (done ++ [f])) (fun m' => Image m' (inodes (done ++ [f])) ∧ slash ∉ f.name)
      (addFile ROOTINO m f) := by
  have hf : f ∈ done ++ [f] := List.mem_append_right _ (List.mem_singleton_self f)
  have hlen := length_inodes done
  rw [addFile]
  split_ifs with hslash
  · exact .of_error (.inr (.inl ⟨rfl, f, hf, .inl hslash⟩))
  · cases hcs : f.reads with
    | none => exact .of_error (.inr (.inr ⟨rfl, f, hf, hcs⟩))
    | some cs =>
      obtain ⟨m1, halloc, h1⟩ := ialloc_image h (by omega) T_FILE (by decide)
      rw [hlen] at halloc
      refine .step halloc ?_
      -- The entry in the root directory.
      have hset : (inodes done ++ [(T_FILE, [])]).set 0 (T_DIR, rootDir done ++
          Dirent.encode ⟨done.length + 2, f.stripped⟩) = copying done f [] := by
        rw [← rootDir_concat]
        rfl
      have hlen1 : (inodes done ++ [(T_FILE, [])]).length < geo.ninodes := by
        rw [List.length_append, hlen]
        exact hn
      refine ((iappend_image h1 hlen1 (k := 0) (x := (T_DIR, rootDir done)) rfl).mono ?_ fun _ h2 => h2).bind ?_
      · intro e he
        rw [hset] at he
        rcases he with ⟨hpast, hfull⟩ | ⟨-, hbig⟩
        · have := needs_copying done f [] (Nat.zero_le _)
          exact .inl ⟨hpast, by omega⟩
        · have hninodes : geo.ninodes = 208 := rfl
          rw [List.length_append, length_rootDir, Dirent.length_encode] at hbig
          simp only [DIRENT, DIRSIZ, MAXFILE, NDIRECT, NINDIRECT, BSIZE] at hbig
          omega
      · intro m2 h2
        rw [hset] at h2
        exact (copy_image hcs h2 hn).mono (fun _ he => he) fun _ h3 => ⟨h3, hslash⟩

theorem files_image (h : Image m (inodes [])) (hn : files.length + 1 < geo.ninodes) :
    Ensures (Refused files) (fun m' => Image m' (inodes files) ∧ ∀ f ∈ files, slash ∉ f.name)
      (files.foldlM (addFile ROOTINO) m) := by
  refine Ensures.foldlM (I := fun done m => Image m (inodes done) ∧ ∀ f ∈ done, slash ∉ f.name)
    ⟨h, fun f hf => absurd hf List.not_mem_nil⟩ fun done f rest m hsplit hI => ?_
  have hlen := congrArg List.length hsplit
  rw [List.length_append, List.length_cons] at hlen
  refine (addFile_image hI.1 (by omega)).mono ?_ fun m' h' => ⟨h'.1, fun f' hf' => ?_⟩
  · intro e he
    have := he.mono rest
    rwa [List.append_assoc, List.singleton_append, ← hsplit] at this
  · rcases List.mem_append.mp hf' with hf' | hf'
    · exact hI.2 f' hf'
    · rw [List.mem_singleton.mp hf']
      exact h'.2

def rounded (n : ℕ) : ℕ := (n / BSIZE + 1) * BSIZE

structure Finished (files : List Input) (m₀ m : State) : Prop where
  few : files.length + 1 < geo.ninodes
  names : ∀ f ∈ files, slash ∉ f.name
  image : Image m₀ (inodes files)
  freeinode : m.freeinode = m₀.freeinode
  freeblock : m.freeblock = m₀.freeblock
  super : m.disk 1 = m₀.disk 1
  space : Space m
  disk : m.disk = writeDinode geo (kernelDisk m₀) ROOTINO
    ⟨T_DIR, 0, 0, 1, rounded (rootDir files).length⟩ (readAddrs geo (kernelDisk m₀) ROOTINO)

theorem dots_image {c : List Byte} {de : Dirent} {E : Abort → Prop} (h : Image m [(T_DIR, c)])
    (hc : c.length + DIRENT ≤ BSIZE) :
    Ensures E (fun m' => Image m' [(T_DIR, c ++ de.encode)]) (iappend ROOTINO de.encode m) := by
  have hlen : (c ++ de.encode).length ≤ BSIZE := by
    rw [List.length_append, Dirent.length_encode]
    exact hc
  refine (iappend_image h (by rw [List.length_singleton]; decide) (k := 0) (x := (T_DIR, c)) rfl).mono ?_ fun _ h' => h'
  rintro e (⟨-, hfull⟩ | ⟨-, hbig⟩)
  · have hneed := need_mono hlen
    have hone : need BSIZE = 1 := by decide
    have hneeds : needs ([(T_DIR, c)].set 0 (T_DIR, c ++ de.encode)) = need (c ++ de.encode).length + 0 := rfl
    rw [hneeds, nmeta_eq] at hfull
    simp only [FSSIZE] at hfull
    omega
  · simp only [MAXFILE, NDIRECT, NINDIRECT, BSIZE] at hbig hlen
    omega

theorem build_finished (h : Image m []) (hn : files.length + 1 < geo.ninodes) :
    Ensures (Refused files) (fun m => ∃ m₀, Finished files m₀ m) (build files m) := by
  obtain ⟨m1, halloc, h1⟩ := ialloc_image h (by decide) T_DIR (by decide)
  rw [build]
  refine .step halloc ?_
  dsimp only [List.length_nil]
  rw [if_neg (by decide)]
  refine (dots_image h1 (by decide)).bind fun m2 h2 => (dots_image h2 ?_).bind fun m3 h3 => ?_
  · rw [List.nil_append, Dirent.length_encode]
    decide
  have hdots : [(T_DIR, [] ++ Dirent.encode ⟨ROOTINO, dotName⟩ ++ Dirent.encode ⟨ROOTINO, dotdotName⟩)] =
      inodes [] := by
    simp [inodes, rootDir, rootEntries]
  rw [hdots] at h3
  refine (files_image h3 hn).bind fun m4 hm4 => ?_
  obtain ⟨h4, hnames⟩ := hm4
  have hroot : ROOTINO < geo.ninodes := by decide
  have hdin : readDinode geo (kernelDisk m4) ROOTINO = ⟨T_DIR, 0, 0, 1, (rootDir files).length⟩ :=
    (h4.used 0 _ rfl).1
  obtain ⟨m5, hput, h5⟩ := winode_ok h4.space hroot
    ⟨T_DIR, 0, 0, 1, rounded (rootDir files).length⟩ (readAddrs geo (kernelDisk m4) ROOTINO)
  rw [rounded] at hput
  rw [rinode_ok h4.space hroot, hdin]
  simp only [bind, Except.bind, hput]
  have hend := h5.space.hi
  have hlo := h5.space.lo
  rw [nmeta_eq] at hlo
  have hmap : sb.bmapstart < m5.freeblock := by rw [bmapstart_eq]; omega
  rw [balloc, if_pos (by simp only [FSSIZE, BSIZE] at *; omega)]
  refine .of_ok ⟨m4, hn, hnames, h4, h5.freeinode, h5.freeblock, ?_, h5.space.wsect hmap, ?_⟩
  · rw [← h5.super, wsect_eq h5.space.len (by omega)]
    simp only [Function.update_of_ne (show 1 ≠ sb.bmapstart by decide)]
  · rw [← h5.disk, wsect_eq h5.space.len (by omega)]
    rfl

theorem main_finished (hn : files.length + 1 < geo.ninodes) :
    Ensures (Refused files) (fun m => ∃ m₀, Finished files m₀ m) (main (some true) files) := by
  rw [main]
  exact build_finished image_start hn

theorem main_of_fits (hn : files.length + 1 < geo.ninodes) (hname : ∀ f ∈ files, slash ∉ f.name)
    (hopen : ∀ f ∈ files, f.reads ≠ none) (hsize : ∀ f ∈ files, f.bytes.length ≤ MAXFILE * BSIZE)
    (hfit : ∀ b, FSSIZE ≤ b → main (some true) files ≠ .error (.read b)) :
    ∃ m, main (some true) files = .ok m ∧ ∃ m₀, Finished files m₀ m := by
  refine (main_finished hn).exists_ok fun e he => ?_
  rcases he with ⟨⟨b, hb, rfl⟩, -⟩ | ⟨-, f, hf, hbad⟩ | ⟨-, f, hf, hbad⟩
  · exact hfit b hb
  · rcases hbad with hbad | hbad
    · exact absurd hbad (hname f hf)
    · exact absurd hbad (Nat.not_lt.mpr (hsize f hf))
  · exact absurd hbad (hopen f hf)

theorem main_room (hn : files.length + 1 < geo.ninodes) (hfit : nmeta + needs (inodes files) ≤ FSSIZE)
    (b : ℕ) : main (some true) files ≠ .error (.read b) := by
  intro herr
  rcases (main_finished hn).error herr with ⟨-, hfull⟩ | ⟨he, -⟩ | ⟨he, -⟩
  · omega
  · cases he
  · cases he

def blockPlace (n j : ℕ) : Place := if j * BSIZE < n then place j else .addr (Fin.last NDIRECT)

theorem place_ne_last {j : ℕ} (hj : j < MAXFILE) : place j ≠ .addr (Fin.last NDIRECT) := by
  by_cases hd : j < NDIRECT
  · rw [place_direct hd, ne_eq, Place.addr.injEq, Fin.ext_iff, Fin.val_last]
    exact hd.ne
  · obtain ⟨i, rfl⟩ := Nat.exists_eq_add_of_le (Nat.not_lt.mp hd)
    rw [place_indirect (by simp only [MAXFILE] at hj; omega)]
    simp

theorem blockPlace_ne {n j bn : ℕ} (hbn : bn < NDIRECT) (hn : n ≤ bn * BSIZE) :
    blockPlace n j ≠ place bn := by
  rw [blockPlace]
  split_ifs with hj
  · simp only [NDIRECT, BSIZE] at hbn hn hj
    intro heq
    have := place_inj (by simp only [MAXFILE, NDIRECT]; omega) (by simp only [MAXFILE, NDIRECT]; omega) heq
    omega
  · exact (place_ne_last (by simp only [MAXFILE, NDIRECT] at *; omega)).symm

theorem blockPlace_inj {n j j' : ℕ} (hn : n ≤ MAXFILE * BSIZE) (hj : j < need n) (hj' : j' < need n)
    (heq : blockPlace n j = blockPlace n j') : j = j' := by
  have hlt : ∀ {i}, i * BSIZE < n → i < MAXFILE := fun hi => by
    simp only [BSIZE] at *
    omega
  rw [blockPlace, blockPlace] at heq
  split_ifs at heq with h h' h'
  · exact place_inj (hlt h) (hlt h') heq
  · exact absurd heq (place_ne_last (hlt h))
  · exact absurd heq.symm (place_ne_last (hlt h'))
  · simp only [need, BSIZE, NDIRECT] at *
    split_ifs at hj hj' <;> omega

theorem blockPlace_ne_zero {a : Addrs} {d : Disk} {n j : ℕ} (hmap : ∀ i < n, HasBlock a d i)
    (hj : j < need n) : blockOf a d (blockPlace n j) ≠ 0 := by
  rw [blockPlace]
  split_ifs with h
  · have hblock := hmap _ h
    rwa [HasBlock, Nat.mul_div_cancel _ (by norm_num)] at hblock
  · have hbig : NDIRECT * BSIZE < n := by
      by_contra hle
      simp only [need, if_neg hle, BSIZE, NDIRECT] at *
      omega
    have hblock := hmap _ hbig
    rw [HasBlock, Nat.mul_div_cancel _ (by norm_num), show place NDIRECT = .slot ⟨0, by decide⟩ from rfl] at hblock
    intro h0
    have hlast : a (Fin.last NDIRECT) = 0 := BitVec.eq_of_toNat_eq h0
    exact hblock (if_pos hlast)

namespace Finished

variable {m₀ : State} {x : Entry} {j : ℕ} (h : Finished files m₀ m)

include h

theorem written : InodeWritten geo (kernelDisk m₀) m.disk ROOTINO
    ⟨T_DIR, 0, 0, 1, rounded (rootDir files).length⟩ (readAddrs geo (kernelDisk m₀) ROOTINO) := by
  have hn := h.few
  have hninodes : geo.ninodes = 208 := rfl
  rw [h.disk]
  apply inodeWritten_writeDinode
  simp only [rounded, length_rootDir, DIRENT, DIRSIZ, BSIZE]
  omega

theorem entry (hk : (inodes files)[k]? = some x) : k + 1 < geo.ninodes ∧ x.1 ≠ 0 ∧
    table geo (kernelDisk m₀) (k + 1) = some (readAddrs geo (kernelDisk m₀) (k + 1)) := by
  have hlt := (List.getElem?_eq_some_iff.mp hk).1
  have hn := h.few
  rw [length_inodes] at hlt
  have hty := h.image.typed x (List.mem_of_getElem? hk)
  refine ⟨by omega, hty, table_of_type (by omega) ?_⟩
  rw [(h.image.used k x hk).1]
  exact hty

theorem table_eq : table geo m.disk = table geo (kernelDisk m₀) := by
  obtain ⟨hlt, -, hrow⟩ := h.entry (k := 0) rfl
  rw [h.written.table_eq hlt, if_pos (show T_DIR ≠ 0 by decide), ← hrow, Function.update_eq_self]

theorem readAddrs_eq (i : ℕ) : readAddrs geo m.disk i = readAddrs geo (kernelDisk m₀) i := by
  by_cases hi : i = ROOTINO
  · rw [hi, h.written.addrs]
  · exact (h.written.other i hi).2

theorem data (b : ℕ) (hb : geo.nmeta ≤ b) (_ : b < geo.size) : m.disk b = kernelDisk m₀ b := by
  rw [geo_nmeta, nmeta_eq] at hb
  exact h.written.data geo_ok (by decide) (by change 58 ≤ b; omega)

theorem accounts : Accounts geo (table geo m.disk) m.disk := by
  rw [h.table_eq]
  exact h.image.disk.accounts.congr_disk h.data fun b _ => h.written.bits geo_ok (by decide) b

theorem refs_eq : refs (table geo m.disk) m.disk = refs (table geo (kernelDisk m₀)) (kernelDisk m₀) := by
  rw [h.table_eq]
  exact refs_congr_data h.image.disk.accounts h.data

theorem content (hk : (inodes files)[k]? = some x) (hj : j < x.2.length) :
    HasBlock (readAddrs geo m.disk (k + 1)) m.disk j ∧
      contentOf (readAddrs geo m.disk (k + 1)) m.disk j = x.2.getD j 0 := by
  obtain ⟨-, -, hrow⟩ := h.entry hk
  obtain ⟨hdin, hc⟩ := h.image.used k x hk
  have hblock := h.image.disk.full _ _ hrow j (by rw [hdin]; exact hj)
  obtain ⟨hkeep, hsame⟩ := content_congr h.image.disk.accounts h.data hrow
  rw [h.readAddrs_eq, hsame j hblock]
  refine ⟨hkeep j hblock, ?_⟩
  rw [← hc, Volume.contents, slice, List.getD_eq_getElem?_getD, List.getElem?_map,
    List.getElem?_range (by change j < (readDinode geo (kernelDisk m₀) (k + 1)).size; rw [hdin]; exact hj)]
  simp only [Option.map_some, Option.getD_some, Nat.zero_add]
  rfl

theorem size_le (hk : (inodes files)[k]? = some x) : x.2.length ≤ MAXFILE * BSIZE := by
  have hle := h.image.disk.size_le _ _ (h.entry hk).2.2
  rwa [(h.image.used k x hk).1] at hle

theorem dinode_file (hk : (inodes files)[k]? = some x) (h0 : k ≠ 0) :
    readDinode geo m.disk (k + 1) = Entry.dinode x := by
  rw [(h.written.other (k + 1) (by simp only [ROOTINO]; omega)).1]
  exact (h.image.used k x hk).1

theorem super_eq : m.disk 1 = sb.encode := h.super.trans h.image.super

theorem freeinode_eq : m.freeinode = files.length + 2 := by
  rw [h.freeinode, h.image.freeinode, length_inodes]

theorem diskOk (hmod : (files.length + 2) % (BSIZE / DIRENT) ≠ 0) : DiskOk geo m.disk := by
  obtain ⟨hlt, -, hrow⟩ := h.entry (k := 0) rfl
  have hn := h.few
  have hninodes : geo.ninodes = 208 := rfl
  have hlen := length_rootDir files
  have hdin : (readDinode geo (kernelDisk m₀) ROOTINO).size = (rootDir files).length := by
    rw [(h.image.used 0 _ rfl).1]
    rfl
  have hr : Rewritten geo (kernelDisk m₀) (kernelDisk m₀) m.disk ROOTINO
      ⟨T_DIR, 0, 0, 1, rounded (rootDir files).length⟩ (readAddrs geo (kernelDisk m₀) ROOTINO) := by
    refine ⟨hlt, fun _ _ => rfl, ?_, fun _ _ _ _ _ _ hb => ⟨hb, rfl⟩, h.written, fun _ => ?_, fun _ j hj => ?_⟩
    · rw [if_pos (show T_DIR ≠ 0 by decide), ← hrow, Function.update_eq_self]
      exact h.image.disk.accounts
    · simp only [rounded, hlen, DIRENT, DIRSIZ, MAXFILE, NDIRECT, NINDIRECT, BSIZE]
      omega
    · -- The first byte of the block of `j` is one of an entry.
      have hsame : j / BSIZE * BSIZE / BSIZE = j / BSIZE := Nat.mul_div_cancel _ (by norm_num)
      have hblock := h.image.disk.full _ _ hrow (j / BSIZE * BSIZE) (by
        change _ < (readDinode geo (kernelDisk m₀) ROOTINO).size
        simp only [rounded] at hj
        rw [hdin]
        rw [hlen] at hj ⊢
        simp only [DIRENT, DIRSIZ, BSIZE] at hj hmod ⊢
        omega)
      rwa [HasBlock, hsame] at hblock
  exact hr.diskOk geo_ok h.image.disk

theorem refs_blockPlace (hk : (inodes files)[k]? = some x) (hj : j < need x.2.length) :
    refs (table geo (kernelDisk m₀)) (kernelDisk m₀) (k + 1, blockPlace x.2.length j) ≠ 0 := by
  obtain ⟨-, -, hrow⟩ := h.entry hk
  rw [refs_some hrow]
  refine blockPlace_ne_zero (fun i hi => h.image.disk.full _ _ hrow i ?_) hj
  rw [(h.image.used k x hk).1]
  exact hi

theorem hole (bn : ℕ) (hbn : bn < NDIRECT) (hend : (rootDir files).length ≤ bn * BSIZE) :
    blockOf (readAddrs geo m.disk ROOTINO) m.disk (place bn) = 0 := by
  by_contra hne
  have hrow : table geo m.disk ROOTINO = some (readAddrs geo m.disk ROOTINO) := by
    rw [h.table_eq, h.readAddrs_eq]
    exact (h.entry (k := 0) rfl).2.2
  rw [← refs_some hrow, h.refs_eq] at hne
  have hk : ∀ k : Fin (inodes files).length, (inodes files)[k.val]? = some (inodes files)[k.val] :=
    fun k => List.getElem?_eq_getElem k.isLt
  have hfile := fun k j hj => h.refs_blockPlace (j := j) (hk k) hj
  have hlast := ref_lt h.image.space h.image.disk.accounts hne
  have hinj := h.image.disk.accounts.inj
  have hlt : ∀ o, _ ≠ 0 → _ := fun o => ref_lt (o := o) h.image.space h.image.disk.accounts
  have hcount := h.image.count
  generalize refs (table geo (kernelDisk m₀)) (kernelDisk m₀) = R at *
  have hcard := Finset.card_le_card_of_injOn
    (s := Finset.univ.sigma fun k : Fin (inodes files).length =>
      Finset.range (need (inodes files)[k.val].2.length))
    (t := (Finset.Ico nmeta m₀.freeblock).erase (R (ROOTINO, place bn)))
    (fun x => R (x.1 + 1, blockPlace (inodes files)[x.1.val].2.length x.2)) ?_ ?_
  · rw [Finset.card_sigma, Finset.card_erase_of_mem (Finset.mem_Ico.mpr hlast), Nat.card_Ico] at hcard
    simp only [Finset.card_range] at hcard
    rw [Fin.sum_univ_fun_getElem (inodes files) fun x => need x.2.length, ← needs] at hcard
    omega
  · rintro ⟨k, j⟩ hx
    have hj := Finset.mem_range.mp (Finset.mem_sigma.mp hx).2
    refine Finset.mem_coe.mpr (Finset.mem_erase.mpr ⟨fun heq => ?_,
      Finset.mem_Ico.mpr (hlt _ (hfile k j hj))⟩)
    obtain ⟨hi, hp⟩ := Prod.mk.inj (hinj _ _ (hfile k j hj) heq)
    have hk0 : k.val = 0 := by
      simp only [ROOTINO] at hi
      omega
    have hlen : (inodes files)[k.val].2.length ≤ bn * BSIZE := by
      simp only [hk0]
      exact hend
    exact blockPlace_ne hbn hlen hp
  · rintro ⟨k, j⟩ hx ⟨k', j'⟩ hx' heq
    have hj := Finset.mem_range.mp (Finset.mem_sigma.mp hx).2
    have hj' := Finset.mem_range.mp (Finset.mem_sigma.mp hx').2
    obtain ⟨hi, hp⟩ := Prod.mk.inj (hinj _ _ (hfile k j hj) heq)
    obtain rfl : k = k' := Fin.ext (Nat.succ.inj hi)
    exact congrArg (Sigma.mk k) (blockPlace_inj (h.size_le (hk k)) hj hj' hp)

end Finished

theorem readsb_encode : readsb sb.encode = sb := by
  decide +kernel

structure Sound (m : State) : Prop where
  inodes : ∀ i, 0 < i → i < m.freeinode → i < (readsb (m.disk 1)).ninodes
  blocks : ∀ i, 0 < i → i < m.freeinode → ∀ p,
    blockOf (readAddrs ((readsb (m.disk 1)).geometry fun _ => none) m.disk i) m.disk p <
      (readsb (m.disk 1)).size
  holes : ∀ i, 0 < i → i < m.freeinode →
    ∀ bn < ((readDinode ((readsb (m.disk 1)).geometry fun _ => none) m.disk i).size + (BSIZE - 1)) / BSIZE,
      bn < MAXFILE ∧
        blockOf (readAddrs ((readsb (m.disk 1)).geometry fun _ => none) m.disk i) m.disk (place bn) ≠ 0

theorem Finished.sound {m₀ : State} (h : Finished files m₀ m) (hn : files.length + 1 < NINODES)
    (hmod : (files.length + 2) % (BSIZE / DIRENT) ≠ 0) : Sound m := by
  have hsb : readsb (m.disk 1) = sb := by rw [h.super_eq, readsb_encode]
  have hdisk := h.diskOk hmod
  -- An allocated inode is one of the list.
  have hrow : ∀ i, 0 < i → i < m.freeinode → table geo m.disk i = some (readAddrs geo m.disk i) := by
    intro i hpos hlt
    rw [h.freeinode_eq] at hlt
    obtain ⟨k, rfl⟩ := Nat.exists_eq_add_of_lt hpos
    rw [Nat.zero_add] at hlt ⊢
    have hk : k < (inodes files).length := by rw [length_inodes]; omega
    rw [h.table_eq, h.readAddrs_eq]
    exact (h.entry (List.getElem?_eq_getElem hk)).2.2
  constructor
  case inodes =>
    intro i _ hlt
    rw [h.freeinode_eq] at hlt
    rw [hsb]
    change i < NINODES
    omega
  case blocks =>
    intro i hpos hlt p
    rw [hsb]
    change blockOf (readAddrs geo m.disk i) m.disk p < FSSIZE
    rw [← refs_some (hrow i hpos hlt)]
    by_cases h0 : refs (table geo m.disk) m.disk (i, p) = 0
    · rw [h0]
      norm_num
    · exact (hdisk.accounts.range _ h0).2
  case holes =>
    intro i hpos hlt bn hbn
    rw [hsb] at hbn ⊢
    change bn < ((readDinode geo m.disk i).size + (BSIZE - 1)) / BSIZE at hbn
    change bn < MAXFILE ∧ blockOf (readAddrs geo m.disk i) m.disk (place bn) ≠ 0
    have hsize := hdisk.size_le i _ (hrow i hpos hlt)
    have hblock := hdisk.full i _ (hrow i hpos hlt) (BSIZE * bn) (by simp only [BSIZE] at hbn ⊢; omega)
    rw [HasBlock, Nat.mul_div_cancel_left _ (by norm_num)] at hblock
    refine ⟨?_, hblock⟩
    simp only [BSIZE] at hbn hsize
    omega

/-- Otherwise the root directory has a hole, or an inode number is not below `NINODES`. -/
theorem image_sound {image : Option Bool} (hmain : main image files = .ok m)
    (hroom : files.length + 1 < geo.ninodes) :
    Sound m ↔ files.length + 1 < NINODES ∧ (files.length + 2) % (BSIZE / DIRENT) ≠ 0 := by
  obtain rfl : image = some true := by
    unfold main at hmain
    split at hmain
    · cases hmain
    · cases hmain
    · rfl
  obtain ⟨m₀, h⟩ := (main_finished hroom).ok hmain
  have hninodes : geo.ninodes = 208 := rfl
  have hsb : readsb (m.disk 1) = sb := by rw [h.super_eq, readsb_encode]
  refine ⟨fun hs => ⟨?_, fun hmod => ?_⟩, fun hc => h.sound hc.1 hc.2⟩
  · have hlt := hs.inodes (files.length + 1) (by omega) (by rw [h.freeinode_eq]; omega)
    rw [hsb] at hlt
    exact hlt
  · -- the rounding adds a block to a directory that fills its blocks
    have hlen := length_rootDir files
    have hhole := h.hole ((rootDir files).length / BSIZE)
    have hfull := hs.holes ROOTINO (by decide) (by rw [h.freeinode_eq]; simp only [ROOTINO]; omega)
      ((rootDir files).length / BSIZE)
    rw [hsb] at hfull
    change _ < ((readDinode geo m.disk ROOTINO).size + (BSIZE - 1)) / BSIZE → _ ∧
      blockOf (readAddrs geo m.disk ROOTINO) m.disk _ ≠ 0 at hfull
    rw [h.written.self] at hfull
    simp only [DIRENT, DIRSIZ, BSIZE, NDIRECT, rounded] at *
    exact (hfull (by omega)).2 (hhole (by omega) (by omega))

def emptyFile : Input := ⟨[97], some [], by decide, by decide⟩

theorem needs_emptyFiles (n : ℕ) :
    needs (inodes (List.replicate n emptyFile)) = need (DIRENT * (n + 2)) := by
  have hfiles : ((List.replicate n emptyFile).map fileEntry).map (fun x => need x.2.length) =
      List.replicate n 0 := by
    rw [List.map_replicate, List.map_replicate]
    rfl
  rw [inodes, needs, List.map_cons, hfiles, List.sum_cons, List.sum_replicate, length_rootDir,
    List.length_replicate, smul_zero, Nat.add_zero]

theorem main_emptyFiles {n : ℕ} (hn : n + 1 < geo.ninodes) :
    ∃ m, main (some true) (List.replicate n emptyFile) = .ok m ∧
      ∃ m₀, Finished (List.replicate n emptyFile) m₀ m := by
  have hninodes : geo.ninodes = 208 := rfl
  have hlen : (List.replicate n emptyFile).length + 1 < geo.ninodes := by
    rw [List.length_replicate]
    exact hn
  have hmem : ∀ f ∈ List.replicate n emptyFile, f = emptyFile := fun f hf => List.eq_of_mem_replicate hf
  refine main_of_fits hlen (fun f hf => ?_) (fun f hf => ?_) (fun f hf => ?_) fun b _ => main_room hlen ?_ b
  · rw [hmem f hf]
    decide
  · rw [hmem f hf]
    decide
  · rw [hmem f hf]
    decide
  · rw [needs_emptyFiles, nmeta_eq]
    simp only [need, DIRENT, DIRSIZ, NDIRECT, BSIZE, FSSIZE]
    split_ifs <;> omega

theorem image_sound_empty : ∃ m, main (some true) [emptyFile] = .ok m ∧ Sound m := by
  obtain ⟨m, hm, -⟩ := main_emptyFiles (n := 1) (by decide)
  exact ⟨m, hm, (image_sound hm (by decide)).mpr ⟨by decide, by decide⟩⟩

theorem Finished.thirty {m₀ m : State} (h : Finished (List.replicate 30 emptyFile) m₀ m) :
    readDinode geo m.disk ROOTINO = ⟨T_DIR, 0, 0, 1, 2 * BSIZE⟩ ∧
      HasBlock (readAddrs geo m.disk ROOTINO) m.disk 0 ∧
      blockOf (readAddrs geo m.disk ROOTINO) m.disk (place 1) = 0 := by
  have hlen : (rootDir (List.replicate 30 emptyFile)).length = BSIZE := by
    rw [length_rootDir, List.length_replicate]
    rfl
  refine ⟨?_, (h.content (k := 0) (j := 0) rfl (by rw [hlen]; decide)).1,
    h.hole 1 (by decide) (by rw [hlen]; decide)⟩
  rw [h.written.self, hlen]
  rfl

theorem unsound_images :
    (∃ m, main (some true) (List.replicate 30 emptyFile) = .ok m ∧
      (readDinode (sb.geometry fun _ => none) m.disk ROOTINO).size = 2 * BSIZE ∧
      blockOf (readAddrs (sb.geometry fun _ => none) m.disk ROOTINO) m.disk (place 1) = 0 ∧ ¬ Sound m) ∧
    ∃ m, main (some true) (List.replicate 199 emptyFile) = .ok m ∧
      m.freeinode = 201 ∧ (readsb (m.disk 1)).ninodes = 200 ∧ ¬ Sound m := by
  constructor
  · obtain ⟨m, hm, m₀, h⟩ := main_emptyFiles (n := 30) (by decide)
    have hsb : readsb (m.disk 1) = sb := by rw [h.super_eq, readsb_encode]
    obtain ⟨hdinode, -, hhole⟩ := h.thirty
    have hsize : (readDinode geo m.disk ROOTINO).size = 2 * BSIZE := by rw [hdinode]
    refine ⟨m, hm, hsize, hhole, fun hs => ?_⟩
    have := hs.holes ROOTINO (by decide) (by rw [h.freeinode_eq]; decide) 1
    rw [hsb] at this
    refine (this ?_).2 hhole
    change 1 < ((readDinode geo m.disk ROOTINO).size + (BSIZE - 1)) / BSIZE
    rw [hsize]
    decide
  · obtain ⟨m, hm, m₀, h⟩ := main_emptyFiles (n := 199) (by decide)
    have hsb : readsb (m.disk 1) = sb := by rw [h.super_eq, readsb_encode]
    have hfree : m.freeinode = 201 := by rw [h.freeinode_eq, List.length_replicate]
    have hninodes : (readsb (m.disk 1)).ninodes = 200 := by rw [hsb]; rfl
    refine ⟨m, hm, hfree, hninodes, fun hs => ?_⟩
    have hlt := hs.inodes 200 (by decide) (by rw [hfree]; decide)
    rw [hninodes] at hlt
    exact absurd hlt (lt_irrefl _)

end Xv6.Mkfs
