import Xv6.Mkfs.Allocation
import Xv6.Fs.ReadWrite

/-!
# The image that `mkfs` builds

`Image m F` says that the image holds the inodes `F` in the order in which they were allocated,
each with its type and contents, and nothing else: the block accounts are exact, no file has a
hole, and no more blocks have been handed out than the files need.
-/

namespace Xv6.Mkfs

open Lib Fs Fs.Blocks
open Function (update_of_ne update_self update_eq_self update_apply)

variable {m m' : State} {i k : ℕ} {p : List Byte} {x : Dinode} {a : Addrs}

structure Put (i : ℕ) (x : Dinode) (a : Addrs) (m m' : State) : Prop where
  space : Space m'
  freeinode : m'.freeinode = m.freeinode
  freeblock : m'.freeblock = m.freeblock
  disk : kernelDisk m' = writeDinode geo (kernelDisk m) i x a
  super : m'.disk 1 = m.disk 1

theorem iblock_range (hi : i < geo.ninodes) : 32 ≤ iblock i ∧ iblock i < sb.bmapstart := by
  have hn : geo.ninodes = 208 := rfl
  have hstart : sb.inodestart = 32 := rfl
  rw [hn] at hi
  rw [bmapstart_eq, iblock, hstart]
  simp only [IPB, BSIZE, DINODE]
  omega

theorem winode_ok (hs : Space m) (hi : i < geo.ninodes) (x : Dinode) (a : Addrs) :
    ∃ m', winode i x a m = .ok m' ∧ Put i x a m m' := by
  obtain ⟨hlo, hhi⟩ := iblock_range hi
  have hmeta := hs.lo
  have hend := hs.hi
  rw [bmapstart_eq] at hhi
  rw [nmeta_eq] at hmeta
  have hne : iblock i ≠ sb.bmapstart := by
    rw [bmapstart_eq]
    omega
  refine ⟨_, by rw [winode, rsect_ok hs.len (by omega)]; rfl, hs.wsect (by omega), rfl, rfl, ?_, ?_⟩
  · rw [kernelDisk_wsect hs.len (by omega) hne, ← kernelDisk_of_ne hne]
    rfl
  · have h1 : 1 ≠ iblock i := by omega
    rw [wsect_eq hs.len (by omega)]
    simp only [update_of_ne h1]

theorem rinode_ok (hs : Space m) (hi : i < geo.ninodes) :
    rinode i m = .ok (readDinode geo (kernelDisk m) i, readAddrs geo (kernelDisk m) i) := by
  obtain ⟨hlo, hhi⟩ := iblock_range hi
  have hne : iblock i ≠ sb.bmapstart := by omega
  rw [bmapstart_eq] at hhi
  rw [rinode, rsect_ok hs.len (by simp only [FSSIZE]; omega), ← kernelDisk_of_ne hne]
  rfl

structure Grown (i : ℕ) (p : List Byte) (m m' : State) : Prop where
  space : Space m'
  freeinode : m'.freeinode = m.freeinode
  super : m'.disk 1 = m.disk 1
  fits : (readDinode geo (kernelDisk m) i).size + p.length ≤ MAXFILE * BSIZE
  count : m'.freeblock + need (readDinode geo (kernelDisk m) i).size ≤
    m.freeblock + need ((readDinode geo (kernelDisk m) i).size + p.length)
  disk : DiskOk geo (kernelDisk m')
  represents : Represents geo (kernelDisk m')
    ((volumeOf geo (kernelDisk m)).write i (readDinode geo (kernelDisk m) i).size p)

theorem appended_represents {d d1 d' : Disk} {a' : Addrs} {g : Geometry} (hg : g.Ok) (hd : DiskOk g d)
    (hi : i < g.ninodes) (hty : (readDinode g d i).type ≠ 0)
    (hfit : (readDinode g d i).size + p.length ≤ MAXFILE * BSIZE)
    (hw : Written g i (table g d) (readAddrs g d i) d (readDinode g d i).size p a' d1)
    (hx : InodeWritten g d1 d' i
      { readDinode g d i with size := (readDinode g d i).size + p.length } a') :
    DiskOk g d' ∧ Represents g d' ((volumeOf g d).write i (readDinode g d i).size p) := by
  have ht := table_of_type hi hty
  have hr := hw.rewritten (x := { readDinode g d i with size := (readDinode g d i).size + p.length })
    hd ht hty hfit (fun j hj => by dsimp only at hj; omega) hx
  have hdinode := hr.dinode (v := volumeOf g d) hg fun _ _ => rfl
  refine ⟨hr.diskOk hg hd, fun i' hi' => ?_, hr.contents hg hd (v := volumeOf g d) ?_ ?_⟩
  · have hsize : (if 0 < p.length then max (readDinode g d i).size ((readDinode g d i).size + p.length)
        else (readDinode g d i).size) = (readDinode g d i).size + p.length := by
      split_ifs <;> omega
    rw [hdinode i' hi', Volume.write_dinode, update_apply]
    by_cases heq : i' = i
    · subst heq
      simp only [volumeOf, if_true, hsize]
    · simp only [if_neg heq]
  · intro _ j hj
    exact hw.content hd ht (fun _ _ => rfl) (by dsimp only at hj; omega)
  · intro i' a' ht' j _
    rw [← (table_some ht').2.2]
    rfl

theorem iappend_grown (hs : Space m) (hd : DiskOk geo (kernelDisk m))
    (hi : i < geo.ninodes) (hty : (readDinode geo (kernelDisk m) i).type ≠ 0) :
    Ensures (TooLarge (readDinode geo (kernelDisk m) i).size p m) (Grown i p m)
      (iappend i p m) := by
  have ht := table_of_type hi hty
  have hsize := hd.size_le i _ ht
  rw [iappend, rinode_ok hs hi]
  refine (iappendLoop_spec le_rfl hs hd.accounts ht (hd.full i _ ht) hsize).bind fun r hloop => ?_
  obtain ⟨off, a', m1⟩ := r
  obtain ⟨rfl, hfit, hwrites, hspace, hino, hcount⟩ := hloop
  have hw := writeLoop_ok geo_ok hd.accounts ht le_rfl hfit hwrites
  have hmax : MAXFILE * BSIZE < 2 ^ 32 := by norm_num
  obtain ⟨m2, hput, h2⟩ := winode_ok hspace hi
    { readDinode geo (kernelDisk m) i with
      size := (readDinode geo (kernelDisk m) i).size + p.length } a'
  dsimp only
  rw [hput]
  have hx : InodeWritten geo (kernelDisk m1) (kernelDisk m2) i _ a' :=
    h2.disk ▸ inodeWritten_writeDinode (by dsimp only; omega)
  obtain ⟨hdisk, hrep⟩ := appended_represents geo_ok hd hi hty hfit hw hx
  have hsuper : m1.disk 1 = m.disk 1 := by
    have hmap : geo.bmapstart = 58 := rfl
    have hkeep := hw.inodes 1 (by rw [hmap]; norm_num)
    rwa [kernelDisk_of_ne (by decide), kernelDisk_of_ne (by decide)] at hkeep
  refine .of_ok ⟨h2.space, h2.freeinode.trans hino, h2.super.trans hsuper, hfit, ?_, hdisk, hrep⟩
  rw [h2.freeblock]
  exact hcount

abbrev Entry := BitVec 16 × List Byte

def Entry.dinode (x : Entry) : Dinode := ⟨x.1, 0, 0, 1, x.2.length⟩

def needs (F : List Entry) : ℕ := (F.map fun x => need x.2.length).sum

structure Image (m : State) (F : List Entry) : Prop where
  space : Space m
  disk : DiskOk geo (kernelDisk m)
  super : m.disk 1 = sb.encode
  freeinode : m.freeinode = F.length + 1
  count : m.freeblock ≤ nmeta + needs F
  typed : ∀ x ∈ F, x.1 ≠ 0
  used : ∀ k x, F[k]? = some x → readDinode geo (kernelDisk m) (k + 1) = Entry.dinode x ∧
    (volumeOf geo (kernelDisk m)).contents (k + 1) = x.2
  free : ∀ i < geo.ninodes, i = 0 ∨ F.length < i →
    (readDinode geo (kernelDisk m) i).type = 0

variable {F : List Entry} {x y : Entry}

theorem needs_append (F G : List Entry) : needs (F ++ G) = needs F + needs G := by
  rw [needs, List.map_append, List.sum_append, needs, needs]

theorem needs_set (hk : F[k]? = some x) (y : Entry) :
    needs (F.set k y) + need x.2.length = needs F + need y.2.length := by
  induction F generalizing k with
  | nil => cases hk
  | cons z F ih =>
    cases k with
    | zero =>
      cases hk
      simp only [needs, List.set_cons_zero, List.map_cons, List.sum_cons]
      omega
    | succ k =>
      have := ih hk
      simp only [needs, List.set_cons_succ, List.map_cons, List.sum_cons] at this ⊢
      omega

theorem zeroes_eq {n : ℕ} (hn : n ≤ FSSIZE) :
    (List.range n).foldl (fun m i => wsect i (Bytes.zero BSIZE) m) ⟨fun _ => Bytes.zero BSIZE, 0, 1, nmeta⟩ =
      ⟨fun _ => Bytes.zero BSIZE, n, 1, nmeta⟩ := by
  induction n with
  | zero => rfl
  | succ n ih =>
    rw [List.range_succ, List.foldl_append, ih (by omega)]
    simp only [List.foldl_cons, List.foldl_nil, wsect, sector_eq (show n ≤ FSSIZE by omega),
      max_eq_right (Nat.le_succ n), State.mk.injEq, and_true]
    exact update_eq_self n _

theorem start_eq : start = ⟨Function.update (fun _ => Bytes.zero BSIZE) 1 sb.encode, FSSIZE, 1, nmeta⟩ := by
  rw [start, zeroes_eq le_rfl, wsect_eq rfl (by norm_num)]

theorem start_block {b : ℕ} (h1 : b ≠ 1) : start.disk b = Bytes.zero BSIZE := by
  simp only [start_eq, update_of_ne h1]

theorem start_space : Space start := by
  refine ⟨by rw [start_eq], by rw [start_eq], ?_, fun b hb => start_block ?_⟩
  · rw [start_eq]
    decide
  · rw [start_eq] at hb
    have hmeta : nmeta ≤ b := hb
    rw [nmeta_eq] at hmeta
    omega

theorem start_type (hi : i < geo.ninodes) : (readDinode geo (kernelDisk start) i).type = 0 := by
  obtain ⟨hlo, hhi⟩ := iblock_range hi
  have hzero : kernelDisk start (geo.iblock i) = Bytes.zero BSIZE := by
    change kernelDisk start (iblock i) = _
    rw [kernelDisk_of_ne (by omega), start_block (by omega)]
  rw [readDinode, hzero]
  exact Bytes.half_zero _

theorem start_diskOk : DiskOk geo (kernelDisk start) := by
  have hnone : ∀ i, table geo (kernelDisk start) i = none :=
    fun i => if_neg fun h => h.2 (start_type h.1)
  have hrefs : ∀ o, refs (table geo (kernelDisk start)) (kernelDisk start) o = 0 :=
    fun o => refs_none (hnone o.1) _ _
  constructor
  case accounts =>
    constructor
    case pos => rw [geo_nmeta, nmeta_eq]; norm_num
    case range => exact fun o ho => absurd (hrefs o) ho
    case inj => exact fun o _ ho => absurd (hrefs o) ho
    case used_iff =>
      intro b hb
      have hb' : b < FSSIZE := hb
      have hcount : start.freeblock = nmeta := by rw [start_eq]
      have hbpb : FSSIZE < BPB := by norm_num
      rw [inUse_kernelDisk start_space (by omega), decide_eq_true_eq, hcount, geo_nmeta]
      constructor
      · exact fun h => .inl h
      · rintro (h | ⟨o, ho⟩)
        · exact h
        · rw [← ho, hrefs, nmeta_eq]
          norm_num
  case size_le => exact fun i a ht => absurd ((hnone i).symm.trans ht) (Option.some_ne_none a).symm
  case full => exact fun i a ht => absurd ((hnone i).symm.trans ht) (Option.some_ne_none a).symm

theorem image_start : Image start [] := by
  constructor
  case space => exact start_space
  case disk => exact start_diskOk
  case super => simp only [start_eq, update_self]
  case freeinode => rw [start_eq]; rfl
  case count => rw [start_eq]; exact Nat.le_add_right _ _
  case typed => exact fun x hx => absurd hx List.not_mem_nil
  case used => exact fun k x hk => nomatch hk
  case free => exact fun i hi _ => start_type hi

theorem used_of_represents {v : Volume} {d : Disk} (hrep : Represents geo d v)
    (hk : k + 1 < geo.ninodes) (hdin : v.dinode (k + 1) = Entry.dinode x) (hty : x.1 ≠ 0)
    (hc : v.contents (k + 1) = x.2) : readDinode geo d (k + 1) = Entry.dinode x ∧
      (volumeOf geo d).contents (k + 1) = x.2 :=
  ⟨(hrep.dinode _ hk).trans hdin, (hrep.contents hk (by rw [hdin]; exact hty)).trans hc⟩

theorem represents_volumeOf (g : Geometry) (d : Disk) : Represents g d (volumeOf g d) := by
  refine ⟨fun _ _ => rfl, fun i a ht j _ => ?_⟩
  rw [← (table_some ht).2.2]
  rfl

theorem ialloc_image (h : Image m F) (hF : F.length + 1 < geo.ninodes) (type : BitVec 16)
    (hty : type ≠ 0) :
    ∃ m', ialloc type m = .ok (F.length + 1, m') ∧ Image m' (F ++ [(type, [])]) := by
  have hs : Space { m with freeinode := F.length + 2 } := ⟨h.space.len, h.space.lo, h.space.hi, h.space.zero⟩
  obtain ⟨m', hput, h'⟩ := winode_ok hs hF ⟨type, 0, 0, 1, 0⟩ fun _ => 0
  refine ⟨m', by rw [ialloc, h.freeinode, hput]; rfl, ?_⟩
  have hfree := h.free _ hF (.inr (Nat.lt_succ_self _))
  have hw : InodeWritten geo (kernelDisk m) (kernelDisk m') (F.length + 1) ⟨type, 0, 0, 1, 0⟩
      fun _ => 0 := h'.disk ▸ inodeWritten_writeDinode (by norm_num)
  have hr := Rewritten.claim h.disk.accounts hF hfree hty rfl hw
  have hvol := represents_volumeOf geo (kernelDisk m)
  have hrep : Represents geo (kernelDisk m')
      ((volumeOf geo (kernelDisk m)).setDinode (F.length + 1) ⟨type, 0, 0, 1, 0⟩) := by
    refine ⟨hr.dinode geo_ok hvol.dinode, ?_⟩
    have hbytes := hr.contents geo_ok h.disk (f := (volumeOf geo (kernelDisk m)).bytes (F.length + 1))
      (fun _ j hj => absurd hj (Nat.not_lt_zero j)) hvol.bytes
    rwa [update_eq_self] at hbytes
  constructor
  case space => exact h'.space
  case disk => exact hr.diskOk geo_ok h.disk
  case super => exact h'.super.trans h.super
  case freeinode => rw [h'.freeinode, List.length_append]; rfl
  case count =>
    rw [h'.freeblock, needs_append]
    exact h.count.trans (Nat.add_le_add_left (Nat.le_add_right _ _) _)
  case typed =>
    intro x hx
    rcases List.mem_append.mp hx with hx | hx
    · exact h.typed x hx
    · rw [List.mem_singleton.mp hx]
      exact hty
  case used =>
    intro k x hk
    have hlt := (List.getElem?_eq_some_iff.mp hk).1
    rw [List.length_append, List.length_singleton] at hlt
    by_cases hnew : k < F.length
    · -- The inodes before it stay as they are.
      rw [List.getElem?_append_left hnew] at hk
      obtain ⟨hdin, hc⟩ := h.used k x hk
      have hne : k + 1 ≠ F.length + 1 := by omega
      apply used_of_represents hrep (by omega) _ (h.typed x (List.mem_of_getElem? hk))
      · rw [← hc]
        simp only [Volume.contents, Volume.setDinode, update_of_ne hne]
      · simp only [Volume.setDinode, update_of_ne hne]
        exact hdin
    · obtain rfl : k = F.length := by omega
      rw [List.getElem?_concat_length] at hk
      cases hk
      apply used_of_represents hrep hF _ hty
      · simp only [Volume.contents, Volume.setDinode, update_self]
        rfl
      · exact update_self _ _ _
  case free =>
    intro i hi hout
    rw [List.length_append, List.length_singleton] at hout
    rw [(hr.other geo_ok hi (by omega)).1]
    exact h.free i hi (by omega)

theorem iappend_image (h : Image m F) (hF : F.length < geo.ninodes) (hk : F[k]? = some x) :
    Ensures (fun e => PastEnd e ∧ FSSIZE < nmeta + needs (F.set k (x.1, x.2 ++ p)) ∨
        e = .assertion ∧ MAXFILE * BSIZE < (x.2 ++ p).length)
      (fun m' => Image m' (F.set k (x.1, x.2 ++ p))) (iappend (k + 1) p m) := by
  obtain ⟨hdin, hc⟩ := h.used k x hk
  have hlt := (List.getElem?_eq_some_iff.mp hk).1
  have hxty := h.typed x (List.mem_of_getElem? hk)
  have hsize : (readDinode geo (kernelDisk m) (k + 1)).size = x.2.length := by rw [hdin]; rfl
  have hneeds := needs_set hk (x.1, x.2 ++ p)
  have hold := h.count
  rw [List.length_append] at hneeds
  refine (iappend_grown (p := p) h.space h.disk (by omega) (by rw [hdin]; exact hxty)).mono ?_ fun m' hg => ?_
  · intro e he
    rw [TooLarge, hsize] at he
    rw [List.length_append]
    exact he.imp (fun he => ⟨he.1, by omega⟩) fun he => he
  · obtain ⟨hspace, hino, hsuper, hfits, hcount, hdisk, hrep⟩ := hg
    rw [hsize] at hfits hcount hrep
    constructor
    case space => exact hspace
    case disk => exact hdisk
    case super => exact hsuper.trans h.super
    case freeinode => rw [hino, h.freeinode, List.length_set]
    case count => omega
    case typed =>
      intro y hy
      rcases List.mem_or_eq_of_mem_set hy with hy | rfl
      · exact h.typed y hy
      · exact hxty
    case used =>
      intro j y hj
      by_cases hjk : j = k
      · subst hjk
        rw [List.getElem?_set_self hlt] at hj
        cases hj
        have hold : (volumeOf geo (kernelDisk m)).dinode (j + 1) = Entry.dinode x := hdin
        apply used_of_represents (x := (x.1, x.2 ++ p)) hrep (by omega) _ hxty
        · rw [Volume.contents_write (by rw [hold]; exact le_rfl), hc, overwrite_length]
        · have hmax : (if 0 < p.length then max x.2.length (x.2.length + p.length) else x.2.length) =
              x.2.length + p.length := by
            split_ifs <;> omega
          rw [Volume.write_dinode, if_pos rfl, hold]
          simp only [Entry.dinode, List.length_append, hmax]
      · rw [List.getElem?_set_ne (Ne.symm hjk)] at hj
        obtain ⟨hdin', hc'⟩ := h.used j y hj
        have hlt' := (List.getElem?_eq_some_iff.mp hj).1
        have hne : j + 1 ≠ k + 1 := by omega
        apply used_of_represents hrep (by omega) _ (h.typed y (List.mem_of_getElem? hj))
        · rw [Volume.contents_write_ne _ _ _ hne, hc']
        · rw [Volume.write_dinode, if_neg hne]
          exact hdin'
    case free =>
      intro i hi hout
      rw [List.length_set] at hout
      rw [hrep.dinode i hi, Volume.write_dinode, if_neg (by omega)]
      exact h.free i hi hout

end Xv6.Mkfs
