import Xv6.Lib.Overwrite
import Xv6.Fs.Space
import Xv6.Fs.DiskRuns

/-!
# Files as byte arrays

The contents of a file are a list of as many bytes as its size.
-/

namespace Xv6.Fs

open Lib Lib.Prog Blocks

theorem take_slice (f : ℕ → Byte) (off n k : ℕ) : (slice f off n).take k = slice f off (min k n) := by
  simp only [slice, ← List.map_take, List.take_range]

theorem drop_slice (f : ℕ → Byte) (off n k : ℕ) :
    (slice f off n).drop k = slice f (off + k) (n - k) := by
  apply List.ext_getElem
  · simp
  · intro j h1 h2
    simp [slice, Nat.add_assoc]

theorem slice_splice (f : ℕ → Byte) {off n : ℕ} (h : off ≤ n) (src : List Byte) :
    slice (splice f off src) 0 (max n (off + src.length)) = overwrite (slice f 0 n) off src := by
  have hsrc : slice (splice f off src) off src.length = src := by
    apply List.ext_getElem
    · simp
    · intro j h1 h2
      simp [slice, splice_mem, h2]
  have hbefore : slice (splice f off src) 0 off = slice f 0 off :=
    List.map_congr_left fun j hj => if_neg (by have := List.mem_range.mp hj; omega)
  have hafter : ∀ k, slice (splice f off src) (off + src.length) k = slice f (off + src.length) k :=
    fun k => List.map_congr_left fun j _ => if_neg (by omega)
  have hlen : max n (off + src.length) = off + src.length + (n - (off + src.length)) := by omega
  rw [hlen, slice_append, slice_append, Nat.zero_add, Nat.zero_add, hsrc, hbefore, hafter, overwrite,
    take_slice, drop_slice, min_eq_left h, Nat.zero_add]

def Volume.contents (v : Volume) (i : ℕ) : List Byte := slice (v.bytes i) 0 (v.dinode i).size

def volumeOf (g : Geometry) (d : Disk) : Volume where
  dinode := readDinode g d
  bytes i := contentOf (readAddrs g d i) d

def inodesOf (g : Geometry) (s : BState) : State := ⟨volumeOf g s.vol.disk, s.cache, s.tables⟩

theorem Volume.length_contents (v : Volume) (i : ℕ) : (v.contents i).length = (v.dinode i).size :=
  length_slice _ _ _

theorem Volume.contents_write {v : Volume} {i off : ℕ} (h : off ≤ (v.dinode i).size)
    (src : List Byte) : (v.write i off src).contents i = overwrite (v.contents i) off src := by
  rw [contents, contents, ← slice_splice _ h, write_dinode, if_pos rfl]
  have hbytes : (v.write i off src).bytes i = splice (v.bytes i) off src := Function.update_self _ _ _
  have hsize : (if 0 < src.length then max (v.dinode i).size (off + src.length)
      else (v.dinode i).size) = max (v.dinode i).size (off + src.length) := by
    split_ifs <;> omega
  rw [hbytes, hsize]

theorem Volume.contents_write_ne (v : Volume) {i j : ℕ} (off : ℕ) (src : List Byte) (hj : j ≠ i) :
    (v.write i off src).contents j = v.contents j := by
  rw [contents, contents, write_dinode, if_neg hj, write_bytes_ne v off src hj]

variable {g : Geometry} {d : Disk} {s s' : BState} {t t' : State} {v : Volume} {ip : ISlot} {i : ℕ}

theorem Represents.contents (h : Represents g d v) (hi : i < g.ninodes) (hty : (v.dinode i).type ≠ 0) :
    (volumeOf g d).contents i = v.contents i := by
  have hdin := h.dinode i hi
  have htab := table_of_type hi (by rw [hdin]; exact hty)
  have hsize : ((volumeOf g d).dinode i).size = (v.dinode i).size := by rw [← hdin]; rfl
  rw [Volume.contents, Volume.contents, hsize]
  apply slice_congr
  intro j hj
  rw [Nat.zero_add]
  exact h.bytes i _ htab j (by rw [hdin]; exact hj)

structure Settled (g : Geometry) (s : BState) : Prop where
  disk : DiskOk g s.vol.disk
  range : ∀ ip, 0 < (s.cache ip).ref → (s.cache ip).inum < g.ninodes
  uniq : ∀ ip jp, 0 < (s.cache ip).ref → 0 < (s.cache jp).ref →
    (s.cache ip).inum = (s.cache jp).inum → ip = jp
  lock : ∀ ip, (s.cache ip).locked = true → 0 < (s.cache ip).ref ∧ (s.cache ip).valid = true
  sync : ∀ ip, 0 < (s.cache ip).ref → (s.cache ip).valid = true →
    (s.cache ip).din = readDinode g s.vol.disk (s.cache ip).inum ∧ (s.cache ip).din.type ≠ 0 ∧
      s.vol.addrs ip = readAddrs g s.vol.disk (s.cache ip).inum

theorem Settled.refines (h : Settled g s) : Refines g s (inodesOf g s) := by
  constructor
  case disk => exact h.disk
  case cache => rfl
  case tables => rfl
  case dinode => exact fun _ _ => rfl
  case bytes =>
    intro i a ht j _
    rw [← (table_some ht).2.2]
    rfl
  case range => exact h.range
  case uniq => exact h.uniq
  case lock => exact h.lock
  case sync =>
    intro ip hpos hval
    obtain ⟨hdin, hty, haddrs⟩ := h.sync ip hpos hval
    rw [hdin] at hty
    exact ⟨hdin, hty, haddrs⟩

theorem Refines.settled (h : Refines g s t) : Settled g s := by
  constructor
  case disk => exact h.disk
  case range => rw [h.cache]; exact h.range
  case uniq => rw [h.cache]; exact h.uniq
  case lock => rw [h.cache]; exact h.lock
  case sync =>
    rw [h.cache]
    intro ip hpos hval
    obtain ⟨hdin, hty, haddrs⟩ := h.sync ip hpos hval
    exact ⟨by rw [hdin, h.dinode _ (h.range ip hpos)], hdin ▸ hty, haddrs⟩

theorem Refines.contents (h : Refines g s t) (hi : i < g.ninodes)
    (hty : (t.vol.dinode i).type ≠ 0) : (volumeOf g s.vol.disk).contents i = t.vol.contents i :=
  Represents.contents ⟨h.dinode, h.bytes⟩ hi hty

section ReadWrite

variable {off n : ℕ} {src : List Byte}

theorem Settled.locked (h : Settled g s) (hlk : (s.cache ip).locked = true)
    (hi : (s.cache ip).inum = i) : i < g.ninodes ∧ (readDinode g s.vol.disk i).type ≠ 0 ∧
      (s.cache ip).din = readDinode g s.vol.disk i ∧ s.vol.addrs ip = readAddrs g s.vol.disk i := by
  subst hi
  obtain ⟨hpos, hval⟩ := h.lock ip hlk
  obtain ⟨hdin, hty, haddrs⟩ := h.sync ip hpos hval
  rw [hdin] at hty
  exact ⟨h.range ip hpos, hty, hdin, haddrs⟩

theorem Settled.readi (h : Settled g s) (hlk : (s.cache ip).locked = true)
    (hi : (s.cache ip).inum = i) (hdev : (readDinode g s.vol.disk i).type ≠ T_DEV)
    (hoff : off < 2 ^ 32) (hn : n < 2 ^ 32) : Blocks.readi g ip off n s =
      .ok (if (readDinode g s.vol.disk i).size < off ∨ 2 ^ 32 ≤ off + n then none
        else some ((((volumeOf g s.vol.disk).contents i).drop off).take n), s) := by
  obtain ⟨-, -, hdin, -⟩ := h.locked hlk hi
  have hcache : ((inodesOf g s).cache ip).din = readDinode g s.vol.disk i := hdin
  have hinum : ((inodesOf g s).cache ip).inum = i := hi
  have hwrap : (off + n) % 2 ^ 32 < off ↔ 2 ^ 32 ≤ off + n := by omega
  rw [refines_readi h.refines hlk]
  simp only [State.readi, hcache, hinum, if_neg hdev, hwrap]
  rw [Volume.contents, drop_slice, take_slice, Nat.zero_add]
  rfl

theorem writei_ok_iff (hdev : (s.cache ip).din.type ≠ T_DEV)
    (hoff : off ≤ (s.cache ip).din.size) (hfit : off + src.length ≤ MAXFILE * BSIZE) :
    (∃ r, Blocks.writei g ip src off s = .ok r) ↔
      ∃ a d, writeLoop g src.length src off (s.vol.addrs ip) s.vol.disk = .ok (a, d) := by
  have hin : ¬ ((s.cache ip).din.size < off ∨ (off + src.length) % 2 ^ 32 < off) := by
    simp only [MAXFILE, NDIRECT, NINDIRECT, BSIZE] at hfit
    omega
  simp only [Blocks.writei, if_neg hdev, if_neg hin, if_neg (Nat.not_lt.mpr hfit)]
  cases writeLoop g src.length src off (s.vol.addrs ip) s.vol.disk with
  | error f => simp
  | ok r =>
    simp only [Except.ok.injEq]
    refine iff_of_true ?_ ⟨r.1, r.2, rfl⟩
    split_ifs
    · exact ⟨_, rfl⟩
    · exact ⟨_, rfl⟩

theorem writei_refused (hdev : (s.cache ip).din.type ≠ T_DEV)
    (hout : ¬ (off ≤ (s.cache ip).din.size ∧ off + src.length ≤ MAXFILE * BSIZE)) :
    Blocks.writei g ip src off s = .ok (-1, s) := by
  simp only [Blocks.writei, if_neg hdev]
  split_ifs with h1 h2
  · rfl
  · rfl
  all_goals exact absurd ⟨by omega, by omega⟩ hout

theorem Settled.writei_error (hg : g.Ok) (h : Settled g s) (hlk : (s.cache ip).locked = true)
    {f : Fault} (hw : Blocks.writei g ip src off s = .error f) : f = .panic .outOfBlocks := by
  rcases refines_writei hg h.refines hlk src off with ⟨f', hf, -⟩ | ⟨r', s', t', hs, -⟩ | ⟨f', hf, hown⟩
  · cases hf
  · rw [hw] at hs
    cases hs
  · rw [hw] at hf
    cases hf
    exact hown.resolve_right fun h => nomatch h

def SameOthers (g : Geometry) (i : ℕ) (d d' : Disk) : Prop :=
  ∀ j < g.ninodes, j ≠ i → readDinode g d' j = readDinode g d j ∧
    ((readDinode g d j).type ≠ 0 → (volumeOf g d').contents j = (volumeOf g d).contents j)

theorem Settled.writes (hg : g.Ok) (h : Settled g s) (hlk : (s.cache ip).locked = true)
    (hi : (s.cache ip).inum = i) (hdev : (readDinode g s.vol.disk i).type ≠ T_DEV)
    (hoff : off ≤ (readDinode g s.vol.disk i).size) (hfit : off + src.length ≤ MAXFILE * BSIZE)
    {r : ℤ × BState} (hok : Blocks.writei g ip src off s = .ok r) :
    r.1 = src.length ∧ ∃ t, t.vol = (volumeOf g s.vol.disk).write i off src ∧ Refines g r.2 t := by
  obtain ⟨-, -, hdin, -⟩ := h.locked hlk hi
  subst hi
  have hR := refines_writei hg h.refines hlk src off
  rw [State.writei_eq (s := inodesOf g s) hdin hdev hoff hfit] at hR
  rcases hR with ⟨f, hf, -⟩ | ⟨r', s', t', hs, ht, hR⟩ | ⟨f, hf, -⟩
  · cases hf
  · rw [hok] at hs
    cases hs
    cases ht
    exact ⟨rfl, _, rfl, hR⟩
  · rw [hok] at hf
    cases hf

theorem Settled.written (hg : g.Ok) (h : Settled g s) (hlk : (s.cache ip).locked = true)
    (hi : (s.cache ip).inum = i) (hdev : (readDinode g s.vol.disk i).type ≠ T_DEV)
    (hoff : off ≤ (readDinode g s.vol.disk i).size) (hfit : off + src.length ≤ MAXFILE * BSIZE)
    {r : ℤ × BState} (hok : Blocks.writei g ip src off s = .ok r) : r.1 = src.length ∧
      (volumeOf g r.2.vol.disk).contents i = overwrite ((volumeOf g s.vol.disk).contents i) off src ∧
      (readDinode g r.2.vol.disk i).type = (readDinode g s.vol.disk i).type ∧
      SameOthers g i s.vol.disk r.2.vol.disk ∧ Settled g r.2 := by
  obtain ⟨hlt, hty, -, -⟩ := h.locked hlk hi
  obtain ⟨hr, t, hv, hR⟩ := h.writes hg hlk hi hdev hoff hfit hok
  have hself : (t.vol.dinode i).type = (readDinode g s.vol.disk i).type := by
    rw [hv, Volume.write_dinode, if_pos rfl]
    rfl
  have hother : ∀ j ≠ i, t.vol.dinode j = readDinode g s.vol.disk j := by
    intro j hne
    rw [hv, Volume.write_dinode, if_neg hne]
    rfl
  refine ⟨hr, ?_, ?_, fun j hj hne => ⟨?_, fun htj => ?_⟩, hR.settled⟩
  · rw [hR.contents hlt (by rw [hself]; exact hty), hv]
    exact Volume.contents_write hoff src
  · rw [hR.dinode _ hlt, hself]
  · rw [hR.dinode j hj, hother j hne]
  · rw [hR.contents hj (by rw [hother j hne]; exact htj), hv, Volume.contents_write_ne _ _ _ hne]

theorem read_write_byte_array (hg : g.Ok) (h : Settled g s) (hlk : (s.cache ip).locked = true)
    (hi : (s.cache ip).inum = i)
    (hty : (readDinode g s.vol.disk i).type = T_FILE ∨ (readDinode g s.vol.disk i).type = T_DIR)
    {c : List Byte} (hc : (volumeOf g s.vol.disk).contents i = c)
    (hoff : off < 2 ^ 32) (hn : n < 2 ^ 32) :
    Blocks.readi g ip off n s =
      .ok (if c.length < off ∨ 2 ^ 32 ≤ off + n then none else some ((c.drop off).take n), s) ∧
    ∀ src : List Byte, src.length = n →
      (¬ (off ≤ c.length ∧ off + n < 2 ^ 32 ∧ off + n ≤ MAXFILE * BSIZE) →
        Blocks.writei g ip src off s = .ok (-1, s)) ∧
      (off ≤ c.length ∧ off + n < 2 ^ 32 ∧ off + n ≤ MAXFILE * BSIZE →
        (Room g (readAddrs g s.vol.disk i) s.vol.disk (span off n) →
          ∃ s', Blocks.writei g ip src off s = .ok ((n : ℤ), s') ∧
            (volumeOf g s'.vol.disk).contents i = overwrite c off src ∧
            SameOthers g i s.vol.disk s'.vol.disk ∧ Settled g s') ∧
        (¬ Room g (readAddrs g s.vol.disk i) s.vol.disk (span off n) →
          Blocks.writei g ip src off s = .error (.panic .outOfBlocks))) := by
  have hdev : (readDinode g s.vol.disk i).type ≠ T_DEV := by
    rcases hty with hty | hty <;> rw [hty] <;> decide
  have hlen : c.length = (readDinode g s.vol.disk i).size := by
    rw [← hc, Volume.length_contents]
    rfl
  obtain ⟨hlt, hne, hdin, haddrs⟩ := h.locked hlk hi
  have htab := table_of_type hlt hne
  refine ⟨?_, fun src hsrc => ⟨fun hout => ?_, fun ⟨h1, h2, h3⟩ => ?_⟩⟩
  · rw [h.readi hlk hi hdev hoff hn, hlen, hc]
  · have hmax : MAXFILE * BSIZE < 2 ^ 32 := by decide
    apply writei_refused (by rw [hdin]; exact hdev)
    rw [hdin, ← hlen, hsrc]
    exact fun hin => hout ⟨hin.1, by omega, hin.2⟩
  · subst hsrc
    rw [hlen] at h1
    have hiff : (∃ r, Blocks.writei g ip src off s = .ok r) ↔ ∃ a d,
        writeLoop g src.length src off (readAddrs g s.vol.disk i) s.vol.disk = .ok (a, d) := by
      rw [← haddrs]
      exact writei_ok_iff (by rw [hdin]; exact hdev) (by rw [hdin]; exact h1) h3
    constructor
    · intro hroom
      obtain ⟨a, d, hloop, -⟩ := hroom.writeLoop hg h.disk.accounts htab h3 fun j h4 h5 p hp =>
        mem_span.mpr ⟨j, h4, h5, hp⟩
      obtain ⟨r, hr⟩ := hiff.mpr ⟨a, d, hloop⟩
      obtain ⟨hr1, hbytes, -, hsame, hset⟩ := h.written hg hlk hi hdev h1 h3 hr
      refine ⟨r.2, ?_, ?_, hsame, hset⟩
      · rw [hr, ← hr1]
      · rw [hbytes, hc]
    · intro hroom
      cases hw : Blocks.writei g ip src off s with
      | ok r =>
        obtain ⟨a, d, hloop⟩ := hiff.mp ⟨r, hw⟩
        exact absurd (Room.of_writeLoop hg h.disk.accounts htab h3 hloop) hroom
      | error f =>
        rw [h.writei_error hg hlk hw]

end ReadWrite

def lockedRoot : BState :=
  setStore ((bootB mkfsDisk).setInode 0
    ⟨ROOTINO, 1, true, true, readDinode xv6Geometry mkfsDisk ROOTINO⟩) 0
    (readAddrs xv6Geometry mkfsDisk ROOTINO) mkfsDisk

theorem settled_lockedRoot (hd : DiskOk g mkfsDisk) (hn : g.ninodes = xv6Geometry.ninodes)
    (hstart : g.inodestart = xv6Geometry.inodestart) : Settled g lockedRoot := by
  have hslot : ∀ jp, 0 < (lockedRoot.cache jp).ref → jp = 0 := by
    decide
  have hblock : g.iblock ROOTINO = xv6Geometry.iblock ROOTINO := by
    rw [Geometry.iblock, Geometry.iblock, hstart]
  constructor
  case disk => exact hd
  case range =>
    intro ip hpos
    rw [hslot ip hpos, hn]
    decide
  case uniq => exact fun ip jp hi hj _ => (hslot ip hi).trans (hslot jp hj).symm
  case lock =>
    decide
  case sync =>
    intro ip hpos _
    rw [hslot ip hpos]
    refine ⟨?_, ?_, ?_⟩
    · change readDinode xv6Geometry mkfsDisk ROOTINO = readDinode g mkfsDisk ROOTINO
      rw [readDinode, readDinode, hblock]
    · change (readDinode xv6Geometry mkfsDisk ROOTINO).type ≠ 0
      decide +kernel
    · change readAddrs xv6Geometry mkfsDisk ROOTINO = readAddrs g mkfsDisk ROOTINO
      rw [readAddrs, readAddrs, hblock]

def fullGeometry : Geometry := { xv6Geometry with size := 60, nblocks := 1 }

theorem mkfsDisk_full_ok : DiskOk fullGeometry mkfsDisk := by
  have h := mkfsDisk_ok
  refine ⟨⟨h.accounts.pos, fun o ho => ?_, h.accounts.inj, fun b hb => ?_⟩, h.size_le, h.full⟩
  · refine ⟨(h.accounts.range o ho).1, ?_⟩
    have href := mkfsDisk_refs o
    change refs (table xv6Geometry mkfsDisk) mkfsDisk o < 60
    rw [href]
    split_ifs <;> norm_num
  · exact h.accounts.used_iff b (lt_trans hb (by decide))

theorem writei_out_of_blocks :
    fullGeometry.Ok ∧ Settled fullGeometry lockedRoot ∧ (lockedRoot.cache 0).locked = true ∧
      (readDinode fullGeometry lockedRoot.vol.disk (lockedRoot.cache 0).inum).type = T_DIR ∧
      ((volumeOf fullGeometry lockedRoot.vol.disk).contents (lockedRoot.cache 0).inum).length = 512 ∧
      Blocks.writei fullGeometry 0 [0] 512 lockedRoot = .error (.panic .outOfBlocks) := by
  refine ⟨⟨xv6Geometry_ok.inodes, ?_, by decide⟩, settled_lockedRoot mkfsDisk_full_ok rfl rfl, rfl,
    ?_, ?_, ?_⟩
  · exact fun b hb => xv6Geometry_ok.bits b (lt_trans hb (by decide))
  · decide +kernel
  · rw [Volume.length_contents]
    decide +kernel
  · rfl

theorem read_write_byte_array_root :
    ∃ s', Blocks.writei xv6Geometry 0 [65, 66] 32 lockedRoot = .ok (2, s') ∧
      (volumeOf xv6Geometry s'.vol.disk).contents ROOTINO =
        overwrite ((volumeOf xv6Geometry lockedRoot.vol.disk).contents ROOTINO) 32 [65, 66] := by
  have hroom : missing (readAddrs xv6Geometry lockedRoot.vol.disk ROOTINO) lockedRoot.vol.disk
      (span 32 2) = ∅ := by
    decide +kernel
  have hlen : ((volumeOf xv6Geometry lockedRoot.vol.disk).contents ROOTINO).length = 512 := by
    rw [Volume.length_contents]
    decide +kernel
  have hall := read_write_byte_array xv6Geometry_ok (settled_lockedRoot mkfsDisk_ok rfl rfl)
    (show (lockedRoot.cache 0).locked = true from rfl)
    (show (lockedRoot.cache 0).inum = ROOTINO from rfl) (.inr (by decide +kernel)) rfl
    (show 32 < 2 ^ 32 by norm_num) (show 2 < 2 ^ 32 by norm_num)
  obtain ⟨s', hw, hbytes, -⟩ := ((hall.2 [65, 66] rfl).2
    ⟨by rw [hlen]; norm_num, by norm_num, by decide⟩).1
    (by rw [Room, hroom]; exact Nat.zero_le _)
  exact ⟨s', hw, hbytes⟩

end Xv6.Fs
