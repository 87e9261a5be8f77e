import Xv6.Fs.Contents

/-!
# Inodes on disk

`iupdate` and `ialloc` change one `struct dinode` and nothing else on the disk. `table` has
the block addresses of the allocated inodes as they stand on disk.
-/

namespace Xv6.Fs.Blocks

open Lib
open Function (update_self update_of_ne)

variable {g : Geometry} {t : AddrTable} {d d' : Disk} {i i' j k : ℕ} {a : Addrs} {x : Dinode}
  {bp bp' : Block}

theorem Addrs.bytes_word (a : Addrs) (j : Fin (NDIRECT + 1)) {k : ℕ} (hk : k < 4) :
    Addrs.bytes a (4 * j.val + k) = (a j).extractLsb' (8 * k) 8 := by
  have hj := j.isLt
  have h1 : (4 * j.val + k) / 4 = j.val := by omega
  have h2 : (4 * j.val + k) % 4 = k := by omega
  simp only [Addrs.bytes, h1, h2, hj, dif_pos]

theorem get_putDinode_of_disjoint {off : ℕ} (h : off < DINODE * k ∨ DINODE * k + DINODE ≤ off) :
    (putDinode bp k x a).get off = bp.get off := by
  simp only [DINODE] at h
  simp only [putDinode, Bytes.setHalf, Bytes.setWord, DINODE, NDIRECT]
  rw [Bytes.get_blit_of_disjoint _ _ (by omega), Bytes.get_blit_of_disjoint _ _ (by omega),
    Bytes.get_blit_of_disjoint _ _ (by omega), Bytes.get_blit_of_disjoint _ _ (by omega),
    Bytes.get_blit_of_disjoint _ _ (by omega), Bytes.get_blit_of_disjoint _ _ (by omega)]

theorem dinodeAt_congr (h : ∀ off, DINODE * k ≤ off → off < DINODE * k + DINODE →
    bp'.get off = bp.get off) : dinodeAt bp' k = dinodeAt bp k ∧ addrsAt bp' k = addrsAt bp k := by
  simp only [DINODE] at h
  have hhalf : ∀ o, o + 2 ≤ 64 → bp'.half (64 * k + o) = bp.half (64 * k + o) := fun o ho =>
    Bytes.half_congr fun m hm => h _ (by omega) (by omega)
  have hword : ∀ o, o + 4 ≤ 64 → bp'.word (64 * k + o) = bp.word (64 * k + o) := fun o ho =>
    Bytes.word_congr fun m hm => h _ (by omega) (by omega)
  constructor
  · have h0 := hhalf 0 (by norm_num)
    rw [Nat.add_zero] at h0
    simp only [dinodeAt, DINODE, h0, hhalf 2 (by norm_num), hhalf 4 (by norm_num),
      hhalf 6 (by norm_num), hword 8 (by norm_num)]
  · funext m
    have hm := m.isLt
    simp only [NDIRECT] at hm
    simp only [addrsAt, DINODE, Nat.add_assoc]
    exact hword _ (by omega)

theorem dinodeAt_putDinode (hk : k < IPB) (hx : x.size < 2 ^ 32) :
    dinodeAt (putDinode bp k x a) k = x := by
  simp only [IPB, BSIZE, DINODE] at hk
  cases x with
  | mk type major minor nlink size =>
    simp only [dinodeAt, putDinode, DINODE, NDIRECT, Dinode.mk.injEq]
    refine ⟨?_, ?_, ?_, ?_, ?_⟩
    · rw [Bytes.half_blit_of_disjoint _ _ (by omega), Bytes.half_setWord_of_disjoint _ _ (by omega),
        Bytes.half_setHalf_of_disjoint _ _ (by omega), Bytes.half_setHalf_of_disjoint _ _ (by omega),
        Bytes.half_setHalf_of_disjoint _ _ (by omega), Bytes.half_setHalf _ _ (by simp only [BSIZE]; omega)]
    · rw [Bytes.half_blit_of_disjoint _ _ (by omega), Bytes.half_setWord_of_disjoint _ _ (by omega),
        Bytes.half_setHalf_of_disjoint _ _ (by omega), Bytes.half_setHalf_of_disjoint _ _ (by omega),
        Bytes.half_setHalf _ _ (by simp only [BSIZE]; omega)]
    · rw [Bytes.half_blit_of_disjoint _ _ (by omega), Bytes.half_setWord_of_disjoint _ _ (by omega),
        Bytes.half_setHalf_of_disjoint _ _ (by omega), Bytes.half_setHalf _ _ (by simp only [BSIZE]; omega)]
    · rw [Bytes.half_blit_of_disjoint _ _ (by omega), Bytes.half_setWord_of_disjoint _ _ (by omega),
        Bytes.half_setHalf _ _ (by simp only [BSIZE]; omega)]
    · rw [Bytes.word_blit_of_disjoint _ _ (by omega), Bytes.word_setWord _ _ (by simp only [BSIZE]; omega),
        BitVec.toNat_ofNat, Nat.mod_eq_of_lt hx]

theorem addrsAt_putDinode (hk : k < IPB) : addrsAt (putDinode bp k x a) k = a := by
  simp only [IPB, BSIZE, DINODE] at hk
  funext m
  have hm := m.isLt
  simp only [NDIRECT] at hm
  rw [addrsAt, putDinode]
  apply Bytes.word_blit_of_mem
  · simp only [DINODE, NDIRECT, BSIZE]
    omega
  · simp only [NDIRECT]
    omega
  · exact fun k hk => Addrs.bytes_word a m hk

theorem get_newDinode_of_disjoint {off : ℕ} {type : BitVec 16}
    (h : off < DINODE * k ∨ DINODE * k + DINODE ≤ off) :
    (newDinode bp k type).get off = bp.get off := by
  simp only [DINODE] at h
  simp only [newDinode, Bytes.setHalf, DINODE]
  rw [Bytes.get_blit_of_disjoint _ _ (by omega), Bytes.get_blit_of_disjoint _ _ (by omega)]

theorem dinodeAt_newDinode (bp : Block) (hk : k < IPB) (type : BitVec 16) :
    dinodeAt (newDinode bp k type) k = ⟨type, 0, 0, 0, 0⟩ ∧
      addrsAt (newDinode bp k type) k = fun _ => 0 := by
  simp only [IPB, BSIZE, DINODE] at hk
  have hzero : ∀ m, m < 64 → (bp.blit (64 * k) 64 fun _ => 0).get (64 * k + m) =
      (Bytes.zero BSIZE).get (64 * k + m) := by
    intro m hm
    rw [Bytes.get_zero]
    exact Bytes.get_blit_of_mem bp _ (by simp only [BSIZE]; omega) hm
  have hhalf : ∀ o, o + 2 ≤ 64 → (bp.blit (64 * k) 64 fun _ => 0).half (64 * k + o) = 0 :=
    fun o ho => (Bytes.half_congr fun m hm => by
      rw [Nat.add_assoc]
      exact hzero _ (by omega)).trans (Bytes.half_zero _)
  have hword : ∀ o, o + 4 ≤ 64 → (bp.blit (64 * k) 64 fun _ => 0).word (64 * k + o) = 0 :=
    fun o ho => (Bytes.word_congr fun m hm => by
      rw [Nat.add_assoc]
      exact hzero _ (by omega)).trans (Bytes.word_zero _)
  constructor
  · simp only [dinodeAt, newDinode, DINODE, Dinode.mk.injEq]
    refine ⟨Bytes.half_setHalf _ _ (by simp only [BSIZE]; omega), ?_, ?_, ?_, ?_⟩
    · rw [Bytes.half_setHalf_of_disjoint _ _ (by omega), hhalf 2 (by norm_num)]
    · rw [Bytes.half_setHalf_of_disjoint _ _ (by omega), hhalf 4 (by norm_num)]
    · rw [Bytes.half_setHalf_of_disjoint _ _ (by omega), hhalf 6 (by norm_num)]
    · rw [Bytes.word_setHalf_of_disjoint _ _ (by omega), hword 8 (by norm_num)]
      rfl
  · funext m
    have hm := m.isLt
    simp only [NDIRECT] at hm
    rw [addrsAt, newDinode, DINODE, Bytes.word_setHalf_of_disjoint _ _ (by omega), Nat.add_assoc]
    exact hword _ (by omega)

theorem iblock_mod_inj (h : g.iblock i' = g.iblock i) (hne : i' ≠ i) : i' % IPB ≠ i % IPB := by
  simp only [Geometry.iblock, IPB, BSIZE, DINODE] at h ⊢
  omega

/-- A change of the `struct dinode` of inode `i` alone. -/
structure InodeWritten (g : Geometry) (d d' : Disk) (i : ℕ) (x : Dinode) (a : Addrs) : Prop where
  self : readDinode g d' i = x
  addrs : readAddrs g d' i = a
  other : ∀ i' ≠ i, readDinode g d' i' = readDinode g d i' ∧ readAddrs g d' i' = readAddrs g d i'
  outside : ∀ b ≠ g.iblock i, d' b = d b

theorem inodeWritten_update (hself : dinodeAt bp (i % IPB) = x) (haddrs : addrsAt bp (i % IPB) = a)
    (hout : ∀ off, off < DINODE * (i % IPB) ∨ DINODE * (i % IPB) + DINODE ≤ off →
      bp.get off = (d (g.iblock i)).get off) :
    InodeWritten g d (Function.update d (g.iblock i) bp) i x a := by
  constructor
  case self => rw [readDinode, update_self, hself]
  case addrs => rw [readAddrs, update_self, haddrs]
  case other =>
    intro i' hne
    by_cases hb : g.iblock i' = g.iblock i
    · have hk := iblock_mod_inj hb hne
      rw [readDinode, readAddrs, readDinode, readAddrs, hb, update_self]
      apply dinodeAt_congr
      intro off h1 h2
      apply hout
      simp only [DINODE] at h1 h2 ⊢
      omega
    · rw [readDinode, readAddrs, update_of_ne hb]
      exact ⟨rfl, rfl⟩
  case outside => exact fun b hb => update_of_ne hb _ _

theorem inodeWritten_writeDinode (hx : x.size < 2 ^ 32) :
    InodeWritten g d (writeDinode g d i x a) i x a :=
  inodeWritten_update (dinodeAt_putDinode (Nat.mod_lt _ (by norm_num)) hx)
    (addrsAt_putDinode (Nat.mod_lt _ (by norm_num))) fun _ => get_putDinode_of_disjoint

theorem inodeWritten_newDinode (type : BitVec 16) :
    InodeWritten g d (Function.update d (g.iblock i) (newDinode (d (g.iblock i)) (i % IPB) type)) i
      ⟨type, 0, 0, 0, 0⟩ fun _ => 0 :=
  have hnew := dinodeAt_newDinode (d (g.iblock i)) (Nat.mod_lt i (by norm_num)) type
  inodeWritten_update hnew.1 hnew.2 fun _ => get_newDinode_of_disjoint

def table (g : Geometry) (d : Disk) : AddrTable := fun i =>
  if i < g.ninodes ∧ (readDinode g d i).type ≠ 0 then some (readAddrs g d i) else none

theorem table_some (h : table g d i = some a) :
    i < g.ninodes ∧ (readDinode g d i).type ≠ 0 ∧ readAddrs g d i = a := by
  unfold table at h
  split_ifs at h with hi
  cases h
  exact ⟨hi.1, hi.2, rfl⟩

theorem table_of_type (hi : i < g.ninodes) (hty : (readDinode g d i).type ≠ 0) :
    table g d i = some (readAddrs g d i) := if_pos ⟨hi, hty⟩

theorem readDinode_congr (hg : g.Ok) (h : ∀ b < g.bmapstart, d' b = d b) (hi : i < g.ninodes) :
    readDinode g d' i = readDinode g d i ∧ readAddrs g d' i = readAddrs g d i := by
  rw [readDinode, readAddrs, h _ (hg.inodes i hi)]
  exact ⟨rfl, rfl⟩

theorem table_congr (hg : g.Ok) (h : ∀ b < g.bmapstart, d' b = d b) : table g d' = table g d := by
  funext i
  by_cases hi : i < g.ninodes
  · obtain ⟨h1, h2⟩ := readDinode_congr hg h hi
    simp only [table, h1, h2]
  · simp only [table, hi, false_and, if_false]

namespace InodeWritten

variable (h : InodeWritten g d d' i x a)

include h

theorem table_eq (hi : i < g.ninodes) :
    table g d' = Function.update (table g d) i (if x.type ≠ 0 then some a else none) := by
  funext i'
  by_cases hne : i' = i
  · subst hne
    simp only [update_self, table, h.self, h.addrs, hi, true_and]
  · obtain ⟨h1, h2⟩ := h.other i' hne
    simp only [update_of_ne hne, table, h1, h2]

theorem data (hg : g.Ok) (hi : i < g.ninodes) {b : ℕ} (hb : g.bmapstart ≤ b) : d' b = d b :=
  h.outside b (by have := hg.inodes i hi; omega)

theorem bits (hg : g.Ok) (hi : i < g.ninodes) (b : ℕ) : inUse g d' b = inUse g d b :=
  inUse_congr (h.data hg hi (Geometry.bblock_ge g b))

end InodeWritten

end Xv6.Fs.Blocks
