import Xv6.Fs.Inodes

/-!
# Directories in a volume

The entries of a directory, the changes that the operations make to a volume, and what they leave
alone.
-/

namespace Xv6.Fs.Volume

open Lib

variable {c : Conf} {v : Volume} {i j k : ℕ}

def nents (v : Volume) (d : ℕ) : ℕ := (v.dinode d).size / DIRENT

def ent (v : Volume) (d k : ℕ) : Dirent := direntAt (v.bytes d) (DIRENT * k)

def setNew (v : Volume) (i : ℕ) (major minor : BitVec 16) : Volume :=
  v.setDinode i { v.dinode i with major := major, minor := minor, nlink := 1 }

/-- What dropping one of `refs + 1` references does to the inode. -/
def release (v : Volume) (i refs : ℕ) : Volume :=
  if (v.dinode i).type ≠ 0 ∧ (v.dinode i).nlink = 0 ∧ refs = 0 then v.free i else v

structure WF (c : Conf) (v : Volume) : Prop where
  size_le : ∀ i < c.ninodes, (v.dinode i).size ≤ MAXFILE * BSIZE
  aligned : ∀ d < c.ninodes, (v.dinode d).type = T_DIR → (v.dinode d).size % DIRENT = 0
  entries : ∀ d < c.ninodes, (v.dinode d).type = T_DIR → ∀ k < v.nents d, (v.ent d k).inum < c.ninodes

theorem setDinode_dinode (v : Volume) (i : ℕ) (d : Dinode) (j : ℕ) :
    (v.setDinode i d).dinode j = if j = i then d else v.dinode j := by
  simp [setDinode, Function.update_apply]

theorem setNlink_dinode (v : Volume) (i : ℕ) (n : BitVec 16) (j : ℕ) :
    (v.setNlink i n).dinode j = if j = i then { v.dinode i with nlink := n } else v.dinode j :=
  setDinode_dinode v i _ j

theorem free_dinode (v : Volume) (i j : ℕ) : (v.free i).dinode j =
      if j = i then { v.dinode i with type := 0, size := 0 } else v.dinode j :=
  setDinode_dinode v i _ j

theorem release_type_of_ne (v : Volume) (n : ℕ) (hj : j ≠ i) :
    ((v.release i n).dinode j).type = (v.dinode j).type := by
  rw [release]
  split_ifs
  · rw [free_dinode, if_neg hj]
  · rfl

theorem write_dinode (v : Volume) (i off : ℕ) (src : List Byte) (j : ℕ) :
    (v.write i off src).dinode j = if j = i then { v.dinode i with
        size := if 0 < src.length then max (v.dinode i).size (off + src.length)
          else (v.dinode i).size }
      else v.dinode j := by
  simp [write, Function.update_apply]

theorem writeDirent_dinode (v : Volume) (i : ℕ) (de : Dirent) (k j : ℕ) :
    (v.writeDirent i de k).dinode j =
      if j = i then { v.dinode i with size := max (v.dinode i).size (DIRENT * (k + 1)) }
      else v.dinode j := by
  rw [writeDirent, write_dinode, Dirent.length_encode, Nat.mul_succ]
  rfl

theorem write_type_nlink (v : Volume) (i off : ℕ) (src : List Byte) (x : ℕ) :
    ((v.write i off src).dinode x).type = (v.dinode x).type ∧
      ((v.write i off src).dinode x).nlink = (v.dinode x).nlink := by
  by_cases hxi : x = i
  · subst hxi
    rw [write_dinode, if_pos rfl]
    exact ⟨rfl, rfl⟩
  · rw [write_dinode, if_neg hxi]
    exact ⟨rfl, rfl⟩

theorem setNlink_alike (v : Volume) (i : ℕ) (n : BitVec 16) (x : ℕ) :
    ((v.setNlink i n).dinode x).type = (v.dinode x).type ∧
      ((v.setNlink i n).dinode x).size = (v.dinode x).size := by
  rw [setNlink_dinode]
  split_ifs with hx
  · rw [hx]
    exact ⟨rfl, rfl⟩
  · exact ⟨rfl, rfl⟩

theorem writeDirent_type (v : Volume) (d : ℕ) (de : Dirent) (k x : ℕ) :
    ((v.writeDirent d de k).dinode x).type = (v.dinode x).type :=
  (write_type_nlink v d _ _ x).1

theorem setNlink_nents (v : Volume) (i : ℕ) (n : BitVec 16) (x : ℕ) :
    (v.setNlink i n).nents x = v.nents x := by
  rw [nents, nents, (setNlink_alike v i n x).2]

theorem write_bytes_ne (v : Volume) {i j : ℕ} (off : ℕ) (src : List Byte) (hj : j ≠ i) :
    (v.write i off src).bytes j = v.bytes j := by
  simp [write, hj]

@[simp] theorem ent_setDinode (v : Volume) (i : ℕ) (d : Dinode) (j k : ℕ) :
    (v.setDinode i d).ent j k = v.ent j k := rfl

@[simp] theorem ent_setNlink (v : Volume) (i : ℕ) (n : BitVec 16) (j k : ℕ) :
    (v.setNlink i n).ent j k = v.ent j k := rfl

theorem ent_writeDirent_ne (v : Volume) {i j : ℕ} (de : Dirent) (k k' : ℕ)
    (h : j ≠ i ∨ k' ≠ k) : (v.writeDirent i de k).ent j k' = v.ent j k' := by
  by_cases hj : j = i
  · subst hj
    have hk : k' ≠ k := h.resolve_left fun h => h rfl
    have hbytes : (v.writeDirent j de k).bytes j = splice (v.bytes j) (DIRENT * k) de.encode := by
      simp [writeDirent, write]
    rw [ent, ent, hbytes]
    apply direntAt_splice_of_disjoint
    rw [Dirent.length_encode]
    simp only [DIRENT, DIRSIZ]
    omega
  · rw [ent, ent, writeDirent, write_bytes_ne v _ _ hj]

theorem ent_writeDirent_inum (v : Volume) (i k : ℕ) {de : Dirent} (h : de.inum < 2 ^ 16) :
    ((v.writeDirent i de k).ent i k).inum = de.inum := by
  have hbytes : (v.writeDirent i de k).bytes i = splice (v.bytes i) (DIRENT * k) de.encode := by
    simp [writeDirent, write]
  rw [ent, hbytes]
  exact direntAt_splice_inum _ _ h

theorem ent_writeDirent (v : Volume) (i k : ℕ) {de : Dirent} (h : de.inum < 2 ^ 16)
    (hname : Canon de.name) : (v.writeDirent i de k).ent i k = de := by
  have hbytes : (v.writeDirent i de k).bytes i = splice (v.bytes i) (DIRENT * k) de.encode := by
    simp [writeDirent, write]
  rw [ent, hbytes]
  exact direntAt_splice _ _ h hname

theorem WF.nents_mul (hwf : v.WF c) (hi : i < c.ninodes) (hd : (v.dinode i).type = T_DIR) :
    DIRENT * v.nents i = (v.dinode i).size :=
  Nat.mul_div_cancel' (Nat.dvd_of_mod_eq_zero (hwf.aligned i hi hd))

theorem nents_writeDirent (hwf : v.WF c) (hi : i < c.ninodes) (hd : (v.dinode i).type = T_DIR)
    (de : Dirent) (hk : k ≤ v.nents i) :
    (v.writeDirent i de k).nents i = if k = v.nents i then v.nents i + 1 else v.nents i := by
  have hsize := hwf.nents_mul hi hd
  have hnew : (v.writeDirent i de k).nents i =
      max (v.dinode i).size (DIRENT * (k + 1)) / DIRENT := by
    rw [nents, writeDirent_dinode, if_pos rfl]
  rw [hnew, ← hsize]
  simp only [DIRENT, DIRSIZ] at *
  split_ifs <;> omega

theorem WF.setDinode (hwf : v.WF c) {d : Dinode}
    (hty : d.type = (v.dinode i).type) (hsize : d.size = (v.dinode i).size) :
    (v.setDinode i d).WF c := by
  have htype : ∀ j, ((v.setDinode i d).dinode j).type = (v.dinode j).type := by
    intro j
    rw [setDinode_dinode]
    split_ifs with h
    · rw [hty, h]
    · rfl
  have hsz : ∀ j, ((v.setDinode i d).dinode j).size = (v.dinode j).size := by
    intro j
    rw [setDinode_dinode]
    split_ifs with h
    · rw [hsize, h]
    · rfl
  refine ⟨fun j hj => ?_, fun j hj hd => ?_, fun j hj hd k hk => ?_⟩
  · rw [hsz]
    exact hwf.size_le j hj
  · rw [hsz]
    exact hwf.aligned j hj (htype j ▸ hd)
  · rw [nents, hsz] at hk
    exact hwf.entries j hj (htype j ▸ hd) k hk

theorem WF.setEmpty (hwf : v.WF c) {d : Dinode} (hsize : d.size = 0) : (v.setDinode i d).WF c := by
  refine ⟨fun j hj => ?_, fun j hj => ?_, fun j hj => ?_⟩
  · rw [setDinode_dinode]
    split_ifs
    · omega
    · exact hwf.size_le j hj
  · rw [setDinode_dinode]
    split_ifs
    · simp [hsize]
    · exact hwf.aligned j hj
  · simp only [nents, setDinode_dinode]
    split_ifs
    · simp [hsize]
    · exact hwf.entries j hj

theorem WF.write (hwf : v.WF c) (hd : (v.dinode i).type ≠ T_DIR) {off : ℕ} {src : List Byte}
    (hfit : off + src.length ≤ MAXFILE * BSIZE) : (v.write i off src).WF c := by
  refine ⟨fun j hj => ?_, fun j hj => ?_, fun j hj hty k hk => ?_⟩
  · have := hwf.size_le j hj
    rw [write_dinode]
    split_ifs with h <;> simp_all
  · by_cases h : j = i
    · rw [write_dinode, if_pos h]
      exact fun h => absurd h hd
    · rw [write_dinode, if_neg h]
      exact hwf.aligned j hj
  · have hne : j ≠ i := by
      rintro rfl
      rw [write_dinode, if_pos rfl] at hty
      exact hd hty
    rw [write_dinode, if_neg hne] at hty
    rw [nents, write_dinode, if_neg hne] at hk
    rw [ent, write_bytes_ne v off src hne]
    exact hwf.entries j hj hty k hk

theorem WF.writeDirent (hwf : v.WF c) (hc : c.ninodes ≤ 2 ^ 16) (hi : i < c.ninodes)
    (hd : (v.dinode i).type = T_DIR) {de : Dirent} (hde : de.inum < c.ninodes)
    (hk : k ≤ v.nents i) (hfit : DIRENT * (k + 1) ≤ MAXFILE * BSIZE) :
    (v.writeDirent i de k).WF c := by
  refine ⟨fun j hj => ?_, fun j hj => ?_, fun j hj hty k' hk' => ?_⟩
  · have := hwf.size_le j hj
    rw [writeDirent_dinode]
    split_ifs with h
    · subst h
      exact max_le this hfit
    · exact this
  · rw [writeDirent_dinode]
    split_ifs with h
    · intro _
      simp only [← hwf.nents_mul hi hd, Nat.mul_max_mul_left]
      exact Nat.mul_mod_right _ _
    · exact hwf.aligned j hj
  · by_cases hne : j ≠ i ∨ k' ≠ k
    · rw [ent_writeDirent_ne v de k k' hne]
      by_cases hj' : j = i
      · subst hj'
        rw [nents_writeDirent hwf hi hd de hk] at hk'
        have : k' ≠ k := hne.resolve_left fun h => h rfl
        refine hwf.entries j hj hd k' ?_
        split_ifs at hk' <;> omega
      · rw [writeDirent_dinode, if_neg hj'] at hty
        rw [nents, writeDirent_dinode, if_neg hj'] at hk'
        exact hwf.entries j hj hty k' hk'
    · push Not at hne
      rw [hne.1, hne.2, ent_writeDirent_inum v i k (lt_of_lt_of_le hde hc)]
      exact hde

end Xv6.Fs.Volume
