import Xv6.Fs.DiskRuns

/-!
# Directories stay well formed

`Directory` is what every directory keeps in every run, also one that has been removed and that
calls still add names to: `.` and `..` in the first two entries, and no name twice.
-/

namespace Xv6.Fs

open Lib Lib.Prog Lib.Runs Relation Blocks

namespace Volume

structure Directory (v : Volume) (d : ℕ) : Prop where
  two : 2 ≤ v.nents d
  dot : v.ent d 0 = ⟨d, dotName⟩
  dotdot : (v.ent d 1).inum ≠ 0 ∧ (v.ent d 1).name = dotdotName
  distinct : ∀ j k, j < v.nents d → k < v.nents d → (v.ent d j).inum ≠ 0 → (v.ent d k).inum ≠ 0 →
    (v.ent d j).name = (v.ent d k).name → j = k

structure WellFormed (c : Conf) (v : Volume) : Prop where
  zero : (v.dinode 0).type = 0
  dirs : ∀ d, v.Dir c d → v.Directory d

variable {c : Conf} {u v w : Volume} {d i k x : ℕ} {name : Name} {de : Dirent}

theorem Directory.congr (h : v.Directory d) (hn : w.nents d = v.nents d)
    (hent : ∀ k, w.ent d k = v.ent d k) : w.Directory d := by
  constructor
  case two => rw [hn]; exact h.two
  case dot => rw [hent]; exact h.dot
  case dotdot => rw [hent]; exact h.dotdot
  case distinct => simp only [hn, hent]; exact h.distinct

theorem entryPut_writeDirent (hsize : (u.dinode d).size = (v.dinode d).size)
    (hent : ∀ k, u.ent d k = v.ent d k) (haligned : (v.dinode d).size % DIRENT = 0)
    (hk : k ≤ v.nents d) (hde : de.inum < 2 ^ 16) (hname : Canon de.name) :
    EntryPut v (u.writeDirent d de k) d k de := by
  have hn : u.nents d = v.nents d := by rw [nents, nents, hsize]
  have hp := put_writeDirent (v := u) (hsize ▸ haligned) (hn ▸ hk) hde hname
  exact ⟨hk, hn ▸ hp.nents, hp.self, fun k' hk' => (hp.other k' hk').trans (hent k')⟩

theorem Directory.put (h : v.Directory d) (hp : EntryPut v w d k de) (hk : 2 ≤ k)
    (hnew : de.inum ≠ 0 → ∀ j < v.nents d, (v.ent d j).inum ≠ 0 → de.name ≠ (v.ent d j).name) :
    w.Directory d := by
  constructor
  case two => rw [hp.nents]; exact h.two.trans (le_max_left _ _)
  case dot => rw [hp.other 0 (by omega)]; exact h.dot
  case dotdot => rw [hp.other 1 (by omega)]; exact h.dotdot
  case distinct =>
    intro i j hi hj
    by_cases hik : i = k <;> by_cases hjk : j = k
    · exact fun _ _ _ => hik.trans hjk.symm
    · rw [hik, hp.self, hp.other j hjk]
      exact fun h1 h2 h3 => absurd h3 (hnew h1 j (hp.old hjk hj) h2)
    · rw [hjk, hp.self, hp.other i hik]
      exact fun h1 h2 h3 => absurd h3.symm (hnew h2 i (hp.old hik hi) h1)
    · rw [hp.other i hik, hp.other j hjk]
      exact h.distinct i j (hp.old hik hi) (hp.old hjk hj)

namespace WellFormed

theorem ne_zero (h : v.WellFormed c) (hd : v.Dir c d) : d ≠ 0 := by
  rintro rfl
  exact absurd (h.zero.symm.trans hd.2) (by decide)

theorem two_le_freeSlot (h : v.WellFormed c) (hd : v.Dir c d) : 2 ≤ v.freeSlot d := by
  have hdir := h.dirs d hd
  exact two_le_freeSlot_of hdir.two (by rw [hdir.dot]; exact h.ne_zero hd) hdir.dotdot.1

theorem two_le_lookup (h : v.WellFormed c) (hd : v.Dir c d) (hdot : name ≠ dotName)
    (hdotdot : name ≠ dotdotName) (hk : v.lookup d name = some k) : 2 ≤ k := by
  have hdir := h.dirs d hd
  exact two_le_lookup_of (by rwa [hdir.dot]) (by rwa [hdir.dotdot.2]) hk

end WellFormed

/-- What a change of the volume does to a directory `x` that is there after it. -/
inductive Turns (c : Conf) (v w : Volume) (x : ℕ) : Prop
  | kept (hd : v.Dir c x) (hn : w.nents x = v.nents x) (hent : ∀ k, w.ent x k = v.ent x k)
  | added (i : ℕ) (name : Name) (hd : v.Dir c x) (hi : i ≠ x) (hnew : v.lookup x name = none)
      (hp : EntryPut v w x (v.freeSlot x) ⟨i, name⟩)
  | removed (k : ℕ) (name : Name) (hd : v.Dir c x) (hdot : name ≠ dotName)
      (hdotdot : name ≠ dotdotName) (hk : v.lookup x name = some k)
      (hp : EntryPut v w x k ⟨0, []⟩)
  | made (a : ℕ) (ha : v.Dir c a) (htwo : w.nents x = 2) (hdot : w.ent x 0 = ⟨x, dotName⟩)
      (hdotdot : w.ent x 1 = ⟨a, dotdotName⟩)

theorem Turns.of_minor (hm : Minor c v w) (hx : w.Dir c x) : Turns c v w x := by
  have hal := (alike_of_minor hm).2 x hx
  exact .kept ((dir_iff hal.type).mp hx) hal.nents hal.ent

theorem Turns.directory (ht : Turns c v w x) (h : v.WellFormed c) : w.Directory x := by
  cases ht with
  | kept hd hn hent => exact (h.dirs x hd).congr hn hent
  | added i name hd hi hnew hp =>
    exact (h.dirs x hd).put hp (h.two_le_freeSlot hd) fun _ j hj hlive => lookup_none hnew hj hlive
  | removed k name hd hdot hdotdot hk hp =>
    exact (h.dirs x hd).put hp (h.two_le_lookup hd hdot hdotdot hk) fun h0 => absurd rfl h0
  | made a ha htwo hdot hdotdot =>
    constructor
    case two => rw [htwo]
    case dot => exact hdot
    case dotdot => rw [hdotdot]; exact ⟨h.ne_zero ha, rfl⟩
    case distinct =>
      have hne : dotName ≠ dotdotName := by decide
      rw [htwo]
      intro j k hj hk
      interval_cases j <;> interval_cases k
      · exact fun _ _ _ => rfl
      · rw [hdot, hdotdot]
        exact fun _ _ h => absurd h hne
      · rw [hdot, hdotdot]
        exact fun _ _ h => absurd h.symm hne
      · exact fun _ _ _ => rfl

theorem WellFormed.minor (h : v.WellFormed c) (hm : Minor c v w) : w.WellFormed c := by
  refine ⟨?_, fun d hd => (Turns.of_minor hm hd).directory h⟩
  cases hm with
  | @free i _ hty _ =>
    have hne : 0 ≠ i := fun h0 => hty (h0 ▸ h.zero)
    rw [(same_free v hne).1]
    exact h.zero
  | @write i off src _ _ => rw [(write_type_nlink v i off src 0).1]; exact h.zero

section Create

variable {t major minor : BitVec 16}

theorem withInode_same (hxd : x ≠ d) (hxi : x ≠ i) : Same v (v.withInode d i t major minor) x := by
  have hnew := same_setDinode v ⟨t, major, minor, 1, 0⟩ hxi
  unfold withInode
  by_cases ht : t = T_DIR
  · simp only [if_pos ht]
    exact ((hnew.trans (same_setDinode _ _ hxd)).trans (same_write _ _ _ hxi)).trans
      (same_write _ _ _ hxi)
  · simp only [if_neg ht]
    exact hnew

theorem withInode_dots (v : Volume) (major minor : BitVec 16) (hdi : d ≠ i) (hd : d < 2 ^ 16)
    (hi : i < 2 ^ 16) :
    (v.withInode d i T_DIR major minor).nents i = 2 ∧
      (v.withInode d i T_DIR major minor).ent i 0 = ⟨i, dotName⟩ ∧
      (v.withInode d i T_DIR major minor).ent i 1 = ⟨d, dotdotName⟩ := by
  have hsize : ((v.withInode d i T_DIR major minor).dinode i).size = DIRENT * 2 := by
    rw [withInode, if_pos rfl, withDots, writeDirent_dinode, if_pos rfl, writeDirent_dinode,
      if_pos rfl, setNlink_dinode, if_neg hdi.symm, setDinode_dinode, if_pos rfl]
    rfl
  refine ⟨by rw [nents, hsize]; rfl, ?_, ?_⟩
  · rw [withInode, if_pos rfl, withDots, ent_writeDirent_ne _ _ _ _ (.inr (by norm_num))]
    exact ent_writeDirent _ _ _ hi canon_dot
  · rw [withInode, if_pos rfl, withDots]
    exact ent_writeDirent _ _ _ hd canon_dotdot

theorem Turns.of_create (hwf : v.WF c) (hc : c.ninodes ≤ 2 ^ 16) (hd : v.Dir c d)
    (hnew : v.lookup d name = none) (hname : Canon name) (hi : i < c.ninodes)
    (hfree : (v.dinode i).type = 0)
    (hx : ((v.withInode d i t major minor).writeDirent d ⟨i, name⟩ (v.freeSlot d)).Dir c x) :
    Turns c v ((v.withInode d i t major minor).writeDirent d ⟨i, name⟩ (v.freeSlot d)) x := by
  have hdi : d ≠ i := by
    rintro rfl
    exact absurd (hd.2.symm.trans hfree) (by decide)
  obtain ⟨hsize, hent⟩ := withInode_parent v t major minor hdi
  by_cases hxd : x = d
  · subst hxd
    exact .added i name hd hdi.symm hnew (entryPut_writeDirent hsize hent
      (hwf.aligned x hd.1 hd.2) (v.freeSlot_le x) (hi.trans_le hc) hname)
  have hother : Same (v.withInode d i t major minor)
      ((v.withInode d i t major minor).writeDirent d ⟨i, name⟩ (v.freeSlot d)) x :=
    same_write _ _ _ hxd
  by_cases hxi : x = i
  · subst hxi
    have ht : t = T_DIR := by
      have hty := hx.2
      rwa [writeDirent_type, withInode_type, if_pos rfl] at hty
    subst ht
    obtain ⟨htwo, hdot, hdotdot⟩ := withInode_dots v major minor hdi (hd.1.trans_le hc)
      (hi.trans_le hc)
    exact .made d hd (hother.alike.nents.trans htwo) ((hother.2 0).trans hdot)
      ((hother.2 1).trans hdotdot)
  · have hsame := ((withInode_same hxd hxi).trans hother).alike
    exact .kept ((dir_iff hsame.type).mp hx) hsame.nents hsame.ent

end Create

theorem Turns.of_one (hself : Turns c v w d) (htype : (w.dinode x).type = (v.dinode x).type)
    (hother : x ≠ d → w.nents x = v.nents x ∧ ∀ k, w.ent x k = v.ent x k) (hx : w.Dir c x) :
    Turns c v w x := by
  by_cases hxd : x = d
  · rw [hxd]
    exact hself
  · exact .kept ((dir_iff htype).mp hx) (hother hxd).1 (hother hxd).2

theorem EntryPut.setNlink (h : EntryPut v w d k de) (i : ℕ) (n : BitVec 16) :
    EntryPut v (w.setNlink i n) d k de :=
  ⟨h.le, (setNlink_nents w i n d).trans h.nents, h.self, h.other⟩

theorem Turns.of_named {adds : Bool} (hwf : v.WF c) (hc : c.ninodes ≤ 2 ^ 16)
    (hn : Named c d name adds v w) (hx : w.Dir c x) : Turns c v w x := by
  have herased : Canon (⟨0, []⟩ : Dirent).name := ⟨Nat.zero_le _, List.not_mem_nil⟩
  have herase : ∀ k, v.Dir c d → v.lookup d name = some k →
      EntryPut v (v.writeDirent d ⟨0, []⟩ k) d k ⟨0, []⟩ := fun k hd hk =>
    entryPut_writeDirent rfl (fun _ => rfl) (hwf.aligned d hd.1 hd.2) (lookup_some hk).1.le
      (by norm_num) herased
  have hwrite : ∀ {u : Volume} {de : Dirent} {k : ℕ}, x ≠ d → Same u (u.writeDirent d de k) x :=
    fun hxd => same_write _ _ _ hxd
  cases hn with
  | create hd hdir hnew hname hi hpos hfree ht =>
    exact .of_create hwf hc ⟨hd, hdir⟩ hnew hname hi hfree hx
  | @link _ i hd hdir hnew hname hi hty hfile =>
    have hid : i ≠ d := by
      rintro rfl
      exact hfile hdir
    refine Turns.of_one (.added i name ⟨hd, hdir⟩ hid hnew (entryPut_writeDirent
      (setNlink_alike v i _ d).2 (fun _ => rfl) (hwf.aligned d hd hdir) (v.freeSlot_le d)
      (hi.trans_le hc) hname)) ?_ (fun hxd => ?_) hx
    · rw [writeDirent_type, (setNlink_alike v i _ x).1]
    · exact ⟨(hwrite hxd).alike.nents.trans (setNlink_nents v i _ x), (hwrite hxd).2⟩
  | @unlinkFile _ k hd hdir hdot hdotdot hk hfile hty hnl =>
    refine Turns.of_one (.removed k name ⟨hd, hdir⟩ hdot hdotdot hk
      ((herase k ⟨hd, hdir⟩ hk).setNlink _ _)) ?_ (fun hxd => ?_) hx
    · rw [(setNlink_alike _ _ _ x).1, writeDirent_type]
    · exact ⟨(setNlink_nents _ _ _ x).trans (hwrite hxd).alike.nents, (hwrite hxd).2⟩
  | @unlinkDir _ k hd hdir hdot hdotdot hk hne hsub hempty hnl =>
    refine Turns.of_one (.removed k name ⟨hd, hdir⟩ hdot hdotdot hk
      (((herase k ⟨hd, hdir⟩ hk).setNlink _ _).setNlink _ _)) ?_ (fun hxd => ?_) hx
    · rw [(setNlink_alike _ _ _ x).1, (setNlink_alike _ _ _ x).1, writeDirent_type]
    · exact ⟨(setNlink_nents _ _ _ x).trans ((setNlink_nents _ _ _ x).trans
        (hwrite hxd).alike.nents), (hwrite hxd).2⟩

theorem Named.type_zero {adds : Bool} (hn : Named c d name adds v w) (h : (v.dinode 0).type = 0) :
    (w.dinode 0).type = 0 := by
  cases hn with
  | create hd hdir hnew hname hi hpos hfree ht =>
    rw [writeDirent_type, withInode_type, if_neg hpos.ne, h]
  | link => rw [writeDirent_type, (setNlink_alike _ _ _ 0).1, h]
  | unlinkFile => rw [(setNlink_alike _ _ _ 0).1, writeDirent_type, h]
  | unlinkDir => rw [(setNlink_alike _ _ _ 0).1, (setNlink_alike _ _ _ 0).1, writeDirent_type, h]

theorem WellFormed.named {adds : Bool} (h : v.WellFormed c) (hwf : v.WF c) (hc : c.ninodes ≤ 2 ^ 16)
    (hn : Named c d name adds v w) : w.WellFormed c :=
  ⟨Named.type_zero hn h.zero, fun _ hx => (Turns.of_named hwf hc hn hx).directory h⟩

theorem WellFormed.effect {target : Option (Bool × ℕ × Name)} (h : v.WellFormed c) (hwf : v.WF c)
    (hc : c.ninodes ≤ 2 ^ 16) (he : Effect c target v w) : w.WellFormed c :=
  he.preserves h (fun _ _ _ _ _ hn => h.named hwf hc hn) fun _ _ hu hm => hu.minor hm

end Volume

theorem step_wellFormed {c : Conf} {s s' : State} {e : Pid × Call}
    (hs : (∃ num, Good c num 0 ∅ s) ∧ s.vol.WellFormed c) (h : step c s e = some s') :
    (∃ num, Good c num 0 ∅ s') ∧ s'.vol.WellFormed c := by
  obtain ⟨⟨num, g⟩, hw⟩ := hs
  obtain ⟨hgood, heff⟩ := step_spec g h
  exact ⟨hgood, hw.effect g.vol g.conf.2 heff⟩

variable {g : Geometry} {d : Disk} {s : BState} {t : State} {v : Volume} {i k : ℕ}

def ndirents (g : Geometry) (d : Disk) (i : ℕ) : ℕ := (readDinode g d i).size / DIRENT

def dirent (g : Geometry) (d : Disk) (i k : ℕ) : Dirent :=
  direntAt (contentOf (readAddrs g d i) d) (DIRENT * k)

structure DirectoryOn (g : Geometry) (d : Disk) (i : ℕ) : Prop where
  aligned : (readDinode g d i).size % DIRENT = 0
  two : 2 ≤ ndirents g d i
  dot : dirent g d i 0 = ⟨i, dotName⟩
  dotdot : (dirent g d i 1).inum ≠ 0 ∧ (dirent g d i 1).name = dotdotName
  distinct : ∀ j k, j < ndirents g d i → k < ndirents g d i → (dirent g d i j).inum ≠ 0 →
    (dirent g d i k).inum ≠ 0 → (dirent g d i j).name = (dirent g d i k).name → j = k

theorem Refines.represents (h : Refines g s t) : Represents g s.vol.disk t.vol := ⟨h.dinode, h.bytes⟩

section

variable (h : Represents g d v) (hi : v.Dir g.conf i)
include h hi

theorem Represents.ndirents_eq : ndirents g d i = v.nents i := by
  rw [ndirents, h.dinode i hi.1, Volume.nents]

theorem Represents.dirent_eq (hk : k < v.nents i) : dirent g d i k = v.ent i k := by
  have hdin := h.dinode i hi.1
  have ht : table g d i = some (readAddrs g d i) :=
    table_of_type hi.1 (by rw [hdin, hi.2]; decide)
  apply direntAt_congr
  intro j hj
  apply h.bytes i _ ht
  rw [hdin]
  simp only [Volume.nents, DIRENT, DIRSIZ] at hk hj ⊢
  omega

theorem Represents.directory (hd : DirectoryOn g d i) : v.Directory i := by
  have hn := h.ndirents_eq hi
  have htwo : 2 ≤ v.nents i := hn ▸ hd.two
  have hent : ∀ {k}, k < v.nents i → dirent g d i k = v.ent i k := fun hk => h.dirent_eq hi hk
  constructor
  case two => exact htwo
  case dot => rw [← hent (by omega)]; exact hd.dot
  case dotdot => rw [← hent (by omega)]; exact hd.dotdot
  case distinct =>
    intro j k hj hk
    rw [← hent hj, ← hent hk]
    exact hd.distinct j k (hn ▸ hj) (hn ▸ hk)

theorem Represents.directoryOn (hwf : v.WF g.conf) (hd : v.Directory i) : DirectoryOn g d i := by
  have hn := h.ndirents_eq hi
  have htwo := hd.two
  have hent : ∀ {k}, k < v.nents i → dirent g d i k = v.ent i k := fun hk => h.dirent_eq hi hk
  constructor
  case aligned => rw [h.dinode i hi.1]; exact hwf.aligned i hi.1 hi.2
  case two => rw [hn]; exact htwo
  case dot => rw [hent (by omega)]; exact hd.dot
  case dotdot => rw [hent (by omega)]; exact hd.dotdot
  case distinct =>
    rw [hn]
    intro j k hj hk
    rw [hent hj, hent hk]
    exact hd.distinct j k hj hk

end

/-- `isdirempty` of inode `i`, called as in `sys_unlink` with the inode locked. -/
def checkEmpty (i : ℕ) : FsProg Bool := do
  let ip ← Fs.iget i
  Fs.ilock ip
  isdirempty ip

theorem wp_checkEmpty {c : Conf} {num : ISlot → ℕ} (hgood : Good c num 0 ∅ t) (hi : t.vol.Dir c i) :
    W c false (checkEmpty i) (fun b _ => b = true ↔
      ∀ j, 2 ≤ j → j < t.vol.nents i → (t.vol.ent i j).inum = 0) t := by
  refine wp_of_triple ⟨hgood, rfl, rfl⟩ (.seq (does_iget hi.1 fun ip _ => Triple.seq (does_ilock .head
    (fun _ => Finset.notMem_empty ip) (fun _ => ?_) fun _ _ => ?_)))
  · rw [hi.2]
    decide
  · exact does_isdirempty .head (Finset.mem_insert_self _ _) hi.2 fun b hb _ _ => hb

theorem Volume.Directory.empty_iff (hd : v.Directory i) (hi : i ≠ 0) :
    (∀ j, 2 ≤ j → j < v.nents i → (v.ent i j).inum = 0) ↔
      ∀ j < v.nents i, (v.ent i j).inum ≠ 0 → (v.ent i j).name = dotName ∨ (v.ent i j).name = dotdotName := by
  have htwo := hd.two
  constructor
  · intro hempty j hj hlive
    have hlt : j < 2 := by
      by_contra hge
      exact hlive (hempty j (by omega) hj)
    interval_cases j
    · rw [hd.dot]
      exact .inl rfl
    · exact .inr hd.dotdot.2
  · intro hall j h2 hj
    by_contra hlive
    rcases hall j hj hlive with hdot | hdotdot
    · have := hd.distinct j 0 hj (by omega) hlive (by rw [hd.dot]; exact hi) (by rw [hdot, hd.dot])
      omega
    · have := hd.distinct j 1 hj (by omega) hlive hd.dotdot.1 (hdotdot.trans hd.dotdot.2.symm)
      omega

theorem directories_well_formed {evs : List (Pid × Call)} (hd : Consistent g d)
    (hdirs : ∀ i < g.ninodes, (readDinode g d i).type = T_DIR → DirectoryOn g d i)
    (hrun : Runs.exec (stepB g) (bootB d) evs = some s) :
    (∀ i < g.ninodes, (readDinode g s.vol.disk i).type = T_DIR →
      DirectoryOn g s.vol.disk i ∧
      ∀ b s', (checkEmpty i).run (performB g) s = .ok (b, s') →
        (b = true ↔ ∀ k < ndirents g s.vol.disk i, (dirent g s.vol.disk i k).inum ≠ 0 →
          (dirent g s.vol.disk i k).name = dotName ∨ (dirent g s.vol.disk i k).name = dotdotName)) ∧
    (∀ f, (s.tables.file f).type = .inode → (s.tables.file f).writable = true →
      (readDinode g s.vol.disk (s.cache (s.tables.file f).ip).inum).type ≠ T_DIR) ∧
    ∀ p (call : Call), call.enabled s.tables p = true →
      ∀ q ∈ [Panic.dirlookupRead, .dirlinkRead, .isdirempty],
        (call.prog p).run (performB g) s ≠ .error (.panic q) := by
  obtain ⟨v, t, hv, hr, ht, htr⟩ := hd.runB hrun
  have hw : v.WellFormed g.conf := ⟨hv.tree.zero, fun i hi => hr.directory hi
    (hdirs i hi.1 (by rw [hr.dinode i hi.1]; exact hi.2))⟩
  obtain ⟨⟨num, hgood⟩, hwt⟩ := exec_invariant (step g.conf)
    (I := fun s => (∃ num, Good g.conf num 0 ∅ s) ∧ s.vol.WellFormed g.conf)
    (fun _ _ _ => step_wellFormed) ⟨⟨_, hv.good⟩, hw⟩ ht
  have hrep := htr.2.represents
  refine ⟨fun i hi hty => ?_, fun f hf hwr => ?_, fun p call hen q hq => ?_⟩
  · have hdir : t.vol.Dir g.conf i := ⟨hi, by rw [← hrep.dinode i hi]; exact hty⟩
    refine ⟨hrep.directoryOn hdir hgood.vol (hwt.dirs i hdir), fun b s' hb => ?_⟩
    have hall : (∀ k < ndirents g s.vol.disk i, (dirent g s.vol.disk i k).inum ≠ 0 →
        (dirent g s.vol.disk i k).name = dotName ∨ (dirent g s.vol.disk i k).name = dotdotName) ↔
        ∀ k < t.vol.nents i, (t.vol.ent i k).inum ≠ 0 →
          (t.vol.ent i k).name = dotName ∨ (t.vol.ent i k).name = dotdotName := by
      rw [hrep.ndirents_eq hdir]
      exact forall₂_congr fun k hk => by rw [hrep.dirent_eq hdir hk]
    rw [hall, ← (hwt.dirs i hdir).empty_iff (hwt.ne_zero hdir)]
    -- The check answers alike at both levels, and the inode level does not misuse an inode.
    have hwp := wp_checkEmpty hgood hdir
    rcases refines_run hd.geometry (checkEmpty i) htr.2 with ⟨f, hf, rfl⟩ | ⟨r, u, t', hu, ht', -⟩ | ⟨f, hf, -⟩
    · exact absurd rfl (wp_error hwp hf).1
    · rw [hb] at hu
      cases hu
      have hpost := wp_ok hwp ht'
      exact hpost
    · rw [hb] at hf
      cases hf
  · rw [htr.2.cache]
    rw [htr.2.tables] at hf hwr ⊢
    have hpos := hgood.ref_pos_of_table (Good.table_refs_pos hf)
    rw [hrep.dinode _ (hgood.range _ hpos)]
    exact hgood.writable f hf hwr
  · exact htr.excluded hd.geometry hen (by
      simp only [List.mem_cons, List.not_mem_nil, or_false] at hq
      rcases hq with rfl | rfl | rfl <;> decide)

theorem mkfs_directory : mkfs.Directory ROOTINO := by
  have hlive : ∀ k < mkfs.nents ROOTINO, (mkfs.ent ROOTINO k).inum ≠ 0 → k < 2 := by
    intro k hk hlive
    by_contra hge
    exact hlive (mkfs_ent_zero (by omega) hk)
  constructor
  case two => rw [mkfs_nents]; norm_num
  case dot => exact mkfs_dots.1
  case dotdot => rw [mkfs_dots.2]; exact ⟨by norm_num, rfl⟩
  case distinct =>
    intro j k hj hk hlj hlk hname
    have hj2 := hlive j hj hlj
    have hk2 := hlive k hk hlk
    interval_cases j <;> interval_cases k
    · rfl
    · rw [mkfs_dots.1, mkfs_dots.2] at hname
      exact absurd hname (by decide)
    · rw [mkfs_dots.1, mkfs_dots.2] at hname
      exact absurd hname (by decide)
    · rfl

theorem mkfsDisk_directory :
    ∀ i < xv6Geometry.ninodes, (readDinode xv6Geometry mkfsDisk i).type = T_DIR →
      DirectoryOn xv6Geometry mkfsDisk i := by
  intro i hi hty
  rw [mkfsDisk_dinode i hi] at hty
  have hdir : mkfs.Dir xv6Geometry.conf i := ⟨hi, hty⟩
  obtain rfl := mkfs_dir hdir
  exact mkfsDisk_represents.directoryOn hdir mkfs_wf mkfs_directory

def mkdirRun : List (Pid × Call) := [(0, .mkdir [47, 100])]

theorem directories_well_formed_mkdirRun :
    ∃ s, Runs.exec (stepB xv6Geometry) (bootB mkfsDisk) mkdirRun = some s ∧
      (readDinode xv6Geometry s.vol.disk 2).type = T_DIR ∧ DirectoryOn xv6Geometry s.vol.disk 2 := by
  obtain ⟨s, hs, hty⟩ : ∃ s ∈ Runs.exec (stepB xv6Geometry) (bootB mkfsDisk) mkdirRun,
      (readDinode xv6Geometry s.vol.disk 2).type = T_DIR := by decide +kernel
  have hall := directories_well_formed mkfsDisk_consistent mkfsDisk_directory hs
  exact ⟨s, hs, hty, (hall.1 2 (by decide) hty).1⟩

end Xv6.Fs
