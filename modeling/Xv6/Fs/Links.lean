import Xv6.Fs.Files
import Xv6.Fs.TreeEffects

/-!
# Link counts over runs

As long as no call adds a name to a removed directory, the link counts are exact after any run from
a consistent image, and what is allocated is reachable when nothing is in use.
-/

namespace Xv6.Fs

open Lib Lib.Prog Lib.Runs Relation

structure Volume.Image (c : Conf) (v : Volume) : Prop where
  conf : ROOTINO < c.ninodes ∧ c.ninodes ≤ 2 ^ 16
  wf : v.WF c
  tree : v.Tree c
  linked : ∀ i < c.ninodes, (v.dinode i).type ≠ 0 → (v.dinode i).nlink ≠ 0

/-- The state in which `initproc` enters user space, after `p->cwd = namei("/")`. -/
def boot (v : Volume) : State where
  vol := v
  cache ip := ⟨if ip = 0 then ROOTINO else 0, if ip = 0 then 1 else 0, false, false, ⟨0, 0, 0, 0, 0⟩⟩
  tables := ⟨fun p => if p = 0 then some 0 else none, fun _ _ => none,
    fun _ => ⟨.none, 0, false, false, 0, 0⟩⟩

variable {c : Conf} {num : ISlot → ℕ} {s s' : State} {p : Pid} {call : Call} {v : Volume}

theorem boot_refs (v : Volume) (ip : ISlot) :
    (boot v).tables.refs ip = if ip = 0 then 1 else 0 := by
  have hcwd : (Finset.univ.filter fun p : Pid => (boot v).tables.cwd p = some ip) =
      if ip = 0 then {0} else ∅ := by
    ext p
    by_cases hp : p = 0 <;> by_cases hip : ip = 0 <;> simp [boot, hp, hip, eq_comm]
  have hfile : (Finset.univ.filter fun f : FileSlot => ((boot v).tables.file f).type = .inode ∧
      ((boot v).tables.file f).ip = ip) = ∅ := by
    simp [boot]
  rw [Tables.refs, hcwd, hfile]
  split_ifs <;> rfl

theorem Volume.Image.good (hv : v.Image c) : Good c (fun _ => ROOTINO) 0 ∅ (boot v) := by
  have hpos : ∀ ip, 0 < ((boot v).cache ip).ref → ip = 0 := by
    intro ip hip
    by_contra hne
    simp [boot, hne] at hip
  have hpos' : ∀ ip, 0 < (boot v).tables.refs ip → ip = 0 := by
    intro ip hip
    by_contra hne
    rw [boot_refs, if_neg hne] at hip
    exact absurd hip (lt_irrefl 0)
  constructor
  case conf => exact hv.conf
  case vol => exact hv.wf
  case ref => intro ip; rw [boot_refs]; rfl
  case inum => exact fun x hx => absurd hx (Multiset.notMem_zero x)
  case lock => intro ip; simp [boot]
  case lockValid => intro ip hip; simp at hip
  case uniq => intro ip jp hip hjp _; rw [hpos ip hip, hpos jp hjp]
  case range => intro ip hip; rw [hpos ip hip]; exact hv.conf.1
  case sync => intro ip _ hvalid; simp [boot] at hvalid
  case kept => exact fun i hi hty hnl => absurd hnl (hv.linked i hi hty)
  case home => intro ip hip; rw [hpos' ip hip]; rfl
  case used =>
    intro ip hip
    rw [hpos' ip hip]
    change (v.dinode ROOTINO).type ≠ 0
    rw [hv.tree.root.1.2]
    decide
  case writable => intro f hf; simp [boot] at hf
  case closed => exact fun _ _ => rfl

theorem step_spec (g : Good c num 0 ∅ s) (h : step c s (p, call) = some s') :
    (∃ num', Good c num' 0 ∅ s') ∧ Effect c (call.target s p) s.vol s'.vol := by
  unfold step at h
  split_ifs at h with hen
  split at h
  · next hrun =>
    cases h
    have hw : W c false (call.prog p) _ s := wp_prog g hen fun h => nomatch h
    have hpost := wp_ok hw hrun
    exact hpost
  · cases h

/-- No name is added to a removed directory, nor beside a link count at its limit. -/
def AddsToLinked (c : Conf) (s : State) (e : Pid × Call) : Prop :=
  ∀ x ∈ e.2.target s e.1, x.1 = true → (s.vol.dinode x.2.1).nlink ≠ 0 ∧ s.vol.Room c

/-- What holds between calls as long as no name is added to a removed directory. -/
def Exact (c : Conf) (s : State) : Prop := (∃ num, Good c num 0 ∅ s) ∧ s.vol.Tree c

theorem Volume.Image.exact_boot (hv : v.Image c) : Exact c (boot v) := ⟨⟨_, hv.good⟩, hv.tree⟩

theorem step_exact {e : Pid × Call} (hs : Exact c s) (hadd : AddsToLinked c s e)
    (h : step c s e = some s') : Exact c s' := by
  obtain ⟨⟨num, g⟩, t⟩ := hs
  obtain ⟨hgood, heff⟩ := step_spec g h
  exact ⟨hgood, heff.tree t g.vol g.conf.2 hadd⟩

theorem run_exact {evs : List (Pid × Call)} (hs : Exact c s)
    (hadd : Meets (step c) (AddsToLinked c) s evs) (h : Runs.exec (step c) s evs = some s') :
    Exact c s' :=
  exec_preserves (step c) (fun _ _ _ => step_exact) hs hadd h

def State.Quiet (s : State) : Prop :=
  (∀ f, (s.tables.file f).type ≠ .inode) ∧
    ∀ p, ∀ ip ∈ s.tables.cwd p, (s.cache ip).inum = ROOTINO

namespace Volume

def Entry (c : Conf) (v : Volume) (a b : ℕ) (name : Name) : Prop :=
  v.Dir c a ∧ b ≠ 0 ∧ ∃ k < v.nents a, v.ent a k = ⟨b, name⟩

def Reachable (c : Conf) (v : Volume) (i : ℕ) : Prop :=
  ReflTransGen (fun a b => ∃ name, name ≠ dotName ∧ name ≠ dotdotName ∧ v.Entry c a b name) ROOTINO i

/-- The number of directory entries with a name other than `.` that refer to `i`. -/
def references (c : Conf) (v : Volume) (i : ℕ) : ℕ :=
  ∑ d ∈ Finset.range c.ninodes, if v.Dir c d then
    ((Finset.range (v.nents d)).filter fun k =>
      (v.ent d k).inum = i ∧ (v.ent d k).name ≠ dotName).card
  else 0

variable {d i k : ℕ}

theorem Tree.entry (t : v.Tree c) (hd : v.Dir c d) (hk : 2 ≤ k) (hlt : k < v.nents d)
    (hi : (v.ent d k).inum = i) (hpos : i ≠ 0) :
    ∃ name, name ≠ dotName ∧ name ≠ dotdotName ∧ v.Entry c d i name := by
  have hnames := (t.dirs d hd).names k hk hlt (hi ▸ hpos)
  exact ⟨(v.ent d k).name, hnames.1, hnames.2, hd, hpos, k, hlt, by rw [← hi]⟩

theorem Tree.reachable_dir (t : v.Tree c) (hd : v.Linked c d) : v.Reachable c d := by
  refine ReflTransGen.mono ?_ _ _ (t.reach d hd)
  rintro a b ⟨ha, hb, k, hk, hlt, hent⟩
  exact t.entry ha.1 hk hlt hent (t.dir_ne_zero hb.1)

theorem Tree.reachable (t : v.Tree c) (hi : i < c.ninodes) (hty : (v.dinode i).type ≠ 0)
    (hnl : (v.dinode i).nlink ≠ 0) : v.Reachable c i := by
  have hpos : 0 < i := Nat.pos_of_ne_zero fun h0 => hty (h0 ▸ t.zero)
  by_cases hdir : v.Dir c i
  · exact t.reachable_dir ⟨hdir, hnl⟩
  have hlinks : v.links c i ≠ 0 := by
    rw [← t.count i hi hpos hty]
    intro h0
    exact hnl (BitVec.eq_of_toNat_eq h0)
  obtain ⟨d, k, hd, hk, hlt, hent⟩ := exists_entry_of_links hlinks
  -- The entry is not a `..`: those refer to directories.
  have hk1 : k ≠ 1 := by
    rintro rfl
    by_cases hroot : d = ROOTINO
    · subst hroot
      exact hdir (hent.symm.trans t.rootParent ▸ hd.1)
    · obtain ⟨_, hparent, -⟩ := t.exists_parent hd hroot
      exact hdir (hent ▸ hparent.1)
  exact (t.reachable_dir hd).tail (t.entry hd.1 (by omega) hlt hent hpos.ne')

theorem Tree.entries_eq (t : v.Tree c) (hd : v.Dir c d) (hi : i ≠ 0) :
    v.entries d i = ((Finset.range (v.nents d)).filter fun k =>
      (v.ent d k).inum = i ∧ (v.ent d k).name ≠ dotName).card := by
  have hdir := t.dirs d hd
  rw [entries]
  congr 1
  ext k
  simp only [Finset.mem_filter, Finset.mem_range, and_congr_right_iff]
  intro hlt
  constructor
  · rintro ⟨hk, hent⟩
    refine ⟨hent, ?_⟩
    by_cases hk1 : k = 1
    · rw [hk1, hdir.dotdot.2]
      decide
    · exact (hdir.names k (by omega) hlt (hent ▸ hi)).1
  · rintro ⟨hent, hname⟩
    refine ⟨Nat.one_le_iff_ne_zero.mpr ?_, hent⟩
    rintro rfl
    rw [hdir.dot] at hname
    exact hname rfl

theorem Tree.references_eq (t : v.Tree c) (hall : ∀ d, v.Dir c d → v.Linked c d) (hi : i ≠ 0) :
    v.references c i = v.links c i := by
  apply Finset.sum_congr rfl
  intro d _
  by_cases hd : v.Dir c d
  · rw [if_pos hd, counted, if_pos (hall d hd), t.entries_eq hd hi]
  · rw [if_neg hd, counted, if_neg fun hl => hd hl.1]

end Volume

theorem Good.linked_of_quiet (g : Good c num 0 ∅ s) (t : s.vol.Tree c) (hq : s.Quiet) {i : ℕ}
    (hi : i < c.ninodes) (hty : (s.vol.dinode i).type ≠ 0) : (s.vol.dinode i).nlink ≠ 0 := by
  intro hnl
  obtain ⟨ip, hip, href, -⟩ := g.kept i hi hty hnl
  rw [g.ref, heldRefs_zero, Nat.add_zero, Tables.refs] at href
  have hfile : (Finset.univ.filter fun f => (s.tables.file f).type = .inode ∧
      (s.tables.file f).ip = ip) = ∅ :=
    Finset.filter_eq_empty_iff.mpr fun f _ hf => hq.1 f hf.1
  rw [hfile, Finset.card_empty, Nat.add_zero] at href
  obtain ⟨p, hp⟩ := Finset.card_pos.mp href
  have hroot := hq.2 p ip (Finset.mem_filter.mp hp).2
  exact t.root.2 (by rw [← hroot, hip]; exact hnl)

theorem links_exact {evs : List (Pid × Call)} (hv : v.Image c)
    (hadd : Meets (step c) (AddsToLinked c) (boot v) evs)
    (h : Runs.exec (step c) (boot v) evs = some s) (hq : s.Quiet) {i : ℕ} (hi : i < c.ninodes)
    (hty : (s.vol.dinode i).type ≠ 0) :
    s.vol.Reachable c i ∧ (s.vol.dinode i).nlink.toInt = s.vol.references c i := by
  obtain ⟨⟨num, g⟩, t⟩ := run_exact hv.exact_boot hadd h
  have hlinked := fun {j : ℕ} => g.linked_of_quiet t hq (i := j)
  have hpos : 0 < i := Nat.pos_of_ne_zero fun h0 => hty (h0 ▸ t.zero)
  refine ⟨t.reachable hi hty (hlinked hi hty), ?_⟩
  have hall : ∀ d, s.vol.Dir c d → s.vol.Linked c d := fun d hd =>
    ⟨hd, hlinked hd.1 (by rw [hd.2]; decide)⟩
  rw [t.references_eq hall hpos.ne', ← t.count i hi hpos hty]
  exact BitVec.toInt_eq_toNat_of_lt (by have := t.bound i hi hty; omega)

def mkfs : Volume where
  dinode i := if i = ROOTINO then ⟨T_DIR, 0, 0, 1, BSIZE⟩ else ⟨0, 0, 0, 0, 0⟩
  bytes i := if i = ROOTINO then
      splice (splice (fun _ => 0) 0 (Dirent.encode ⟨ROOTINO, dotName⟩)) DIRENT
        (Dirent.encode ⟨ROOTINO, dotdotName⟩)
    else fun _ => 0

theorem mkfs_type_ne {i : ℕ} (h : (mkfs.dinode i).type ≠ 0) : i = ROOTINO := by
  by_contra hne
  exact h (by simp only [mkfs, if_neg hne])

theorem mkfs_dir {d : ℕ} (hd : mkfs.Dir c d) : d = ROOTINO :=
  mkfs_type_ne (by rw [hd.2]; decide)

theorem mkfs_ent_zero {k : ℕ} (hk : 2 ≤ k) (hlt : k < mkfs.nents ROOTINO) :
    (mkfs.ent ROOTINO k).inum = 0 := by
  have hall : ∀ k < mkfs.nents ROOTINO, 2 ≤ k → (mkfs.ent ROOTINO k).inum = 0 := by decide +kernel
  exact hall k hlt hk

theorem mkfs_dots : mkfs.ent ROOTINO 0 = ⟨ROOTINO, dotName⟩ ∧
    mkfs.ent ROOTINO 1 = ⟨ROOTINO, dotdotName⟩ := by
  decide +kernel

theorem mkfs_nents : mkfs.nents ROOTINO = 32 := rfl

theorem mkfs_wf : mkfs.WF c := by
  constructor
  case size_le =>
    intro i _
    simp only [mkfs]
    split_ifs <;> decide
  case aligned =>
    intro d hd hdir
    rw [mkfs_dir ⟨hd, hdir⟩]
    rfl
  case entries =>
    intro d hd hdir k hk
    have hroot : d = ROOTINO := mkfs_dir ⟨hd, hdir⟩
    rw [hroot] at hd hk ⊢
    rcases Nat.lt_or_ge k 2 with h2 | h2
    · interval_cases k
      · rw [mkfs_dots.1]; exact hd
      · rw [mkfs_dots.2]; exact hd
    · rw [mkfs_ent_zero h2 hk]
      exact Nat.zero_lt_of_lt hd

theorem mkfs_links (hc : ROOTINO < c.ninodes) {i : ℕ} (hi : 0 < i) :
    mkfs.links c i = if ROOTINO = i then 1 else 0 := by
  have hroot : mkfs.Linked c ROOTINO := ⟨⟨hc, rfl⟩, by decide⟩
  rw [Volume.links, Finset.sum_eq_single ROOTINO]
  · exact Volume.counted_of_empty hroot (by rw [mkfs_nents]; norm_num)
      (fun k hk hlt => mkfs_ent_zero hk hlt) (by rw [mkfs_dots.2]) hi
  · exact fun d _ hne => Volume.counted_of_not fun hl => hne (mkfs_dir hl.1)
  · exact fun hnot => absurd (Finset.mem_range.mpr hc) hnot

theorem mkfs_image (hc : ROOTINO < c.ninodes ∧ c.ninodes ≤ 2 ^ 16) : mkfs.Image c := by
  have hlinks := fun {i : ℕ} => mkfs_links hc.1 (i := i)
  refine ⟨hc, mkfs_wf, ?_, fun i _ hty => by rw [mkfs_type_ne hty]; decide⟩
  constructor
  case zero => rfl
  case root => exact ⟨⟨hc.1, rfl⟩, by decide⟩
  case rootParent => rw [mkfs_dots.2]
  case dirs =>
    intro d hd
    rw [mkfs_dir hd]
    constructor
    case two => rw [mkfs_nents]; norm_num
    case dot => exact mkfs_dots.1
    case dotdot => rw [mkfs_dots.2]; exact ⟨by norm_num, rfl⟩
    case names => exact fun k hk hlt hlive => absurd (mkfs_ent_zero hk hlt) hlive
    case removed => exact fun _ k hk hlt => mkfs_ent_zero hk hlt
  case count =>
    intro i _ hpos hty
    rw [hlinks hpos, mkfs_type_ne hty]
    rfl
  case unused =>
    intro i _ hpos hty
    rw [hlinks hpos]
    apply if_neg
    rintro rfl
    exact absurd hty (by decide)
  case bound =>
    intro i _ hty
    rw [mkfs_type_ne hty]
    decide
  case parent =>
    intro d k hd hk hlt hdir
    rw [mkfs_dir hd.1] at hlt hdir
    rw [mkfs_ent_zero hk hlt] at hdir
    exact absurd (mkfs_dir hdir) (by norm_num)
  case reach =>
    intro d hd
    rw [mkfs_dir hd.1]

instance : Decidable s.Quiet := inferInstanceAs (Decidable (_ ∧ _))

instance : Decidable (v.Room c) := inferInstanceAs (Decidable (∀ _, _))

instance (s : State) (e : Pid × Call) : Decidable (AddsToLinked c s e) :=
  match h : e.2.target s e.1 with
  | none => .isTrue (by simp [AddsToLinked, h])
  | some x => decidable_of_iff (x.1 = true → (s.vol.dinode x.2.1).nlink ≠ 0 ∧ s.vol.Room c)
      (by simp [AddsToLinked, h])

theorem Volume.not_reachable {i : ℕ} (hi : i ≠ ROOTINO)
    (h : ∀ k < v.nents ROOTINO, (v.ent ROOTINO k).inum = 0 ∨ (v.ent ROOTINO k).name = dotName ∨
      (v.ent ROOTINO k).name = dotdotName) : ¬ v.Reachable c i := by
  intro hreach
  rcases hreach.cases_head with h0 | ⟨b, ⟨name, hdot, hdotdot, -, hb, k, hk, hent⟩, -⟩
  · exact hi h0.symm
  · have hk' := h k hk
    rw [hent] at hk'
    rcases hk' with h0 | h0 | h0
    · exact hb h0
    · exact hdot h0
    · exact hdotdot h0

def xv6Conf : Conf := ⟨200, fun _ => none⟩

def lostRun : List (Pid × Call) :=
  [(0, .mkdir [47, 100]), (0, .chdir [47, 100]), (0, .unlink [47, 100]),
    (0, .open [102] (O_CREATE ||| O_RDWR)), (0, .close 0), (0, .chdir [47])]

theorem lostRun_loses : mkfs.Image xv6Conf ∧ ∃ s, Runs.exec (step xv6Conf) (boot mkfs) lostRun = some s ∧
    s.Quiet ∧ (s.vol.dinode 3).type ≠ 0 ∧ ¬ s.vol.Reachable xv6Conf 3 ∧
    (s.vol.dinode 3).nlink.toInt ≠ s.vol.references xv6Conf 3 := by
  refine ⟨mkfs_image (by decide), ?_⟩
  obtain ⟨s, hs, hq, hty, href, hroot⟩ : ∃ s ∈ Runs.exec (step xv6Conf) (boot mkfs) lostRun,
      s.Quiet ∧ (s.vol.dinode 3).type ≠ 0 ∧
      (s.vol.dinode 3).nlink.toInt ≠ s.vol.references xv6Conf 3 ∧
      ∀ k < s.vol.nents ROOTINO, (s.vol.ent ROOTINO k).inum = 0 ∨
        (s.vol.ent ROOTINO k).name = dotName ∨ (s.vol.ent ROOTINO k).name = dotdotName := by
    decide +kernel
  exact ⟨s, hs, hq, hty, Volume.not_reachable (by norm_num) hroot, href⟩

def namedRun : List (Pid × Call) :=
  [(0, .mkdir [47, 100]), (0, .open [47, 100, 47, 102] (O_CREATE ||| O_RDWR)), (0, .close 0)]

theorem links_exact_namedRun : ∃ s, Runs.exec (step xv6Conf) (boot mkfs) namedRun = some s ∧
    s.Quiet ∧ (s.vol.dinode 3).type = T_FILE ∧ s.vol.Reachable xv6Conf 3 ∧
    (s.vol.dinode 3).nlink.toInt = s.vol.references xv6Conf 3 := by
  obtain ⟨s, hs, hq, hty⟩ : ∃ s ∈ Runs.exec (step xv6Conf) (boot mkfs) namedRun,
      s.Quiet ∧ (s.vol.dinode 3).type = T_FILE := by decide +kernel
  exact ⟨s, hs, hq, hty, links_exact (mkfs_image (by decide)) (by decide +kernel) hs hq (by decide)
    (by rw [hty]; decide)⟩

end Xv6.Fs
