import Xv6.Fs.Links

/-!
# Dangling entries

The only entry that can refer to a free inode is the `..` of a removed directory that a process
still uses, once its parent has been removed and freed too.
-/

namespace Xv6.Fs

open Lib Lib.Prog Lib.Runs Relation

/-- A directory without links that has not been freed: some process still uses it. -/
def Volume.Removed (c : Conf) (v : Volume) (d : ℕ) : Prop := v.Dir c d ∧ (v.dinode d).nlink = 0

instance {c : Conf} {v : Volume} {d : ℕ} : Decidable (v.Removed c d) :=
  inferInstanceAs (Decidable (_ ∧ _))

def Volume.Anchored (c : Conf) (v : Volume) : Prop :=
  ∀ d, v.Removed c d → v.Linked c (v.ent d 1).inum

def KeepsParents (c : Conf) (s : State) (e : Pid × Call) : Prop :=
  AddsToLinked c s e ∧ ∀ x ∈ e.2.target s e.1, x.1 = false →
    ∀ k ∈ s.vol.lookup x.2.1 x.2.2, ∀ d < c.ninodes, s.vol.Removed c d →
      (s.vol.ent d 1).inum ≠ (s.vol.ent x.2.1 k).inum

variable {c : Conf} {v w : Volume} {s s' : State} {d : ℕ}

namespace Volume

theorem Anchored.minor (ha : v.Anchored c) (h : Minor c v w) : w.Anchored c := by
  obtain ⟨hkeep, hdir⟩ := alike_of_minor h
  intro d hd
  have hal := hdir d hd.1
  have hl := ha d ⟨(dir_iff hal.type).mp hd.1, hal.removed.mp hd.2⟩
  rw [hal.ent]
  exact (hkeep _ hl).linked.mpr hl

theorem Anchored.named {adds : Bool} {name : Name} (ha : v.Anchored c) (t : v.Tree c)
    (hwf : v.WF c) (hc : c.ninodes ≤ 2 ^ 16)
    (hadd : adds = true → (v.dinode d).nlink ≠ 0 ∧ v.Room c)
    (hremove : adds = false → ∀ k ∈ v.lookup d name, ∀ x < c.ninodes, v.Removed c x →
      (v.ent x 1).inum ≠ (v.ent d k).inum) (h : Named c d name adds v w) : w.Anchored c := by
  obtain ⟨i, ⟨-, k, de, hch, hself⟩, hgone⟩ := t.of_named hwf hc hadd h
  intro x hx
  by_cases hxi : x = i
  · subst hxi
    rw [hself hx.1 hx.2]
    exact hch.put.linked.mpr hch.linked
  · -- An old removed directory; its parent is not the inode that the entry is about.
    have hold : v.Removed c x := by
      have hdir := (dir_iff (hch.type_eq hxi)).mp hx.1
      refine ⟨hdir, ?_⟩
      by_contra hnl
      exact ((hch.linked_iff hxi).mpr ⟨hdir, hnl⟩).2 hx.2
    have hl := ha x hold
    have hpi : (v.ent x 1).inum ≠ i := by
      intro hpi
      obtain ⟨hadds, k', hk', hent⟩ := hgone (hpi ▸ hl)
      exact hremove hadds k' hk' x hold.1.1 hold (hpi.trans hent.symm)
    rw [hch.ent_eq hxi (.inr (by have := hch.two; omega))]
    exact (hch.linked_iff hpi).mpr hl

theorem Tree.sound (t : v.Tree c) (hwf : v.WF c) (ha : v.Anchored c) : v.Sound c := by
  have hdir_ne : ∀ {x}, v.Dir c x → (v.dinode x).type ≠ 0 := fun hx => by rw [hx.2]; decide
  refine ⟨hdir_ne t.root.1, fun d hd hdir k hk hlive => ?_⟩
  have hisDir := t.dirs d ⟨hd, hdir⟩
  by_cases hk0 : k = 0
  · rw [hk0, hisDir.dot]
    exact hdir_ne ⟨hd, hdir⟩
  by_cases hnl : (v.dinode d).nlink = 0
  · have hk1 : k = 1 := by
      by_contra hk1
      exact hlive (hisDir.removed hnl k (by omega) hk)
    rw [hk1]
    exact hdir_ne (ha d ⟨⟨hd, hdir⟩, hnl⟩).1
  · intro hfree
    have hpos := one_le_links ⟨⟨hd, hdir⟩, hnl⟩ (Nat.one_le_iff_ne_zero.mpr hk0) hk rfl
    have hnone := t.unused _ (hwf.entries d hd hdir k hk) (Nat.pos_of_ne_zero hlive) hfree
    omega

end Volume

theorem Effect.anchored {target : Option (Bool × ℕ × Name)} (ha : v.Anchored c) (t : v.Tree c)
    (hwf : v.WF c) (hc : c.ninodes ≤ 2 ^ 16)
    (hadd : ∀ x ∈ target, x.1 = true → (v.dinode x.2.1).nlink ≠ 0 ∧ v.Room c)
    (hremove : ∀ x ∈ target, x.1 = false → ∀ k ∈ v.lookup x.2.1 x.2.2, ∀ d < c.ninodes,
      v.Removed c d → (v.ent d 1).inum ≠ (v.ent x.2.1 k).inum)
    (h : Effect c target v w) : w.Anchored c := by
  refine h.preserves ha ?_ fun _ _ hu hm => hu.minor hm
  rintro adds d name u rfl hnamed
  exact ha.named t hwf hc (hadd _ rfl) (hremove _ rfl) hnamed

theorem step_anchored {e : Pid × Call} (hs : Exact c s ∧ s.vol.Anchored c)
    (hkeep : KeepsParents c s e) (h : step c s e = some s') : Exact c s' ∧ s'.vol.Anchored c := by
  obtain ⟨hexact, ha⟩ := hs
  refine ⟨step_exact hexact hkeep.1 h, ?_⟩
  obtain ⟨⟨num, g⟩, t⟩ := hexact
  exact (step_spec g h).2.anchored ha t g.vol g.conf.2 hkeep.1 hkeep.2

theorem Volume.Image.anchored (hv : v.Image c) : v.Anchored c := by
  intro d hd
  exact absurd hd.2 (hv.linked d hd.1.1 (by rw [hd.1.2]; decide))

theorem no_dangling_entry {evs : List (Pid × Call)} (hv : v.Image c)
    (hkeep : Meets (step c) (KeepsParents c) (boot v) evs)
    (h : Runs.exec (step c) (boot v) evs = some s) :
    s.vol.Sound c ∧ ∀ p (call : Call), call.enabled s.tables p = true →
      (call.prog p).run (perform c) s ≠ .error (.panic .noType) := by
  obtain ⟨⟨⟨num, g⟩, t⟩, ha⟩ := exec_preserves (step c) (I := fun s => Exact c s ∧ s.vol.Anchored c)
    (fun _ _ _ => step_anchored) ⟨hv.exact_boot, hv.anchored⟩ hkeep h
  have hsound := t.sound g.vol ha
  refine ⟨hsound, fun p call hen hrun => ?_⟩
  have hw : W c true (call.prog p) _ s := wp_prog g hen fun _ => hsound
  exact (wp_error hw hrun).2.1 rfl rfl

instance (s : State) (e : Pid × Call) : Decidable (KeepsParents c s e) :=
  @instDecidableAnd _ _ _
    (match h : e.2.target s e.1 with
    | none => .isTrue (by simp)
    | some x =>
      match hk : s.vol.lookup x.2.1 x.2.2 with
      | none => .isTrue (by simp [hk])
      | some k => decidable_of_iff (x.1 = false → ∀ d < c.ninodes, s.vol.Removed c d →
          (s.vol.ent d 1).inum ≠ (s.vol.ent x.2.1 k).inum) (by simp [hk]))

/-- `mkdir("/a"); mkdir("/a/b"); chdir("/a/b"); unlink("/a/b"); unlink("/a")` -/
def danglingRun : List (Pid × Call) :=
  [(0, .mkdir [47, 97]), (0, .mkdir [47, 97, 47, 98]), (0, .chdir [47, 97, 47, 98]),
    (0, .unlink [47, 97, 47, 98]), (0, .unlink [47, 97])]

theorem danglingRun_panics : mkfs.Image xv6Conf ∧
    ∃ s, Runs.exec (step xv6Conf) (boot mkfs) danglingRun = some s ∧
      ((Call.open [46, 46] O_RDONLY).prog 0).run (perform xv6Conf) s = .error (.panic .noType) := by
  refine ⟨mkfs_image (by decide), ?_⟩
  obtain ⟨s, hs, hp⟩ : ∃ s ∈ Runs.exec (step xv6Conf) (boot mkfs) danglingRun,
      (match ((Call.open [46, 46] O_RDONLY).prog 0).run (perform xv6Conf) s with
      | .error f => f = .panic .noType
      | .ok _ => false) = true := by decide +kernel
  refine ⟨s, hs, ?_⟩
  split at hp
  · next f hf => rw [hf, of_decide_eq_true hp]
  · cases hp

def removedRun : List (Pid × Call) :=
  [(0, .mkdir [47, 97]), (0, .mkdir [47, 97, 47, 98]), (0, .chdir [47, 97, 47, 98]),
    (0, .unlink [47, 97, 47, 98])]

theorem no_dangling_entry_removedRun : ∃ s, Runs.exec (step xv6Conf) (boot mkfs) removedRun = some s ∧
    s.vol.Removed xv6Conf 3 ∧ s.vol.Sound xv6Conf ∧
    ((Call.open [46, 46] O_RDONLY).prog 0).run (perform xv6Conf) s ≠ .error (.panic .noType) := by
  obtain ⟨s, hs, hrem, hen⟩ : ∃ s ∈ Runs.exec (step xv6Conf) (boot mkfs) removedRun,
      s.vol.Removed xv6Conf 3 ∧ (Call.open [46, 46] O_RDONLY).enabled s.tables 0 = true := by
    decide +kernel
  have hsafe := no_dangling_entry (mkfs_image (by decide)) (by decide +kernel) hs
  exact ⟨s, hs, hrem, hsafe.1, hsafe.2 0 _ hen⟩

end Xv6.Fs
