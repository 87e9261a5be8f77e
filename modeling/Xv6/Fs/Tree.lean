import Xv6.Lib.Counting
import Xv6.Fs.Effects

/-!
# The directory tree

`Tree` is the invariant that ties link counts to directory entries: below the root the directories
with links form a tree, each with its `.` and `..`, and the link count of every inode is the number
of entries other than `.` that refer to it.
-/

namespace Xv6.Fs.Volume

open Lib Relation

variable {c : Conf} {v w : Volume} {d i j k x : ℕ} {name : Name} {de : Dirent}

def Dir (c : Conf) (v : Volume) (d : ℕ) : Prop := d < c.ninodes ∧ (v.dinode d).type = T_DIR

def Linked (c : Conf) (v : Volume) (d : ℕ) : Prop := v.Dir c d ∧ (v.dinode d).nlink ≠ 0

instance : Decidable (v.Dir c d) := inferInstanceAs (Decidable (_ ∧ _))

instance : Decidable (v.Linked c d) := inferInstanceAs (Decidable (_ ∧ _))

def entries (v : Volume) (d i : ℕ) : ℕ :=
  ((Finset.range (v.nents d)).filter fun k => 1 ≤ k ∧ (v.ent d k).inum = i).card

def counted (c : Conf) (v : Volume) (i d : ℕ) : ℕ := if v.Linked c d then v.entries d i else 0

def links (c : Conf) (v : Volume) (i : ℕ) : ℕ := ∑ d ∈ Finset.range c.ninodes, v.counted c i d

def Edge (c : Conf) (v : Volume) (a b : ℕ) : Prop :=
  v.Linked c a ∧ v.Linked c b ∧ ∃ k, 2 ≤ k ∧ k < v.nents a ∧ (v.ent a k).inum = b

structure IsDir (v : Volume) (d : ℕ) : Prop where
  two : 2 ≤ v.nents d
  dot : v.ent d 0 = ⟨d, dotName⟩
  dotdot : (v.ent d 1).inum ≠ 0 ∧ (v.ent d 1).name = dotdotName
  names : ∀ k, 2 ≤ k → k < v.nents d → (v.ent d k).inum ≠ 0 →
    (v.ent d k).name ≠ dotName ∧ (v.ent d k).name ≠ dotdotName
  removed : (v.dinode d).nlink = 0 → ∀ k, 2 ≤ k → k < v.nents d → (v.ent d k).inum = 0

structure Tree (c : Conf) (v : Volume) : Prop where
  zero : (v.dinode 0).type = 0
  root : v.Linked c ROOTINO
  rootParent : (v.ent ROOTINO 1).inum = ROOTINO
  dirs : ∀ d, v.Dir c d → v.IsDir d
  count : ∀ i < c.ninodes, 0 < i → (v.dinode i).type ≠ 0 → (v.dinode i).nlink.toNat = v.links c i
  unused : ∀ i < c.ninodes, 0 < i → (v.dinode i).type = 0 → v.links c i = 0
  bound : ∀ i < c.ninodes, (v.dinode i).type ≠ 0 → (v.dinode i).nlink.toNat < 2 ^ 15
  parent : ∀ d k, v.Linked c d → 2 ≤ k → k < v.nents d → v.Dir c (v.ent d k).inum →
    (v.ent d k).inum ≠ ROOTINO ∧ (v.ent (v.ent d k).inum 1).inum = d ∧
    ∀ k', 2 ≤ k' → k' < v.nents d → (v.ent d k').inum = (v.ent d k).inum → k' = k
  reach : ∀ d, v.Linked c d → ReflTransGen (v.Edge c) ROOTINO d

def Same (v w : Volume) (x : ℕ) : Prop :=
  w.dinode x = v.dinode x ∧ ∀ k, w.ent x k = v.ent x k

structure Alike (v w : Volume) (d : ℕ) : Prop where
  type : (w.dinode d).type = (v.dinode d).type
  removed : (w.dinode d).nlink = 0 ↔ (v.dinode d).nlink = 0
  nents : w.nents d = v.nents d
  ent : ∀ k, w.ent d k = v.ent d k

structure EntryPut (v w : Volume) (d k : ℕ) (de : Dirent) : Prop where
  le : k ≤ v.nents d
  nents : w.nents d = max (v.nents d) (k + 1)
  self : w.ent d k = de
  other : ∀ k' ≠ k, w.ent d k' = v.ent d k'

theorem EntryPut.old {j : ℕ} (h : EntryPut v w d k de) (hne : j ≠ k) (hlt : j < w.nents d) :
    j < v.nents d := by
  have hle := h.le
  rw [h.nents] at hlt
  omega

structure Put (v w : Volume) (d k : ℕ) (de : Dirent) : Prop extends EntryPut v w d k de where
  type : (w.dinode d).type = (v.dinode d).type
  removed : (w.dinode d).nlink = 0 ↔ (v.dinode d).nlink = 0

theorem Same.alike (h : Same v w x) : Alike v w x :=
  ⟨by rw [h.1], by rw [h.1], by rw [nents, nents, h.1], h.2⟩

theorem dir_iff (h : (w.dinode d).type = (v.dinode d).type) : w.Dir c d ↔ v.Dir c d := by
  rw [Dir, Dir, h]

theorem linked_iff (h : (w.dinode d).type = (v.dinode d).type)
    (hnl : (w.dinode d).nlink = 0 ↔ (v.dinode d).nlink = 0) : w.Linked c d ↔ v.Linked c d := by
  rw [Linked, Linked, dir_iff h, Ne, Ne, hnl]

theorem Alike.linked (h : Alike v w d) : w.Linked c d ↔ v.Linked c d := linked_iff h.type h.removed

theorem Put.linked (h : Put v w d k de) : w.Linked c d ↔ v.Linked c d := linked_iff h.type h.removed

theorem Alike.isDir (h : Alike v w d) (hd : v.IsDir d) : w.IsDir d := by
  constructor
  case two => rw [h.nents]; exact hd.two
  case dot => rw [h.ent]; exact hd.dot
  case dotdot => rw [h.ent]; exact hd.dotdot
  case names => simp only [h.nents, h.ent]; exact hd.names
  case removed => simp only [h.nents, h.ent, h.removed]; exact hd.removed

theorem Alike.counted_eq (h : Alike v w d) : w.counted c i d = v.counted c i d := by
  simp only [counted, h.linked, entries, h.nents, h.ent]

theorem counted_of_not (h : ¬ v.Linked c d) : v.counted c i d = 0 := if_neg h

theorem Put.isDir (h : Put v w d k de) (hd : v.IsDir d) (hk : 2 ≤ k)
    (hname : de.inum ≠ 0 → de.name ≠ dotName ∧ de.name ≠ dotdotName)
    (hlinked : de.inum ≠ 0 → (v.dinode d).nlink ≠ 0) : w.IsDir d := by
  have hle := h.le
  constructor
  case two => rw [h.nents]; exact hd.two.trans (le_max_left _ _)
  case dot => rw [h.other 0 (by omega)]; exact hd.dot
  case dotdot => rw [h.other 1 (by omega)]; exact hd.dotdot
  case names =>
    intro k' hk' hlt hlive
    by_cases hkk : k' = k
    · rw [hkk, h.self] at hlive ⊢
      exact hname hlive
    · rw [h.other k' hkk] at hlive ⊢
      exact hd.names k' hk' (h.old hkk hlt) hlive
  case removed =>
    intro hnl k' hk' hlt
    rw [h.removed] at hnl
    by_cases hkk : k' = k
    · rw [hkk, h.self]
      by_contra hlive
      exact hlinked hlive hnl
    · rw [h.other k' hkk]
      exact hd.removed hnl k' hk' (h.old hkk hlt)

theorem Put.entries_eq (h : Put v w d k de) (hk : 1 ≤ k) :
    w.entries d j + (if k < v.nents d ∧ (v.ent d k).inum = j then 1 else 0) =
      v.entries d j + (if de.inum = j then 1 else 0) := by
  have hle := h.le
  have hv : v.entries d j = ((Finset.range (w.nents d)).filter fun k' =>
      k' < v.nents d ∧ 1 ≤ k' ∧ (v.ent d k').inum = j).card := by
    rw [entries]
    congr 1
    ext k'
    simp only [Finset.mem_filter, Finset.mem_range, h.nents]
    omega
  have hkw : k ∈ Finset.range (w.nents d) := by
    rw [h.nents, Finset.mem_range]
    omega
  have hchange := card_filter_change
    (fun k' => k' < v.nents d ∧ 1 ≤ k' ∧ (v.ent d k').inum = j)
    (fun k' => 1 ≤ k' ∧ (w.ent d k').inum = j) hkw (by
      intro k' hk' hne
      rw [Finset.mem_range, h.nents] at hk'
      rw [h.other k' hne]
      have : k' < v.nents d := by omega
      simp [this])
  simp only [hk, true_and, h.self] at hchange
  rw [hv, entries]
  exact hchange

theorem one_le_entries (hk : 1 ≤ k) (hlt : k < v.nents d) (hj : (v.ent d k).inum = j) :
    1 ≤ v.entries d j :=
  Finset.card_pos.mpr ⟨k, by simp [hk, hlt, hj]⟩

theorem counted_le_links (hx : x < c.ninodes) : v.counted c i x ≤ v.links c i :=
  Finset.single_le_sum (f := fun x => v.counted c i x) (fun _ _ => Nat.zero_le _)
    (Finset.mem_range.mpr hx)

theorem one_le_links (hd : v.Linked c d) (hk : 1 ≤ k) (hlt : k < v.nents d)
    (hj : (v.ent d k).inum = j) : 1 ≤ v.links c j := by
  have h1 := one_le_entries hk hlt hj
  have h2 : v.counted c j d ≤ v.links c j := counted_le_links hd.1.1
  rw [counted, if_pos hd] at h2
  omega

theorem exists_entry_of_links (h : v.links c i ≠ 0) :
    ∃ d k, v.Linked c d ∧ 1 ≤ k ∧ k < v.nents d ∧ (v.ent d k).inum = i := by
  obtain ⟨d, -, hd⟩ := Finset.exists_ne_zero_of_sum_ne_zero h
  simp only [counted] at hd
  split_ifs at hd with hl
  · obtain ⟨k, hk⟩ := Finset.card_pos.mp (Nat.pos_of_ne_zero hd)
    simp only [Finset.mem_filter, Finset.mem_range] at hk
    exact ⟨d, k, hl, hk.2.1, hk.1, hk.2.2⟩
  · exact absurd rfl hd

theorem counted_of_empty (hl : v.Linked c i) (htwo : 2 ≤ v.nents i)
    (hempty : ∀ k, 2 ≤ k → k < v.nents i → (v.ent i k).inum = 0) (hparent : (v.ent i 1).inum = d)
    (hj : 0 < j) : v.counted c j i = if d = j then 1 else 0 := by
  rw [counted, if_pos hl, entries, Finset.card_filter, Finset.sum_eq_single 1]
  · simp only [le_refl, hparent, true_and]
  · intro k hk hne
    rw [Finset.mem_range] at hk
    apply if_neg
    rintro ⟨hpos, hent⟩
    exact hj.ne' (hent.symm.trans (hempty k (by omega) hk))
  · intro hnot
    exact absurd (Finset.mem_range.mpr (by omega)) hnot

theorem links_congr (h : ∀ x, w.counted c j x = v.counted c j x) : w.links c j = v.links c j :=
  Finset.sum_congr rfl fun x _ => h x

namespace Tree

section

variable (t : v.Tree c) (hd : v.Dir c d)
include t hd

theorem dir_ne_zero : d ≠ 0 := by
  rintro rfl
  have := hd.2
  rw [t.zero] at this
  exact absurd this (by decide)

theorem two_le_freeSlot : 2 ≤ v.freeSlot d := by
  have hdir := t.dirs d hd
  exact two_le_freeSlot_of hdir.two (by rw [hdir.dot]; exact t.dir_ne_zero hd) hdir.dotdot.1

theorem new_name (h : v.lookup d name = none) :
    name ≠ dotName ∧ name ≠ dotdotName := by
  have hdir := t.dirs d hd
  have htwo := hdir.two
  constructor
  · have hne := lookup_none h (k := 0) (by omega)
    rw [hdir.dot] at hne
    exact hne (t.dir_ne_zero hd)
  · have hne := lookup_none h (k := 1) (by omega) hdir.dotdot.1
    rw [hdir.dotdot.2] at hne
    exact hne

theorem found (hdot : name ≠ dotName)
    (hdotdot : name ≠ dotdotName) (h : v.lookup d name = some k) :
    2 ≤ k ∧ k < v.nents d ∧ (v.ent d k).inum ≠ 0 ∧ v.Linked c d := by
  have hdir := t.dirs d hd
  obtain ⟨hlt, hlive, -⟩ := lookup_some h
  have h2 : 2 ≤ k := two_le_lookup_of (by rwa [hdir.dot]) (by rwa [hdir.dotdot.2]) h
  exact ⟨h2, hlt, hlive, hd, fun hnl => hlive (hdir.removed hnl k h2 hlt)⟩

end

theorem exists_parent (t : v.Tree c) (hx : v.Linked c x) (hroot : x ≠ ROOTINO) :
    ∃ k, v.Linked c (v.ent x 1).inum ∧ 2 ≤ k ∧ k < v.nents (v.ent x 1).inum ∧
      (v.ent (v.ent x 1).inum k).inum = x := by
  rcases (t.reach x hx).cases_tail with h | ⟨a, -, ha, -, k, hk, hlt, hent⟩
  · exact absurd h hroot
  · have hparent := (t.parent a k ha hk hlt (hent ▸ hx.1)).2.1
    rw [hent] at hparent
    rw [hparent]
    exact ⟨k, ha, hk, hlt, hent⟩

theorem named (t : v.Tree c) (hx : v.Linked c x) :
    ∃ a, v.Linked c a ∧ v.counted c x a ≠ 0 ∧ (a = x ∨ (v.ent x 1).inum = a) := by
  have hone : ∀ {a k : ℕ}, v.Linked c a → 1 ≤ k → k < v.nents a → (v.ent a k).inum = x →
      v.counted c x a ≠ 0 := by
    intro a k ha hk hlt hent
    rw [counted, if_pos ha]
    exact Nat.one_le_iff_ne_zero.mp (one_le_entries hk hlt hent)
  by_cases hroot : x = ROOTINO
  · subst hroot
    have htwo := (t.dirs _ hx.1).two
    exact ⟨ROOTINO, hx, hone hx le_rfl (by omega) t.rootParent, .inl rfl⟩
  · obtain ⟨k, ha, hk, hlt, hent⟩ := t.exists_parent hx hroot
    exact ⟨_, ha, hone ha (by omega) hlt hent, .inr rfl⟩

end Tree

theorem Tree.transfer (t : v.Tree c) (hzero : (w.dinode 0).type = 0)
    (hkeep : ∀ x, v.Linked c x → Alike v w x) (hdir : ∀ x, w.Dir c x → Alike v w x)
    (hused : ∀ x, (w.dinode x).type ≠ 0 →
      (v.dinode x).type ≠ 0 ∧ (w.dinode x).nlink = (v.dinode x).nlink)
    (hfreed : ∀ x < c.ninodes, 0 < x → (w.dinode x).type = 0 → v.links c x = 0) : w.Tree c := by
  have hlinked : ∀ x, w.Linked c x ↔ v.Linked c x := fun x =>
    ⟨fun hx => (hdir x hx.1).linked.mp hx, fun hx => (hkeep x hx).linked.mpr hx⟩
  have hlinks : ∀ j, w.links c j = v.links c j := by
    intro j
    apply links_congr
    intro x
    by_cases hx : v.Linked c x
    · exact (hkeep x hx).counted_eq
    · rw [counted_of_not hx, counted_of_not fun hw => hx ((hlinked x).mp hw)]
  constructor
  case zero => exact hzero
  case root => exact (hlinked _).mpr t.root
  case rootParent => rw [(hkeep _ t.root).ent]; exact t.rootParent
  case dirs => exact fun x hx => (hdir x hx).isDir (t.dirs x ((dir_iff (hdir x hx).type).mp hx))
  case count =>
    intro x hx hpos hty
    obtain ⟨hty', hnl⟩ := hused x hty
    rw [hnl, hlinks]
    exact t.count x hx hpos hty'
  case unused =>
    intro x hx hpos hty
    rw [hlinks]
    exact hfreed x hx hpos hty
  case bound =>
    intro x hx hty
    obtain ⟨hty', hnl⟩ := hused x hty
    rw [hnl]
    exact t.bound x hx hty'
  case parent =>
    intro a k ha hk hlt htarget
    have ha' := (hlinked a).mp ha
    have hal := hkeep a ha'
    simp only [hal.nents, hal.ent] at hlt htarget ⊢
    have htl := hdir _ htarget
    rw [htl.ent]
    exact t.parent a k ha' hk hlt ((dir_iff htl.type).mp htarget)
  case reach =>
    intro x hx
    refine ReflTransGen.mono ?_ _ _ (t.reach x ((hlinked x).mp hx))
    rintro a b ⟨ha, hb, k, hk, hlt, hent⟩
    refine ⟨(hlinked a).mpr ha, (hlinked b).mpr hb, k, hk, ?_, ?_⟩
    · rw [(hkeep a ha).nents]; exact hlt
    · rw [(hkeep a ha).ent]; exact hent

structure Change (c : Conf) (v w : Volume) (d i k : ℕ) (de : Dirent) : Prop where
  put : Put v w d k de
  two : 2 ≤ k
  linked : v.Linked c d
  lt : i < c.ninodes
  pos : 0 < i
  root : i ≠ ROOTINO
  ne : i ≠ d
  old : k < v.nents d → (v.ent d k).inum = 0 ∨ (v.ent d k).inum = i
  new : de.inum = 0 ∨ de.inum = i
  names : de.inum ≠ 0 → de.name ≠ dotName ∧ de.name ≠ dotdotName
  same : ∀ x, x ≠ d → x ≠ i → Same v w x

namespace Change

section

variable (h : Change c v w d i k de)
include h

theorem type_eq (hx : x ≠ i) : (w.dinode x).type = (v.dinode x).type := by
  by_cases hxd : x = d
  · rw [hxd]; exact h.put.type
  · exact (h.same x hxd hx).alike.type

theorem linked_iff (hx : x ≠ i) : w.Linked c x ↔ v.Linked c x := by
  by_cases hxd : x = d
  · rw [hxd]; exact h.put.linked
  · exact (h.same x hxd hx).alike.linked

theorem ent_eq (hx : x ≠ i) (hk : x ≠ d ∨ j ≠ k) : w.ent x j = v.ent x j := by
  by_cases hxd : x = d
  · subst hxd
    exact h.put.other j (hk.resolve_left fun h => h rfl)
  · exact (h.same x hxd hx).2 j

theorem nents_le (hx : x ≠ i) : v.nents x ≤ w.nents x := by
  by_cases hxd : x = d
  · rw [hxd, h.put.nents]
    exact le_max_left _ _
  · exact (h.same x hxd hx).alike.nents.ge

theorem lt_nents (hx : x ≠ i) (hk : x ≠ d ∨ j ≠ k) (hlt : j < w.nents x) : j < v.nents x := by
  by_cases hxd : x = d
  · subst hxd
    have hle := h.put.le
    have hne := hk.resolve_left fun h => h rfl
    rw [h.put.nents] at hlt
    omega
  · rw [← (h.same x hxd hx).alike.nents]
    exact hlt

theorem zero (t : v.Tree c) : (w.dinode 0).type = 0 := by
  rw [h.type_eq h.pos.ne]
  exact t.zero

theorem isDir (t : v.Tree c) (hx : x ≠ i) (hdir : w.Dir c x) : w.IsDir x := by
  have hv := t.dirs x ((dir_iff (h.type_eq hx)).mp hdir)
  by_cases hxd : x = d
  · subst hxd
    exact h.put.isDir hv h.two h.names fun _ => h.linked.2
  · exact (h.same x hxd hx).alike.isDir hv

theorem other_entry (t : v.Tree c) (hdir : w.Dir c (w.ent x j).inum)
    (hi : (w.ent x j).inum ≠ i) : x ≠ d ∨ j ≠ k := by
  by_contra hself
  push Not at hself
  rw [hself.1, hself.2, h.put.self] at hdir hi
  rcases h.new with h0 | h0
  · rw [h0] at hdir
    exact absurd ((h.zero t).symm.trans hdir.2) (by decide)
  · exact hi h0

theorem parent (t : v.Tree c) (hx : w.Linked c x) (hxi : x ≠ i)
    (hj : 2 ≤ j) (hlt : j < w.nents x) (hdir : w.Dir c (w.ent x j).inum)
    (hi : (w.ent x j).inum ≠ i) : (w.ent x j).inum ≠ ROOTINO ∧ (w.ent (w.ent x j).inum 1).inum = x ∧
    ∀ j', 2 ≤ j' → j' < w.nents x → (w.ent x j').inum = (w.ent x j).inum → j' = j := by
  have htwo := h.two
  have hother := h.other_entry t hdir hi
  have hsame := h.ent_eq hxi hother
  have hone : w.ent (w.ent x j).inum 1 = v.ent (w.ent x j).inum 1 := h.ent_eq hi (.inr (by omega))
  have hold := t.parent x j ((h.linked_iff hxi).mp hx) hj (h.lt_nents hxi hother hlt)
    (hsame ▸ (dir_iff (h.type_eq hi)).mp hdir)
  rw [← hsame, ← hone] at hold
  refine ⟨hold.1, hold.2.1, ?_⟩
  intro j' hj' hlt' heq
  have hother' := h.other_entry t (heq ▸ hdir) (heq ▸ hi)
  rw [h.ent_eq hxi hother'] at heq
  exact hold.2.2 j' hj' (h.lt_nents hxi hother' hlt') heq

theorem edge (t : v.Tree c) {a b : ℕ} (hab : v.Edge c a b)
    (ha : a ≠ i) (hb : b ≠ i) : w.Edge c a b := by
  obtain ⟨hla, hlb, j, hj, hlt, hent⟩ := hab
  have hother : a ≠ d ∨ j ≠ k := by
    by_contra hself
    push Not at hself
    obtain ⟨rfl, rfl⟩ := hself
    rcases h.old hlt with h0 | h0
    · exact t.dir_ne_zero hlb.1 (hent.symm.trans h0)
    · exact hb (hent.symm.trans h0)
  exact ⟨(h.linked_iff ha).mpr hla, (h.linked_iff hb).mpr hlb, j, hj,
    hlt.trans_le (h.nents_le ha), by rw [h.ent_eq ha hother]; exact hent⟩

theorem reach (t : v.Tree c) (hleaf : ∀ b, ¬ v.Edge c i b) (hx : w.Linked c x) (hxi : x ≠ i) :
    ReflTransGen (w.Edge c) ROOTINO x := by
  have hpath := t.reach x ((h.linked_iff hxi).mp hx)
  clear hx
  induction hpath with
  | refl => exact .refl
  | @tail a b _ hab ih =>
    have ha : a ≠ i := by
      rintro rfl
      exact hleaf b hab
    exact (ih ha).tail (h.edge t hab ha hxi)

theorem tree (t : v.Tree c) (hself : w.Dir c i → w.IsDir i) (hleaf : ∀ b, ¬ v.Edge c i b)
    (hcount : ∀ x < c.ninodes, 0 < x → (w.dinode x).type ≠ 0 →
      (w.dinode x).nlink.toNat = w.links c x ∧ (w.dinode x).nlink.toNat < 2 ^ 15)
    (hunused : ∀ x < c.ninodes, 0 < x → (w.dinode x).type = 0 → w.links c x = 0)
    (hout : w.Linked c i → w.nents i = 2)
    (hin : ∀ x j, w.Linked c x → x ≠ i → 2 ≤ j → j < w.nents x → w.Dir c i →
      (w.ent x j).inum = i → (w.ent i 1).inum = x ∧
        ∀ j', 2 ≤ j' → j' < w.nents x → (w.ent x j').inum = i → j' = j)
    (hreach : w.Linked c i → ReflTransGen (w.Edge c) ROOTINO i) : w.Tree c := by
  have hroot := h.root.symm
  constructor
  case zero => exact h.zero t
  case root => exact (h.linked_iff hroot).mpr t.root
  case rootParent =>
    rw [h.ent_eq hroot (.inr (by have := h.two; omega))]
    exact t.rootParent
  case dirs =>
    intro x hx
    by_cases hxi : x = i
    · rw [hxi] at hx ⊢
      exact hself hx
    · exact h.isDir t hxi hx
  case count => exact fun x hx hpos hty => (hcount x hx hpos hty).1
  case unused => exact hunused
  case bound =>
    intro x hx hty
    have hpos : 0 < x := Nat.pos_of_ne_zero fun h0 => hty (h0 ▸ h.zero t)
    exact (hcount x hx hpos hty).2
  case parent =>
    intro x j hx hj hlt hdir
    have hxi : x ≠ i := by
      rintro rfl
      have := hout hx
      omega
    by_cases hi : (w.ent x j).inum = i
    · rw [hi] at hdir ⊢
      exact ⟨h.root, hin x j hx hxi hj hlt hdir hi⟩
    · exact h.parent t hx hxi hj hlt hdir hi
  case reach =>
    intro x hx
    by_cases hxi : x = i
    · rw [hxi] at hx ⊢
      exact hreach hx
    · exact h.reach t hleaf hx hxi

theorem counted_eq (hxd : x ≠ d) (hxi : x ≠ i) : w.counted c j x = v.counted c j x :=
  (h.same x hxd hxi).alike.counted_eq

theorem links_eq : w.links c j + v.entries d j + v.counted c j i =
      v.links c j + w.entries d j + w.counted c j i := by
  have hsum := sum_change_two (S := Finset.range c.ninodes) (f := v.counted c j)
    (g := w.counted c j) (Finset.mem_range.mpr h.linked.1.1) (Finset.mem_range.mpr h.lt) h.ne.symm
    fun x _ => h.counted_eq
  have hv : v.counted c j d = v.entries d j := if_pos h.linked
  have hw : w.counted c j d = w.entries d j := if_pos (h.put.linked.mpr h.linked)
  rw [hv, hw] at hsum
  exact hsum

end

theorem links_add (h : Change c v w d i k ⟨i, name⟩) (hfree : k < v.nents d → (v.ent d k).inum = 0)
    (hj : 0 < j) :
    w.links c j + v.counted c j i = v.links c j + w.counted c j i + if i = j then 1 else 0 := by
  have hlinks := h.links_eq (j := j)
  have hput := h.put.entries_eq (j := j) (by have := h.two; omega)
  rw [if_neg fun hold => hj.ne' (hold.2.symm.trans (hfree hold.1))] at hput
  simp only [] at hput
  omega

section

variable (h : Change c v w d i k de)
include h

theorem links_remove (hde : de.inum = 0) (hk : k < v.nents d)
    (hold : (v.ent d k).inum = i) (hj : 0 < j) :
    w.links c j + (if i = j then 1 else 0) + v.counted c j i = v.links c j + w.counted c j i := by
  have hlinks := h.links_eq (j := j)
  have hput := h.put.entries_eq (j := j) (by have := h.two; omega)
  rw [hde, if_neg hj.ne] at hput
  simp only [hk, hold, true_and] at hput
  omega

theorem count_other (t : v.Tree c) (hx : x < c.ninodes) (hpos : 0 < x)
    (hxi : x ≠ i) (hlinks : w.links c x = v.links c x)
    (hnl : (w.dinode x).nlink = (v.dinode x).nlink) (hty : (w.dinode x).type ≠ 0) :
    (w.dinode x).nlink.toNat = w.links c x ∧ (w.dinode x).nlink.toNat < 2 ^ 15 := by
  rw [h.type_eq hxi] at hty
  rw [hlinks, hnl]
  exact ⟨t.count x hx hpos hty, t.bound x hx hty⟩

theorem unused_other (t : v.Tree c) (hx : x < c.ninodes) (hpos : 0 < x)
    (hxi : x ≠ i) (hlinks : w.links c x = v.links c x) (hty : (w.dinode x).type = 0) :
    w.links c x = 0 := by
  rw [hlinks]
  exact t.unused x hx hpos (h.type_eq hxi ▸ hty)

theorem nlink_eq (hxi : x ≠ i) (hd : (w.dinode d).nlink = (v.dinode d).nlink) :
    (w.dinode x).nlink = (v.dinode x).nlink := by
  by_cases hxd : x = d
  · rw [hxd]; exact hd
  · rw [(h.same x hxd hxi).1]

theorem tree_file (t : v.Tree c) (hv : (v.dinode i).type ≠ T_DIR)
    (hw : (w.dinode i).type ≠ T_DIR) (hty : (w.dinode i).type ≠ 0)
    (hd : (w.dinode d).nlink = (v.dinode d).nlink)
    (hlinks : ∀ x, 0 < x → x ≠ i → w.links c x = v.links c x)
    (hnl : (w.dinode i).nlink.toNat = w.links c i) (hb : (w.dinode i).nlink.toNat < 2 ^ 15) :
    w.Tree c := by
  apply h.tree t
  case hself => exact fun hdir => absurd hdir.2 hw
  case hleaf => exact fun b he => hv he.1.1.2
  case hcount =>
    intro x hx hpos htx
    by_cases hxi : x = i
    · subst hxi
      exact ⟨hnl, hb⟩
    · exact h.count_other t hx hpos hxi (hlinks x hpos hxi) (h.nlink_eq hxi hd) htx
  case hunused =>
    intro x hx hpos htx
    have hxi : x ≠ i := fun hxi => hty (hxi ▸ htx)
    exact h.unused_other t hx hpos hxi (hlinks x hpos hxi) htx
  case hout => exact fun hl => absurd hl.1.2 hw
  case hin => exact fun _ _ _ _ _ _ hdir => absurd hdir.2 hw
  case hreach => exact fun hl => absurd hl.1.2 hw

end

theorem add_file (h : Change c v w d i k ⟨i, name⟩) (t : v.Tree c)
    (hfree : k < v.nents d → (v.ent d k).inum = 0) (hv : (v.dinode i).type ≠ T_DIR)
    (hw : (w.dinode i).type ≠ T_DIR) (hty : (w.dinode i).type ≠ 0)
    (hd : (w.dinode d).nlink = (v.dinode d).nlink)
    (hnl : (w.dinode i).nlink.toNat = v.links c i + 1)
    (hb : (w.dinode i).nlink.toNat < 2 ^ 15) : w.Tree c := by
  have hlinks : ∀ x, 0 < x → w.links c x = v.links c x + if i = x then 1 else 0 := by
    intro x hx
    have hadd := h.links_add hfree hx
    rwa [counted_of_not fun hl => hv hl.1.2, counted_of_not fun hl => hw hl.1.2] at hadd
  apply h.tree_file t hv hw hty hd
  · intro x hx hxi
    rw [hlinks x hx, if_neg hxi.symm]
    rfl
  · rw [hlinks i h.pos, if_pos rfl]
    exact hnl
  · exact hb

theorem remove_file (h : Change c v w d i k de) (t : v.Tree c) (hde : de.inum = 0)
    (hk : k < v.nents d) (hold : (v.ent d k).inum = i) (hv : (v.dinode i).type ≠ T_DIR)
    (hty : (v.dinode i).type ≠ 0) (htype : (w.dinode i).type = (v.dinode i).type)
    (hd : (w.dinode d).nlink = (v.dinode d).nlink)
    (hnl : (w.dinode i).nlink.toNat + 1 = (v.dinode i).nlink.toNat) : w.Tree c := by
  have hlinks : ∀ x, 0 < x → w.links c x + (if i = x then 1 else 0) = v.links c x := by
    intro x hx
    have hrem := h.links_remove hde hk hold hx
    rwa [counted_of_not fun hl => hv hl.1.2,
      counted_of_not fun hl => hv (htype.symm.trans hl.1.2)] at hrem
  have hcount := t.count i h.lt h.pos hty
  have hbound := t.bound i h.lt hty
  have hi := hlinks i h.pos
  rw [if_pos rfl] at hi
  apply h.tree_file t hv (htype ▸ hv) (htype ▸ hty) hd
  · intro x hx hxi
    rw [← hlinks x hx, if_neg hxi.symm]
    rfl
  · omega
  · omega

theorem add_dir (h : Change c v w d i k ⟨i, name⟩) (t : v.Tree c)
    (hfree : k < v.nents d → (v.ent d k).inum = 0) (hv : (v.dinode i).type = 0)
    (hw : (w.dinode i).type = T_DIR) (htwo : w.nents i = 2) (hdot : w.ent i 0 = ⟨i, dotName⟩)
    (hdotdot : w.ent i 1 = ⟨d, dotdotName⟩) (hnl : (w.dinode i).nlink = 1)
    (hd : (w.dinode d).nlink.toNat = (v.dinode d).nlink.toNat + 1)
    (hb : (w.dinode d).nlink.toNat < 2 ^ 15) : w.Tree c := by
  have hvi : ¬ v.Linked c i := by
    intro hl
    rw [Linked, Dir, hv] at hl
    exact absurd hl.1.2 (by decide)
  have hwi : w.Linked c i := ⟨⟨h.lt, hw⟩, by rw [hnl]; decide⟩
  have hnone := t.unused i h.lt h.pos hv
  have hself : ∀ x, 0 < x → w.counted c x i = if d = x then 1 else 0 := by
    intro x hx
    exact counted_of_empty hwi htwo.ge (by intro j hj hlt; omega) (by rw [hdotdot]) hx
  have hlinks : ∀ x, 0 < x → w.links c x = v.links c x + (if d = x then 1 else 0) +
      if i = x then 1 else 0 := by
    intro x hx
    have hadd := h.links_add hfree hx
    rwa [counted_of_not hvi, hself x hx] at hadd
  -- The entry of `d` is the only one that refers to the new directory.
  have hsole : ∀ x j, w.Linked c x → x ≠ i → 1 ≤ j → j < w.nents x → (w.ent x j).inum = i →
      x = d ∧ j = k := by
    intro x j hx hxi hj hlt hent
    by_contra hself
    have hother : x ≠ d ∨ j ≠ k := by
      by_contra hboth
      push Not at hboth
      exact hself hboth
    rw [h.ent_eq hxi hother] at hent
    have := one_le_links ((h.linked_iff hxi).mp hx) hj (h.lt_nents hxi hother hlt) hent
    omega
  have hwd : w.Linked c d := h.put.linked.mpr h.linked
  apply h.tree t
  case hself =>
    intro _
    constructor
    case two => exact htwo.ge
    case dot => exact hdot
    case dotdot => rw [hdotdot]; exact ⟨t.dir_ne_zero h.linked.1, rfl⟩
    case names => intro j hj hlt; omega
    case removed => intro h0; exact absurd h0 hwi.2
  case hleaf => exact fun b he => hvi he.1
  case hcount =>
    intro x hx hpos htx
    by_cases hxi : x = i
    · subst hxi
      rw [hlinks x hpos, hnone, if_neg h.ne.symm, if_pos rfl, hnl]
      decide
    · by_cases hxd : x = d
      · subst hxd
        have hcount := t.count x hx hpos (by rw [h.linked.1.2]; decide)
        rw [hlinks x hpos, if_pos rfl, if_neg h.ne, hd]
        omega
      · apply h.count_other t hx hpos hxi _ (by rw [(h.same x hxd hxi).1]) htx
        rw [hlinks x hpos, if_neg (Ne.symm hxd), if_neg (Ne.symm hxi)]
        rfl
  case hunused =>
    intro x hx hpos htx
    have hxi : x ≠ i := by
      rintro rfl
      rw [hw] at htx
      exact absurd htx (by decide)
    have hxd : x ≠ d := by
      rintro rfl
      rw [hwd.1.2] at htx
      exact absurd htx (by decide)
    apply h.unused_other t hx hpos hxi _ htx
    rw [hlinks x hpos, if_neg hxd.symm, if_neg hxi.symm]
    rfl
  case hout => exact fun _ => htwo
  case hin =>
    intro x j hx hxi hj hlt _ hent
    obtain ⟨rfl, rfl⟩ := hsole x j hx hxi (by omega) hlt hent
    refine ⟨by rw [hdotdot], ?_⟩
    intro j' hj' hlt' hent'
    exact (hsole x j' hx hxi (by omega) hlt' hent').2
  case hreach =>
    intro _
    refine (h.reach t (fun b he => hvi he.1) hwd h.ne.symm).tail ⟨hwd, hwi, k, h.two, ?_, ?_⟩
    · rw [h.put.nents]; omega
    · rw [h.put.self]

end Change

theorem leaf_edge (t : v.Tree c) (hempty : ∀ j, 2 ≤ j → j < v.nents i → (v.ent i j).inum = 0)
    (b : ℕ) : ¬ v.Edge c i b := by
  rintro ⟨-, hb, j, hj, hlt, rfl⟩
  exact t.dir_ne_zero hb.1 (hempty j hj hlt)

section Leaf

variable (t : v.Tree c) (hi : v.Linked c i) (hd : v.Linked c d) (hk : 2 ≤ k)
  (hlt : k < v.nents d) (hent : (v.ent d k).inum = i)
  (hempty : ∀ j, 2 ≤ j → j < v.nents i → (v.ent i j).inum = 0)

include t hi hd hk hlt hent

theorem leaf_ne_root : i ≠ ROOTINO := hent ▸ (t.parent d k hd hk hlt (hent ▸ hi.1)).1

theorem leaf_parent : (v.ent i 1).inum = d := by
  have h := (t.parent d k hd hk hlt (hent ▸ hi.1)).2.1
  rwa [hent] at h

include hempty

theorem leaf_sole (hx : v.Linked c x) (hj : 1 ≤ j) (hjlt : j < v.nents x)
    (hjent : (v.ent x j).inum = i) : x = d ∧ j = k := by
  have hdotdot : j ≠ 1 := by
    rintro rfl
    by_cases hroot : x = ROOTINO
    · subst hroot
      exact leaf_ne_root t hi hd hk hlt hent (hjent.symm.trans t.rootParent)
    · obtain ⟨k', ha, hk', hlt', hent'⟩ := t.exists_parent hx hroot
      rw [hjent] at hlt' hent' ha
      exact leaf_edge t hempty x ⟨ha, hx, k', hk', hlt', hent'⟩
  have hparent := t.parent x j hx (by omega) hjlt (hjent ▸ hi.1)
  have hxd : x = d := by
    rw [← hparent.2.1, hjent]
    exact leaf_parent t hi hd hk hlt hent
  subst hxd
  exact ⟨rfl, (hparent.2.2 k hk hlt (hent.trans hjent.symm)).symm⟩

theorem leaf_links : v.links c i = 1 := by
  have hone : v.counted c i d = 1 := by
    rw [counted, if_pos hd, entries]
    apply Finset.card_eq_one.mpr
    refine ⟨k, ?_⟩
    ext j
    simp only [Finset.mem_filter, Finset.mem_range, Finset.mem_singleton]
    constructor
    · rintro ⟨h1, h2, h3⟩
      exact (leaf_sole t hi hd hk hlt hent hempty hd h2 h1 h3).2
    · rintro rfl
      exact ⟨hlt, by omega, hent⟩
  rw [links, Finset.sum_eq_single d, hone]
  · intro x _ hxd
    by_contra hne
    rw [counted] at hne
    split_ifs at hne with hx
    · obtain ⟨j, hj⟩ := Finset.card_pos.mp (Nat.pos_of_ne_zero hne)
      simp only [Finset.mem_filter, Finset.mem_range] at hj
      exact hxd (leaf_sole t hi hd hk hlt hent hempty hx hj.2.1 hj.1 hj.2.2).1
    · exact hne rfl
  · exact fun hnot => absurd (Finset.mem_range.mpr hd.1.1) hnot

theorem two_le_links_parent : 2 ≤ v.links c d := by
  have hparent := leaf_parent t hi hd hk hlt hent
  have htwo := (t.dirs i hi.1).two
  have hci : 1 ≤ v.counted c d i := by
    rw [counted, if_pos hi]
    exact one_le_entries le_rfl (by omega) hparent
  obtain ⟨a, ha, hca, hor⟩ := t.named hd
  have hdi : d ≠ i := by
    rintro rfl
    exact leaf_edge t hempty d ⟨hd, hd, k, hk, hlt, hent⟩
  have hai : a ≠ i := by
    rintro rfl
    rcases hor with h | h
    · exact hdi h.symm
    · have hdtwo := (t.dirs d hd.1).two
      have := (leaf_sole t hi hd hk hlt hent hempty hd le_rfl (by omega) h).2
      omega
  have hsum : ∑ x ∈ {a, i}, v.counted c d x ≤ v.links c d := by
    apply Finset.sum_le_sum_of_subset
    intro x hx
    simp only [Finset.mem_insert, Finset.mem_singleton] at hx
    rcases hx with rfl | rfl
    · exact Finset.mem_range.mpr ha.1.1
    · exact Finset.mem_range.mpr hi.1.1
  rw [Finset.sum_pair hai] at hsum
  omega

end Leaf

theorem Change.remove_dir (h : Change c v w d i k de) (t : v.Tree c) (hde : de.inum = 0)
    (hlt : k < v.nents d) (hold : (v.ent d k).inum = i) (hi : v.Linked c i)
    (hempty : ∀ j, 2 ≤ j → j < v.nents i → (v.ent i j).inum = 0)
    (htype : (w.dinode i).type = T_DIR) (hnents : w.nents i = v.nents i)
    (hsame : ∀ j, w.ent i j = v.ent i j)
    (hnl : (w.dinode i).nlink.toNat + 1 = (v.dinode i).nlink.toNat)
    (hd : (w.dinode d).nlink.toNat + 1 = (v.dinode d).nlink.toNat) : w.Tree c := by
  have hsole := fun {x j : ℕ} => leaf_sole t hi h.linked h.two hlt hold hempty (x := x) (j := j)
  have hparent := leaf_parent t hi h.linked h.two hlt hold
  have hone := leaf_links t hi h.linked h.two hlt hold hempty
  have hcount := t.count i h.lt h.pos (by rw [hi.1.2]; decide)
  have hw0 : (w.dinode i).nlink = 0 := by
    apply BitVec.eq_of_toNat_eq
    change (w.dinode i).nlink.toNat = 0
    omega
  have hwi : ¬ w.Linked c i := fun hl => hl.2 hw0
  have hdir := t.dirs i hi.1
  have hself : ∀ x, 0 < x → v.counted c x i = if d = x then 1 else 0 := fun x hx =>
    counted_of_empty hi hdir.two hempty hparent hx
  have hlinks : ∀ x, 0 < x → w.links c x + (if i = x then 1 else 0) + (if d = x then 1 else 0) =
      v.links c x := by
    intro x hx
    have hrem := h.links_remove hde hlt hold hx
    rw [counted_of_not hwi, hself x hx] at hrem
    exact hrem
  apply h.tree t
  case hself =>
    intro _
    constructor
    case two => rw [hnents]; exact hdir.two
    case dot => rw [hsame]; exact hdir.dot
    case dotdot => rw [hsame]; exact hdir.dotdot
    case names => simp only [hnents, hsame]; exact hdir.names
    case removed => simp only [hnents, hsame]; exact fun _ => hempty
  case hleaf => exact leaf_edge t hempty
  case hcount =>
    intro x hx hpos htx
    have hlx := hlinks x hpos
    by_cases hxi : x = i
    · subst hxi
      rw [if_pos rfl, if_neg h.ne.symm] at hlx
      rw [hw0]
      change 0 = _ ∧ 0 < 2 ^ 15
      omega
    · by_cases hxd : x = d
      · subst hxd
        have hcx := t.count x hx hpos (by rw [h.linked.1.2]; decide)
        have hbx := t.bound x hx (by rw [h.linked.1.2]; decide)
        rw [if_neg h.ne, if_pos rfl] at hlx
        omega
      · apply h.count_other t hx hpos hxi _ (by rw [(h.same x hxd hxi).1]) htx
        rw [if_neg (Ne.symm hxi), if_neg (Ne.symm hxd)] at hlx
        exact hlx
  case hunused =>
    intro x hx hpos htx
    have hxi : x ≠ i := by
      rintro rfl
      rw [htype] at htx
      exact absurd htx (by decide)
    have hlx := hlinks x hpos
    have := t.unused x hx hpos (h.type_eq hxi ▸ htx)
    omega
  case hout => exact fun hl => absurd hl hwi
  case hin =>
    intro x j hx hxi hj hjlt hdiri hjent
    exfalso
    have hother : x ≠ d ∨ j ≠ k := by
      by_contra hboth
      push Not at hboth
      rw [hboth.1, hboth.2, h.put.self, hde] at hjent
      exact h.pos.ne hjent
    rw [h.ent_eq hxi hother] at hjent
    obtain ⟨rfl, rfl⟩ := hsole ((h.linked_iff hxi).mp hx) (by omega)
      (h.lt_nents hxi hother hjlt) hjent
    exact hother.elim (fun h => h rfl) fun h => h rfl
  case hreach => exact fun hl => absurd hl hwi

end Xv6.Fs.Volume
