import Xv6.Fs.Tree

/-!
# Calls keep the directory tree

Each effect of a call on the volume keeps `Tree`, with two provisos for the calls that add a name:
the directory has not been removed, and no link count is at the limit of a `short`.
-/

namespace Xv6.Fs

open Lib Relation

namespace Volume

variable {c : Conf} {u v w : Volume} {d i k x : ℕ} {name : Name} {de : Dirent}

theorem Same.trans (h : Same v u x) (h' : Same u w x) : Same v w x :=
  ⟨h'.1.trans h.1, fun k => (h'.2 k).trans (h.2 k)⟩

theorem Alike.put (h : Alike v u d) (hp : Put u w d k de) : Put v w d k de where
  le := h.nents ▸ hp.le
  type := hp.type.trans h.type
  removed := hp.removed.trans h.removed
  nents := h.nents ▸ hp.nents
  self := hp.self
  other k' hk := (hp.other k' hk).trans (h.ent k')

theorem Put.alike (hp : Put v u d k de) (h : Alike u w d) : Put v w d k de where
  le := hp.le
  type := h.type.trans hp.type
  removed := h.removed.trans hp.removed
  nents := h.nents.trans hp.nents
  self := (h.ent k).trans hp.self
  other k' hk := (h.ent k').trans (hp.other k' hk)

theorem same_setDinode (v : Volume) (di : Dinode) (h : x ≠ i) : Same v (v.setDinode i di) x :=
  ⟨by rw [setDinode_dinode, if_neg h], fun _ => rfl⟩

theorem same_write (v : Volume) (off : ℕ) (src : List Byte) (h : x ≠ i) :
    Same v (v.write i off src) x :=
  ⟨by rw [write_dinode, if_neg h], fun k => by rw [ent, ent, write_bytes_ne v off src h]⟩

theorem put_writeDirent (hsize : (v.dinode d).size % DIRENT = 0) (hk : k ≤ v.nents d)
    (hde : de.inum < 2 ^ 16) (hname : Canon de.name) : Put v (v.writeDirent d de k) d k de := by
  have hdin : (v.writeDirent d de k).dinode d =
      { v.dinode d with size := max (v.dinode d).size (DIRENT * (k + 1)) } := by
    rw [writeDirent_dinode, if_pos rfl]
  have hn : (v.writeDirent d de k).nents d = max (v.nents d) (k + 1) := by
    rw [nents, nents, hdin]
    simp only [DIRENT, DIRSIZ, nents] at *
    omega
  exact ⟨⟨hk, hn, ent_writeDirent v d k hde hname, fun j hj => ent_writeDirent_ne v de k j (.inr hj)⟩,
    by rw [hdin], by rw [hdin]⟩

theorem same_free (v : Volume) (h : x ≠ i) : Same v (v.free i) x := same_setDinode v _ h

theorem free_type_self (v : Volume) (i : ℕ) : ((v.free i).dinode i).type = 0 := by
  rw [free_dinode, if_pos rfl]

theorem alike_of_minor (h : Minor c v w) :
    (∀ x, v.Linked c x → Alike v w x) ∧ ∀ x, w.Dir c x → Alike v w x := by
  cases h with
  | @free i _ _ hnl =>
    refine ⟨fun x hx => (same_free v ?_).alike, fun x hx => (same_free v ?_).alike⟩
    · rintro rfl
      exact hx.2 hnl
    · rintro rfl
      exact absurd ((free_type_self v x).symm.trans hx.2) (by decide)
  | @write i off src _ hty =>
    refine ⟨fun x hx => (same_write v off src ?_).alike,
      fun x hx => (same_write v off src ?_).alike⟩
    · rintro rfl
      exact hty hx.1.2
    · rintro rfl
      exact hty ((write_type_nlink v x off src x).1.symm.trans hx.2)

theorem Tree.minor (t : v.Tree c) (h : Minor c v w) : w.Tree c := by
  have hzero : (w.dinode 0).type = 0 := by
    cases h with
    | @free i _ hty _ =>
      have hne : 0 ≠ i := fun h0 => hty (h0 ▸ t.zero)
      rw [(same_free v hne).1]
      exact t.zero
    | @write i off src _ _ => rw [(write_type_nlink v i off src 0).1]; exact t.zero
  refine t.transfer hzero (alike_of_minor h).1 (alike_of_minor h).2 ?_ ?_
  · intro x hx
    cases h with
    | @free i _ _ _ =>
      have hne : x ≠ i := fun hxi => hx (hxi ▸ free_type_self v i)
      have heq := (same_free v hne).1
      rw [heq] at hx ⊢
      exact ⟨hx, rfl⟩
    | @write i off src _ _ =>
      obtain ⟨htype, hnl⟩ := write_type_nlink v i off src x
      exact ⟨htype ▸ hx, hnl⟩
  · intro x hx hpos htx
    cases h with
    | @free i _ hty hnl =>
      by_cases hxi : x = i
      · subst hxi
        rw [← t.count x hx hpos hty, hnl]
        rfl
      · rw [(same_free v hxi).1] at htx
        exact t.unused x hx hpos htx
    | @write i off src _ _ =>
      rw [(write_type_nlink v i off src x).1] at htx
      exact t.unused x hx hpos htx

def Room (c : Conf) (v : Volume) : Prop :=
  ∀ i < c.ninodes, (v.dinode i).type ≠ 0 → (v.dinode i).nlink ≠ 32767

theorem Tree.toNat_add_one (t : v.Tree c) (hroom : v.Room c) (hi : i < c.ninodes)
    (hty : (v.dinode i).type ≠ 0) : ((v.dinode i).nlink + 1).toNat = (v.dinode i).nlink.toNat + 1 ∧
      (v.dinode i).nlink.toNat + 1 < 2 ^ 15 := by
  have hb := t.bound i hi hty
  have hne := hroom i hi hty
  generalize (v.dinode i).nlink = n at *
  constructor <;> bv_omega

theorem toNat_sub_one {n : BitVec 16} (h : 1 ≤ n.toInt) : (n + -1).toNat + 1 = n.toNat := by
  have hne : n ≠ 0 := by
    rintro rfl
    exact absurd h (by decide)
  bv_omega

theorem change_add (t : v.Tree c) (hwf : v.WF c) (hc : c.ninodes ≤ 2 ^ 16) (hd : v.Linked c d)
    (hnew : v.lookup d name = none) (hname : Canon name) (hi : i < c.ninodes) (hpos : 0 < i)
    (hdir : (v.dinode i).type ≠ T_DIR) (hal : Alike v u d)
    (hsize : (u.dinode d).size = (v.dinode d).size) (hsame : ∀ x, x ≠ d → x ≠ i → Same v u x) :
    Change c v (u.writeDirent d ⟨i, name⟩ (v.freeSlot d)) d i (v.freeSlot d) ⟨i, name⟩ where
  put := hal.put (put_writeDirent (by rw [hsize]; exact hwf.aligned d hd.1.1 hd.1.2)
    (by rw [hal.nents]; exact freeSlot_le v d) (hi.trans_le hc) hname)
  two := t.two_le_freeSlot hd.1
  linked := hd
  lt := hi
  pos := hpos
  root h := hdir (h ▸ t.root.1.2)
  ne h := hdir (h ▸ hd.1.2)
  old h := .inl (freeSlot_free h)
  new := .inr rfl
  names _ := t.new_name hd.1 hnew
  same x hxd hxi := (hsame x hxd hxi).trans (same_write u _ _ hxd)

theorem change_remove (t : v.Tree c) (hwf : v.WF c) (hd : v.Dir c d) (hdot : name ≠ dotName)
    (hdotdot : name ≠ dotdotName) (hk : v.lookup d name = some k)
    (hne : (v.ent d k).inum ≠ d) (hroot : (v.ent d k).inum ≠ ROOTINO)
    (hal : Alike (v.writeDirent d ⟨0, []⟩ k) w d)
    (hsame : ∀ x, x ≠ d → x ≠ (v.ent d k).inum → Same (v.writeDirent d ⟨0, []⟩ k) w x) :
    Change c v w d (v.ent d k).inum k ⟨0, []⟩ := by
  obtain ⟨htwo, hlt, hlive, hlinked⟩ := t.found hd hdot hdotdot hk
  constructor
  case put =>
    exact (put_writeDirent (hwf.aligned d hd.1 hd.2) hlt.le (by norm_num)
      ⟨by norm_num, List.not_mem_nil⟩).alike hal
  case two => exact htwo
  case linked => exact hlinked
  case lt => exact hwf.entries d hd.1 hd.2 k hlt
  case pos => exact Nat.pos_of_ne_zero hlive
  case root => exact hroot
  case ne => exact hne
  case old => exact fun _ => .inr rfl
  case new => exact .inl rfl
  case names => exact fun h => absurd rfl h
  case same => exact fun x hxd hxi => (same_write v _ _ hxd).trans (hsame x hxd hxi)

def ChangedTree (c : Conf) (v w : Volume) (d i : ℕ) : Prop :=
  w.Tree c ∧ ∃ k de, Change c v w d i k de ∧
    (w.Dir c i → (w.dinode i).nlink = 0 → (w.ent i 1).inum = d)

section

variable (t : v.Tree c) (hwf : v.WF c)
include t hwf

theorem Tree.create_file (hc : c.ninodes ≤ 2 ^ 16)
    (hd : v.Linked c d) (hnew : v.lookup d name = none) (hname : Canon name) (hi : i < c.ninodes)
    (hpos : 0 < i) (hfree : (v.dinode i).type = 0) {di : Dinode} (ht : di.type ≠ 0)
    (hdir : di.type ≠ T_DIR) (hnl : di.nlink = 1) :
    ChangedTree c v ((v.setDinode i di).writeDirent d ⟨i, name⟩ (v.freeSlot d)) d i := by
  have hvi : (v.dinode i).type ≠ T_DIR := by rw [hfree]; decide
  have hdi : d ≠ i := fun h => hvi (h ▸ hd.1.2)
  have hsame : ∀ x, x ≠ i → Same v (v.setDinode i di) x := fun x hx => same_setDinode v di hx
  have hch := change_add t hwf hc hd hnew hname hi hpos hvi (hsame d hdi).alike
    (by rw [(hsame d hdi).1]) fun x _ hx => hsame x hx
  have hself : ((v.setDinode i di).writeDirent d ⟨i, name⟩ (v.freeSlot d)).dinode i = di := by
    rw [writeDirent_dinode, if_neg hdi.symm, setDinode_dinode, if_pos rfl]
  refine ⟨?_, _, _, hch, fun hwi =>
    absurd ((congrArg Dinode.type hself).symm.trans hwi.2) hdir⟩
  apply hch.add_file t freeSlot_free hvi
  · rw [hself]; exact hdir
  · rw [hself]; exact ht
  · rw [writeDirent_dinode, if_pos rfl, (hsame d hdi).1]
  · rw [hself, hnl, t.unused i hi hpos hfree]
    rfl
  · rw [hself, hnl]
    decide

theorem Tree.create_dir (hc : c.ninodes ≤ 2 ^ 16) (hroom : v.Room c)
    (hd : v.Linked c d) (hnew : v.lookup d name = none) (hname : Canon name) (hi : i < c.ninodes)
    (hpos : 0 < i) (hfree : (v.dinode i).type = 0) {di : Dinode} (hdir : di.type = T_DIR)
    (hnl : di.nlink = 1) (hsize : di.size = 0) :
    ChangedTree c v (((v.setDinode i di).withDots d i).writeDirent d ⟨i, name⟩ (v.freeSlot d)) d
      i := by
  have hvi : (v.dinode i).type ≠ T_DIR := by rw [hfree]; decide
  have hdi : d ≠ i := fun h => hvi (h ▸ hd.1.2)
  have hlt : ∀ {x}, x < c.ninodes → x < 2 ^ 16 := fun hx => hx.trans_le hc
  obtain ⟨hadd, hbound⟩ := t.toNat_add_one hroom hd.1.1 (by rw [hd.1.2]; decide)
  -- The volume before the last entry: the inode itself, the link for its `..`, its two entries.
  have hsame : ∀ x, x ≠ d → x ≠ i → Same v ((v.setDinode i di).withDots d i) x := fun x hxd hxi =>
    (((same_setDinode v di hxi).trans (same_setDinode _ _ hxd)).trans (same_write _ _ _ hxi)).trans
      (same_write _ _ _ hxi)
  have hud : ((v.setDinode i di).withDots d i).dinode d =
      { v.dinode d with nlink := (v.dinode d).nlink + 1 } := by
    rw [withDots, writeDirent_dinode, if_neg hdi, writeDirent_dinode, if_neg hdi, setNlink_dinode,
      if_pos rfl, setDinode_dinode, if_neg hdi]
  have hui : ((v.setDinode i di).withDots d i).dinode i = { di with size := DIRENT * 2 } := by
    rw [withDots, writeDirent_dinode, if_pos rfl, writeDirent_dinode, if_pos rfl, setNlink_dinode,
      if_neg hdi.symm, setDinode_dinode, if_pos rfl, hsize]
    rfl
  have hent : ∀ k, ((v.setDinode i di).withDots d i).ent d k = v.ent d k := by
    intro k
    rw [withDots, ent_writeDirent_ne _ _ _ _ (.inl hdi), ent_writeDirent_ne _ _ _ _ (.inl hdi),
      ent_setNlink, ent_setDinode]
  have hal : Alike v ((v.setDinode i di).withDots d i) d := by
    refine ⟨by rw [hud], ?_, by rw [nents, nents, hud], hent⟩
    rw [hud]
    have hv0 := hd.2
    have hw0 : (v.dinode d).nlink + 1 ≠ 0 := by
      intro h0
      rw [h0] at hadd
      exact absurd hadd (by simp)
    exact iff_of_false hw0 hv0
  have hch := change_add t hwf hc hd hnew hname hi hpos hvi hal (by rw [hud]) hsame
  have hsame' := fun k => ent_writeDirent_ne ((v.setDinode i di).withDots d i) ⟨i, name⟩
    (v.freeSlot d) k (.inl hdi.symm)
  have hself : (((v.setDinode i di).withDots d i).writeDirent d ⟨i, name⟩ (v.freeSlot d)).dinode i =
      { di with size := DIRENT * 2 } := by
    rw [writeDirent_dinode, if_neg hdi.symm, hui]
  have hpar : (((v.setDinode i di).withDots d i).writeDirent d ⟨i, name⟩ (v.freeSlot d)).dinode d =
      { v.dinode d with
        nlink := (v.dinode d).nlink + 1
        size := max (v.dinode d).size (DIRENT * (v.freeSlot d + 1)) } := by
    rw [writeDirent_dinode, if_pos rfl, hud]
  refine ⟨?_, _, _, hch, fun _ h0 => ?_⟩
  swap
  · rw [hself, hnl] at h0
    exact absurd h0 (by decide)
  apply hch.add_dir t freeSlot_free hfree
  case hw => rw [hself]; exact hdir
  case htwo => rw [nents, hself]; exact Nat.mul_div_cancel_left 2 (by norm_num)
  case hdot =>
    rw [hsame', withDots, ent_writeDirent_ne _ _ _ _ (.inr (by norm_num))]
    exact ent_writeDirent _ _ _ (hlt hi) canon_dot
  case hdotdot =>
    rw [hsame', withDots]
    exact ent_writeDirent _ _ _ (hlt hd.1.1) canon_dotdot
  case hnl => rw [hself]; exact hnl
  case hd => rw [hpar]; exact hadd
  case hb => rw [hpar]; exact hadd ▸ hbound

theorem Tree.link (hc : c.ninodes ≤ 2 ^ 16) (hroom : v.Room c)
    (hd : v.Linked c d) (hnew : v.lookup d name = none) (hname : Canon name) (hi : i < c.ninodes)
    (hty : (v.dinode i).type ≠ 0) (hdir : (v.dinode i).type ≠ T_DIR) : ChangedTree c v
      ((v.setNlink i ((v.dinode i).nlink + 1)).writeDirent d ⟨i, name⟩ (v.freeSlot d)) d i := by
  have hpos : 0 < i := Nat.pos_of_ne_zero fun h0 => hty (h0 ▸ t.zero)
  have hdi : d ≠ i := fun h => hdir (h ▸ hd.1.2)
  have hsame : ∀ x, x ≠ i → Same v (v.setNlink i ((v.dinode i).nlink + 1)) x :=
    fun x hx => same_setDinode v _ hx
  have hch := change_add t hwf hc hd hnew hname hi hpos hdir (hsame d hdi).alike
    (by rw [(hsame d hdi).1]) fun x _ hx => hsame x hx
  obtain ⟨hadd, hbound⟩ := t.toNat_add_one hroom hi hty
  have hself : ((v.setNlink i ((v.dinode i).nlink + 1)).writeDirent d ⟨i, name⟩
      (v.freeSlot d)).dinode i = { v.dinode i with nlink := (v.dinode i).nlink + 1 } := by
    rw [writeDirent_dinode, if_neg hdi.symm, setNlink_dinode, if_pos rfl]
  refine ⟨?_, _, _, hch, fun hwi =>
    absurd ((congrArg Dinode.type hself).symm.trans hwi.2) hdir⟩
  apply hch.add_file t freeSlot_free hdir
  · rw [hself]; exact hdir
  · rw [hself]; exact hty
  · rw [writeDirent_dinode, if_pos rfl, (hsame d hdi).1]
  · rw [hself, ← t.count i hi hpos hty]
    exact hadd
  · rw [hself, hadd]
    exact hbound

theorem Tree.unlink_file (hd : v.Dir c d) (hdot : name ≠ dotName)
    (hdotdot : name ≠ dotdotName) (hk : v.lookup d name = some k)
    (hdir : (v.dinode (v.ent d k).inum).type ≠ T_DIR) (hty : (v.dinode (v.ent d k).inum).type ≠ 0)
    (hnl : 1 ≤ (v.dinode (v.ent d k).inum).nlink.toInt) :
    ChangedTree c v ((v.writeDirent d ⟨0, []⟩ k).setNlink (v.ent d k).inum
      ((v.dinode (v.ent d k).inum).nlink + -1)) d (v.ent d k).inum := by
  have hdi : d ≠ (v.ent d k).inum := fun h => hdir (h ▸ hd.2)
  have hsame : ∀ x, x ≠ (v.ent d k).inum → Same (v.writeDirent d ⟨0, []⟩ k)
      ((v.writeDirent d ⟨0, []⟩ k).setNlink (v.ent d k).inum
        ((v.dinode (v.ent d k).inum).nlink + -1)) x := fun x hx => same_setDinode _ _ hx
  have hch := change_remove t hwf hd hdot hdotdot hk hdi.symm (fun h => hdir (h ▸ t.root.1.2))
    (hsame d hdi).alike fun x _ hx => hsame x hx
  have hself : ((v.writeDirent d ⟨0, []⟩ k).setNlink (v.ent d k).inum
      ((v.dinode (v.ent d k).inum).nlink + -1)).dinode (v.ent d k).inum =
      { v.dinode (v.ent d k).inum with nlink := (v.dinode (v.ent d k).inum).nlink + -1 } := by
    rw [setNlink_dinode, if_pos rfl, writeDirent_dinode, if_neg hdi.symm]
  refine ⟨?_, _, _, hch, fun hwi =>
    absurd ((congrArg Dinode.type hself).symm.trans hwi.2) hdir⟩
  apply hch.remove_file t rfl (lookup_some hk).1 rfl hdir hty
  · rw [hself]
  · rw [(hsame d hdi).1, writeDirent_dinode, if_pos rfl]
  · rw [hself]
    exact toNat_sub_one hnl

theorem Tree.unlink_dir (hd : v.Dir c d) (hdot : name ≠ dotName)
    (hdotdot : name ≠ dotdotName) (hk : v.lookup d name = some k) (hne : (v.ent d k).inum ≠ d)
    (hdir : (v.dinode (v.ent d k).inum).type = T_DIR)
    (hempty : ∀ j, 2 ≤ j → j < v.nents (v.ent d k).inum → (v.ent (v.ent d k).inum j).inum = 0)
    (hnl : 1 ≤ (v.dinode (v.ent d k).inum).nlink.toInt) :
    ChangedTree c v (((v.writeDirent d ⟨0, []⟩ k).setNlink d ((v.dinode d).nlink + -1)).setNlink
      (v.ent d k).inum ((v.dinode (v.ent d k).inum).nlink + -1)) d (v.ent d k).inum := by
  obtain ⟨htwo, hlt, hlive, hlinked⟩ := t.found hd hdot hdotdot hk
  generalize hi : (v.ent d k).inum = i at *
  have hsub := toNat_sub_one hnl
  have hin : i < c.ninodes := hi ▸ hwf.entries d hd.1 hd.2 k hlt
  have hilinked : v.Linked c i := ⟨⟨hin, hdir⟩, by
    intro h0
    rw [h0] at hnl
    exact absurd hnl (by decide)⟩
  have hlinks := two_le_links_parent t hilinked hlinked htwo hlt hi hempty
  rw [← t.count d hd.1 (Nat.pos_of_ne_zero (t.dir_ne_zero hd)) (by rw [hd.2]; decide)] at hlinks
  have hdsub : ((v.dinode d).nlink + -1).toNat + 1 = (v.dinode d).nlink.toNat := by
    have hb := t.bound d hd.1 (by rw [hd.2]; decide)
    generalize (v.dinode d).nlink = n at *
    bv_omega
  have hd0 : (v.dinode d).nlink + -1 ≠ 0 := by
    intro h0
    rw [h0] at hdsub
    have h1 : (v.dinode d).nlink.toNat = 1 := hdsub.symm
    omega
  have hwd : (((v.writeDirent d ⟨0, []⟩ k).setNlink d ((v.dinode d).nlink + -1)).setNlink i
      ((v.dinode i).nlink + -1)).dinode d = { v.dinode d with
        nlink := (v.dinode d).nlink + -1
        size := max (v.dinode d).size (DIRENT * (k + 1)) } := by
    rw [setNlink_dinode, if_neg hne.symm, setNlink_dinode, if_pos rfl, writeDirent_dinode,
      if_pos rfl]
  have hwi : (((v.writeDirent d ⟨0, []⟩ k).setNlink d ((v.dinode d).nlink + -1)).setNlink i
      ((v.dinode i).nlink + -1)).dinode i =
      { v.dinode i with nlink := (v.dinode i).nlink + -1 } := by
    rw [setNlink_dinode, if_pos rfl, setNlink_dinode, if_neg hne, writeDirent_dinode, if_neg hne]
  have hal : Alike (v.writeDirent d ⟨0, []⟩ k) (((v.writeDirent d ⟨0, []⟩ k).setNlink d
      ((v.dinode d).nlink + -1)).setNlink i ((v.dinode i).nlink + -1)) d := by
    have hud := writeDirent_dinode v d ⟨0, []⟩ k d
    rw [if_pos rfl] at hud
    refine ⟨by rw [hwd, hud], ?_, by rw [nents, nents, hwd, hud], fun _ => rfl⟩
    rw [hwd, hud]
    exact iff_of_false hd0 hlinked.2
  have hch := change_remove t hwf hd hdot hdotdot hk (hi ▸ hne)
    (hi ▸ leaf_ne_root t hilinked hlinked htwo hlt hi) hal
    (fun x hxd hxi => (same_setDinode _ _ hxd).trans (same_setDinode _ _ (hi ▸ hxi)))
  rw [hi] at hch
  have hents : ∀ j, (v.writeDirent d ⟨0, []⟩ k).ent i j = v.ent i j := fun j =>
    ent_writeDirent_ne v _ _ _ (.inl hne)
  refine ⟨?_, _, _, hch, fun _ _ => ?_⟩
  swap
  · rw [ent_setNlink, ent_setNlink, hents]
    exact leaf_parent t hilinked hlinked htwo hlt hi
  apply hch.remove_dir t rfl hlt hi hilinked hempty
  case htype => rw [hwi]; exact hdir
  case hnents => rw [nents, nents, hwi]
  case hsame => exact hents
  case hnl => rw [hwi]; exact hsub
  case hd => rw [hwd]; exact hdsub

theorem Tree.of_named {adds : Bool} (hc : c.ninodes ≤ 2 ^ 16)
    (hadd : adds = true → (v.dinode d).nlink ≠ 0 ∧ v.Room c) (h : Named c d name adds v w) :
    ∃ i, ChangedTree c v w d i ∧
      (v.Linked c i → adds = false ∧ ∃ k, v.lookup d name = some k ∧ (v.ent d k).inum = i) := by
  cases h with
  | @create _ i _ _ _ hd hdir hnew hname hi hpos hfree ht =>
    obtain ⟨hnl, hroom⟩ := hadd rfl
    have hnot : ¬ v.Linked c i := fun hl => by
      rw [Linked, Dir, hfree] at hl
      exact absurd hl.1.2 (by decide)
    refine ⟨i, ?_, fun hl => absurd hl hnot⟩
    rw [withInode]
    split_ifs with hty
    · exact t.create_dir hwf hc hroom ⟨⟨hd, hdir⟩, hnl⟩ hnew hname hi hpos hfree hty rfl rfl
    · exact t.create_file hwf hc ⟨⟨hd, hdir⟩, hnl⟩ hnew hname hi hpos hfree ht hty rfl
  | @link _ i hd hdir hnew hname hi hty hfile =>
    obtain ⟨hnl, hroom⟩ := hadd rfl
    exact ⟨i, t.link hwf hc hroom ⟨⟨hd, hdir⟩, hnl⟩ hnew hname hi hty hfile,
      fun hl => absurd hl.1.2 hfile⟩
  | @unlinkFile _ k hd hdir hdot hdotdot hk hfile hty hnl =>
    exact ⟨_, t.unlink_file hwf ⟨hd, hdir⟩ hdot hdotdot hk hfile hty hnl,
      fun _ => ⟨rfl, k, hk, rfl⟩⟩
  | @unlinkDir _ k hd hdir hdot hdotdot hk hne hsub hempty hnl =>
    exact ⟨_, t.unlink_dir hwf ⟨hd, hdir⟩ hdot hdotdot hk hne hsub hempty hnl,
      fun _ => ⟨rfl, k, hk, rfl⟩⟩

end

end Volume

theorem Effect.tree {c : Conf} {v : Volume} {target : Option (Bool × ℕ × Name)} {w : Volume} (t : v.Tree c) (hwf : v.WF c)
    (hc : c.ninodes ≤ 2 ^ 16)
    (hadd : ∀ x ∈ target, x.1 = true → (v.dinode x.2.1).nlink ≠ 0 ∧ v.Room c)
    (h : Effect c target v w) : w.Tree c := by
  refine h.preserves t ?_ fun _ _ hu hm => hu.minor hm
  rintro adds d name u rfl hnamed
  obtain ⟨_, htree, -⟩ := t.of_named hwf hc (hadd _ rfl) hnamed
  exact htree.1

end Xv6.Fs
