import Xv6.Fs.Lookup

/-!
# What a call does to the volume

A call makes at most one change to the directory tree (`Named`): it creates an inode under a name,
links one, or removes a name.
-/

namespace Xv6.Fs

open Lib Lib.Prog Relation
open Triple (seq assume)

namespace Volume

def withDots (v : Volume) (d i : ℕ) : Volume :=
  ((v.setNlink d ((v.dinode d).nlink + 1)).writeDirent i ⟨i, dotName⟩ 0).writeDirent i
    ⟨d, dotdotName⟩ 1

def withInode (v : Volume) (d i : ℕ) (t major minor : BitVec 16) : Volume :=
  let w := v.setDinode i ⟨t, major, minor, 1, 0⟩
  if t = T_DIR then w.withDots d i else w

theorem canon_dot : Canon dotName := ⟨by decide, by decide⟩

theorem canon_dotdot : Canon dotdotName := ⟨by decide, by decide⟩

variable {d i : ℕ}

theorem withInode_type (v : Volume) (d i : ℕ) (t major minor : BitVec 16) (x : ℕ) :
    ((v.withInode d i t major minor).dinode x).type = if x = i then t else (v.dinode x).type := by
  unfold withInode
  by_cases ht : t = T_DIR
  · simp only [if_pos ht, withDots, writeDirent_type, (setNlink_alike _ _ _ x).1, setDinode_dinode]
    split_ifs <;> rfl
  · simp only [if_neg ht, setDinode_dinode]
    split_ifs <;> rfl

theorem release_nlink (v : Volume) (i j n : ℕ) :
    ((v.release i n).dinode j).nlink = (v.dinode j).nlink := by
  rw [release]
  split_ifs
  · rw [free_dinode]
    split_ifs with h
    · rw [h]
    · rfl
  · rfl

theorem withInode_nlink (v : Volume) (t major minor : BitVec 16) (hdi : d ≠ i) :
    ((v.withInode d i t major minor).dinode i).nlink = 1 := by
  unfold withInode
  split_ifs
  · rw [withDots, writeDirent, (write_type_nlink _ _ _ _ _).2, writeDirent, (write_type_nlink _ _ _ _ _).2,
      setNlink_dinode, if_neg hdi.symm, setDinode_dinode, if_pos rfl]
  · rw [setDinode_dinode, if_pos rfl]

theorem withInode_parent (v : Volume) (t major minor : BitVec 16) (hdi : d ≠ i) :
    ((v.withInode d i t major minor).dinode d).size = (v.dinode d).size ∧
      ∀ k, (v.withInode d i t major minor).ent d k = v.ent d k := by
  unfold withInode
  by_cases ht : t = T_DIR
  · simp only [if_pos ht, withDots]
    constructor
    · rw [writeDirent_dinode, if_neg hdi, writeDirent_dinode, if_neg hdi, setNlink_dinode,
        if_pos rfl, setDinode_dinode, if_neg hdi]
    · intro k
      rw [ent_writeDirent_ne _ _ _ _ (.inl hdi), ent_writeDirent_ne _ _ _ _ (.inl hdi),
        ent_setNlink, ent_setDinode]
  · simp only [if_neg ht]
    exact ⟨by rw [setDinode_dinode, if_neg hdi], fun _ => rfl⟩

end Volume

inductive Minor (c : Conf) : Volume → Volume → Prop
  | free {v : Volume} {i : ℕ} (hi : i < c.ninodes) (hty : (v.dinode i).type ≠ 0)
      (hnl : (v.dinode i).nlink = 0) : Minor c v (v.free i)
  | write {v : Volume} {i off : ℕ} {src : List Byte} (hi : i < c.ninodes)
      (hty : (v.dinode i).type ≠ T_DIR) : Minor c v (v.write i off src)

inductive Named (c : Conf) (d : ℕ) (name : Name) : (adds : Bool) → Volume → Volume → Prop
  | create {v : Volume} {i : ℕ} {t major minor : BitVec 16} (hd : d < c.ninodes)
      (hdir : (v.dinode d).type = T_DIR) (hnew : v.lookup d name = none) (hname : Canon name)
      (hi : i < c.ninodes) (hpos : 0 < i) (hfree : (v.dinode i).type = 0) (ht : t ≠ 0) :
      Named c d name true v
        ((v.withInode d i t major minor).writeDirent d ⟨i, name⟩ (v.freeSlot d))
  | link {v : Volume} {i : ℕ} (hd : d < c.ninodes) (hdir : (v.dinode d).type = T_DIR)
      (hnew : v.lookup d name = none) (hname : Canon name) (hi : i < c.ninodes)
      (hty : (v.dinode i).type ≠ 0) (hfile : (v.dinode i).type ≠ T_DIR) :
      Named c d name true v ((v.setNlink i ((v.dinode i).nlink + 1)).writeDirent d ⟨i, name⟩ (v.freeSlot d))
  | unlinkFile {v : Volume} {k : ℕ} (hd : d < c.ninodes) (hdir : (v.dinode d).type = T_DIR)
      (hdot : name ≠ dotName) (hdotdot : name ≠ dotdotName) (hk : v.lookup d name = some k)
      (hfile : (v.dinode (v.ent d k).inum).type ≠ T_DIR)
      (hty : (v.dinode (v.ent d k).inum).type ≠ 0)
      (hnl : 1 ≤ (v.dinode (v.ent d k).inum).nlink.toInt) :
      Named c d name false v ((v.writeDirent d ⟨0, []⟩ k).setNlink (v.ent d k).inum
        ((v.dinode (v.ent d k).inum).nlink + -1))
  | unlinkDir {v : Volume} {k : ℕ} (hd : d < c.ninodes) (hdir : (v.dinode d).type = T_DIR)
      (hdot : name ≠ dotName) (hdotdot : name ≠ dotdotName) (hk : v.lookup d name = some k)
      (hne : (v.ent d k).inum ≠ d)
      (hsub : (v.dinode (v.ent d k).inum).type = T_DIR)
      (hempty : ∀ j, 2 ≤ j → j < v.nents (v.ent d k).inum → (v.ent (v.ent d k).inum j).inum = 0)
      (hnl : 1 ≤ (v.dinode (v.ent d k).inum).nlink.toInt) :
      Named c d name false v
        (((v.writeDirent d ⟨0, []⟩ k).setNlink d ((v.dinode d).nlink + -1)).setNlink
          (v.ent d k).inum ((v.dinode (v.ent d k).inum).nlink + -1))

def Effect (c : Conf) (target : Option (Bool × ℕ × Name)) (v v' : Volume) : Prop :=
  ∃ w, (w = v ∨ ∃ adds d name, target = some (adds, d, name) ∧ Named c d name adds v w) ∧
    ReflTransGen (Minor c) w v'

variable {target : Option (Bool × ℕ × Name)}

theorem Effect.same {c : Conf} {v v' : Volume} (h : v' = v) : Effect c target v v' :=
  ⟨v, .inl rfl, h ▸ .refl⟩

theorem Effect.minor {c : Conf} {v w v' : Volume}
    (h : Effect c target v w) (hm : ReflTransGen (Minor c) w v') : Effect c target v v' := by
  obtain ⟨u, hu, hw⟩ := h
  exact ⟨u, hu, hw.trans hm⟩

theorem Effect.preserves {c : Conf} {v w : Volume}
    {P : Volume → Prop} (h : Effect c target v w) (hv : P v)
    (hnamed : ∀ adds d name u, target = some (adds, d, name) → Named c d name adds v u → P u)
    (hminor : ∀ u u', P u → Minor c u u' → P u') : P w := by
  obtain ⟨u, hu, hm⟩ := h
  have hPu : P u := by
    rcases hu with rfl | ⟨adds, d, name, htarget, hn⟩
    · exact hv
    · exact hnamed adds d name u htarget hn
  induction hm with
  | refl => exact hPu
  | tail _ hm ih => exact hminor _ _ ih hm

theorem minor_release {c : Conf} {v : Volume} {i n : ℕ} (hi : i < c.ninodes) :
    ReflTransGen (Minor c) v (v.release i n) := by
  rw [Volume.release]
  split_ifs with h
  · exact .single (.free hi h.1 h.2.1)
  · exact .refl

variable {c : Conf} {E : Fault → Prop} [Tolerant E] {num : ISlot → ℕ} {s : State} {p : Pid} {path : Path}
variable {v : Volume} {t : Tables} {held : Refs} {locks : Finset ISlot} {dp ip : ISlot} {d i : ℕ} {name : Name}

theorem Volume.freeSlot_congr {v w : Volume} (hsize : (w.dinode d).size = (v.dinode d).size)
    (hent : ∀ k, w.ent d k = v.ent d k) : w.freeSlot d = v.freeSlot d := by
  have hloop : ∀ n m, w.freeFrom d n m = v.freeFrom d n m := by
    intro n
    induction n with
    | zero => exact fun _ => rfl
    | succ n ih => intro m; simp only [Volume.freeFrom, hent, ih]
  rw [Volume.freeSlot, Volume.freeSlot, Volume.nents, Volume.nents, hsize, hloop]

theorem Volume.lookup_empty (hsize : (v.dinode i).size = 0) : v.lookup i name = none := by
  rw [Volume.lookup, Volume.nents, hsize]
  rfl

theorem Volume.freeSlot_empty (hsize : (v.dinode i).size = 0) : v.freeSlot i = 0 := by
  rw [Volume.freeSlot, Volume.nents, hsize]
  rfl

variable {Q : ℤ → State → Prop}

theorem does_dirlink_new (hdp : Known num held t dp d) (hlk : dp ∈ locks)
    (hi : i < c.ninodes) (hnew : v.lookup d name = none) (hQ : (v.dinode d).type = T_DIR →
      ∀ s, GoodAt c num held locks (v.writeDirent d ⟨i, name⟩ (v.freeSlot d)) t s → Q 0 s) :
    Does c E (GoodAt c num held locks v t) (dirlink dp name i) Q := by
  have hnot : ∀ k, v.lookup d name ≠ some k := by simp [hnew]
  exact does_dirlink hdp hlk hi (fun _ k hk => absurd hk (hnot k)) (fun k hk => absurd hk (hnot k))
    fun _ => hQ

theorem does_createDots {Q : Unit → State → Prop} (hdp : Known num held t dp d)
    (hip : Known num held t ip i) (hdlk : dp ∈ locks) (hilk : ip ∈ locks) (hpos : i ≠ 0)
    (hsize : (v.dinode i).size = 0) (hQ : ∀ s, GoodAt c num held locks (v.withDots d i) t s → Q () s) :
    Does c E (GoodAt c num held locks v t) (createDots dp ip i) Q := by
  obtain ⟨w, hw⟩ : ∃ w, w = v.setNlink d ((v.dinode d).nlink + 1) := ⟨_, rfl⟩
  have hsize1 : (w.dinode i).size = 0 := by
    rw [hw, (Volume.setNlink_alike _ _ _ _).2, hsize]
  refine seq (does_addNlink hdp hdlk ?_)
  rw [← hw]
  refine assume (c := w.WF c ∧ i < c.ninodes ∧ d < c.ninodes ∧ c.ninodes ≤ 2 ^ 16)
    (fun s h => ⟨h.wf, h.known_lt hip, h.known_lt hdp, h.good.conf.2⟩) ?_
  rintro ⟨hwf, hi, hd, hc⟩
  refine seq (does_dirlink_new hip hilk hi (Volume.lookup_empty hsize1) fun hty => ?_)
  rw [Volume.freeSlot_empty hsize1, if_neg (by norm_num)]
  have hnents : (w.writeDirent i ⟨i, dotName⟩ 0).nents i = 1 := by
    rw [Volume.nents_writeDirent hwf hi hty _ (Nat.zero_le _)]
    simp [Volume.nents, hsize1]
  have hent : (w.writeDirent i ⟨i, dotName⟩ 0).ent i 0 = ⟨i, dotName⟩ :=
    Volume.ent_writeDirent _ _ _ (hi.trans_le hc) Volume.canon_dot
  have hslot : (w.writeDirent i ⟨i, dotName⟩ 0).freeSlot i = 1 := by
    rw [Volume.freeSlot, hnents]
    simp [Volume.freeFrom, hent, hpos]
  have hlook : (w.writeDirent i ⟨i, dotName⟩ 0).lookup i dotdotName = none := by
    rw [Volume.lookup, hnents]
    simp only [Volume.lookupFrom, hent]
    simp [dotName, dotdotName]
  refine seq (does_inum hdp (seq (does_dirlink_new hip hilk hd hlook fun _ => ?_)))
  rw [hslot, if_neg (by norm_num), hw]
  exact hQ

theorem does_createNew {Q : Option ISlot → State → Prop} {type major minor : BitVec 16}
    (hnew : v.lookup d name = none) (hdir : (v.dinode d).type = T_DIR) (hname : Canon name)
    (ht : type ≠ 0)
    (hQ : ∀ ip i w, (w.dinode i).type = type → (w.dinode i).nlink = 1 ∧ (v.dinode i).type = 0 →
      Effect c (some (true, d, name)) v w →
      ∀ s, GoodAt c num ((ip, i) ::ₘ 0) (insert ip ∅) w t s → Q (some ip) s) :
    Does c E (GoodAt c num ((dp, d) ::ₘ 0) (insert dp ∅) v t) (createNew dp name type major minor) Q := by
  refine does_ialloc_ilock ht fun ip i hpos hi hfree hun => ?_
  have hne : i ≠ d := by
    rintro rfl
    rw [hdir] at hfree
    exact absurd hfree (by decide)
  have hilk : ip ∈ insert ip (insert dp (∅ : Finset ISlot)) := Finset.mem_insert_self _ _
  have hdlk : dp ∈ insert ip (insert dp (∅ : Finset ISlot)) := by simp
  have hv : (v.setDinode i ⟨type, 0, 0, 0, 0⟩).setNew i major minor =
      v.setDinode i ⟨type, major, minor, 1, 0⟩ := by
    simp [Volume.setNew, Volume.setDinode]
  refine seq (does_updateNew .head hilk (seq (does_inum .head ?_)))
  rw [hv]
  -- The two ways to the entry in `dp` meet in one volume.
  suffices hrest : Does c E (GoodAt c num ((ip, i) ::ₘ (dp, d) ::ₘ 0) (insert ip (insert dp ∅))
      (v.withInode d i type major minor) t)
      (do
        let r ← dirlink dp name i
        if r < 0 then panic .createDirlink
        else do
          iunlockput dp
          Pure.pure (some ip)) Q by
    refine Triple.ite (fun htd => ?_) fun htd => ?_
    · rw [Volume.withInode, if_pos htd] at hrest
      refine seq (does_createDots .second .head hdlk hilk hpos.ne' ?_ hrest)
      rw [Volume.setDinode_dinode, if_pos rfl]
    · rw [Volume.withInode, if_neg htd] at hrest
      exact hrest
  obtain ⟨hsize, hent⟩ := Volume.withInode_parent v type major minor hne.symm
  have hn : (v.withInode d i type major minor).nents d = v.nents d := by
    rw [Volume.nents, Volume.nents, hsize]
  have hlook := (Volume.lookup_congr hn fun k _ => hent k).trans hnew
  refine assume (fun s h => h.known_lt .second) fun hd =>
    seq (does_dirlink_new .second hdlk hi hlook fun _ => ?_)
  rw [Volume.freeSlot_congr hsize hent, if_neg (by norm_num), Multiset.cons_swap, Finset.insert_comm]
  have hundp : dp ∉ insert ip (∅ : Finset ISlot) := by
    simp only [Finset.mem_insert, Finset.notMem_empty, or_false] at hun ⊢
    exact fun h => hun h.symm
  refine seq (does_iunlockput hundp (hQ ip i _ ?_ ⟨?_, hfree⟩ ⟨_, .inr ⟨true, d, name, rfl,
    .create hd hdir hnew hname hi hpos hfree ht⟩, minor_release hd⟩))
  · rw [Volume.release_type_of_ne _ _ hne, Volume.writeDirent_type, Volume.withInode_type, if_pos rfl]
  · rw [Volume.release_nlink, Volume.writeDirent, (Volume.write_type_nlink _ _ _ _ _).2,
      Volume.withInode_nlink _ _ _ _ hne.symm]

def State.Creates (s : State) (p : Pid) (path : Path) : Prop :=
  ∃ d name, s.resolve true p path = some (d, name) ∧ s.vol.lookup d name = none

theorem does_create {Q : Option ISlot → State → Prop} {type major minor : BitVec 16}
    (g : Good c num 0 ∅ s) (hcwd : (s.tables.cwd p).isSome)
    (hsound : ¬E (.panic .noType) → s.vol.Sound c) (ht : type ≠ 0)
    (hnone : ¬s.Creates p path → ∀ s', GoodAt c num 0 ∅ s.vol s.tables s' → Q none s')
    (hsome : ∀ ip i w, (w.dinode i).type = type →
      Effect c ((s.resolve true p path).map (true, ·)) s.vol w →
      (w = s.vol ∧ Spare s.vol s.tables 0 i ip ∧ ¬s.Creates p path) ∨
        (s.Creates p path ∧ (w.dinode i).nlink = 1 ∧ (s.vol.dinode i).type = 0) →
      ∀ s', GoodAt c num ((ip, i) ::ₘ 0) (insert ip ∅) w s.tables s' → Q (some ip) s') :
    Does c E (GoodAt c num 0 ∅ s.vol s.tables) (create p path type major minor) Q := by
  refine seq (does_namex g hcwd (fun _ => rfl) hsound (fun hres => hnone ?_)
    fun dp d name hres hsp hty => ?_)
  · rintro ⟨d, name, hres', -⟩
    cases hres.symm.trans hres'
  have hdlk : dp ∈ insert dp (∅ : Finset ISlot) := Finset.mem_insert_self _ _
  have hout : ∀ ip : ISlot, ip ∉ (∅ : Finset ISlot) := Finset.notMem_empty
  refine seq (does_ilock .head (fun _ => hout dp) hty fun _ _ =>
    seq (does_dirlookup .head hdlk (fun hdir hlook => ?_) fun hdir k hk ip hspi => ?_))
  · refine does_createNew hlook hdir (resolve_canon hres) ht fun ip i w hty hfresh heff => ?_
    exact hsome ip i w hty (by rw [State.resolve, hres]; exact heff) (.inr ⟨⟨d, name, hres, hlook⟩, hfresh⟩)
  have hnot : ¬s.Creates p path := by
    rintro ⟨d', name', hres', hlook⟩
    cases hres.symm.trans hres'
    cases hk.symm.trans hlook
  obtain ⟨hkn, hlive, -⟩ := Volume.lookup_some hk
  refine assume (c := (ip = dp → (s.vol.ent d k).inum = d) ∧ d < c.ninodes)
    (fun s h => ⟨fun heq => h.known_eq (heq ▸ .head) .second, h.known_lt .second⟩) ?_
  rintro ⟨hsame, hd⟩
  have hspi' : Spare s.vol s.tables 0 (s.vol.ent d k).inum ip := hspi.tail hsp hsame
  rw [Multiset.cons_swap]
  refine seq (does_iunlockput_spare (hout dp) (hsp.cons _) (seq (does_ilock .head (fun _ => hout ip)
    (fun h => (hsound h).ents d hd hdir k hkn hlive) fun _ _ =>
      seq (does_dinode .head (Finset.mem_insert_self _ _) (Triple.ite (fun hfile => ?_) fun _ => ?_)))))
  · exact hsome ip _ _ (hfile.2.trans hfile.1.symm) (.same rfl) (.inl ⟨rfl, hspi', hnot⟩)
  · exact seq (does_iunlockput_spare (hout ip) hspi' (hnone hnot))

theorem Volume.setNlink_setNlink_self (v : Volume) (i : ℕ) (x : BitVec 16) :
    (v.setNlink i x).setNlink i ((v.dinode i).nlink) = v := by
  simp [Volume.setNlink, Volume.setDinode]

theorem Volume.Sound.setNlink (h : v.Sound c) (i : ℕ) (x : BitVec 16) : (v.setNlink i x).Sound c := by
  refine ⟨by rw [(setNlink_alike _ _ _ _).1]; exact h.root, fun d hd hdir k hk hlive => ?_⟩
  rw [ent_setNlink] at hlive ⊢
  rw [(setNlink_alike _ _ _ _).1] at hdir ⊢
  rw [setNlink_nents] at hk
  exact h.ents d hd hdir k hk hlive

theorem Volume.lookup_setNlink (v : Volume) (i : ℕ) (x : BitVec 16) :
    (v.setNlink i x).lookup d name = v.lookup d name :=
  lookup_congr (setNlink_nents _ _ _ _) fun _ _ => rfl

theorem Volume.walk_setNlink (v : Volume) (i : ℕ) (x : BitVec 16) (names : List Name) :
    (v.setNlink i x).walk true names d = v.walk true names d :=
  walk_congr (P := fun _ => True) (fun _ _ _ _ _ => trivial) (fun j _ => (setNlink_alike v i x j).1)
    (fun j _ _ => setNlink_nents v i x j) (fun _ _ _ _ _ => rfl) true trivial

omit [Tolerant E] in
theorem does_sysLinkBad (hty : (v.dinode i).type ≠ 0) (hsp : Spare v t 0 i ip)
    (hQ : ∀ s, GoodAt c num 0 ∅ v t s → Q (-1) s) :
    Does c E (GoodAt c num ((ip, i) ::ₘ 0) ∅ (v.setNlink i ((v.dinode i).nlink + 1)) t)
      (sysLinkBad ip) Q := by
  have hback : ((v.setNlink i ((v.dinode i).nlink + 1)).setNlink i
      (((v.setNlink i ((v.dinode i).nlink + 1)).dinode i).nlink + -1)) = v := by
    rw [Volume.setNlink_dinode, if_pos rfl, add_neg_cancel_right]
    exact v.setNlink_setNlink_self i _
  refine seq (does_ilock .head (fun _ => Finset.notMem_empty ip)
    (fun _ => by rw [(Volume.setNlink_alike _ _ _ _).1]; exact hty) fun hun _ =>
      seq (does_addNlink .head (Finset.mem_insert_self _ _) ?_))
  rw [hback]
  exact seq (does_iunlockput_spare hun hsp hQ)

theorem wp_sysLink {old new : Path} (g : Good c num 0 ∅ s)
    (hcwd : (s.tables.cwd p).isSome) (hfree : ¬E .hang → ¬s.LinksBack p old new)
    (hsound : ¬E (.panic .noType) → s.vol.Sound c)
    (hQ : ∀ r s', Good c num 0 ∅ s' → s'.tables = s.tables → (r = -1 → s'.vol = s.vol) →
      Effect c ((s.resolve true p new).map (true, ·)) s.vol s'.vol → ¬s.LinksBack p old new → Q r s') :
    WP (perform c) E (sysLink p old new) Q s := by
  have hbad : ¬s.LinksBack p old new → ∀ s', GoodAt c num 0 ∅ s.vol s.tables s' → Q (-1) s' :=
    fun hno s' h => hQ _ s' h.good h.tables (fun _ => h.vol) (.same h.vol) hno
  refine wp_of_triple ⟨g, rfl, rfl⟩ (seq (seq (does_namex g hcwd (fun _ => rfl) hsound
    (fun hres => hbad ?_) fun ip i oldName hold hsp hty => ?_)))
  · rintro ⟨⟨i, name, hres', -⟩, -⟩
    cases hres.symm.trans hres'
  have hlk : ∀ ip : ISlot, ip ∈ insert ip (∅ : Finset ISlot) := fun ip => Finset.mem_insert_self _ _
  refine seq (does_ilock .head (fun _ => Finset.notMem_empty ip) hty fun hun hnz =>
    seq (does_dinode .head (hlk ip) (Triple.ite (fun hdir => ?_) fun hdir => ?_)))
  · refine seq (does_iunlockput_spare hun hsp (hbad ?_))
    rintro ⟨⟨j, name, hres, hfile⟩, -⟩
    cases hold.symm.trans hres
    exact hfile hdir
  refine seq (does_addNlink .head (hlk ip) (seq (does_iunlock hun (seq (does_namex g hcwd
    (fun _ => rfl) (fun h => (hsound h).setNlink i _) (fun hpar => does_sysLinkBad hnz hsp (hbad ?_))
    fun dp d name hpar hspd htyd => ?_)))))
  · rw [Volume.walk_setNlink] at hpar
    rintro ⟨-, d, name, hres, -⟩
    cases hpar.symm.trans hres
  rw [Volume.walk_setNlink] at hpar
  have hforth : (∀ k, s.vol.lookup d name = some k → (s.vol.ent d k).inum ≠ d) → ¬s.LinksBack p old new := by
    rintro hne ⟨-, d', name', hres, k, hk, hself⟩
    cases hpar.symm.trans hres
    exact hne k hk hself
  have hback : ¬E .hang → ∀ k, (s.vol.setNlink i ((s.vol.dinode i).nlink + 1)).lookup d name = some k →
      ∀ jp ∈ insert dp (∅ : Finset ISlot), ∃ j, Known num ((dp, d) ::ₘ (ip, i) ::ₘ 0) s.tables jp j ∧
        j ≠ ((s.vol.setNlink i ((s.vol.dinode i).nlink + 1)).ent d k).inum := by
    intro hhang k hk jp hjp
    obtain rfl := Finset.mem_singleton.mp hjp
    rw [Volume.lookup_setNlink] at hk
    exact ⟨d, .head, fun heq => hfree hhang ⟨⟨i, oldName, hold, hdir⟩, d, name, hpar, k, hk, heq.symm⟩⟩
  refine seq (does_ilock .head (fun _ => Finset.notMem_empty dp) htyd fun hund _ =>
    assume (c := d < c.ninodes ∧ i < c.ninodes) (fun s h => ⟨h.known_lt .head, h.known_lt .second⟩) ?_)
  rintro ⟨hd, hi⟩
  refine seq (does_inum .second (seq (does_dirlink .head (hlk dp) hi hback (fun k hk hne => ?_)
    fun hlook hdtype => ?_)))
  · rw [if_pos (by norm_num)]
    rw [Volume.lookup_setNlink] at hk
    have hno := hforth fun k' hk' => by cases hk.symm.trans hk'; exact hne
    exact seq (does_iunlockput_spare hund hspd (does_sysLinkBad hnz hsp (hbad hno)))
  · rw [Volume.lookup_setNlink] at hlook
    rw [(Volume.setNlink_alike _ _ _ _).1] at hdtype
    rw [if_neg (by norm_num), Volume.freeSlot_congr (Volume.setNlink_alike _ _ _ _).2 fun _ => rfl]
    refine seq (does_iunlockput hund (seq (does_iput (fun _ => hun) fun s' h => ?_)))
    refine hQ _ s' h.good h.tables (fun h => nomatch h) ⟨_, .inr ⟨true, d, name, ?_,
      .link hd hdtype hlook (resolve_canon hpar) hi hnz hdir⟩, ?_⟩
      (hforth fun k hk => by cases hk.symm.trans hlook)
    · rw [State.resolve, hpar]
      rfl
    · rw [h.vol]
      exact (minor_release hd).trans (minor_release hi)

omit [Tolerant E] in
theorem does_isdiremptyLoop {Q : Bool → State → Prop} (hip : Known num held t ip i) (hlk : ip ∈ locks)
    (hty : (v.dinode i).type = T_DIR) {n m : ℕ} (hn : m + n = v.nents i)
    (hQ : ∀ b, (b = true ↔ ∀ j, m ≤ j → j < v.nents i → (v.ent i j).inum = 0) →
      ∀ s, GoodAt c num held locks v t s → Q b s) :
    Does c E (GoodAt c num held locks v t) (isdiremptyLoop ip n (DIRENT * m)) Q := by
  induction n generalizing m with
  | zero => exact hQ true (iff_of_true rfl fun j h1 h2 => by omega)
  | succ n ih =>
    refine seq (does_readDirent hip hlk hty (by omega) (Triple.ite (fun hm => ?_) fun hm => ?_))
    · exact hQ false (iff_of_false Bool.false_ne_true fun h => hm (h m le_rfl (by omega)))
    · refine ih (m := m + 1) (by omega) fun b hb => ?_
      refine hQ b (hb.trans ⟨fun h j h1 h2 => ?_, fun h j h1 h2 => h j (by omega) h2⟩)
      rcases Nat.eq_or_lt_of_le h1 with rfl | h1
      · exact not_not.mp hm
      · exact h j h1 h2

omit [Tolerant E] in
theorem does_isdirempty {Q : Bool → State → Prop} (hip : Known num held t ip i) (hlk : ip ∈ locks)
    (hty : (v.dinode i).type = T_DIR)
    (hQ : ∀ b, (b = true ↔ ∀ j, 2 ≤ j → j < v.nents i → (v.ent i j).inum = 0) →
      ∀ s, GoodAt c num held locks v t s → Q b s) :
    Does c E (GoodAt c num held locks v t) (isdirempty ip) Q := by
  refine assume (fun s h => h.wf.nents_mul (h.known_lt hip) hty) fun hsize =>
    seq (does_dinode hip hlk ?_)
  have hcount : direntsFrom (v.dinode i).size (DIRENT * 2) = v.nents i - 2 := by
    rw [direntsFrom, ← hsize]
    simp only [DIRENT, DIRSIZ]
    omega
  rw [Nat.mul_comm 2, hcount]
  by_cases h2 : 2 ≤ v.nents i
  · exact does_isdiremptyLoop hip hlk hty (by omega) hQ
  · rw [Nat.sub_eq_zero_of_le (by omega)]
    exact hQ true (iff_of_true rfl fun j h1 h2 => by omega)

theorem Volume.release_setNlink (v : Volume) {i : ℕ} (hne : i ≠ d) (n : ℕ) (x : BitVec 16) :
    (v.release d n).setNlink i x = (v.setNlink i x).release d n := by
  have hd : (v.setNlink i x).dinode d = v.dinode d := by
    rw [Volume.setNlink_dinode, if_neg hne.symm]
  simp only [Volume.release, hd]
  split_ifs
  · simp only [Volume.setNlink, Volume.free, Volume.setDinode, Function.update_of_ne hne,
      Function.update_of_ne hne.symm]
    rw [Function.update_comm hne]
  · rfl

theorem does_sysUnlinkEntry {k : ℕ} (hne : dp ∉ insert ip (∅ : Finset ISlot))
    (hdir : (v.dinode d).type = T_DIR) (hdot : name ≠ dotName) (hdotdot : name ≠ dotdotName)
    (hk : v.lookup d name = some k) (hty : (v.dinode (v.ent d k).inum).type ≠ 0)
    (hnl : 1 ≤ (v.dinode (v.ent d k).inum).nlink.toInt)
    (hempty : (v.dinode (v.ent d k).inum).type = T_DIR → ∀ j, 2 ≤ j →
      j < v.nents (v.ent d k).inum → (v.ent (v.ent d k).inum j).inum = 0)
    (hQ : ∀ w, Effect c (some (false, d, name)) v w → ∀ s, GoodAt c num 0 ∅ w t s → Q 0 s) :
    Does c E (GoodAt c num ((ip, (v.ent d k).inum) ::ₘ (dp, d) ::ₘ 0) (insert ip (insert dp ∅)) v t)
      (sysUnlinkEntry dp ip (DIRENT * k) ((v.dinode (v.ent d k).inum).type = T_DIR)) Q := by
  have hdlk : dp ∈ insert ip (insert dp (∅ : Finset ISlot)) := by simp
  refine assume (c := 0 < c.ninodes ∧ d < c.ninodes ∧ (v.ent d k).inum < c.ninodes ∧
    (v.ent d k).inum ≠ d) (fun s h => ⟨(Nat.zero_le _).trans_lt h.good.conf.1, h.known_lt .second,
      h.known_lt .head, fun heq => hne (Finset.mem_singleton.mpr (h.slot_eq .second .head heq.symm))⟩) ?_
  rintro ⟨hc, hd, hi, hid⟩
  obtain ⟨hkn, -, -⟩ := Volume.lookup_some hk
  refine seq (does_writeDirent .second hdlk hdir hkn.le hc (fun _ _ => Tolerant.panic (by decide)) ?_)
  rw [if_neg (by simp)]
  -- Both kinds of entry end alike, with the parent's link count settled in `w`.
  have hrest : ∀ w, (w.dinode (v.ent d k).inum).nlink = (v.dinode (v.ent d k).inum).nlink →
      Named c d name false v (w.setNlink (v.ent d k).inum ((v.dinode (v.ent d k).inum).nlink + -1)) →
      Does c E (GoodAt c num ((ip, (v.ent d k).inum) ::ₘ (dp, d) ::ₘ 0) (insert ip (insert dp ∅)) w t)
        (do
          iunlockput dp
          addNlink ip (-1)
          iunlockput ip
          Pure.pure (0 : ℤ)) Q := by
    intro w hnlw hnamed
    rw [Multiset.cons_swap, Finset.insert_comm]
    refine seq (does_iunlockput hne (seq (does_addNlink .head (Finset.mem_insert_self _ _)
      (seq (does_iunlockput (Finset.notMem_empty ip) (hQ _ ⟨_, .inr ⟨false, d, name, rfl, hnamed⟩, ?_⟩))))))
    rw [Volume.release_nlink, hnlw, Volume.release_setNlink _ hid]
    exact (minor_release hd).trans (minor_release hi)
  have hnl1 := fun j => (Volume.write_type_nlink v d (DIRENT * k) (Dirent.encode ⟨0, []⟩) j).2
  by_cases hsub : (v.dinode (v.ent d k).inum).type = T_DIR
  · simp only [hsub, decide_true, if_true]
    refine seq (does_addNlink .second hdlk (hrest _ ?_ ?_))
    · rw [Volume.setNlink_dinode, if_neg hid]
      exact hnl1 _
    · have := Named.unlinkDir hd hdir hdot hdotdot hk hid hsub (hempty hsub) hnl
      rwa [← hnl1 d] at this
  · simp only [hsub, decide_false, Bool.false_eq_true, if_false]
    exact hrest _ (hnl1 _) (.unlinkFile hd hdir hdot hdotdot hk hsub hty hnl)

theorem wp_sysUnlink (g : Good c num 0 ∅ s) (hcwd : (s.tables.cwd p).isSome)
    (hfree : ¬E .hang → s.vol.SelfNamed c) (hsound : ¬E (.panic .noType) → s.vol.Sound c)
    (hQ : ∀ r s', Good c num 0 ∅ s' → s'.tables = s.tables → (r = -1 → s'.vol = s.vol) →
      Effect c ((s.resolve true p path).map (false, ·)) s.vol s'.vol → Q r s') :
    WP (perform c) E (sysUnlink p path) Q s := by
  have hbad : ∀ s', GoodAt c num 0 ∅ s.vol s.tables s' → Q (-1) s' :=
    fun s' h => hQ _ s' h.good h.tables (fun _ => h.vol) (.same h.vol)
  refine wp_of_triple ⟨g, rfl, rfl⟩ (seq (does_namex g hcwd (fun _ => rfl) hsound (fun _ => hbad)
    fun dp d name hres hspd htyd => ?_))
  have hdlk : dp ∈ insert dp (∅ : Finset ISlot) := Finset.mem_insert_self _ _
  refine seq (does_ilock .head (fun _ => Finset.notMem_empty dp) htyd fun hund _ =>
    Triple.ite (fun _ => seq (does_iunlockput_spare hund hspd hbad)) fun hdots =>
      seq (does_dirlookup .head hdlk (fun _ _ => seq (does_iunlockput_spare hund hspd hbad))
        fun hdir k hk ip hspi => ?_))
  push Not at hdots
  obtain ⟨hkn, hlive, hname⟩ := Volume.lookup_some hk
  refine assume (c := d < c.ninodes ∧ (ip = dp → (s.vol.ent d k).inum = d))
    (fun s h => ⟨h.known_lt .second, fun heq => h.known_eq (heq ▸ .head) .second⟩) ?_
  rintro ⟨hd, hself⟩
  have hother : ¬E .hang → ip ∉ insert dp (∅ : Finset ISlot) := by
    intro hhang hmem
    have hnames := hfree hhang d hd hdir k hkn hlive (hself (Finset.mem_singleton.mp hmem))
    rw [← hname] at hnames
    exact hnames.elim hdots.1 hdots.2
  refine seq (does_ilock .head hother (fun h => (hsound h).ents d hd hdir k hkn hlive) fun hun hnz =>
    seq (does_dinode .head (Finset.mem_insert_self _ _) (Triple.ite
      (fun _ _ _ => Tolerant.panic (by decide)) fun hnl => ?_)))
  have hne : dp ∉ insert ip (∅ : Finset ISlot) := by
    simp only [Finset.mem_insert, Finset.notMem_empty, or_false] at hun ⊢
    exact fun h => hun h.symm
  have hfinish : ∀ b, (b = true → (s.vol.dinode (s.vol.ent d k).inum).type = T_DIR → ∀ j, 2 ≤ j →
      j < s.vol.nents (s.vol.ent d k).inum → (s.vol.ent (s.vol.ent d k).inum j).inum = 0) →
      Does c E (GoodAt c num ((ip, (s.vol.ent d k).inum) ::ₘ (dp, d) ::ₘ 0) (insert ip (insert dp ∅))
        s.vol s.tables)
        (if b = false then do
          iunlockput ip
          iunlockput dp
          Pure.pure (-1 : ℤ)
        else sysUnlinkEntry dp ip (DIRENT * k)
          ((s.vol.dinode (s.vol.ent d k).inum).type = T_DIR)) Q := by
    refine fun b hb => Triple.ite (fun _ => ?_) fun hb' => ?_
    · exact seq (does_iunlockput_spare hun hspi (seq (does_iunlockput_spare hund hspd hbad)))
    · refine does_sysUnlinkEntry hne hdir hdots.1 hdots.2 hk hnz (by omega) (hb (by simpa using hb'))
        fun w heff s' h => hQ 0 s' h.good h.tables (fun h => nomatch h) ?_
      rw [State.resolve, hres, h.vol]
      exact heff
  refine Triple.ite (fun hsub => ?_) fun hsub => hfinish true fun _ h => absurd h hsub
  exact seq (does_isdirempty .head (Finset.mem_insert_self _ _) hsub fun b hb =>
    hfinish b fun h _ => hb.mp h)

end Xv6.Fs
