import Xv6.Fs.Cache

/-!
# Rules for the operations of the inode layer

One rule for each operation, under the contract `Good` with the volume and the tables of the state
made explicit.
-/

namespace Xv6.Fs

open Lib Lib.Prog Function

structure GoodAt (c : Conf) (num : ISlot → ℕ) (held : Refs) (locks : Finset ISlot) (v : Volume)
    (t : Tables) (s : State) : Prop where
  good : Good c num held locks s
  vol : s.vol = v
  tables : s.tables = t

/-- Slot `ip` holds inode `i`: the call has a reference to it, or the tables have one. -/
def Known (num : ISlot → ℕ) (held : Refs) (t : Tables) (ip : ISlot) (i : ℕ) : Prop :=
  (ip, i) ∈ held ∨ 0 < t.refs ip ∧ num ip = i

abbrev Does (c : Conf) (E : Fault → Prop) {α : Type} (P : State → Prop) (p : FsProg α)
    (Q : α → State → Prop) : Prop :=
  Triple (perform c) E P p Q

variable {c : Conf} {E : Fault → Prop} {num : ISlot → ℕ} {held : Refs} {locks : Finset ISlot} {s : State}
variable {v : Volume} {t : Tables} {ip : ISlot} {i : ℕ}

theorem Known.head : Known num ((ip, i) ::ₘ held) t ip i := .inl (Multiset.mem_cons_self _ _)

theorem Known.second {x : ISlot × ℕ} : Known num (x ::ₘ (ip, i) ::ₘ held) t ip i :=
  .inl (Multiset.mem_cons_of_mem (Multiset.mem_cons_self _ _))

theorem Good.known (g : Good c num held locks s) (h : Known num held s.tables ip i) :
    0 < (s.cache ip).ref ∧ (s.cache ip).inum = i := by
  rcases h with h | ⟨hpos, rfl⟩
  · exact ⟨g.ref_pos_of_held h, g.inum _ h⟩
  · exact ⟨g.ref_pos_of_table hpos, g.home ip hpos⟩

section

variable (h : GoodAt c num held locks v t s)
include h

theorem GoodAt.known_lt (hk : Known num held t ip i) : i < c.ninodes := by
  obtain ⟨g, rfl, rfl⟩ := h
  obtain ⟨hpos, rfl⟩ := g.known hk
  exact g.range ip hpos

theorem GoodAt.locked_type (hk : Known num held t ip i)
    (hlk : ip ∈ locks) : (v.dinode i).type ≠ 0 := by
  obtain ⟨g, rfl, rfl⟩ := h
  obtain ⟨hpos, rfl⟩ := g.known hk
  exact (g.sync ip hpos (g.lockValid ip hlk).2).2

theorem GoodAt.used (hpos : 0 < t.refs ip) : (v.dinode (num ip)).type ≠ 0 := by
  obtain ⟨g, rfl, rfl⟩ := h
  rw [← g.home ip hpos]
  exact g.used ip hpos

theorem GoodAt.writable {f : FileSlot}
    (hf : (t.file f).type = .inode) (hw : (t.file f).writable = true) :
    (v.dinode (num (t.file f).ip)).type ≠ T_DIR := by
  obtain ⟨g, rfl, rfl⟩ := h
  rw [← g.home _ (Good.table_refs_pos hf)]
  exact g.writable f hf hw

theorem GoodAt.closed (f : FileSlot) (hf : (t.file f).ref = 0) : (t.file f).type = .none := by
  obtain ⟨g, rfl, rfl⟩ := h
  exact g.closed f hf

theorem GoodAt.wf : v.WF c := h.vol ▸ h.good.vol

theorem GoodAt.known_eq {j : ℕ} (hi : Known num held t ip i)
    (hj : Known num held t ip j) : i = j := by
  obtain ⟨g, rfl, rfl⟩ := h
  exact (g.known hi).2.symm.trans (g.known hj).2

theorem GoodAt.slot_eq {jp : ISlot} {j : ℕ}
    (hi : Known num held t ip i) (hj : Known num held t jp j) (hij : i = j) : ip = jp := by
  obtain ⟨g, rfl, rfl⟩ := h
  obtain ⟨hpos, hi⟩ := g.known hi
  obtain ⟨hpos', hj⟩ := g.known hj
  exact g.uniq ip jp hpos hpos' (hi.trans (hij.trans hj.symm))

end

theorem Good.locked_ne (g : Good c num held locks s) (hlk : ip ∈ locks) : (s.cache ip).locked ≠ false := by
  simp [(g.lock ip).mpr hlk]

theorem does_iget [CacheFull E] {Q : ISlot → State → Prop} (hi : i < c.ninodes)
    (hQ : ∀ ip, Spare v t held i ip → ∀ s, GoodAt c num ((ip, i) ::ₘ held) locks v t s → Q ip s) :
    Does c E (GoodAt c num held locks v t) (iget i) Q := by
  rintro s ⟨g, rfl, rfl⟩
  simp only [iget, wp_call, perform, if_neg (Nat.not_le.mpr hi)]
  rcases s.iget_cases i with ⟨jp, hpos, hj, hok⟩ | ⟨jp, h0, hnone, hok⟩ | ⟨-, herr⟩
  · rw [hok]
    exact hQ jp (g.spare hi hj hpos) _ ⟨g.more hpos hj, rfl, rfl⟩
  · rw [hok]
    refine hQ jp (fun hty hnl => ?_) _ ⟨g.fresh hi hnone h0, rfl, rfl⟩
    obtain ⟨kp, h1, h2, -⟩ := g.kept i hi hty hnl
    exact absurd h1 (hnone kp h2)
  · rw [herr]
    exact CacheFull.noInodes

variable {Q : Unit → State → Prop}

theorem does_idup (hk : Known num held t ip i)
    (hQ : Spare v t held i ip → ∀ s, GoodAt c num ((ip, i) ::ₘ held) locks v t s → Q () s) :
    Does c E (GoodAt c num held locks v t) (idup ip) Q := by
  rintro s ⟨g, rfl, rfl⟩
  obtain ⟨hpos, hi⟩ := g.known hk
  simp only [idup, wp_call, perform, if_neg (Nat.pos_iff_ne_zero.mp hpos)]
  exact hQ (g.spare (hi ▸ g.range ip hpos) hi hpos) _ ⟨g.more hpos hi, rfl, rfl⟩

theorem does_iput (hfree : ¬E .hang → ip ∉ locks)
    (hQ : ∀ s, GoodAt c num held locks (v.release i (t.refs ip + heldRefs held ip)) t s → Q () s) :
    Does c E (GoodAt c num ((ip, i) ::ₘ held) locks v t) (iput ip) Q := by
  rintro s ⟨g, rfl, rfl⟩
  obtain ⟨hi, hpos, href⟩ := g.held_first
  have hlt : i < c.ninodes := hi ▸ g.range ip hpos
  simp only [iput, wp_call, perform, if_neg (Nat.pos_iff_ne_zero.mp hpos), State.iput]
  by_cases hlk : (s.cache ip).locked = true
  · simp only [if_pos hlk]
    by_contra hhang
    exact hfree hhang ((g.lock ip).mp hlk)
  · have hunlocked : ip ∉ locks := fun h => hlk ((g.lock ip).mpr h)
    simp only [if_neg hlk]
    by_cases hlast : (s.cache ip).valid = true ∧ (s.cache ip).din.nlink = 0 ∧ (s.cache ip).ref = 1
    · have hsync := g.sync ip hpos hlast.1
      rw [hi] at hsync
      have hzero : s.tables.refs ip + heldRefs held ip = 0 := by omega
      have hnl : (s.vol.dinode i).nlink = 0 := hsync.1 ▸ hlast.2.1
      have hrel : s.vol.release i (s.tables.refs ip + heldRefs held ip) = s.vol.free i :=
        if_pos ⟨hsync.2, hnl, hzero⟩
      have hvol : s.vol.setDinode (s.cache ip).inum
          { (s.cache ip).din with type := 0, size := 0 } = s.vol.free i := by
        rw [hi, hsync.1]
        rfl
      have hg := g.freed hunlocked hzero
      rw [← hsync.1] at hg
      simp only [if_pos hlast, hvol]
      exact hQ _ ⟨hg, hrel.symm, rfl⟩
    · simp only [if_neg hlast]
      have hsp : Spare s.vol s.tables held i ip := by
        intro hty hnl
        obtain ⟨jp, h1, h2, h3⟩ := g.kept i hlt hty hnl
        obtain rfl : jp = ip := g.uniq jp ip h2 hpos (h1.trans hi.symm)
        by_contra hcon
        refine hlast ⟨h3, ?_, by omega⟩
        rw [(g.sync jp h2 h3).1, hi]
        exact hnl
      have hvol : s.vol.release i (s.tables.refs ip + heldRefs held ip) = s.vol :=
        if_neg fun h => absurd (hsp h.1 h.2.1) (by omega)
      exact hQ _ ⟨g.put hunlocked hsp, hvol.symm, rfl⟩

theorem does_iput_spare (hfree : ¬E .hang → ip ∉ locks)
    (hsp : Spare v t held i ip) (hQ : ∀ s, GoodAt c num held locks v t s → Q () s) :
    Does c E (GoodAt c num ((ip, i) ::ₘ held) locks v t) (iput ip) Q :=
  does_iput hfree (by rw [hsp.release]; exact hQ)

theorem does_ilock (hk : Known num held t ip i)
    (hfree : ¬E .hang → ip ∉ locks) (hty : ¬E (.panic .noType) → (v.dinode i).type ≠ 0)
    (hQ : ip ∉ locks → (v.dinode i).type ≠ 0 →
      ∀ s, GoodAt c num held (insert ip locks) v t s → Q () s) :
    Does c E (GoodAt c num held locks v t) (ilock ip) Q := by
  rintro s ⟨g, rfl, rfl⟩
  obtain ⟨hpos, rfl⟩ := g.known hk
  simp only [ilock, wp_call, perform, State.ilock, if_neg (Nat.not_lt.mpr hpos)]
  by_cases hlk : (s.cache ip).locked = true
  · simp only [if_pos hlk]
    by_contra hhang
    exact hfree hhang ((g.lock ip).mp hlk)
  · have hunlocked : ip ∉ locks := fun h => hlk ((g.lock ip).mpr h)
    simp only [if_neg hlk]
    by_cases hval : (s.cache ip).valid = true
    · have hsync := g.sync ip hpos hval
      have hx : ({ s.cache ip with locked := true } : Inode) = { s.cache ip with
          locked := true, valid := true, din := s.vol.dinode (s.cache ip).inum } := by
        simp only [hval, ← hsync.1]
      simp only [if_pos hval, hx]
      exact hQ hunlocked hsync.2 _ ⟨g.locked hpos hsync.2, rfl, rfl⟩
    · simp only [if_neg hval]
      by_cases hzero : (s.vol.dinode (s.cache ip).inum).type = 0
      · simp only [if_pos hzero]
        by_contra hnoType
        exact hty hnoType hzero
      · simp only [if_neg hzero]
        exact hQ hunlocked hzero _ ⟨g.locked hpos hzero, rfl, rfl⟩

theorem does_iunlock (hun : ip ∉ locks)
    (hQ : ∀ s, GoodAt c num held locks v t s → Q () s) :
    Does c E (GoodAt c num held (insert ip locks) v t) (iunlock ip) Q := by
  rintro s ⟨g, rfl, rfl⟩
  have hlk : ip ∈ insert ip locks := Finset.mem_insert_self _ _
  have hl := (g.lock ip).mpr hlk
  have hpos := (g.lockValid ip hlk).1
  have hok : ¬ ((s.cache ip).locked = false ∨ (s.cache ip).ref < 1) := by
    rw [hl]
    exact fun h => h.elim (by simp) (by omega)
  simp only [iunlock, wp_call, perform, Kernel.iunlock, if_neg hok]
  have hg := g.unlocked hpos
  rw [Finset.erase_insert hun] at hg
  exact hQ _ ⟨hg, rfl, rfl⟩

theorem does_iunlockput (hun : ip ∉ locks)
    (hQ : ∀ s, GoodAt c num held locks (v.release i (t.refs ip + heldRefs held ip)) t s → Q () s) :
    Does c E (GoodAt c num ((ip, i) ::ₘ held) (insert ip locks) v t) (iunlockput ip) Q :=
  .seq (does_iunlock hun (does_iput (fun _ => hun) hQ))

theorem does_iunlockput_spare (hun : ip ∉ locks)
    (hsp : Spare v t held i ip) (hQ : ∀ s, GoodAt c num held locks v t s → Q () s) :
    Does c E (GoodAt c num ((ip, i) ::ₘ held) (insert ip locks) v t) (iunlockput ip) Q :=
  does_iunlockput hun (by rw [hsp.release]; exact hQ)

theorem does_inum {Q : ℕ → State → Prop} (hk : Known num held t ip i)
    (hQ : ∀ s, GoodAt c num held locks v t s → Q i s) :
    Does c E (GoodAt c num held locks v t) (inum ip) Q := by
  rintro s ⟨g, rfl, rfl⟩
  simp only [inum, wp_call, perform, (g.known hk).2]
  exact hQ s ⟨g, rfl, rfl⟩

theorem does_dinode {Q : Dinode → State → Prop} (hk : Known num held t ip i) (hlk : ip ∈ locks)
    (hQ : ∀ s, GoodAt c num held locks v t s → Q (v.dinode i) s) :
    Does c E (GoodAt c num held locks v t) (dinode ip) Q := by
  rintro s ⟨g, rfl, rfl⟩
  obtain ⟨-, rfl⟩ := g.known hk
  have hv := g.lockValid ip hlk
  simp only [dinode, wp_call, perform, (g.sync ip hv.1 hv.2).1]
  exact hQ s ⟨g, rfl, rfl⟩

theorem Good.updated (g : Good c num held locks s) (hlk : ip ∈ locks) (hi : (s.cache ip).inum = i)
    {d : Dinode} (hty : d.type = (s.vol.dinode i).type) {v : Volume}
    (hv : v.dinode = update s.vol.dinode i d) (hwf : v.WF c) :
    Good c num held locks { s.setInode ip { s.cache ip with din := d } with vol := v } := by
  obtain ⟨hpos, hval⟩ := g.lockValid ip hlk
  have hsync := g.sync ip hpos hval
  have hsame : v.dinode i = d := by rw [hv, update_self]
  have hother : ∀ j ≠ i, v.dinode j = s.vol.dinode j := by
    intro j hj
    rw [hv, update_of_ne hj]
  have hothers : ∀ jp ≠ ip, 0 < (s.cache jp).ref → (s.cache jp).inum ≠ i :=
    fun jp hne hjp heq => hne (g.uniq jp ip hjp hpos (heq.trans hi.symm))
  have htype : (v.dinode (s.cache ip).inum).type = (s.vol.dinode (s.cache ip).inum).type := by
    rw [hi, hsame, hty]
  refine g.change hwf (fun jp hne hjp => hother _ (hothers jp hne hjp)) (g.ref ip)
    (fun _ _ => rfl) (g.held_inum rfl) (g.lock ip) (fun _ _ => Iff.rfl) (g.lockValid ip)
    (fun _ jp hne hjp => hi ▸ hothers jp hne hjp) (g.range ip) (fun _ _ => ?_) ?_ (g.home ip) ?_ ?_
  · exact ⟨by rw [hi, hsame], htype ▸ hsync.2⟩
  · intro j hj htj hnl
    by_cases hji : j = i
    · exact .inl ⟨hi.trans hji.symm, hpos, hval⟩
    · rw [hother j hji] at htj hnl
      obtain ⟨jp, h1, h2, h3⟩ := g.kept j hj htj hnl
      exact .inr ⟨jp, fun h => hji (by rw [← h1, h, hi]), h1, h2, h3⟩
  · intro hrefs
    rw [htype]
    exact g.used ip hrefs
  · intro f hf hty' hw
    have := g.writable f hty' hw
    rw [hf] at this
    rw [htype]
    exact this

theorem Good.iupdated (g : Good c num held locks s) (hlk : ip ∈ locks) {d : Dinode}
    (hty : d.type = (s.vol.dinode (s.cache ip).inum).type)
    (hsize : d.size = (s.vol.dinode (s.cache ip).inum).size) :
    Good c num held locks (s.iupdate ip d) :=
  g.updated hlk rfl hty rfl (g.vol.setDinode hty hsize)

theorem does_addNlink {x : BitVec 16} (hk : Known num held t ip i)
    (hlk : ip ∈ locks)
    (hQ : ∀ s, GoodAt c num held locks (v.setNlink i ((v.dinode i).nlink + x)) t s → Q () s) :
    Does c E (GoodAt c num held locks v t) (addNlink ip x) Q := by
  refine .seq (does_dinode hk hlk ?_)
  rintro s ⟨g, rfl, rfl⟩
  obtain ⟨hpos, rfl⟩ := g.known hk
  have hsync := (g.sync ip hpos (g.lockValid ip hlk).2).1
  simp only [updateNlink, wp_call, perform, if_neg (g.locked_ne hlk), hsync]
  exact hQ _ ⟨g.iupdated hlk rfl rfl, rfl, rfl⟩

theorem does_updateNew {major minor : BitVec 16}
    (hk : Known num held t ip i) (hlk : ip ∈ locks)
    (hQ : ∀ s, GoodAt c num held locks (v.setNew i major minor) t s → Q () s) :
    Does c E (GoodAt c num held locks v t) (updateNew ip major minor) Q := by
  rintro s ⟨g, rfl, rfl⟩
  obtain ⟨hpos, rfl⟩ := g.known hk
  have hsync := (g.sync ip hpos (g.lockValid ip hlk).2).1
  simp only [updateNew, wp_call, perform, if_neg (g.locked_ne hlk), hsync]
  exact hQ _ ⟨g.iupdated hlk rfl rfl, rfl, rfl⟩

theorem Good.allocated (g : Good c num held locks s) {t : BitVec 16} (hi : i < c.ninodes)
    (hfree : (s.vol.dinode i).type = 0) (ht : t ≠ 0)
    (hslot : (s.cache ip).inum = i ∧ 0 < (s.cache ip).ref ∨
      (s.cache ip).ref = 0 ∧ ∀ jp, 0 < (s.cache jp).ref → (s.cache jp).inum ≠ i) :
    ip ∉ locks ∧ Good c num ((ip, i) ::ₘ held) (insert ip locks)
      { s.setInode ip ⟨i, (s.cache ip).ref + 1, true, true, ⟨t, 0, 0, 0, 0⟩⟩ with
        vol := s.vol.setDinode i ⟨t, 0, 0, 0, 0⟩ } := by
  have hothers : ∀ jp ≠ ip, 0 < (s.cache jp).ref → (s.cache jp).inum ≠ i := by
    intro jp hne hjp heq
    rcases hslot with ⟨h1, h2⟩ | ⟨-, h2⟩
    · exact hne (g.uniq jp ip hjp h2 (heq.trans h1.symm))
    · exact h2 jp hjp heq
  have hunused : s.tables.refs ip = 0 := by
    rcases hslot with ⟨h1, -⟩ | ⟨h1, -⟩
    · exact Nat.eq_zero_of_not_pos fun h => g.used ip h (h1 ▸ hfree)
    · have := g.ref ip
      omega
  have hunlocked : ip ∉ locks := by
    intro hlk
    obtain ⟨hpos, hval⟩ := g.lockValid ip hlk
    rcases hslot with ⟨h1, -⟩ | ⟨h1, -⟩
    · exact (g.sync ip hpos hval).2 (h1 ▸ hfree)
    · omega
  have hsame : (s.vol.setDinode i ⟨t, 0, 0, 0, 0⟩).dinode i = ⟨t, 0, 0, 0, 0⟩ := by
    simp [Volume.setDinode]
  have hother : ∀ j ≠ i, (s.vol.setDinode i ⟨t, 0, 0, 0, 0⟩).dinode j = s.vol.dinode j := by
    intro j hj
    simp [Volume.setDinode, hj]
  refine ⟨hunlocked, g.change (g.vol.setEmpty rfl) (fun jp hne hjp => hother _ (hothers jp hne hjp))
    ?_ ?_ ?_ (by simp) ?_ (fun _ => ⟨Nat.succ_pos _, rfl⟩) (fun _ => hothers) (fun _ => hi)
    (fun _ _ => ⟨hsame.symm, by rw [hsame]; exact ht⟩) ?_ (fun h => absurd h (by omega))
    (fun _ => by rw [hsame]; exact ht) ?_⟩
  · simp only [g.ref ip, heldRefs_cons, if_pos]
    omega
  · intro jp hjp
    simp [hjp]
  · intro y hy
    rcases Multiset.mem_cons.mp hy with rfl | hy
    · exact .inl ⟨rfl, rfl⟩
    · by_cases h : y.1 = ip
      · refine .inl ⟨h, ?_⟩
        have hpos := g.ref_pos_of_held hy
        have hinum := g.inum y hy
        rw [h] at hpos hinum
        rcases hslot with ⟨h1, -⟩ | ⟨h1, -⟩
        · exact h1.symm.trans hinum
        · omega
      · exact .inr ⟨h, hy⟩
  · intro jp hjp
    simp [hjp]
  · intro j hj htj hnl
    by_cases hji : j = i
    · exact .inl ⟨hji.symm, Nat.succ_pos _, rfl⟩
    · rw [hother j hji] at htj hnl
      obtain ⟨jp, h1, h2, h3⟩ := g.kept j hj htj hnl
      refine .inr ⟨jp, ?_, h1, h2, h3⟩
      rintro rfl
      rcases hslot with ⟨h4, -⟩ | ⟨h4, -⟩
      · exact hji (h1.symm.trans h4)
      · omega
  · intro f hf hty
    have := Good.table_refs_pos hty
    rw [hf] at this
    omega

theorem does_ialloc_ilock [Tolerant E] {α : Type} {k : ISlot → FsProg α} {Q : α → State → Prop}
    {type : BitVec 16} (ht : type ≠ 0)
    (hQ : ∀ ip i, 0 < i → i < c.ninodes → (v.dinode i).type = 0 → ip ∉ locks →
      Does c E (GoodAt c num ((ip, i) ::ₘ held) (insert ip locks)
        (v.setDinode i ⟨type, 0, 0, 0, 0⟩) t) (k ip) Q) :
    Does c E (GoodAt c num held locks v t)
      (do
        let ip ← ialloc type
        ilock ip
        k ip) Q := by
  rintro s ⟨g, rfl, rfl⟩
  simp only [wp_bind, ialloc, wp_call, perform, if_neg ht, State.ialloc]
  cases hfind : (List.range' 1 (c.ninodes - 1)).find?
      (fun i => decide ((s.vol.dinode i).type = 0)) with
  | none => exact Tolerant.panic (by decide)
  | some i =>
    have hfree := List.find?_some hfind
    simp only [decide_eq_true_eq] at hfree
    have hmem := List.mem_range'_1.mp (List.mem_of_find?_eq_some hfind)
    have hi : i < c.ninodes := by omega
    have hpos : 0 < i := by omega
    -- The lock is taken on the slot that `iget` returned: one change of that slot in all.
    have hlock : ∀ jp x, x.inum = i → x.ref = (s.cache jp).ref + 1 → x.valid = false →
        x.locked = (s.cache jp).locked →
        ((s.cache jp).inum = i ∧ 0 < (s.cache jp).ref ∨
          (s.cache jp).ref = 0 ∧ ∀ kp, 0 < (s.cache kp).ref → (s.cache kp).inum ≠ i) →
        WP (perform c) E (ilock jp) (fun _ => WP (perform c) E (k jp) Q)
          (Kernel.setInode { s with vol := s.vol.setDinode i ⟨type, 0, 0, 0, 0⟩ } jp x) := by
      intro jp x hx hxr hxv hxl hslot
      obtain ⟨hunlocked, hg⟩ := g.allocated hi hfree ht hslot
      have hnl : ¬ x.locked = true := by
        rw [hxl]
        exact fun h => hunlocked ((g.lock jp).mp h)
      have hres : State.ilock jp
          (Kernel.setInode { s with vol := s.vol.setDinode i ⟨type, 0, 0, 0, 0⟩ } jp x) =
          .ok ((), { s.setInode jp ⟨i, (s.cache jp).ref + 1, true, true, ⟨type, 0, 0, 0, 0⟩⟩ with
            vol := s.vol.setDinode i ⟨type, 0, 0, 0, 0⟩ }) := by
        simp [State.ilock, Kernel.setInode, hx, hxr, hxv, hnl, Volume.setDinode]
        exact ht
      simp only [ilock, wp_call, perform, hres]
      exact hQ jp i hpos hi hfree hunlocked _ ⟨hg, rfl, rfl⟩
    rcases Kernel.iget_cases { s with vol := s.vol.setDinode i ⟨type, 0, 0, 0, 0⟩ } i with
      ⟨jp, hjpos, hj, hok⟩ | ⟨jp, h0, hnone, hok⟩ | ⟨-, herr⟩
    · simp only [hok]
      refine hlock jp { s.cache jp with ref := (s.cache jp).ref + 1 } hj rfl ?_ rfl (.inl ⟨hj, hjpos⟩)
      by_contra hval
      exact (g.sync jp hjpos (by simpa using hval)).2 (hj.symm ▸ hfree)
    · simp only [hok]
      have h1 : 1 = (s.cache jp).ref + 1 := by rw [h0]
      exact hlock jp { s.cache jp with inum := i, ref := 1, valid := false } rfl h1 rfl rfl (.inr ⟨h0, hnone⟩)
    · simp only [herr]
      exact Tolerant.panic (by decide)

theorem does_readDirent {Q : Option Dirent → State → Prop} {d k : ℕ} (hdp : Known num held t ip d)
    (hlk : ip ∈ locks) (hd : (v.dinode d).type = T_DIR) (hk : k < v.nents d)
    (hQ : ∀ s, GoodAt c num held locks v t s → Q (some (v.ent d k)) s) :
    Does c E (GoodAt c num held locks v t) (readDirent ip (DIRENT * k)) Q := by
  rintro s ⟨g, rfl, rfl⟩
  have hval := (g.lockValid ip hlk).2
  obtain ⟨hpos, hi⟩ := g.known hdp
  have hlt : d < c.ninodes := hi ▸ g.range ip hpos
  have hsync : (s.cache ip).din = s.vol.dinode d := hi ▸ (g.sync ip hpos hval).1
  have hsize := g.vol.nents_mul hlt hd
  have hmax := g.vol.size_le d hlt
  have hread : s.readi c ip (DIRENT * k) DIRENT = some (slice (s.vol.bytes d) (DIRENT * k) DIRENT) := by
    have hfull : min DIRENT ((s.vol.dinode d).size - DIRENT * k) = DIRENT := by
      rw [← hsize, ← Nat.mul_sub]
      exact min_eq_left (Nat.le_mul_of_pos_right _ (Nat.sub_pos_of_lt hk))
    have hin : ¬ ((s.vol.dinode d).size < DIRENT * k ∨ (DIRENT * k + DIRENT) % 2 ^ 32 < DIRENT * k) := by
      rw [← hsize] at hmax ⊢
      simp only [DIRENT, DIRSIZ, MAXFILE, NDIRECT, NINDIRECT, BSIZE] at *
      omega
    rw [State.readi, hsync, hi]
    simp only [hd, if_neg hin, hfull]
    rfl
  simp only [readDirent, wp_call, perform, if_neg (g.locked_ne hlk), State.readDirent, hread, length_slice,
    if_true, decode_slice]
  exact hQ s ⟨g, rfl, rfl⟩

variable {src : List Byte}

theorem State.writei_eq {off : ℕ} (hsync : (s.cache ip).din = s.vol.dinode (s.cache ip).inum)
    (hdev : (s.vol.dinode (s.cache ip).inum).type ≠ T_DEV)
    (hoff : off ≤ (s.vol.dinode (s.cache ip).inum).size)
    (hfit : off + src.length ≤ MAXFILE * BSIZE) : s.writei c ip src off = ((src.length : ℤ),
      { s.setInode ip { s.cache ip with
          din := (s.vol.write (s.cache ip).inum off src).dinode (s.cache ip).inum } with
        vol := s.vol.write (s.cache ip).inum off src }) := by
  have hin : ¬ ((s.vol.dinode (s.cache ip).inum).size < off ∨
      (off + src.length) % 2 ^ 32 < off) := by
    simp only [MAXFILE, NDIRECT, NINDIRECT, BSIZE] at hfit
    omega
  rw [State.writei]
  simp only [hsync, if_neg hdev, if_neg hin, if_neg (Nat.not_lt.mpr hfit)]
  by_cases hgrow : 0 < src.length ∧ (s.vol.dinode (s.cache ip).inum).size < off + src.length
  · have hmax : max (s.vol.dinode (s.cache ip).inum).size (off + src.length) = off + src.length :=
      max_eq_right hgrow.2.le
    simp only [if_pos hgrow, Volume.write, if_pos hgrow.1, hmax, update_self]
    rfl
  · have hsame : (if 0 < src.length then max (s.vol.dinode (s.cache ip).inum).size (off + src.length)
        else (s.vol.dinode (s.cache ip).inum).size) = (s.vol.dinode (s.cache ip).inum).size := by
      split_ifs <;> omega
    simp only [if_neg hgrow, Volume.write, hsame, update_eq_self, Kernel.setInode]
    rw [← hsync, update_eq_self]

theorem State.writei_fail {off : ℕ} (hsync : (s.cache ip).din = s.vol.dinode (s.cache ip).inum)
    (hdev : (s.vol.dinode (s.cache ip).inum).type ≠ T_DEV)
    (hoff : ¬ (off ≤ (s.vol.dinode (s.cache ip).inum).size ∧ off + src.length ≤ MAXFILE * BSIZE)) :
    s.writei c ip src off = (-1, s) := by
  rw [State.writei]
  simp only [hsync, if_neg hdev]
  split_ifs with h1 h2
  · rfl
  · rfl
  · exact absurd ⟨by omega, by omega⟩ hoff
  · exact absurd ⟨by omega, by omega⟩ hoff

theorem does_writei {Q : ℤ → State → Prop} {off : ℕ} (hk : Known num held t ip i)
    (hlk : ip ∈ locks) (hd : (v.dinode i).type ≠ T_DIR)
    (hQ : ∀ r w, w = v ∨ w = v.write i off src → ∀ s, GoodAt c num held locks w t s → Q r s) :
    Does c E (GoodAt c num held locks v t) (writei ip src off) Q := by
  rintro s ⟨g, rfl, rfl⟩
  have hval := (g.lockValid ip hlk).2
  obtain ⟨hpos, rfl⟩ := g.known hk
  have hsync := (g.sync ip hpos hval).1
  have hok : ¬ ((s.cache ip).locked = false ∨ (s.cache ip).din.type = T_DIR) := by
    rw [hsync, (g.lock ip).mpr hlk]
    exact fun h => h.elim (by simp) hd
  simp only [writei, wp_call, perform, if_neg hok]
  by_cases hdev : (s.vol.dinode (s.cache ip).inum).type = T_DEV
  · simp only [State.writei, hsync, hdev, if_true]
    cases c.driver (s.vol.dinode (s.cache ip).inum).major with
    | none | some dev => exact hQ _ _ (.inl rfl) _ ⟨g, rfl, rfl⟩
  · by_cases hoff : off ≤ (s.vol.dinode (s.cache ip).inum).size ∧
        off + src.length ≤ MAXFILE * BSIZE
    · rw [State.writei_eq hsync hdev hoff.1 hoff.2]
      refine hQ _ _ (.inr rfl) _ ⟨g.updated hlk rfl ?_ ?_ (g.vol.write hd hoff.2), rfl, rfl⟩
      · rw [Volume.write_dinode, if_pos rfl]
      · funext j
        rw [Volume.write_dinode, Volume.write_dinode, if_pos rfl, update_apply]
    · rw [State.writei_fail hsync hdev hoff]
      exact hQ _ _ (.inl rfl) _ ⟨g, rfl, rfl⟩

theorem does_writeDirent {Q : ℤ → State → Prop} {d k : ℕ} {de : Dirent} (hdp : Known num held t ip d)
    (hlk : ip ∈ locks) (hd : (v.dinode d).type = T_DIR) (hk : k ≤ v.nents d)
    (hde : de.inum < c.ninodes) (hfail : ∀ s, GoodAt c num held locks v t s → Q (-1) s)
    (hQ : ∀ s, GoodAt c num held locks (v.writeDirent d de k) t s → Q DIRENT s) :
    Does c E (GoodAt c num held locks v t) (writeDirent ip de (DIRENT * k)) Q := by
  rintro s ⟨g, rfl, rfl⟩
  obtain ⟨hpos, rfl⟩ := g.known hdp
  have hlt := g.range ip hpos
  have hsync := (g.sync ip hpos (g.lockValid ip hlk).2).1
  have hok : ¬ ((s.cache ip).locked = false ∨ (s.cache ip).din.type ≠ T_DIR ∨
      c.ninodes ≤ de.inum) := by
    rw [hsync]
    simp [(g.lock ip).mpr hlk, hd, hde]
  have hsize := g.vol.nents_mul hlt hd
  have hdev : (s.vol.dinode (s.cache ip).inum).type ≠ T_DEV := by
    rw [hd]
    decide
  have hoff : DIRENT * k ≤ (s.vol.dinode (s.cache ip).inum).size := by
    rw [← hsize]
    exact Nat.mul_le_mul_left _ hk
  simp only [writeDirent, wp_call, perform, if_neg hok]
  by_cases hfit : DIRENT * (k + 1) ≤ MAXFILE * BSIZE
  · have hfit' : DIRENT * k + de.encode.length ≤ MAXFILE * BSIZE := by
      rw [Dirent.length_encode, ← Nat.mul_succ]
      exact hfit
    rw [State.writei_eq hsync hdev hoff hfit', Dirent.length_encode]
    refine hQ _ ⟨g.updated hlk rfl ?_ ?_ (g.vol.writeDirent g.conf.2 hlt hd hde hk hfit), rfl, rfl⟩
    · rw [Volume.write_dinode, if_pos rfl]
    · funext j
      rw [Volume.write_dinode, Volume.write_dinode, if_pos rfl, update_apply]
  · have hbig : ¬ (DIRENT * k ≤ (s.vol.dinode (s.cache ip).inum).size ∧
        DIRENT * k + de.encode.length ≤ MAXFILE * BSIZE) := by
      rw [Dirent.length_encode, ← Nat.mul_succ]
      exact fun h => hfit h.2
    rw [State.writei_fail hsync hdev hbig]
    exact hfail s ⟨g, rfl, rfl⟩

theorem does_readi {Q : Option (List Byte) → State → Prop} {off n : ℕ} (hlk : ip ∈ locks)
    (hQ : ∀ r s, GoodAt c num held locks v t s → Q r s) :
    Does c E (GoodAt c num held locks v t) (readi ip off n) Q := by
  intro s h
  simp only [readi, wp_call, perform, if_neg (h.good.locked_ne hlk)]
  exact hQ _ s h

theorem does_tables {Q : Tables → State → Prop} (hQ : ∀ s, GoodAt c num held locks v t s → Q t s) :
    Does c E (GoodAt c num held locks v t) tables Q := by
  rintro s ⟨g, rfl, rfl⟩
  exact hQ s ⟨g, rfl, rfl⟩

theorem does_setTables {t' : Tables} {held' : Refs}
    (hg : ∀ s, Good c num held locks s → s.vol = v → s.tables = t →
      Good c num held' locks { s with tables := t' })
    (hQ : ∀ s, GoodAt c num held' locks v t' s → Q () s) :
    Does c E (GoodAt c num held locks v t) (setTables t') Q :=
  fun s h => hQ { s with tables := t' } ⟨hg s h.good h.vol h.tables, h.vol, rfl⟩

theorem Good.withTables (g : Good c num held locks s) {t : Tables} {num' : ISlot → ℕ} {held' : Refs}
    (href : ∀ ip, t.refs ip + heldRefs held' ip = s.tables.refs ip + heldRefs held ip)
    (hinum : ∀ x ∈ held', (s.cache x.1).inum = x.2)
    (hhome : ∀ ip, 0 < t.refs ip → (s.cache ip).inum = num' ip)
    (hused : ∀ ip, 0 < t.refs ip → s.tables.refs ip = 0 → (s.vol.dinode (s.cache ip).inum).type ≠ 0)
    (hwritable : ∀ f, (t.file f).type = .inode → (t.file f).writable = true →
      (s.vol.dinode (s.cache (t.file f).ip).inum).type ≠ T_DIR)
    (hclosed : ∀ f, (t.file f).ref = 0 → (t.file f).type = .none) :
    Good c num' held' locks { s with tables := t } where
  conf := g.conf
  vol := g.vol
  ref ip := (g.ref ip).trans (href ip).symm
  inum := hinum
  lock := g.lock
  lockValid := g.lockValid
  uniq := g.uniq
  range := g.range
  sync := g.sync
  kept := g.kept
  home := hhome
  used ip hpos := by
    by_cases h : s.tables.refs ip = 0
    · exact hused ip hpos h
    · exact g.used ip (Nat.pos_of_ne_zero h)
  writable := hwritable
  closed := hclosed

end Xv6.Fs
