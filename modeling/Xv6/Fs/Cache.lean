import Xv6.Fs.Volume

/-!
# The contract of the inode cache

`Good c num held locks s` is what holds between any two operations of a call.
-/

namespace Xv6.Fs

open Lib Lib.Prog

abbrev Refs := Multiset (ISlot × ℕ)

def Tables.refs (t : Tables) (ip : ISlot) : ℕ :=
  (Finset.univ.filter fun p => t.cwd p = some ip).card +
    (Finset.univ.filter fun f => (t.file f).type = .inode ∧ (t.file f).ip = ip).card

def heldRefs (held : Refs) (ip : ISlot) : ℕ := (held.map Prod.fst).count ip

@[simp] theorem heldRefs_zero (ip : ISlot) : heldRefs 0 ip = 0 := rfl

@[simp] theorem heldRefs_cons (x : ISlot × ℕ) (held : Refs) (ip : ISlot) :
    heldRefs (x ::ₘ held) ip = heldRefs held ip + if ip = x.1 then 1 else 0 := by
  simp [heldRefs, Multiset.count_cons]

theorem heldRefs_pos {x : ISlot × ℕ} {held : Refs} (h : x ∈ held) : 0 < heldRefs held x.1 :=
  Multiset.count_pos.mpr (Multiset.mem_map_of_mem Prod.fst h)

structure Good (c : Conf) (num : ISlot → ℕ) (held : Refs) (locks : Finset ISlot) (s : State) : Prop where
  conf : ROOTINO < c.ninodes ∧ c.ninodes ≤ 2 ^ 16
  vol : s.vol.WF c
  ref : ∀ ip, (s.cache ip).ref = s.tables.refs ip + heldRefs held ip
  inum : ∀ x ∈ held, (s.cache x.1).inum = x.2
  lock : ∀ ip, (s.cache ip).locked = true ↔ ip ∈ locks
  lockValid : ∀ ip ∈ locks, 0 < (s.cache ip).ref ∧ (s.cache ip).valid = true
  uniq : ∀ ip jp, 0 < (s.cache ip).ref → 0 < (s.cache jp).ref →
    (s.cache ip).inum = (s.cache jp).inum → ip = jp
  range : ∀ ip, 0 < (s.cache ip).ref → (s.cache ip).inum < c.ninodes
  sync : ∀ ip, 0 < (s.cache ip).ref → (s.cache ip).valid = true →
    (s.cache ip).din = s.vol.dinode (s.cache ip).inum ∧ (s.vol.dinode (s.cache ip).inum).type ≠ 0
  -- An inode without links is kept by a reference, through which `iput` will free it.
  kept : ∀ i < c.ninodes, (s.vol.dinode i).type ≠ 0 → (s.vol.dinode i).nlink = 0 →
    ∃ ip, (s.cache ip).inum = i ∧ 0 < (s.cache ip).ref ∧ (s.cache ip).valid = true
  home : ∀ ip, 0 < s.tables.refs ip → (s.cache ip).inum = num ip
  used : ∀ ip, 0 < s.tables.refs ip → (s.vol.dinode (s.cache ip).inum).type ≠ 0
  writable : ∀ f, (s.tables.file f).type = .inode → (s.tables.file f).writable = true →
    (s.vol.dinode (s.cache (s.tables.file f).ip).inum).type ≠ T_DIR
  closed : ∀ f, (s.tables.file f).ref = 0 → (s.tables.file f).type = .none

def excludedPanics : List Panic :=
  [.freeingFreeBlock, .bmapOutOfRange, .dirlookupRead, .dirlinkRead, .isdirempty]

def Allowed (strict : Bool) (f : Fault) : Prop :=
  f ≠ .misuse ∧ (strict = true → f ≠ .panic .noType) ∧ ∀ p ∈ excludedPanics, f ≠ .panic p

abbrev W (c : Conf) (strict : Bool) {α : Type} (p : FsProg α) (Q : α → State → Prop) (s : State) :
    Prop :=
  WP (perform c) (Allowed strict) p Q s

theorem allowed_panic {strict : Bool} {p : Panic} (hp : p ≠ .noType ∧ p ∉ excludedPanics) :
    Allowed strict (.panic p) := by
  refine ⟨by simp, by simp [hp.1], fun q hq heq => hp.2 ?_⟩
  cases heq
  exact hq

theorem allowed_hang {strict : Bool} : Allowed strict .hang := by
  simp [Allowed]

theorem strict_of_noType {strict : Bool} (h : ¬Allowed strict (.panic .noType)) : strict = true := by
  cases strict with
  | false => exact absurd ⟨by simp, by simp, by decide⟩ h
  | true => rfl

class Tolerant (E : Fault → Prop) : Prop where
  panic {p : Panic} : p ≠ .noType ∧ p ∉ excludedPanics → E (.panic p)

instance (strict : Bool) : Tolerant (Allowed strict) := ⟨allowed_panic⟩

/-- `iget` panics when all slots of the cache are referenced. -/
class CacheFull (E : Fault → Prop) : Prop where
  noInodes : E (.panic .igetNoInodes)

instance {E : Fault → Prop} [Tolerant E] : CacheFull E := ⟨Tolerant.panic (by decide)⟩

@[simp] theorem setInode_tables (s : State) (ip : ISlot) (x : Inode) :
    (s.setInode ip x).tables = s.tables := rfl

theorem setInode_cache (s : State) (ip : ISlot) (x : Inode) (jp : ISlot) :
    (s.setInode ip x).cache jp = if jp = ip then x else s.cache jp := by
  simp [Kernel.setInode, Function.update_apply]

def Spare (v : Volume) (t : Tables) (held : Refs) (i : ℕ) (ip : ISlot) : Prop :=
  (v.dinode i).type ≠ 0 → (v.dinode i).nlink = 0 → 0 < t.refs ip + heldRefs held ip

theorem Spare.release {v : Volume} {t : Tables} {held : Refs} {i : ℕ} {ip : ISlot}
    (h : Spare v t held i ip) : v.release i (t.refs ip + heldRefs held ip) = v :=
  if_neg fun h' => absurd (h h'.1 h'.2.1) (by omega)

namespace Good

variable {c : Conf} {num : ISlot → ℕ} {held : Refs} {locks : Finset ISlot} {s : State} {ip : ISlot} {i : ℕ}

theorem ref_pos_of_held (g : Good c num held locks s) {x : ISlot × ℕ} (hx : x ∈ held) :
    0 < (s.cache x.1).ref := by
  have := heldRefs_pos hx
  rw [g.ref]
  omega

theorem ref_pos_of_table (g : Good c num held locks s) {ip : ISlot} (h : 0 < s.tables.refs ip) :
    0 < (s.cache ip).ref := by
  rw [g.ref]
  omega

theorem spare (g : Good c num held locks s) {i : ℕ} {ip : ISlot} (hi : i < c.ninodes)
    (hip : (s.cache ip).inum = i) (hpos : 0 < (s.cache ip).ref) :
    Spare s.vol s.tables held i ip := by
  intro hty hnl
  obtain ⟨jp, hjp, href, -⟩ := g.kept i hi hty hnl
  have : jp = ip := g.uniq jp ip href hpos (hjp.trans hip.symm)
  rw [g.ref, this] at href
  exact href

theorem table_refs_pos {t : Tables} {f : FileSlot} (hf : (t.file f).type = .inode) :
    0 < t.refs (t.file f).ip := by
  have : 0 < (Finset.univ.filter fun g => (t.file g).type = .inode ∧ (t.file g).ip = (t.file f).ip).card :=
    Finset.card_pos.mpr ⟨f, by simp [hf]⟩
  unfold Tables.refs
  omega

section

variable (g : Good c num held locks s)
include g

theorem change {ip : ISlot} {x : Inode} {v : Volume} {held' : Refs}
    {locks' : Finset ISlot} (hvol : v.WF c) (hv : ∀ jp ≠ ip, 0 < (s.cache jp).ref →
      v.dinode (s.cache jp).inum = s.vol.dinode (s.cache jp).inum)
    (href : x.ref = s.tables.refs ip + heldRefs held' ip)
    (hheld : ∀ jp ≠ ip, heldRefs held' jp = heldRefs held jp)
    (hinum : ∀ y ∈ held', y.1 = ip ∧ x.inum = y.2 ∨ y.1 ≠ ip ∧ y ∈ held)
    (hlock : x.locked = true ↔ ip ∈ locks') (hlocks : ∀ jp ≠ ip, jp ∈ locks' ↔ jp ∈ locks)
    (hlockValid : ip ∈ locks' → 0 < x.ref ∧ x.valid = true)
    (huniq : 0 < x.ref → ∀ jp ≠ ip, 0 < (s.cache jp).ref → (s.cache jp).inum ≠ x.inum)
    (hrange : 0 < x.ref → x.inum < c.ninodes) (hsync : 0 < x.ref → x.valid = true →
      x.din = v.dinode x.inum ∧ (v.dinode x.inum).type ≠ 0)
    (hkept : ∀ i < c.ninodes, (v.dinode i).type ≠ 0 → (v.dinode i).nlink = 0 →
      (x.inum = i ∧ 0 < x.ref ∧ x.valid = true) ∨
      ∃ jp ≠ ip, (s.cache jp).inum = i ∧ 0 < (s.cache jp).ref ∧ (s.cache jp).valid = true)
    (hhome : 0 < s.tables.refs ip → x.inum = num ip)
    (hused : 0 < s.tables.refs ip → (v.dinode x.inum).type ≠ 0)
    (hwritable : ∀ f, (s.tables.file f).ip = ip → (s.tables.file f).type = .inode →
      (s.tables.file f).writable = true → (v.dinode x.inum).type ≠ T_DIR) :
    Good c num held' locks' { s.setInode ip x with vol := v } := by
  have hc := setInode_cache s ip x
  constructor
  case conf => exact g.conf
  case vol => exact hvol
  case ref =>
    intro jp
    simp only [hc, setInode_tables]
    split_ifs with h
    · rw [h]; exact href
    · rw [g.ref jp, hheld jp h]
  case inum =>
    intro y hy
    simp only [hc]
    rcases hinum y hy with ⟨h1, h2⟩ | ⟨h1, h2⟩
    · rw [if_pos h1]; exact h2
    · rw [if_neg h1]; exact g.inum y h2
  case lock =>
    intro jp
    simp only [hc]
    split_ifs with h
    · rw [h]; exact hlock
    · rw [hlocks jp h]; exact g.lock jp
  case lockValid =>
    intro jp hjp
    simp only [hc]
    split_ifs with h
    · exact hlockValid (h ▸ hjp)
    · exact g.lockValid jp ((hlocks jp h).mp hjp)
  case uniq =>
    intro jp kp
    simp only [hc]
    split_ifs with h h' h'
    · exact fun _ _ _ => h.trans h'.symm
    · exact fun h1 h2 h3 => absurd h3.symm (huniq h1 kp h' h2)
    · exact fun h1 h2 h3 => absurd h3 (huniq h2 jp h h1)
    · exact g.uniq jp kp
  case range =>
    intro jp
    simp only [hc]
    split_ifs with h
    · exact hrange
    · exact g.range jp
  case sync =>
    intro jp
    simp only [hc]
    split_ifs with h
    · exact hsync
    · intro hpos hval
      rw [hv jp h hpos]
      exact g.sync jp hpos hval
  case kept =>
    intro i hi hty hnl
    rcases hkept i hi hty hnl with h | ⟨jp, hne, h⟩
    · exact ⟨ip, by simpa only [hc, if_pos] using h⟩
    · exact ⟨jp, by simpa only [hc, if_neg hne] using h⟩
  case home =>
    intro jp hjp
    simp only [hc]
    split_ifs with h
    · subst h
      exact hhome hjp
    · exact g.home jp hjp
  case used =>
    intro jp hjp
    simp only [hc]
    split_ifs with h
    · exact hused (h ▸ hjp)
    · rw [hv jp h (g.ref_pos_of_table hjp)]
      exact g.used jp hjp
  case writable =>
    intro f hf hw
    simp only [hc]
    split_ifs with h
    · exact hwritable f h hf hw
    · rw [hv _ h (g.ref_pos_of_table (table_refs_pos hf))]
      exact g.writable f hf hw
  case closed => exact g.closed

theorem change_slot {ip : ISlot} {x : Inode} {held' : Refs} {locks' : Finset ISlot}
    (href : x.ref = s.tables.refs ip + heldRefs held' ip)
    (hheld : ∀ jp ≠ ip, heldRefs held' jp = heldRefs held jp)
    (hinum : ∀ y ∈ held', y.1 = ip ∧ x.inum = y.2 ∨ y.1 ≠ ip ∧ y ∈ held)
    (hlock : x.locked = true ↔ ip ∈ locks') (hlocks : ∀ jp ≠ ip, jp ∈ locks' ↔ jp ∈ locks)
    (hlockValid : ip ∈ locks' → 0 < x.ref ∧ x.valid = true)
    (hsame : x.inum = (s.cache ip).inum) (hpos : 0 < (s.cache ip).ref)
    (hsync : 0 < x.ref → x.valid = true →
      x.din = s.vol.dinode x.inum ∧ (s.vol.dinode x.inum).type ≠ 0)
    (hkept : (s.vol.dinode x.inum).type ≠ 0 → (s.vol.dinode x.inum).nlink = 0 →
      (s.cache ip).valid = true → 0 < x.ref ∧ x.valid = true) :
    Good c num held' locks' (s.setInode ip x) := by
  refine g.change (v := s.vol) g.vol (fun _ _ _ => rfl) href hheld hinum hlock hlocks hlockValid
    ?_ ?_ hsync ?_ (fun h => hsame.trans (g.home ip h)) ?_ ?_
  · intro _ jp hne hjp heq
    exact hne (g.uniq jp ip hjp hpos (heq.trans hsame))
  · intro _
    rw [hsame]
    exact g.range ip hpos
  · intro i hi hty hnl
    obtain ⟨jp, h1, h2, h3⟩ := g.kept i hi hty hnl
    by_cases hjp : jp = ip
    · subst hjp
      have hxi : x.inum = i := hsame.trans h1
      exact .inl ⟨hxi, hkept (hxi ▸ hty) (hxi ▸ hnl) h3⟩
    · exact .inr ⟨jp, hjp, h1, h2, h3⟩
  · intro h
    rw [hsame]
    exact g.used ip h
  · intro f hf hi hw
    have := g.writable f hi hw
    rw [hsame, ← hf]
    exact this

theorem held_inum {ip : ISlot} {n : ℕ} (hn : n = (s.cache ip).inum) :
    ∀ y ∈ held, y.1 = ip ∧ n = y.2 ∨ y.1 ≠ ip ∧ y ∈ held := by
  intro y hy
  by_cases h : y.1 = ip
  · exact .inl ⟨h, by rw [hn, ← h]; exact g.inum y hy⟩
  · exact .inr ⟨h, hy⟩

theorem more {ip : ISlot} {i : ℕ} (hpos : 0 < (s.cache ip).ref)
    (hip : (s.cache ip).inum = i) : Good c num ((ip, i) ::ₘ held) locks (s.idup ip) := by
  refine g.change_slot ?_ ?_ ?_ (g.lock ip) (fun _ _ => Iff.rfl) ?_ rfl hpos ?_ ?_
  · simp only [g.ref ip, heldRefs_cons, if_pos]
    omega
  · intro jp hjp
    simp [hjp]
  · intro y hy
    rcases Multiset.mem_cons.mp hy with rfl | hy
    · exact .inl ⟨rfl, hip⟩
    · exact g.held_inum rfl y hy
  · exact fun h => ⟨Nat.succ_pos _, (g.lockValid ip h).2⟩
  · exact fun _ => g.sync ip hpos
  · exact fun _ _ h => ⟨Nat.succ_pos _, h⟩

theorem fresh {ip : ISlot} {i : ℕ} (hi : i < c.ninodes)
    (hnone : ∀ jp, 0 < (s.cache jp).ref → (s.cache jp).inum ≠ i) (hfree : (s.cache ip).ref = 0) :
    Good c num ((ip, i) ::ₘ held) locks
      (s.setInode ip { s.cache ip with inum := i, ref := 1, valid := false }) := by
  have hzero : s.tables.refs ip = 0 ∧ heldRefs held ip = 0 := by
    have := g.ref ip
    omega
  have hunlocked : ip ∉ locks := fun h => by
    have := (g.lockValid ip h).1
    omega
  refine g.change (v := s.vol) g.vol (fun _ _ _ => rfl) ?_ ?_ ?_ (g.lock ip) (fun _ _ => Iff.rfl)
    (fun h => absurd h hunlocked) (fun _ jp _ hjp => hnone jp hjp) (fun _ => hi)
    (fun _ h => nomatch h) ?_ (fun h => absurd h (by omega)) ?_ ?_
  · simp [hzero]
  · intro jp hjp
    simp [hjp]
  · intro y hy
    rcases Multiset.mem_cons.mp hy with rfl | hy
    · exact .inl ⟨rfl, rfl⟩
    · refine .inr ⟨fun h => ?_, hy⟩
      have := heldRefs_pos hy
      rw [h] at this
      omega
  · intro j hj hty hnl
    obtain ⟨jp, h1, h2, h3⟩ := g.kept j hj hty hnl
    exact .inr ⟨jp, fun h => by rw [h] at h2; omega, h1, h2, h3⟩
  · exact fun h => absurd h (by omega)
  · intro f hf hty
    have := table_refs_pos hty
    rw [hf] at this
    omega

theorem locked {ip : ISlot} (hpos : 0 < (s.cache ip).ref)
    (hty : (s.vol.dinode (s.cache ip).inum).type ≠ 0) :
    Good c num held (insert ip locks) (s.setInode ip
      { s.cache ip with locked := true, valid := true, din := s.vol.dinode (s.cache ip).inum }) := by
  refine g.change_slot (g.ref ip) (fun _ _ => rfl) (g.held_inum rfl) (by simp) ?_
    (fun _ => ⟨hpos, rfl⟩) rfl hpos (fun _ _ => ⟨rfl, hty⟩) (fun _ _ _ => ⟨hpos, rfl⟩)
  intro jp hjp
  simp [hjp]

theorem unlocked {ip : ISlot} (hpos : 0 < (s.cache ip).ref) :
    Good c num held (locks.erase ip) (s.setInode ip { s.cache ip with locked := false }) := by
  refine g.change_slot (g.ref ip) (fun _ _ => rfl) (g.held_inum rfl) (by simp) ?_ (by simp) rfl
    hpos (fun _ => g.sync ip hpos) (fun _ _ h => ⟨hpos, h⟩)
  intro jp hjp
  simp [hjp]

end

theorem held_first (g : Good c num ((ip, i) ::ₘ held) locks s) : (s.cache ip).inum = i ∧
    0 < (s.cache ip).ref ∧ (s.cache ip).ref = s.tables.refs ip + (heldRefs held ip + 1) := by
  refine ⟨g.inum (ip, i) (Multiset.mem_cons_self _ _),
    g.ref_pos_of_held (Multiset.mem_cons_self (ip, i) held), ?_⟩
  simpa only [heldRefs_cons, if_pos] using g.ref ip

theorem put (g : Good c num ((ip, i) ::ₘ held) locks s) (hunlocked : ip ∉ locks)
    (hspare : Spare s.vol s.tables held i ip) :
    Good c num held locks (s.setInode ip { s.cache ip with ref := (s.cache ip).ref - 1 }) := by
  obtain ⟨hi, hpos, href⟩ := g.held_first
  refine g.change_slot ?_ ?_ ?_ (g.lock ip) (fun _ _ => Iff.rfl) (fun h => absurd h hunlocked)
    rfl hpos (fun _ => g.sync ip hpos) ?_
  · simp only [href]
    omega
  · intro jp hjp
    simp [hjp]
  · exact fun y hy => g.held_inum rfl y (Multiset.mem_cons_of_mem hy)
  · intro hty hnl hval
    simp only [hi] at hty hnl
    have := hspare hty hnl
    exact ⟨by simp only [href]; omega, hval⟩

theorem freed (g : Good c num ((ip, i) ::ₘ held) locks s) (hunlocked : ip ∉ locks)
    (hlast : s.tables.refs ip + heldRefs held ip = 0) : Good c num held locks { s.setInode ip
      { s.cache ip with
        ref := (s.cache ip).ref - 1, valid := false
        din := { s.vol.dinode i with type := 0, size := 0 } } with vol := s.vol.free i } := by
  obtain ⟨hi, hpos, href⟩ := g.held_first
  have hd : ∀ d, d ≠ i → (s.vol.free i).dinode d = s.vol.dinode d := by
    intro d hne
    simp [Volume.free, Volume.setDinode, hne]
  have hgone : ¬ 0 < (s.cache ip).ref - 1 := by omega
  have hothers : ∀ jp ≠ ip, 0 < (s.cache jp).ref → (s.cache jp).inum ≠ i :=
    fun jp hne hjp heq => hne (g.uniq jp ip hjp hpos (heq.trans hi.symm))
  refine g.change (g.vol.setEmpty rfl) (fun jp hne hjp => hd _ (hothers jp hne hjp)) ?_ ?_ ?_ (g.lock ip)
    (fun _ _ => Iff.rfl) (fun h => absurd h hunlocked) (fun h => absurd h hgone)
    (fun h => absurd h hgone) (fun h => absurd h hgone) ?_ (fun h => absurd h (by omega))
    (fun h => absurd h (by omega)) ?_
  · simp only [href]
    omega
  · intro jp hjp
    simp [hjp]
  · exact fun y hy => g.held_inum rfl y (Multiset.mem_cons_of_mem hy)
  · intro j hj hty hnl
    have hne : j ≠ i := by
      rintro rfl
      exact hty (by simp [Volume.free, Volume.setDinode])
    rw [hd j hne] at hty hnl
    obtain ⟨jp, h1, h2, h3⟩ := g.kept j hj hty hnl
    exact .inr ⟨jp, fun h => hne (by rw [← h1, h, hi]), h1, h2, h3⟩
  · intro f hf hty
    have := table_refs_pos hty
    rw [hf] at this
    omega

end Good
end Xv6.Fs
