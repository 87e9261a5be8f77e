import Xv6.Fs.DiskRuns

/-!
# The references of the inode cache balance

Every call drops the references and locks that it takes, whatever is on the disk: unlike those of
`Fs.Rules`, the rules here ask nothing of the image.
-/

namespace Xv6.Fs

open Lib Lib.Prog Lib.Runs Blocks Function

structure Balanced (cwd : Pid → Option ISlot) (held : Multiset ISlot) (locks : Finset ISlot)
    (s : BState) : Prop where
  cwd : s.tables.cwd = cwd
  ref : ∀ ip, (s.cache ip).ref = s.tables.refs ip + held.count ip
  lock : ∀ ip, (s.cache ip).locked = true ↔ ip ∈ locks
  uniq : ∀ ip jp, 0 < (s.cache ip).ref → 0 < (s.cache jp).ref →
    (s.cache ip).inum = (s.cache jp).inum → ip = jp
  closed : ∀ f, (s.tables.file f).ref = 0 → (s.tables.file f).type = .none

abbrev Acts (g : Geometry) {α : Type} (P : BState → Prop) (c : FsProg α) (Q : α → BState → Prop) : Prop :=
  Triple (performB g) (fun _ => True) P c Q

variable {g : Geometry} {cwd : Pid → Option ISlot} {held : Multiset ISlot} {locks : Finset ISlot}
variable {s s' : BState} {ip dp : ISlot} {p : Pid} {path : Path} {name : Name}
variable {P : BState → Prop}

theorem acts_call {β : Type} {o : Op β} {Q : β → BState → Prop}
    (h : ∀ s b s', P s → performB g β o s = .ok (b, s') → Q b s') : Acts g P (.call o) Q := by
  intro s hs
  rw [wp_call]
  cases hr : performB g β o s with
  | ok r => exact h s r.1 r.2 hs hr
  | error f => trivial

theorem acts_fault {α : Type} {f : Fault} {Q : α → BState → Prop} :
    Acts g P (.fault f) Q := fun _ _ => trivial

theorem acts_ite {α : Type} {c : Prop} [Decidable c] {Q : α → BState → Prop}
    {x y : FsProg α} (hx : Acts g P x Q) (hy : Acts g P y Q) : Acts g P (if c then x else y) Q :=
  .ite (fun _ => hx) fun _ => hy

def SameSlots (s s' : BState) : Prop :=
  s'.tables = s.tables ∧ ∀ ip, (s'.cache ip).ref = (s.cache ip).ref ∧
    (s'.cache ip).inum = (s.cache ip).inum ∧ (s'.cache ip).locked = (s.cache ip).locked

theorem SameSlots.refl (s : BState) : SameSlots s s := ⟨rfl, fun _ => ⟨rfl, rfl, rfl⟩⟩

theorem sameSlots_setStore (a : Addrs) (d : Disk) : SameSlots s (setStore s ip a d) :=
  ⟨rfl, fun _ => ⟨rfl, rfl, rfl⟩⟩

theorem SameSlots.iupdate {x : Dinode} (h : SameSlots s s') :
    SameSlots s (Blocks.iupdate g ip (setDin ip x s')) := by
  refine ⟨h.1, fun jp => ?_⟩
  simp only [Blocks.iupdate, setDin, Kernel.setInode, update_apply]
  split_ifs with hjp
  · exact hjp ▸ h.2 jp
  · exact h.2 jp

theorem Balanced.same {t : BState} (h : Balanced cwd held locks s) (hs : SameSlots s t) :
    Balanced cwd held locks t := by
  obtain ⟨ht, hs⟩ := hs
  constructor
  case cwd => rw [ht, h.cwd]
  case ref => exact fun ip => by rw [(hs ip).1, ht, h.ref]
  case lock => exact fun ip => by rw [(hs ip).2.2, h.lock]
  case uniq =>
    intro ip jp hip hjp heq
    rw [(hs ip).1] at hip
    rw [(hs jp).1] at hjp
    rw [(hs ip).2.1, (hs jp).2.1] at heq
    exact h.uniq ip jp hip hjp heq
  case closed => exact ht ▸ h.closed

def Op.quiet {β : Type} : Op β → Bool
  | .inum _ | .dinode _ | .updateNlink _ _ | .updateNew _ _ _ | .readi _ _ _ | .writei _ _ _
  | .readDirent _ _ | .writeDirent _ _ _ => true
  | _ => false

theorem sameSlots_readi {off n : ℕ} {r : Option (List Byte)}
    (h : Blocks.readi g ip off n s = .ok (r, s')) : SameSlots s s' := by
  unfold Blocks.readi at h
  dsimp only at h
  split_ifs at h
  · split at h <;>
      cases h <;> exact .refl s
  · cases h
    exact .refl s
  · split at h
    · cases h
    · cases h
      exact sameSlots_setStore _ _

variable {src : List Byte}

theorem sameSlots_writei {off : ℕ} {r : ℤ}
    (h : Blocks.writei g ip src off s = .ok (r, s')) : SameSlots s s' := by
  unfold Blocks.writei at h
  dsimp only at h
  cases hw : writeLoop g src.length src off (s.vol.addrs ip) s.vol.disk with
  | error f =>
    rw [hw] at h
    split_ifs at h
    · split at h <;>
        cases h <;> exact .refl s
    all_goals
      cases h
      exact .refl s
  | ok r =>
    rw [hw] at h
    split_ifs at h
    · split at h <;>
        cases h <;> exact .refl s
    · cases h
      exact .refl s
    · cases h
      exact .refl s
    · cases h
      exact (sameSlots_setStore _ _).iupdate
    · cases h
      exact sameSlots_setStore _ _

theorem sameSlots_readDirent {off : ℕ} {r : Option Dirent}
    (h : Blocks.readDirent g ip off s = .ok (r, s')) : SameSlots s s' := by
  unfold Blocks.readDirent at h
  split at h
  · cases h
  next hr =>
    cases h
    exact sameSlots_readi hr
  next hr =>
    cases h
    exact sameSlots_readi hr

theorem sameSlots_quiet {β : Type} {o : Op β} {b : β} (ho : o.quiet = true)
    (h : performB g β o s = .ok (b, s')) : SameSlots s s' := by
  cases o with
  | inum ip | dinode ip =>
    cases h
    exact .refl s
  | updateNlink ip n | updateNew ip major minor =>
    cases h
    exact (SameSlots.refl s).iupdate
  | readi ip off n => exact sameSlots_readi h
  | writei ip src off | writeDirent ip de off => exact sameSlots_writei h
  | readDirent ip off => exact sameSlots_readDirent h
  | iget _ | idup _ | ilock _ | iunlock _ | iput _ | ialloc _ | tables | setTables _ => cases ho

structure Discipline (g : Geometry) (I : Multiset ISlot → Finset ISlot → BState → Prop) : Prop where
  quiet : ∀ {β : Type} {o : Op β} {held locks}, o.quiet = true →
    Acts g (I held locks) (.call o) fun _ => I held locks
  start : ∀ {held locks p path},
    Acts g (I held locks) (namexStart p path) fun ip => I (ip ::ₘ held) locks
  iget : ∀ {held locks i}, Acts g (I held locks) (iget i) fun ip => I (ip ::ₘ held) locks
  ialloc : ∀ {held locks type}, Acts g (I held locks) (ialloc type) fun ip => I (ip ::ₘ held) locks
  ilock : ∀ {held locks ip}, Acts g (I held locks) (ilock ip) fun _ => I held (insert ip locks)
  iunlock : ∀ {held locks ip}, Acts g (I held locks) (iunlock ip) fun _ => I held (locks.erase ip)
  iput : ∀ {held locks ip}, Acts g (I (ip ::ₘ held) locks) (iput ip) fun _ => I held locks

namespace Discipline

variable {I : Multiset ISlot → Finset ISlot → BState → Prop} (D : Discipline g I)
  {h : Multiset ISlot} {l : Finset ISlot}
include D

theorem iunlockput : Acts g (I (ip ::ₘ h) l) (Fs.iunlockput ip) fun _ => I h (l.erase ip) :=
  .bind D.iunlock fun _ => D.iput

theorem put_only (hl : l ⊆ {ip}) :
    Acts g (I (ip ::ₘ h) l) (Fs.iunlockput ip) fun _ => I h ∅ := by
  rw [← (Finset.erase_eq_empty_iff l ip).mpr (Finset.subset_singleton_iff.mp hl)]
  exact D.iunlockput

theorem unlock_only (hl : l ⊆ {ip}) : Acts g (I h l) (Fs.iunlock ip) fun _ => I h ∅ := by
  rw [← (Finset.erase_eq_empty_iff l ip).mpr (Finset.subset_singleton_iff.mp hl)]
  exact D.iunlock

theorem put_second {jp : ISlot} :
    Acts g (I (jp ::ₘ ip ::ₘ h) l) (Fs.iunlockput ip) fun _ => I (jp ::ₘ h) (l.erase ip) := by
  rw [Multiset.cons_swap]
  exact D.iunlockput

theorem put_under {jp : ISlot} :
    Acts g (I (jp ::ₘ ip ::ₘ h) (insert ip ∅)) (Fs.iunlockput ip) fun _ => I (jp ::ₘ h) ∅ := by
  rw [Multiset.cons_swap]
  exact D.put_only subset_rfl

theorem dirlookup : Acts g (I h l) (Fs.dirlookup dp name) fun r =>
    r.elim (I h l) fun e => I (e.1 ::ₘ h) l := by
  have hloop : ∀ n off, Acts g (I h l) (dirlookupLoop dp name n off) fun r =>
      r.elim (I h l) fun e => I (e.1 ::ₘ h) l := by
    intro n
    induction n with
    | zero => exact fun off _ hs => hs
    | succ n ih =>
      refine fun off => .bind (D.quiet rfl) fun r => ?_
      cases r with
      | none => exact acts_fault
      | some de => exact acts_ite (.bind D.iget fun ip _ hs => hs) (ih _)
  exact .bind (D.quiet rfl) fun d => acts_ite acts_fault (hloop _ _)

theorem dirlink {i : ℕ} : Acts g (I h l) (Fs.dirlink dp name i) fun _ => I h l := by
  have hloop : ∀ n off, Acts g (I h l) (emptyDirentLoop dp n off) fun _ => I h l := by
    intro n
    induction n with
    | zero => exact fun off _ hs => hs
    | succ n ih =>
      refine fun off => .bind (D.quiet rfl) fun r => ?_
      cases r with
      | none => exact acts_fault
      | some de => exact acts_ite (fun _ hs => hs) (ih _)
  refine .bind D.dirlookup fun e => ?_
  cases e with
  | none =>
    exact .bind (D.quiet rfl) fun d => .bind (hloop _ _) fun off => .bind (D.quiet rfl) fun r =>
      acts_ite acts_fault fun _ hs => hs
  | some e => exact .bind D.iput fun _ _ hs => hs

theorem namexLoop {parent : Bool} {names : List Name} :
    Acts g (I (ip ::ₘ h) ∅) (Fs.namexLoop parent names ip) fun r =>
      r.elim (I h ∅) fun e => I (e.1 ::ₘ h) ∅ := by
  induction names generalizing ip with
  | nil => exact acts_ite (.bind D.iput fun _ _ hs => hs) fun _ hs => hs
  | cons name rest ih =>
    refine .bind D.ilock fun _ => .bind (D.quiet rfl) fun d => acts_ite ?_ (acts_ite ?_ ?_)
    · exact .bind (D.put_only subset_rfl) fun _ _ hs => hs
    · exact .bind (D.unlock_only subset_rfl) fun _ _ hs => hs
    · refine .bind D.dirlookup fun e => ?_
      cases e with
      | none => exact .bind (D.put_only subset_rfl) fun _ _ hs => hs
      | some e => exact .bind D.put_under fun _ => ih

theorem namex {parent : Bool} : Acts g (I h ∅) (Fs.namex p path parent) fun r =>
    r.elim (I h ∅) fun e => I (e.1 ::ₘ h) ∅ :=
  .bind D.start fun _ => D.namexLoop

theorem namei : Acts g (I h ∅) (Fs.namei p path) fun r =>
    r.elim (I h ∅) fun ip => I (ip ::ₘ h) ∅ := by
  refine .bind D.namex fun r => ?_
  cases r with
  | none => exact fun _ hs => hs
  | some e => exact fun _ hs => hs

theorem addNlink {x : BitVec 16} : Acts g (I h l) (Fs.addNlink ip x) fun _ => I h l :=
  .bind (D.quiet rfl) fun _ => D.quiet rfl

theorem isdirempty : Acts g (I h l) (Fs.isdirempty dp) fun _ => I h l := by
  have hloop : ∀ n off, Acts g (I h l) (isdiremptyLoop dp n off) fun _ => I h l := by
    intro n
    induction n with
    | zero => exact fun off _ hs => hs
    | succ n ih =>
      refine fun off => .bind (D.quiet rfl) fun r => ?_
      cases r with
      | none => exact acts_fault
      | some de => exact acts_ite (fun _ hs => hs) (ih _)
  exact .bind (D.quiet rfl) fun d => hloop _ _

theorem createDots {i : ℕ} : Acts g (I h l) (Fs.createDots dp ip i) fun _ => I h l :=
  .bind D.addNlink fun _ => .bind D.dirlink fun _ => acts_ite acts_fault
    (.bind (D.quiet rfl) fun _ => .bind D.dirlink fun _ => acts_ite acts_fault fun _ hs => hs)

abbrev Locked (I : Multiset ISlot → Finset ISlot → BState → Prop) (r : Option ISlot) (s : BState) : Prop :=
  r.elim (I 0 ∅ s) fun ip => ∃ l ⊆ {ip}, I (ip ::ₘ 0) l s

theorem createNew {type major minor : BitVec 16} :
    Acts g (I (dp ::ₘ 0) (insert dp ∅)) (Fs.createNew dp name type major minor) (Locked I) := by
  refine .bind D.ialloc fun ip => .bind D.ilock fun _ => .bind (D.quiet rfl) fun _ =>
    .bind (D.quiet rfl) fun i => ?_
  have hrest : Acts g (I (ip ::ₘ dp ::ₘ 0) (insert ip (insert dp ∅))) (do
      let r ← Fs.dirlink dp name i
      if r < 0 then panic .createDirlink
      else do
        Fs.iunlockput dp
        Pure.pure (some ip)) (Locked I) := by
    refine .bind D.dirlink fun r => acts_ite acts_fault (.bind D.put_second fun _ s hs => ⟨_, ?_, hs⟩)
    intro jp
    simp only [Finset.mem_erase, Finset.mem_insert, Finset.mem_singleton, Finset.notMem_empty]
    tauto
  exact acts_ite (.bind D.createDots fun _ => hrest) hrest

theorem create {type major minor : BitVec 16} :
    Acts g (I 0 ∅) (Fs.create p path type major minor) (Locked I) := by
  refine .bind D.namex fun r => ?_
  cases r with
  | none => exact fun _ hs => hs
  | some r =>
    refine .bind D.ilock fun _ => .bind D.dirlookup fun e => ?_
    cases e with
    | none => exact D.createNew
    | some e =>
      exact .bind D.put_under fun _ => .bind D.ilock fun _ => .bind (D.quiet rfl) fun d =>
        acts_ite (fun s hs => ⟨_, subset_rfl, hs⟩) (.bind (D.put_only subset_rfl) fun _ _ hs => hs)

theorem openInode {omode : BitVec 32} : Acts g (I 0 ∅) (Fs.openInode p path omode) (Locked I) := by
  refine acts_ite D.create (.bind D.namei fun r => ?_)
  cases r with
  | none => exact fun _ hs => hs
  | some ip =>
    exact .bind D.ilock fun _ => .bind (D.quiet rfl) fun d =>
      acts_ite (.bind (D.put_only subset_rfl) fun _ _ hs => hs) fun s hs => ⟨_, subset_rfl, hs⟩

theorem loadElf {mem : ℕ → Bool} : Acts g (I h l) (Fs.loadElf ip mem) fun _ => I h l := by
  have huvm : ∀ pages off sz, Acts g (I h l) (loaduvm ip off pages sz) fun _ => I h l := by
    intro pages
    induction pages with
    | zero => exact fun off sz _ hs => hs
    | succ n ih =>
      refine fun off sz => .bind (D.quiet rfl) fun r => ?_
      cases r with
      | none => exact fun _ hs => hs
      | some bs => exact acts_ite (fun _ hs => hs) (ih _ _)
  have hsegs : ∀ n off, Acts g (I h l) (loadSegments ip mem n off) fun _ => I h l := by
    intro n
    induction n with
    | zero => exact fun off _ hs => hs
    | succ n ih =>
      refine fun off => .bind (D.quiet rfl) fun r => ?_
      cases r with
      | none => exact fun _ hs => hs
      | some ph =>
        exact acts_ite (fun _ hs => hs) (acts_ite (ih _) (acts_ite (fun _ hs => hs)
          (.bind (huvm _ _ _) fun _ => acts_ite (ih _) fun _ hs => hs)))
  refine .bind (D.quiet rfl) fun r => ?_
  cases r with
  | none => exact fun _ hs => hs
  | some elf => exact acts_ite (fun _ hs => hs) (hsegs _ _)

end Discipline

theorem Balanced.ref_pos (h : Balanced cwd (ip ::ₘ held) locks s) : 0 < (s.cache ip).ref := by
  rw [h.ref, Multiset.count_cons_self]
  omega

section

variable (h : Balanced cwd held locks s)
include h

theorem Balanced.ref_pos_of_cwd (hp : cwd p = some ip) : 0 < (s.cache ip).ref := by
  rw [h.ref]
  have := cwd_refs_pos (t := s.tables) (by rw [h.cwd]; exact hp)
  omega

theorem Balanced.slot {x : Inode} {held' : Multiset ISlot}
    {locks' : Finset ISlot} (href : x.ref = s.tables.refs ip + held'.count ip)
    (hheld : ∀ jp, jp ≠ ip → held'.count jp = held.count jp)
    (hlock : x.locked = true ↔ ip ∈ locks') (hlocks : ∀ jp, jp ≠ ip → (jp ∈ locks' ↔ jp ∈ locks))
    (hnum : 0 < x.ref → ∀ jp, jp ≠ ip → 0 < (s.cache jp).ref → (s.cache jp).inum ≠ x.inum) :
    Balanced cwd held' locks' (s.setInode ip x) := by
  have hc : ∀ jp, (s.setInode ip x).cache jp = if jp = ip then x else s.cache jp := fun jp => by
    simp [Kernel.setInode, update_apply]
  constructor
  case cwd => exact h.cwd
  case ref =>
    intro jp
    rw [hc]
    split_ifs with hjp
    · rw [hjp]
      exact href
    · rw [hheld jp hjp]
      exact h.ref jp
  case lock =>
    intro jp
    rw [hc]
    split_ifs with hjp
    · rw [hjp]
      exact hlock
    · rw [hlocks jp hjp]
      exact h.lock jp
  case uniq =>
    intro jp kp hj hk heq
    rw [hc] at hj heq
    rw [hc] at hk heq
    split_ifs at hj hk heq with h1 h2 h2
    · rw [h1, h2]
    · exact absurd heq.symm (hnum hj kp h2 hk)
    · exact absurd heq (hnum hk jp h1 hj)
    · exact h.uniq jp kp hj hk heq
  case closed => exact h.closed

theorem Balanced.inum_ne (hpos : 0 < (s.cache ip).ref) (jp : ISlot)
    (hne : jp ≠ ip) (hjp : 0 < (s.cache jp).ref) : (s.cache jp).inum ≠ (s.cache ip).inum :=
  fun heq => hne (h.uniq jp ip hjp hpos heq)

theorem Balanced.more (hpos : 0 < (s.cache ip).ref) :
    Balanced cwd (ip ::ₘ held) locks (s.idup ip) := by
  refine h.slot ?_ (fun jp hjp => Multiset.count_cons_of_ne hjp held) (h.lock ip)
    (fun _ _ => Iff.rfl) fun _ => h.inum_ne hpos
  rw [Multiset.count_cons_self, ← Nat.add_assoc, ← h.ref]

theorem Balanced.got {i : ℕ} (hok : s.iget i = .ok (ip, s')) :
    Balanced cwd (ip ::ₘ held) locks s' := by
  rcases s.iget_cases i with ⟨jp, hpos, -, hget⟩ | ⟨jp, h0, hnone, hget⟩ | ⟨-, herr⟩
  · rw [hget] at hok
    cases hok
    exact h.more hpos
  · rw [hget] at hok
    cases hok
    refine h.slot ?_ (fun kp hkp => Multiset.count_cons_of_ne hkp held) (h.lock ip)
      (fun _ _ => Iff.rfl) fun _ kp _ hkp => hnone kp hkp
    have href := h.ref ip
    rw [Multiset.count_cons_self]
    change 1 = _
    omega
  · rw [herr] at hok
    cases hok

theorem Balanced.relock (hpos : 0 < (s.cache ip).ref) {x : Inode}
    {locks' : Finset ISlot} (href : x.ref = (s.cache ip).ref) (hinum : x.inum = (s.cache ip).inum)
    (hlock : x.locked = true ↔ ip ∈ locks') (hlocks : ∀ jp, jp ≠ ip → (jp ∈ locks' ↔ jp ∈ locks)) :
    Balanced cwd held locks' (s.setInode ip x) := by
  refine h.slot (href.trans (h.ref ip)) (fun _ _ => rfl) hlock hlocks fun _ => ?_
  rw [hinum]
  exact h.inum_ne hpos

end

theorem acts_ilock : Acts g (Balanced cwd held locks) (ilock ip) fun _ => Balanced cwd held (insert ip locks) := by
  refine acts_call fun s _ s' h hok => ?_
  have hlocked : ∀ x : Inode, ¬ (s.cache ip).ref < 1 → x.ref = (s.cache ip).ref →
      x.inum = (s.cache ip).inum → x.locked = true →
      Balanced cwd held (insert ip locks) (s.setInode ip x) := by
    intro x hpos href hinum hx
    exact h.relock (by omega) href hinum (iff_of_true hx (Finset.mem_insert_self _ _))
      fun jp hjp => by simp [hjp]
  simp only [performB, Blocks.ilock] at hok
  split_ifs at hok with hpos
  · cases hok
    exact hlocked _ hpos rfl rfl rfl
  · cases hok
    refine Balanced.same ?_ (sameSlots_setStore _ _)
    exact hlocked _ hpos rfl rfl rfl

theorem acts_iunlock {P : Tables → Prop} :
    Acts g (fun s => Balanced cwd held locks s ∧ P s.tables) (iunlock ip) fun _ s =>
      Balanced cwd held (locks.erase ip) s ∧ P s.tables := by
  refine acts_call fun s _ s' ⟨h, hP⟩ hok => ?_
  simp only [performB, Kernel.iunlock] at hok
  split_ifs at hok with hbad
  cases hok
  simp only [not_or] at hbad
  exact ⟨h.relock (by omega) rfl rfl (by simp) fun jp hjp => by simp [hjp], hP⟩

theorem acts_iput :
    Acts g (Balanced cwd (ip ::ₘ held) locks) (iput ip) fun _ => Balanced cwd held locks := by
  refine acts_call fun s _ s' h hok => ?_
  -- One reference less, in a state whose slots are those of `s`.
  have hless : ∀ s1 x, SameSlots s s1 → x.ref = (s1.cache ip).ref - 1 →
      x.inum = (s1.cache ip).inum → x.locked = (s1.cache ip).locked →
      Balanced cwd held locks (s1.setInode ip x) := by
    intro s1 x hs href hinum hx
    have h1 := h.same hs
    have hpos1 : 0 < (s1.cache ip).ref := h1.ref_pos
    have h2 := h1.ref ip
    rw [Multiset.count_cons_self] at h2
    refine h1.slot (by omega) (fun jp hjp => (Multiset.count_cons_of_ne hjp held).symm)
      (by rw [hx]; exact h1.lock ip) (fun _ _ => Iff.rfl) fun _ => ?_
    rw [hinum]
    exact h1.inum_ne hpos1
  simp only [performB, Blocks.iput] at hok
  split_ifs at hok
  · simp only [itrunc] at hok
    cases ht : itruncBlocks g (s.vol.addrs ip) s.vol.disk with
    | error f =>
      rw [ht] at hok
      cases hok
    | ok d =>
      rw [ht] at hok
      cases hok
      exact hless _ _ (SameSlots.iupdate (SameSlots.iupdate (sameSlots_setStore _ d))) rfl rfl rfl
  · cases hok
    exact hless s _ (.refl s) rfl rfl rfl

theorem balanced (g : Geometry) (cwd : Pid → Option ISlot) : Discipline g (Balanced cwd) where
  quiet ho := acts_call fun _ _ _ h hok => h.same (sameSlots_quiet ho hok)
  iget := acts_call fun _ _ _ h hok => h.got hok
  ilock := acts_ilock
  iunlock s h := wp_mono (acts_iunlock (P := fun _ => True) s ⟨h, trivial⟩) fun _ _ h' => h'.1
  iput := acts_iput
  start := by
    refine fun {held locks p path} => acts_ite (acts_call fun _ _ _ h hok => h.got hok) fun s h => ?_
    simp only [wp_bind, wb_tables, h.cwd]
    cases hp : cwd p with
    | none => trivial
    | some ip => exact h.more (h.ref_pos_of_cwd hp)
  ialloc := by
    refine fun {held locks type} => acts_call fun s ip s' h hok => ?_
    simp only [performB, Blocks.ialloc] at hok
    split at hok
    · cases hok
    · next i _ =>
      have hsame := h.same (t := { s with vol := { s.vol with
        disk := update s.vol.disk (g.iblock i)
          (newDinode (s.vol.disk (g.iblock i)) (i % IPB) type) } }) ⟨rfl, fun _ => ⟨rfl, rfl, rfl⟩⟩
      exact hsame.got hok

section

variable (h : Balanced cwd held locks s)
include h

theorem Balanced.withTables {cwd' : Pid → Option ISlot} {held' : Multiset ISlot} {t : Tables} (hcwd : t.cwd = cwd')
    (href : ∀ ip, t.refs ip + held'.count ip = s.tables.refs ip + held.count ip)
    (hclosed : ∀ f, (t.file f).ref = 0 → (t.file f).type = .none) :
    Balanced cwd' held' locks { s with tables := t } where
  cwd := hcwd
  ref ip := (h.ref ip).trans (href ip).symm
  lock := h.lock
  uniq := h.uniq
  closed := hclosed

theorem Balanced.setFile (held' : Multiset ISlot) {f : FileSlot}
    {x : File} (href : ∀ ip, held'.count ip + (if x.type = .inode ∧ x.ip = ip then 1 else 0) =
      held.count ip + (if (s.tables.file f).type = .inode ∧ (s.tables.file f).ip = ip then 1 else 0))
    (hclosed : x.ref = 0 → x.type = .none) :
    Balanced cwd held' locks { s with tables := s.tables.setFile f x } := by
  refine h.withTables h.cwd (fun ip => ?_) fun f' hf' => ?_
  · have h1 := s.tables.refs_setFile f x ip
    have h2 := href ip
    omega
  · rw [Tables.setFile_file] at hf' ⊢
    split_ifs at hf' ⊢ with heq
    · exact hclosed hf'
    · exact h.closed f' hf'

theorem Balanced.setOfile (fd : ℕ) (f : Option FileSlot) :
    Balanced cwd held locks { s with tables := s.tables.setOfile p fd f } :=
  h.withTables h.cwd (fun _ => rfl) h.closed

theorem Balanced.setCwd (held' : Multiset ISlot) {x : Option ISlot}
    (href : ∀ ip, held'.count ip + (if x = some ip then 1 else 0) =
      held.count ip + (if cwd p = some ip then 1 else 0)) :
    Balanced (update cwd p x) held' locks { s with tables := s.tables.setCwd p x } := by
  refine h.withTables (by rw [← h.cwd]; rfl) (fun ip => ?_) h.closed
  have h1 := s.tables.refs_setCwd p x ip
  have h2 := href ip
  rw [h.cwd] at h1
  omega

end

def Fresh (f : FileSlot) (t : Tables) : Prop := (t.file f).type = .none ∧ (t.file f).ref = 1

theorem acts_filealloc : Acts g (Balanced cwd held locks) filealloc fun r =>
    r.elim (Balanced cwd held locks) fun f s => Balanced cwd held locks s ∧ Fresh f s.tables := by
  intro s h
  simp only [filealloc, wp_bind, wb_tables]
  cases hfind : (List.finRange NFILE).find? (fun f => decide ((s.tables.file f).ref = 0)) with
  | none => exact h
  | some f =>
    have hf := List.find?_some hfind
    simp only [decide_eq_true_eq] at hf
    refine ⟨h.setFile _ (fun _ => rfl) (fun h => by cases h), ?_⟩
    simp [Fresh, Tables.setFile_file, h.closed f hf]

variable {f : FileSlot}

theorem acts_filedup :
    Acts g (Balanced cwd held locks) (filedup f) fun _ => Balanced cwd held locks := by
  intro s h
  simp only [filedup, wp_bind, wb_tables]
  split_ifs
  · trivial
  · exact h.setFile _ (fun _ => rfl) (fun h => absurd h (Nat.succ_ne_zero _))

theorem acts_fileclose :
    Acts g (Balanced cwd held locks) (fileclose f) fun _ => Balanced cwd held locks := by
  intro s h
  simp only [fileclose, wp_bind, wb_tables]
  split
  · trivial
  split
  next hlast =>
    refine h.setFile _ (fun _ => rfl) fun h0 => ?_
    simp only at h0
    omega
  simp only [wp_bind, wb_setTables]
  split_ifs with hty
  · refine acts_iput _ (h.setFile ((s.tables.file f).ip ::ₘ held) (fun ip => ?_) fun _ => rfl)
    simp only [reduceCtorEq, false_and, if_false, hty, true_and, Multiset.count_cons, eq_comm]
    omega
  · exact h.setFile _ (fun ip => by simp [hty]) fun _ => rfl

theorem acts_fdalloc : Acts g (fun s => Balanced cwd held locks s ∧ Fresh f s.tables)
    (fdalloc p f) fun _ s => Balanced cwd held locks s ∧ Fresh f s.tables := by
  intro s h
  simp only [fdalloc, wp_bind, wb_tables]
  cases (List.range NOFILE).find? (fun fd => decide (s.tables.ofile p fd = none)) with
  | none => exact h
  | some fd => exact ⟨h.1.setOfile fd _, h.2⟩

variable {fd : ℤ}

theorem acts_argfd : Acts g P (argfd p fd) fun _ => P := by
  intro s h
  simp only [argfd, wp_bind, wb_tables]
  split_ifs
  · exact h
  · exact h

theorem acts_advance {r : ℤ} :
    Acts g (Balanced cwd held locks) (advance f r) fun _ => Balanced cwd held locks := by
  intro s h
  simp only [advance, wp_bind, wb_tables]
  split_ifs
  · exact h.setFile _ (fun _ => rfl) (h.closed f)
  · exact h

abbrev Neutral (g : Geometry) (cwd : Pid → Option ISlot) {α : Type} (c : FsProg α) : Prop :=
  Acts g (Balanced cwd 0 ∅) c fun _ => Balanced cwd 0 ∅

theorem acts_tables {α : Type} {k : Tables → FsProg α} {Q : α → BState → Prop}
    (hk : ∀ t, Acts g P (k t) Q) : Acts g P (tables >>= k) Q := fun s h => hk s.tables s h

theorem neutral_sysLinkBad : Acts g (Balanced cwd (ip ::ₘ held) ∅) (sysLinkBad ip) fun _ => Balanced cwd held ∅ :=
  .bind (balanced g cwd).ilock fun _ => .bind (balanced g cwd).addNlink fun _ =>
    .bind ((balanced g cwd).put_only subset_rfl) fun _ _ h => h

theorem neutral_sysLink {old new : Path} : Neutral g cwd (sysLink p old new) := by
  have D := balanced g cwd
  refine .bind D.namei fun r => ?_
  cases r with
  | none => exact fun _ h => h
  | some ip =>
    refine .bind D.ilock fun _ => .bind (D.quiet rfl) fun d => acts_ite ?_ ?_
    · exact .bind (D.put_only subset_rfl) fun _ _ h => h
    refine .bind D.addNlink fun _ => .bind (D.unlock_only subset_rfl) fun _ => .bind D.namex fun r => ?_
    cases r with
    | none => exact neutral_sysLinkBad
    | some r =>
      refine .bind D.ilock fun _ => .bind (D.quiet rfl) fun i => .bind D.dirlink fun x => acts_ite ?_ ?_
      · exact .bind (D.put_only subset_rfl) fun _ => neutral_sysLinkBad
      · exact .bind (D.put_only subset_rfl) fun _ => .bind D.iput fun _ _ h => h

theorem erase_both : ((insert ip {dp} : Finset ISlot).erase ip).erase dp = ∅ ∧
    ((insert ip {dp} : Finset ISlot).erase dp).erase ip = ∅ := by
  have h : ((insert ip {dp} : Finset ISlot).erase ip).erase dp = ∅ := by
    rw [Finset.erase_insert_eq_erase, Finset.erase_eq_empty_iff]
    exact Finset.subset_singleton_iff.mp (Finset.erase_subset _ _)
  exact ⟨h, Finset.erase_right_comm.trans h⟩

theorem neutral_sysUnlinkEntry {off : ℕ} {isDir : Bool} :
    Acts g (Balanced cwd (ip ::ₘ dp ::ₘ 0) (insert ip {dp})) (sysUnlinkEntry dp ip off isDir) fun _ =>
      Balanced cwd 0 ∅ := by
  have D := balanced g cwd
  -- Whether or not the link of `..` went before.
  have hrest : Acts g (Balanced cwd (ip ::ₘ dp ::ₘ 0) (insert ip {dp})) (do
      iunlockput dp
      addNlink ip (-1)
      iunlockput ip
      Pure.pure (0 : ℤ)) fun _ => Balanced cwd 0 ∅ := by
    refine .bind D.put_second fun _ => .bind D.addNlink fun _ => .bind D.iunlockput fun _ s h => ?_
    rwa [erase_both.2] at h
  exact .bind (D.quiet rfl) fun r => acts_ite acts_fault
    (acts_ite (.bind D.addNlink fun _ => hrest) hrest)

theorem neutral_sysUnlink : Neutral g cwd (sysUnlink p path) := by
  have D := balanced g cwd
  refine .bind D.namex fun r => ?_
  cases r with
  | none => exact fun _ h => h
  | some r =>
    have hput : Acts g (Balanced cwd (r.1 ::ₘ 0) {r.1}) (do
        iunlockput r.1
        Pure.pure (-1 : ℤ)) fun _ => Balanced cwd 0 ∅ := .bind (D.put_only subset_rfl) fun _ _ h => h
    refine .bind D.ilock fun _ => acts_ite hput (.bind D.dirlookup fun e => ?_)
    cases e with
    | none => exact hput
    | some e =>
      refine .bind D.ilock fun _ => .bind (D.quiet rfl) fun d => acts_ite acts_fault ?_
      -- Both outcomes of the test for an empty directory.
      have hrest : ∀ removable, Acts g (Balanced cwd (e.1 ::ₘ r.1 ::ₘ 0) (insert e.1 {r.1}))
          (if removable = false then do
            iunlockput e.1
            iunlockput r.1
            Pure.pure (-1)
          else sysUnlinkEntry r.1 e.1 e.2 (d.type = T_DIR)) fun _ => Balanced cwd 0 ∅ := by
        refine fun _ => acts_ite ?_ neutral_sysUnlinkEntry
        refine .bind D.iunlockput fun _ => .bind D.iunlockput fun _ s h => ?_
        rwa [erase_both.1] at h
      exact acts_ite (.bind D.isdirempty hrest) (hrest true)

theorem neutral_createCall {type major minor : BitVec 16} : Neutral g cwd (do
    match ← create p path type major minor with
    | none => Pure.pure (-1 : ℤ)
    | some ip => do
      iunlockput ip
      Pure.pure 0) := by
  have D := balanced g cwd
  refine .bind D.create fun r => ?_
  cases r with
  | none => exact fun _ h => h
  | some ip =>
    rintro s ⟨l, hl, h⟩
    exact wp_of_triple h (.bind (D.put_only hl) fun _ _ h => h)

theorem neutral_sysOpen {omode : BitVec 32} : Neutral g cwd (sysOpen p path omode) := by
  have D := balanced g cwd
  refine .bind D.openInode fun r => ?_
  cases r with
  | none => exact fun _ h => h
  | some ip =>
    rintro s ⟨l, hl, h⟩
    -- Without a file or a descriptor the inode is let go again.
    have hfail : Acts g (Balanced cwd (ip ::ₘ 0) l) (do
        iunlockput ip
        Pure.pure (-1 : ℤ)) fun _ => Balanced cwd 0 ∅ := .bind (D.put_only hl) fun _ _ h => h
    refine wp_of_triple h (.bind acts_filealloc fun r => ?_)
    cases r with
    | none => exact hfail
    | some f =>
      refine .bind acts_fdalloc fun r => ?_
      cases r with
      | none => exact .bind (fun s h => acts_fileclose s h.1) fun _ => hfail
      | some fd =>
        refine .bind acts_iunlock ?_
        rintro _ s ⟨h, hty, href⟩
        rw [(Finset.erase_eq_empty_iff l ip).mpr (Finset.subset_singleton_iff.mp hl)] at h
        refine h.setFile _ (fun jp => ?_) fun h0 => ?_
        · simp only [hty, reduceCtorEq, false_and, if_false, true_and, Multiset.count_zero,
            Multiset.count_cons, eq_comm]
          omega
        · simp only [href] at h0
          cases h0

theorem neutral_argfd {k : Option (ℕ × FileSlot) → FsProg ℤ} (hnone : Neutral g cwd (k none))
    (hsome : ∀ x, Neutral g cwd (k (some x))) : Neutral g cwd (argfd p fd >>= k) := by
  refine .bind acts_argfd fun r => ?_
  cases r with
  | none => exact hnone
  | some x => exact hsome x

theorem neutral_sysDup : Neutral g cwd (sysDup p fd) := by
  refine neutral_argfd (fun _ h => h) fun x s h => ?_
  simp only [fdalloc, wp_bind, wb_tables]
  cases (List.range NOFILE).find? (fun fd => decide (s.tables.ofile p fd = none)) with
  | none => exact h
  | some fd' =>
    simp only [wp_bind, wb_setTables, wp_pure]
    exact acts_filedup _ (h.setOfile fd' _)

theorem neutral_sysClose : Neutral g cwd (sysClose p fd) := by
  refine neutral_argfd (fun _ h => h) fun x s h => ?_
  simp only [wp_bind, wb_tables, wb_setTables]
  exact acts_fileclose _ (h.setOfile x.1 none)

theorem neutral_sysFstat : Neutral g cwd (sysFstat p fd) := by
  have D := balanced g cwd
  refine neutral_argfd (fun _ h => h) fun x => .bind (R := fun _ => Balanced cwd 0 ∅) ?_ fun r => ?_
  · exact acts_tables fun t => acts_ite (.bind D.ilock fun _ => .bind (D.quiet rfl) fun d =>
      .bind (D.unlock_only subset_rfl) fun _ _ h => h) fun _ h => h
  · cases r with
    | none => exact fun _ h => h
    | some d => exact fun _ h => h

theorem neutral_sysRead {n : ℕ} : Neutral g cwd (sysRead p fd n) := by
  have D := balanced g cwd
  refine neutral_argfd (fun _ h => h) fun x => .bind (R := fun _ => Balanced cwd 0 ∅) ?_ fun _ _ h => h
  refine acts_tables fun t => acts_ite (fun _ h => h) ?_
  cases (t.file x.2).type with
  | none => exact acts_fault
  | inode =>
    exact .bind D.ilock fun _ => acts_tables fun u => .bind (D.quiet rfl) fun bs =>
      .bind acts_advance fun _ => .bind (D.unlock_only subset_rfl) fun _ _ h => h

theorem neutral_filewriteLoop {n : ℕ} : Neutral g cwd (filewriteLoop f n src) := by
  have D := balanced g cwd
  induction n generalizing src with
  | zero => exact fun _ h => h
  | succ n ih =>
    exact acts_ite (fun _ h => h) (acts_tables fun t => .bind D.ilock fun _ => acts_tables fun u =>
      .bind (D.quiet rfl) fun r => .bind acts_advance fun _ => .bind (D.unlock_only subset_rfl) fun _ =>
        acts_ite (fun _ h => h) (acts_ite acts_fault ih))

theorem neutral_sysWrite : Neutral g cwd (sysWrite p fd src) := by
  refine neutral_argfd (fun _ h => h) fun x => acts_tables fun t => acts_ite (fun _ h => h) ?_
  cases (t.file x.2).type with
  | none => exact acts_fault
  | inode => exact .bind neutral_filewriteLoop fun _ _ h => h

theorem neutral_exec {mem : ℕ → Bool} : Neutral g cwd (exec p path mem) := by
  have D := balanced g cwd
  refine .bind D.namei fun r => ?_
  cases r with
  | none => exact fun _ h => h
  | some ip =>
    exact .bind D.ilock fun _ => .bind D.loadElf fun b => .bind (D.put_only subset_rfl) fun _ _ h => h

abbrev Settles (s : BState) : Prop := ∃ cwd, Balanced cwd 0 ∅ s

theorem acts_sysChdir : Acts g (Balanced cwd 0 ∅) (sysChdir p path) fun _ => Settles := by
  have D := balanced g cwd
  refine .bind D.namei fun r => ?_
  cases r with
  | none => exact fun _ h => ⟨_, h⟩
  | some ip =>
    refine .bind D.ilock fun _ => .bind (D.quiet rfl) fun d => acts_ite
      (.bind (D.put_only subset_rfl) fun _ _ h => ⟨_, h⟩) (.bind (D.unlock_only subset_rfl) fun _ s h => ?_)
    simp only [wb_tables, wb_setTables, h.cwd, wp_bind]
    cases hold : cwd p with
    | none => trivial
    | some old =>
      refine wp_of_triple (h.setCwd (old ::ₘ 0) fun jp => ?_) (.bind acts_iput fun _ _ h => ⟨_, h⟩)
      simp only [hold, Multiset.count_cons, Multiset.count_zero, Option.some.injEq, eq_comm]
      omega

theorem acts_fork {child : Pid} (hchild : cwd child = none) :
    Acts g (Balanced cwd 0 ∅) (fork p child) fun _ => Settles := by
  have hfiles : ∀ fds, Neutral g cwd (forkFiles p child fds) := by
    intro fds
    induction fds with
    | nil => exact fun _ h => h
    | cons fd fds ih =>
      refine .bind (R := fun _ => Balanced cwd 0 ∅) (acts_tables fun t => ?_) fun _ => ih
      cases t.ofile p fd with
      | none => exact fun _ h => h
      | some f => exact .bind acts_filedup fun _ _ h => h.setOfile fd _
  refine .bind (hfiles _) fun _ s h => ?_
  simp only [wb_tables, h.cwd, wp_bind]
  cases hip : cwd p with
  | none => trivial
  | some ip =>
    refine ⟨_, (h.more (h.ref_pos_of_cwd hip)).setCwd 0 fun jp => ?_⟩
    simp only [hchild, Multiset.count_cons, Multiset.count_zero, Option.some.injEq, reduceCtorEq,
      if_false, eq_comm]
    omega

theorem acts_exit : Acts g (Balanced cwd 0 ∅) (exit p) fun _ => Settles := by
  have hfiles : ∀ fds, Neutral g cwd (exitFiles p fds) := by
    intro fds
    induction fds with
    | nil => exact fun _ h => h
    | cons fd fds ih =>
      refine .bind (R := fun _ => Balanced cwd 0 ∅) (acts_tables fun t => ?_) fun _ => ih
      cases t.ofile p fd with
      | none => exact fun _ h => h
      | some f => exact .bind acts_fileclose fun _ _ h => h.setOfile fd _
  refine .bind (hfiles _) fun _ s h => ?_
  simp only [wb_tables, wb_setTables, h.cwd, wp_bind]
  cases hold : cwd p with
  | none => trivial
  | some old =>
    refine wp_of_triple (h.setCwd (old ::ₘ 0) fun jp => ?_) (.bind acts_iput fun _ _ h => ⟨_, h⟩)
    simp only [hold, Multiset.count_cons, Multiset.count_zero, Option.some.injEq, reduceCtorEq,
      if_false, eq_comm]
    omega

theorem acts_prog (h : Balanced cwd 0 ∅ s) {call : Call} (hen : call.enabled s.tables p = true) :
    WP (performB g) (fun _ => True) (call.prog p) (fun _ => Settles) s := by
  have hend : ∀ {c : FsProg ℤ}, Neutral g cwd c → WP (performB g) (fun _ => True) c (fun _ => Settles) s :=
    fun hc => wp_mono (hc s h) fun _ _ h' => ⟨cwd, h'⟩
  cases call with
  | «open» path omode => exact hend neutral_sysOpen
  | close fd => exact hend neutral_sysClose
  | read fd n => exact hend neutral_sysRead
  | write fd src => exact hend neutral_sysWrite
  | fstat fd => exact hend neutral_sysFstat
  | dup fd => exact hend neutral_sysDup
  | mkdir path | mknod path major minor => exact hend neutral_createCall
  | link old new => exact hend neutral_sysLink
  | unlink path => exact hend neutral_sysUnlink
  | chdir path => exact acts_sysChdir s h
  | exec path mem => exact hend neutral_exec
  | fork child =>
    have hchild : cwd child = none := by
      simp only [Call.enabled, Bool.and_eq_true, Option.isNone_iff_eq_none] at hen
      rw [← h.cwd]
      exact hen.2
    exact acts_fork hchild s h
  | exit => exact acts_exit s h

theorem stepB_balanced {e : Pid × Call} (h : Balanced cwd 0 ∅ s) (hs : stepB g s e = some s') :
    Settles s' := by
  unfold stepB at hs
  split_ifs at hs with hen
  have hw := acts_prog (g := g) h hen
  split at hs
  next hrun =>
    cases hs
    exact wp_ok hw hrun
  · cases hs

theorem bootB_balanced (d : Disk) : Balanced (bootB d).tables.cwd 0 ∅ (bootB d) where
  cwd := rfl
  ref ip := by
    change (if ip = 0 then 1 else 0) = (boot mkfs).tables.refs ip + 0
    revert ip
    decide
  lock ip := by simp [bootB]
  uniq ip jp hip hjp _ := by
    simp only [bootB] at hip hjp
    split_ifs at hip hjp with h1 h2
    · rw [h1, h2]
    all_goals omega
  closed _ _ := rfl

theorem cache_references_balance (g : Geometry) (d : Disk) {evs : List (Pid × Call)}
    (hrun : Runs.exec (stepB g) (bootB d) evs = some s) :
    (∀ ip jp, 0 < (s.cache ip).ref → 0 < (s.cache jp).ref →
      (s.cache ip).inum = (s.cache jp).inum → ip = jp) ∧
    (∀ ip, (s.cache ip).ref =
      (Finset.univ.filter fun f => 0 < (s.tables.file f).ref ∧ (s.tables.file f).type = .inode ∧
        (s.tables.file f).ip = ip).card +
      (Finset.univ.filter fun p => s.tables.cwd p = some ip).card) ∧
    ∀ ip, (s.cache ip).locked = false := by
  have hinv := exec_invariant (stepB g) (I := fun s => ∃ cwd, Balanced cwd 0 ∅ s)
    (fun s e s' ⟨cwd, h⟩ hs => stepB_balanced h hs) ⟨_, bootB_balanced d⟩ hrun
  obtain ⟨cwd, h⟩ := hinv
  refine ⟨h.uniq, fun ip => ?_, fun ip => ?_⟩
  · have hfiles : (Finset.univ.filter fun f => 0 < (s.tables.file f).ref ∧
        (s.tables.file f).type = .inode ∧ (s.tables.file f).ip = ip) =
        Finset.univ.filter fun f => (s.tables.file f).type = .inode ∧ (s.tables.file f).ip = ip := by
      apply Finset.filter_congr
      intro f _
      constructor
      · exact fun hf => hf.2
      · refine fun hf => ⟨Nat.pos_of_ne_zero fun h0 => ?_, hf⟩
        rw [h.closed f h0] at hf
        cases hf.1
    rw [h.ref, Multiset.count_zero, hfiles]
    unfold Tables.refs
    omega
  · simpa using h.lock ip

theorem cache_references_balance_writtenRun :
    ∃ s, Runs.exec (stepB xv6Geometry) (bootB mkfsDisk) writtenRun = some s ∧
      0 < (s.tables.file 0).ref ∧ ∀ ip, (s.cache ip).locked = false := by
  obtain ⟨s, hs, hopen⟩ : ∃ s ∈ Runs.exec (stepB xv6Geometry) (bootB mkfsDisk) writtenRun,
      0 < (s.tables.file 0).ref := by decide +kernel
  exact ⟨s, hs, hopen, (cache_references_balance xv6Geometry mkfsDisk hs).2.2⟩

end Xv6.Fs
