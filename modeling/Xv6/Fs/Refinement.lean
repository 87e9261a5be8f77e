import Xv6.Fs.InodeArea

/-!
# The block level refines the inode level

`Refines` relates a kernel over disk blocks to one over a volume of inodes: the same inode cache
and tables, the inodes on disk, and below each size the same contents.
-/

namespace Xv6.Fs

open Lib Lib.Prog Blocks
open Function (update_self update_of_ne update_eq_self update_apply update_idem update)

structure DiskOk (g : Geometry) (d : Disk) : Prop where
  accounts : Accounts g (table g d) d
  size_le : ∀ i a, table g d i = some a → (readDinode g d i).size ≤ MAXFILE * BSIZE
  full : ∀ i a, table g d i = some a → ∀ j < (readDinode g d i).size, HasBlock a d j

structure Refines (g : Geometry) (s : BState) (t : State) : Prop where
  disk : DiskOk g s.vol.disk
  cache : s.cache = t.cache
  tables : s.tables = t.tables
  dinode : ∀ i < g.ninodes, readDinode g s.vol.disk i = t.vol.dinode i
  bytes : ∀ i a, table g s.vol.disk i = some a → ∀ j < (readDinode g s.vol.disk i).size,
    contentOf a s.vol.disk j = t.vol.bytes i j
  range : ∀ ip, 0 < (t.cache ip).ref → (t.cache ip).inum < g.ninodes
  uniq : ∀ ip jp, 0 < (t.cache ip).ref → 0 < (t.cache jp).ref →
    (t.cache ip).inum = (t.cache jp).inum → ip = jp
  lock : ∀ ip, (t.cache ip).locked = true → 0 < (t.cache ip).ref ∧ (t.cache ip).valid = true
  sync : ∀ ip, 0 < (t.cache ip).ref → (t.cache ip).valid = true →
    (t.cache ip).din = t.vol.dinode (t.cache ip).inum ∧
      (t.vol.dinode (t.cache ip).inum).type ≠ 0 ∧
      s.vol.addrs ip = readAddrs g s.vol.disk (t.cache ip).inum

abbrev Answers (g : Geometry) {α : Type} (x : Except Fault (α × BState))
    (y : Except Fault (α × State)) : Prop :=
  Matches (· = .misuse) (· = .panic .outOfBlocks) (Refines g) x y

variable {g : Geometry} {s : BState} {t : State} {ip : ISlot} {α : Type}

theorem answers_ok {r : α} {s' : BState} {t' : State} (h : Refines g s' t') :
    Answers g (.ok (r, s')) (.ok (r, t')) := .inr (.inl ⟨r, s', t', rfl, rfl, h⟩)

theorem answers_error (f : Fault) :
    Answers g (.error f : Except Fault (α × BState)) (.error f) := .inr (.inr ⟨f, rfl, .inr rfl⟩)

theorem answers_unless {x : Except Fault (α × BState)} {y : Except Fault (α × State)} {c : Prop}
    [Decidable c] (h : ¬ c → Answers g x y) : Answers g x (if c then .error .misuse else y) := by
  split_ifs with hc
  · exact .inl ⟨_, rfl, rfl⟩
  · exact h hc

theorem answers_full {y : Except Fault (α × State)} {f : Fault} (h : f = .panic .outOfBlocks) :
    Answers g (.error f) y := .inr (.inr ⟨f, rfl, .inl h⟩)

section

variable (h : Refines g s t)
include h

theorem Refines.setInode {x : Inode} (hrange : 0 < x.ref → x.inum < g.ninodes)
    (huniq : 0 < x.ref → ∀ jp ≠ ip, 0 < (t.cache jp).ref → (t.cache jp).inum ≠ x.inum)
    (hlock : x.locked = true → 0 < x.ref ∧ x.valid = true)
    (hsync : 0 < x.ref → x.valid = true → x.din = t.vol.dinode x.inum ∧
      (t.vol.dinode x.inum).type ≠ 0 ∧ s.vol.addrs ip = readAddrs g s.vol.disk x.inum) :
    Refines g (s.setInode ip x) (t.setInode ip x) := by
  have hc : ∀ jp, (t.setInode ip x).cache jp = if jp = ip then x else t.cache jp := by
    intro jp
    simp [Kernel.setInode, update_apply]
  constructor
  case disk => exact h.disk
  case cache => simp only [Kernel.setInode, h.cache]
  case tables => exact h.tables
  case dinode => exact h.dinode
  case bytes => exact h.bytes
  case range =>
    intro jp
    rw [hc]
    split_ifs
    · exact hrange
    · exact h.range jp
  case uniq =>
    intro jp kp
    rw [hc, hc]
    split_ifs with h1 h2 h2
    · exact fun _ _ _ => h1.trans h2.symm
    · exact fun hx hk heq => absurd heq.symm (huniq hx kp h2 hk)
    · exact fun hj hx heq => absurd heq (huniq hx jp h1 hj)
    · exact h.uniq jp kp
  case lock =>
    intro jp
    rw [hc]
    split_ifs
    · exact hlock
    · exact h.lock jp
  case sync =>
    intro jp
    rw [hc]
    split_ifs with h1
    · rw [h1]
      exact hsync
    · exact h.sync jp

theorem Refines.setInode_same {x : Inode} (hpos : 0 < (t.cache ip).ref)
    (hinum : x.inum = (t.cache ip).inum) (hdin : x.din = (t.cache ip).din)
    (hvalid : x.valid = (t.cache ip).valid) (hlock : x.locked = true → 0 < x.ref ∧ x.valid = true) :
    Refines g (s.setInode ip x) (t.setInode ip x) := by
  apply h.setInode
  · exact fun _ => hinum ▸ h.range ip hpos
  · exact fun _ jp hne hj heq => hne (h.uniq jp ip hj hpos (heq.trans hinum))
  · exact hlock
  · intro _ hval
    rw [hdin, hinum]
    exact h.sync ip hpos (hvalid ▸ hval)

theorem refines_iget {i : ℕ} (hi : i < g.ninodes) : Answers g (s.iget i) (t.iget i) := by
  simp only [Kernel.iget, h.cache]
  cases hhit : (List.finRange NINODE).find?
      (fun ip => decide (0 < (t.cache ip).ref ∧ (t.cache ip).inum = i)) with
  | some ip =>
    have hip := List.find?_some hhit
    simp only [decide_eq_true_eq] at hip
    exact answers_ok (h.setInode_same hip.1 rfl rfl rfl fun hl =>
      ⟨Nat.succ_pos _, (h.lock ip hl).2⟩)
  | none =>
    have hnone : ∀ jp, 0 < (t.cache jp).ref → (t.cache jp).inum ≠ i := by
      intro jp hpos hjp
      have := List.find?_eq_none.mp hhit jp (List.mem_finRange jp)
      exact this (decide_eq_true ⟨hpos, hjp⟩)
    cases hfree : (List.finRange NINODE).find? (fun ip => decide ((t.cache ip).ref = 0)) with
    | none => exact answers_error _
    | some ip =>
      have hip := List.find?_some hfree
      simp only [decide_eq_true_eq] at hip
      refine answers_ok (h.setInode (fun _ => hi) (fun _ jp _ hj => hnone jp hj) ?_ ?_)
      · intro hl
        have := (h.lock ip hl).1
        omega
      · exact fun _ hval => by cases hval

theorem refines_idup (hpos : 0 < (t.cache ip).ref) :
    Answers g (.ok ((), s.idup ip)) (.ok ((), t.idup ip)) := by
  simp only [Kernel.idup, h.cache]
  exact answers_ok (h.setInode_same hpos rfl rfl rfl fun hl => ⟨Nat.succ_pos _, (h.lock ip hl).2⟩)

theorem refines_iunlock : Answers g (s.iunlock ip) (t.iunlock ip) := by
  simp only [Kernel.iunlock, h.cache]
  split_ifs with hcond
  · exact answers_error _
  · push Not at hcond
    exact answers_ok (h.setInode_same (by omega) rfl rfl rfl fun hl => nomatch hl)

theorem refines_ilock : Answers g (Blocks.ilock g ip s) (t.ilock ip) := by
  simp only [Blocks.ilock, State.ilock, h.cache]
  by_cases href : (t.cache ip).ref < 1
  · simp only [if_pos href]
    exact answers_error _
  have hpos : 0 < (t.cache ip).ref := by omega
  simp only [if_neg href]
  by_cases hlk : (t.cache ip).locked = true
  · simp only [if_pos hlk]
    exact answers_error _
  simp only [if_neg hlk]
  by_cases hval : (t.cache ip).valid = true
  · simp only [if_pos hval]
    exact answers_ok (h.setInode_same hpos rfl rfl rfl fun _ => ⟨hpos, hval⟩)
  have hi := h.range ip hpos
  simp only [if_neg hval, h.dinode _ hi]
  by_cases hty : (t.vol.dinode (t.cache ip).inum).type = 0
  · simp only [if_pos hty]
    exact answers_error _
  · simp only [if_neg hty]
    -- The slot now has the fields and the addresses that are on disk.
    have hs : Refines g (setStore s ip (readAddrs g s.vol.disk (t.cache ip).inum) s.vol.disk) t := by
      refine { h with sync := fun jp hj hv => ?_ }
      have hne : jp ≠ ip := fun heq => hval (heq ▸ hv)
      simp only [setStore, update_of_ne hne]
      exact h.sync jp hj hv
    refine answers_ok (hs.setInode (fun _ => hi) ?_ (fun _ => ⟨hpos, rfl⟩) ?_)
    · exact fun _ jp hne hj heq => hne (h.uniq jp ip hj hpos heq)
    · exact fun _ _ => ⟨rfl, hty, update_self _ _ _⟩

end

theorem content_congr {tab : AddrTable} {d d' : Disk} {i : ℕ} {a : Addrs} (h : Accounts g tab d)
    (hd : ∀ x, g.nmeta ≤ x → x < g.size → d' x = d x) (ht : tab i = some a) :
    (∀ j, HasBlock a d j → HasBlock a d' j) ∧
      ∀ j, HasBlock a d j → contentOf a d' j = contentOf a d j := by
  have hblock : ∀ p, blockOf a d' p = blockOf a d p := by
    intro p
    have := congrFun (refs_congr_data h hd) (i, p)
    rwa [refs_some ht, refs_some ht] at this
  refine ⟨fun j hj => by rw [HasBlock, hblock]; exact hj, fun j hj => ?_⟩
  have hr := h.range (i, place (j / BSIZE)) (by rw [refs_some ht]; exact hj)
  rw [refs_some ht] at hr
  rw [contentOf, contentOf, hblock, hd _ hr.1 hr.2]

structure Rewritten (g : Geometry) (d d1 d' : Disk) (i : ℕ) (x : Dinode) (a : Addrs) : Prop where
  range : i < g.ninodes
  inodes : ∀ b < g.bmapstart, d1 b = d b
  own : Accounts g (update (table g d) i (if x.type ≠ 0 then some a else none)) d1
  keep : ∀ i' ≠ i, ∀ a', table g d i' = some a' → ∀ j < MAXFILE * BSIZE, HasBlock a' d j →
    HasBlock a' d1 j ∧ contentOf a' d1 j = contentOf a' d j
  written : InodeWritten g d1 d' i x a
  size_le : x.type ≠ 0 → x.size ≤ MAXFILE * BSIZE
  full : x.type ≠ 0 → ∀ j < x.size, HasBlock a d1 j

namespace Rewritten

variable {d d1 d' : Disk} {i : ℕ} {x : Dinode} {a : Addrs}

section

variable (hg : g.Ok) (h : Rewritten g d d1 d' i x a)
include hg h

theorem other {i' : ℕ} (hi' : i' < g.ninodes) (hne : i' ≠ i) :
    readDinode g d' i' = readDinode g d i' ∧ readAddrs g d' i' = readAddrs g d i' := by
  obtain ⟨h1, h2⟩ := h.written.other i' hne
  obtain ⟨h3, h4⟩ := readDinode_congr hg h.inodes hi'
  exact ⟨h1.trans h3, h2.trans h4⟩

theorem table_eq : table g d' = update (table g d) i (if x.type ≠ 0 then some a else none) := by
  rw [h.written.table_eq h.range, table_congr hg h.inodes]

theorem data : ∀ b, g.nmeta ≤ b → b < g.size → d' b = d1 b := by
  intro b hb hlt
  have h1 := hg.bits b hlt
  have h2 := Geometry.bblock_ge g b
  exact h.written.data hg h.range (by omega)

theorem congr {i' : ℕ} {a' : Addrs}
    (ht : table g d' i' = some a') : (∀ j, HasBlock a' d1 j → HasBlock a' d' j) ∧
      ∀ j, HasBlock a' d1 j → contentOf a' d' j = contentOf a' d1 j :=
  content_congr h.own (h.data hg) (h.table_eq hg ▸ ht)

theorem table_cases {i' : ℕ} {a' : Addrs} (ht : table g d' i' = some a') :
    (i' = i ∧ x.type ≠ 0 ∧ a' = a) ∨ (i' ≠ i ∧ i' < g.ninodes ∧ table g d i' = some a') := by
  rw [h.table_eq hg] at ht
  by_cases hne : i' = i
  · subst hne
    rw [update_self] at ht
    split_ifs at ht with hty
    exact .inl ⟨rfl, hty, (Option.some.inj ht).symm⟩
  · rw [update_of_ne hne] at ht
    exact .inr ⟨hne, (table_some ht).1, ht⟩

end

theorem diskOk (hg : g.Ok) (hd : DiskOk g d) (h : Rewritten g d d1 d' i x a) : DiskOk g d' := by
  constructor
  case accounts =>
    rw [h.table_eq hg]
    exact h.own.congr_disk (h.data hg) fun b _ => h.written.bits hg h.range b
  case size_le =>
    intro i' a' ht
    obtain ⟨rfl, hty, -⟩ | ⟨hne, hi', ht'⟩ := h.table_cases hg ht
    · rw [h.written.self]
      exact h.size_le hty
    · rw [(h.other hg hi' hne).1]
      exact hd.size_le i' a' ht'
  case full =>
    intro i' a' ht j hj
    apply (h.congr hg ht).1
    obtain ⟨rfl, hty, rfl⟩ | ⟨hne, hi', ht'⟩ := h.table_cases hg ht
    · rw [h.written.self] at hj
      exact h.full hty j hj
    · rw [(h.other hg hi' hne).1] at hj
      exact (h.keep i' hne a' ht' j (hj.trans_le (hd.size_le i' a' ht')) (hd.full i' a' ht' j hj)).1

theorem contents (hg : g.Ok) (hd : DiskOk g d) (h : Rewritten g d d1 d' i x a) {v : Volume}
    {f : ℕ → Byte} (hself : x.type ≠ 0 → ∀ j < x.size, contentOf a d1 j = f j)
    (hbytes : ∀ i a, table g d i = some a → ∀ j < (readDinode g d i).size,
      contentOf a d j = v.bytes i j) :
    ∀ i' a', table g d' i' = some a' → ∀ j < (readDinode g d' i').size,
      contentOf a' d' j = update v.bytes i f i' j := by
  intro i' a' ht j hj
  have hcongr := (h.congr hg ht).2
  obtain ⟨rfl, hty, rfl⟩ | ⟨hne, hi', ht'⟩ := h.table_cases hg ht
  · rw [h.written.self] at hj
    rw [hcongr j (h.full hty j hj), update_self, hself hty j hj]
  · rw [(h.other hg hi' hne).1] at hj
    obtain ⟨hblock, hcont⟩ :=
      h.keep i' hne a' ht' j (hj.trans_le (hd.size_le i' a' ht')) (hd.full i' a' ht' j hj)
    rw [hcongr j hblock, hcont, update_of_ne hne, hbytes i' a' ht' j hj]

theorem dinode (hg : g.Ok) (h : Rewritten g d d1 d' i x a) {v : Volume}
    (hdinode : ∀ i < g.ninodes, readDinode g d i = v.dinode i) :
    ∀ i' < g.ninodes, readDinode g d' i' = update v.dinode i x i' := by
  intro i' hi'
  by_cases hne : i' = i
  · rw [hne, h.written.self, update_self]
  · rw [(h.other hg hi' hne).1, update_of_ne hne, hdinode i' hi']

end Rewritten

theorem Refines.rewrite (hg : g.Ok) (h : Refines g s t) (hpos : 0 < (t.cache ip).ref)
    {d1 d' : Disk} {x : Dinode} {a b : Addrs} {f : ℕ → Byte} {y : Inode}
    (hr : Rewritten g s.vol.disk d1 d' (t.cache ip).inum x a)
    (hbytes : x.type ≠ 0 → ∀ j < x.size, contentOf a d1 j = f j)
    (hinum : y.inum = (t.cache ip).inum) (hlock : y.locked = true → 0 < y.ref ∧ y.valid = true)
    (hsync : 0 < y.ref → y.valid = true → y.din = x ∧ x.type ≠ 0 ∧ b = a) :
    Refines g (setStore (s.setInode ip y) ip b d')
      { t.setInode ip y with vol := ⟨update t.vol.dinode (t.cache ip).inum x,
          update t.vol.bytes (t.cache ip).inum f⟩ } := by
  have hc : ∀ jp, (t.setInode ip y).cache jp = if jp = ip then y else t.cache jp := by
    intro jp
    simp [Kernel.setInode, update_apply]
  constructor
  case disk => exact hr.diskOk hg h.disk
  case cache => simp only [setStore, Kernel.setInode, h.cache]
  case tables => exact h.tables
  case dinode => exact hr.dinode hg h.dinode
  case bytes => exact hr.contents hg h.disk hbytes h.bytes
  case range =>
    intro jp
    simp only [hc]
    split_ifs
    · exact fun _ => hinum ▸ h.range ip hpos
    · exact h.range jp
  case uniq =>
    intro jp kp
    simp only [hc]
    split_ifs with h1 h2 h2
    · exact fun _ _ _ => h1.trans h2.symm
    · exact fun _ hk heq => absurd (h.uniq kp ip hk hpos (heq.symm.trans hinum)) h2
    · exact fun hj _ heq => absurd (h.uniq jp ip hj hpos (heq.trans hinum)) h1
    · exact h.uniq jp kp
  case lock =>
    intro jp
    simp only [hc]
    split_ifs
    · exact hlock
    · exact h.lock jp
  case sync =>
    intro jp
    simp only [hc, setStore]
    split_ifs with h1
    · intro hy hv
      obtain ⟨hdin, hty, ha⟩ := hsync hy hv
      rw [h1, hinum, update_self, update_self, hdin, ha, hr.written.addrs]
      exact ⟨rfl, hty, rfl⟩
    · intro hj hv
      have hne : (t.cache jp).inum ≠ (t.cache ip).inum := fun heq => h1 (h.uniq jp ip hj hpos heq)
      rw [update_of_ne h1, update_of_ne hne, (hr.other hg (h.range jp hj) hne).2]
      exact h.sync jp hj hv

theorem DiskOk.size_lt {d : Disk} (h : DiskOk g d) {i : ℕ} {a : Addrs} (ht : table g d i = some a) :
    (readDinode g d i).size < 2 ^ 32 := by
  have := h.size_le i a ht
  simp only [MAXFILE, NDIRECT, NINDIRECT, BSIZE] at this
  omega

theorem Refines.sync_table (h : Refines g s t) (hpos : 0 < (t.cache ip).ref)
    (hval : (t.cache ip).valid = true) :
    table g s.vol.disk (t.cache ip).inum = some (s.vol.addrs ip) ∧
      (t.cache ip).din = readDinode g s.vol.disk (t.cache ip).inum := by
  obtain ⟨hdin, hty, haddrs⟩ := h.sync ip hpos hval
  have hi := h.range ip hpos
  rw [haddrs]
  exact ⟨table_of_type hi (by rw [h.dinode _ hi]; exact hty), by rw [hdin, h.dinode _ hi]⟩

theorem Refines.iupdate (hg : g.Ok) (h : Refines g s t) (hlk : (t.cache ip).locked = true) {x : Dinode}
    (hty : x.type = (t.cache ip).din.type) (hsize : x.size = (t.cache ip).din.size) :
    Refines g (Blocks.iupdate g ip (setDin ip x s)) (t.iupdate ip x) := by
  obtain ⟨hpos, hval⟩ := h.lock ip hlk
  have hi := h.range ip hpos
  obtain ⟨htab, hdin⟩ := h.sync_table hpos hval
  obtain ⟨-, hne, -⟩ := h.sync ip hpos hval
  have htype : x.type ≠ 0 := by
    rw [hty, hdin, h.dinode _ hi]
    exact hne
  rw [hdin] at hsize
  have hr : Rewritten g s.vol.disk s.vol.disk
      (writeDinode g s.vol.disk (t.cache ip).inum x (s.vol.addrs ip)) (t.cache ip).inum x
      (s.vol.addrs ip) := by
    constructor
    case range => exact hi
    case inodes => exact fun _ _ => rfl
    case own =>
      rw [if_pos htype, ← htab, update_eq_self]
      exact h.disk.accounts
    case keep => exact fun _ _ _ _ _ _ hb => ⟨hb, rfl⟩
    case written => exact inodeWritten_writeDinode (by rw [hsize]; exact h.disk.size_lt htab)
    case size_le => exact fun _ => hsize ▸ h.disk.size_le _ _ htab
    case full => exact fun _ => hsize ▸ h.disk.full _ _ htab
  have := h.rewrite hg hpos (y := { t.cache ip with din := x }) hr
    (fun _ j hj => h.bytes _ _ htab j (hsize ▸ hj)) rfl (fun _ => ⟨hpos, hval⟩)
    (fun _ _ => ⟨rfl, htype, rfl⟩)
  simpa only [Blocks.iupdate, setDin, setStore, State.iupdate, Kernel.setInode, Volume.setDinode,
    h.cache, update_self, update_eq_self] using this

section Written

variable {d d' d'' : Disk} {i off : ℕ} {src : List Byte} {a a' : Addrs} {x : Dinode}

theorem Blocks.Written.full (hd : DiskOk g d) (ht : table g d i = some a)
    (hw : Written g i (table g d) a d off src a' d') {j : ℕ}
    (hj : j < (readDinode g d i).size ∨ off ≤ j ∧ j < off + src.length) : HasBlock a' d' j := by
  rcases hj with hj | ⟨h1, h2⟩
  · have hblock := hd.full i a ht j hj
    have hmono := hw.mono (i, place (j / BSIZE)) (by rw [refs_some ht]; exact hblock)
    rw [refs_some ht, refs_some (update_self _ _ _)] at hmono
    rw [HasBlock, hmono]
    exact hblock
  · exact hw.mapped j h1 h2

theorem Blocks.Written.keep (hw : Written g i (table g d) a d off src a' d') {i' : ℕ} (hne : i' ≠ i) {b : Addrs}
    (ht : table g d i' = some b) {j : ℕ} (hj : j < MAXFILE * BSIZE) (hblock : HasBlock b d j) :
    HasBlock b d' j ∧ contentOf b d' j = contentOf b d j := by
  have hrow : update (table g d) i (some a') i' = some b := by
    rw [update_of_ne hne, ht]
  have hrefs := hw.others (i', place (j / BSIZE)) hne
  rw [refs_some hrow, refs_some ht] at hrefs
  have hdata := hw.data (i', place (j / BSIZE)) hne (place_isData (block_lt hj))
    (by rw [refs_some ht]; exact hblock)
  rw [refs_some ht] at hdata
  rw [HasBlock, contentOf, hrefs, hdata]
  exact ⟨hblock, rfl⟩

theorem Blocks.Written.content (hd : DiskOk g d) (ht : table g d i = some a)
    (hw : Written g i (table g d) a d off src a' d') {f : ℕ → Byte} {j : ℕ}
    (hf : ∀ j < (readDinode g d i).size, contentOf a d j = f j)
    (hj : j < (readDinode g d i).size ∨ off ≤ j ∧ j < off + src.length) :
    contentOf a' d' j = splice f off src j := by
  by_cases hin : off ≤ j ∧ j < off + src.length
  · rw [hw.bytes j hin.1 hin.2, splice, if_pos hin]
  · have hlt : j < (readDinode g d i).size := by omega
    rw [hw.rest j (hlt.trans_le (hd.size_le i a ht)) hin (hd.full i a ht j hlt), hf j hlt, splice,
      if_neg hin]

theorem Blocks.Written.rewritten (hd : DiskOk g d) (ht : table g d i = some a)
    (hw : Written g i (table g d) a d off src a' d') (hty : x.type ≠ 0)
    (hle : x.size ≤ MAXFILE * BSIZE)
    (hsize : ∀ j < x.size, j < (readDinode g d i).size ∨ off ≤ j ∧ j < off + src.length)
    (hx : InodeWritten g d' d'' i x a') : Rewritten g d d' d'' i x a' := by
  constructor
  case range => exact (table_some ht).1
  case inodes => exact hw.inodes
  case own =>
    rw [if_pos hty]
    exact hw.own
  case keep => exact fun _ hne _ hrow _ hj hblock => hw.keep hne hrow hj hblock
  case written => exact hx
  case size_le => exact fun _ => hle
  case full => exact fun _ j hj => hw.full hd ht (hsize j hj)

end Written

theorem refines_writei (hg : g.Ok) (h : Refines g s t) (hlk : (t.cache ip).locked = true)
    (src : List Byte) (off : ℕ) :
    Answers g (Blocks.writei g ip src off s) (.ok (t.writei g.conf ip src off)) := by
  obtain ⟨hpos, hval⟩ := h.lock ip hlk
  have hi := h.range ip hpos
  obtain ⟨htab, hdin⟩ := h.sync_table hpos hval
  obtain ⟨-, hne, -⟩ := h.sync ip hpos hval
  have htype : (t.cache ip).din.type ≠ 0 := by
    rw [hdin, h.dinode _ hi]
    exact hne
  simp only [Blocks.writei, State.writei, h.cache]
  by_cases hdev : (t.cache ip).din.type = T_DEV
  · simp only [if_pos hdev]
    cases g.conf.driver (t.cache ip).din.major with
    | none => exact answers_ok h
    | some dev => exact answers_ok h
  simp only [if_neg hdev]
  by_cases hoff : (t.cache ip).din.size < off ∨ (off + src.length) % 2 ^ 32 < off
  · simp only [if_pos hoff]
    exact answers_ok h
  simp only [if_neg hoff]
  by_cases hfit : MAXFILE * BSIZE < off + src.length
  · simp only [if_pos hfit]
    exact answers_ok h
  simp only [if_neg hfit]
  cases hloop : writeLoop g src.length src off (s.vol.addrs ip) s.vol.disk with
  | error f => exact answers_full (writeLoop_error (Nat.not_lt.mp hfit) hloop)
  | ok r =>
    obtain ⟨a, d⟩ := r
    have hw := writeLoop_ok hg h.disk.accounts htab le_rfl (Nat.not_lt.mp hfit) hloop
    have hstart : off ≤ (readDinode g s.vol.disk (t.cache ip).inum).size := by
      rw [← hdin]
      omega
    have hbytes := h.bytes _ _ htab
    by_cases hgrow : 0 < src.length ∧ (t.cache ip).din.size < off + src.length
    · simp only [if_pos hgrow]
      have hsize : ∀ j < off + src.length, j < (readDinode g s.vol.disk (t.cache ip).inum).size ∨
          off ≤ j ∧ j < off + src.length := fun j hj => by omega
      have hr := hw.rewritten (x := { (t.cache ip).din with size := off + src.length }) h.disk htab htype
        (Nat.not_lt.mp hfit) hsize (inodeWritten_writeDinode (by
          simp only [MAXFILE, NDIRECT, NINDIRECT, BSIZE] at hfit
          dsimp only
          omega))
      have := h.rewrite hg hpos
        (y := { t.cache ip with din := { (t.cache ip).din with size := off + src.length } }) hr
        (fun _ j hj => hw.content h.disk htab hbytes (hsize j hj)) rfl (fun _ => ⟨hpos, hval⟩)
        (fun _ _ => ⟨rfl, htype, rfl⟩)
      refine answers_ok ?_
      simpa only [Blocks.iupdate, setDin, setStore, State.iupdate, Kernel.setInode,
        Volume.setDinode, h.cache, update_self] using this
    · -- Every byte is below the size, so every block is there and the addresses stay.
      simp only [if_neg hgrow]
      have hin : ∀ j, off ≤ j → j < off + src.length →
          j < (readDinode g s.vol.disk (t.cache ip).inum).size := by
        intro j h1 h2
        rw [← hdin]
        omega
      have ha : a = s.vol.addrs ip := hw.same fun j h1 h2 => h.disk.full _ _ htab j (hin j h1 h2)
      subst ha
      have hself : InodeWritten g d d (t.cache ip).inum (t.cache ip).din (s.vol.addrs ip) := by
        obtain ⟨h1, h2⟩ := readDinode_congr hg hw.inodes hi
        refine ⟨by rw [h1, hdin], ?_, fun _ _ => ⟨rfl, rfl⟩, fun _ _ => rfl⟩
        rw [h2, (table_some htab).2.2]
      have hr := hw.rewritten h.disk htab htype (hdin ▸ h.disk.size_le _ _ htab)
        (fun j hj => .inl (hdin ▸ hj)) hself
      have := h.rewrite hg hpos (y := t.cache ip) hr
        (fun _ j hj => hw.content h.disk htab hbytes (.inl (hdin ▸ hj))) rfl (fun _ => ⟨hpos, hval⟩)
        (fun _ _ => ⟨rfl, htype, rfl⟩)
      refine answers_ok ?_
      have hold : (t.cache ip).din = t.vol.dinode (t.cache ip).inum := (h.sync ip hpos hval).1
      have hcache : update s.cache ip (t.cache ip) = s.cache := by
        rw [h.cache, update_eq_self]
      simpa only [setStore, Kernel.setInode, hold, update_eq_self, hcache] using this

theorem refines_readi (h : Refines g s t) (hlk : (t.cache ip).locked = true) (off n : ℕ) :
    Blocks.readi g ip off n s = .ok (t.readi g.conf ip off n, s) := by
  obtain ⟨hpos, hval⟩ := h.lock ip hlk
  obtain ⟨htab, hdin⟩ := h.sync_table hpos hval
  simp only [Blocks.readi, State.readi, h.cache]
  split_ifs with hdev hoff
  · cases g.conf.driver (t.cache ip).din.major <;> rfl
  · rfl
  · have hle : off + min n ((t.cache ip).din.size - off) ≤
        (readDinode g s.vol.disk (t.cache ip).inum).size := by
      rw [← hdin]
      omega
    rw [readLoop_ok le_rfl (hle.trans (h.disk.size_le _ _ htab))
      fun j _ h2 => h.disk.full _ _ htab j (by omega)]
    have hslice : slice (contentOf (s.vol.addrs ip) s.vol.disk) off (min n ((t.cache ip).din.size - off)) =
        slice (t.vol.bytes (t.cache ip).inum) off (min n ((t.cache ip).din.size - off)) :=
      slice_congr fun j hj => h.bytes _ _ htab _ (by omega)
    simp only [hslice, setStore, update_eq_self]

theorem refines_readDirent (h : Refines g s t) (hlk : (t.cache ip).locked = true) (off : ℕ) :
    Blocks.readDirent g ip off s = .ok (t.readDirent g.conf ip off, s) := by
  simp only [Blocks.readDirent, State.readDirent, refines_readi h hlk]
  cases t.readi g.conf ip off DIRENT <;> rfl

theorem Blocks.InodeWritten.trans {d d' d'' : Disk} {i : ℕ} {x x' : Dinode} {a a' : Addrs}
    (h : InodeWritten g d d' i x a) (h' : InodeWritten g d' d'' i x' a') :
    InodeWritten g d d'' i x' a' where
  self := h'.self
  addrs := h'.addrs
  other i' hne := ⟨(h'.other i' hne).1.trans (h.other i' hne).1,
    (h'.other i' hne).2.trans (h.other i' hne).2⟩
  outside b hb := (h'.outside b hb).trans (h.outside b hb)

theorem refines_iput (hg : g.Ok) (h : Refines g s t) (hpos : 0 < (t.cache ip).ref) :
    Answers g (Blocks.iput g ip s) (t.iput ip) := by
  simp only [Blocks.iput, State.iput, h.cache]
  by_cases hlk : (t.cache ip).locked = true
  · simp only [if_pos hlk]
    exact answers_error _
  simp only [if_neg hlk]
  by_cases hfree : (t.cache ip).valid = true ∧ (t.cache ip).din.nlink = 0 ∧ (t.cache ip).ref = 1
  · simp only [if_pos hfree]
    have hi := h.range ip hpos
    obtain ⟨htab, hdin⟩ := h.sync_table hpos hfree.1
    obtain ⟨d1, hrun, hsame, hown⟩ := itruncBlocks_ok hg h.disk.accounts htab
    have hlt : (0 : ℕ) < 2 ^ 32 := by norm_num
    -- `iupdate` writes the inode twice, in `itrunc` and in `iput` itself.
    have hr : Rewritten g s.vol.disk d1
        (writeDinode g (writeDinode g d1 (t.cache ip).inum { (t.cache ip).din with size := 0 } fun _ => 0)
          (t.cache ip).inum { (t.cache ip).din with type := 0, size := 0 } fun _ => 0)
        (t.cache ip).inum { (t.cache ip).din with type := 0, size := 0 } fun _ => 0 := by
      constructor
      case range => exact hi
      case inodes => exact hsame.1
      case own => exact hown
      case keep =>
        intro i' _ a' ht j _ hblock
        obtain ⟨h1, h2⟩ := content_congr h.disk.accounts (fun x hx _ => hsame.2 x hx) ht
        exact ⟨h1 j hblock, h2 j hblock⟩
      case written => exact (inodeWritten_writeDinode hlt).trans (inodeWritten_writeDinode hlt)
      case size_le => exact fun hty => absurd rfl hty
      case full => exact fun hty => absurd rfl hty
    have := h.rewrite hg hpos (b := fun _ => 0) (f := t.vol.bytes (t.cache ip).inum)
      (y := { t.cache ip with
        valid := false, din := { (t.cache ip).din with type := 0, size := 0 },
        ref := (t.cache ip).ref - 1 })
      hr (fun hty => absurd rfl hty) rfl (fun hl => absurd hl hlk) fun _ hv => nomatch hv
    simp only [Blocks.itrunc, hrun]
    refine answers_ok ?_
    simpa only [Blocks.iupdate, setDin, setStore, Kernel.setInode, Volume.setDinode, h.cache,
      update_self, update_idem, update_eq_self] using this
  · simp only [if_neg hfree]
    exact answers_ok (h.setInode_same hpos rfl rfl rfl fun hl => absurd hl hlk)

theorem Rewritten.claim {d d' : Disk} {i : ℕ} {x : Dinode} (hacc : Accounts g (table g d) d)
    (hi : i < g.ninodes) (hfree : (readDinode g d i).type = 0) (hty : x.type ≠ 0) (hsize : x.size = 0)
    (hw : InodeWritten g d d' i x fun _ => 0) : Rewritten g d d d' i x fun _ => 0 := by
  have hrow : table g d i = none := if_neg fun hx => hx.2 hfree
  constructor
  case range => exact hi
  case inodes => exact fun _ _ => rfl
  case own =>
    refine hacc.congr (fun _ _ => Iff.rfl) fun o => ?_
    obtain ⟨i', p⟩ := o
    by_cases hne : i' = i
    · subst hne
      rw [if_pos hty, refs_some (update_self _ _ _), refs_none hrow]
      cases p <;> rfl
    · rw [refs_update_ne hne]
  case keep => exact fun _ _ _ _ _ _ hb => ⟨hb, rfl⟩
  case written => exact hw
  case size_le => exact fun _ => hsize ▸ Nat.zero_le _
  case full => exact fun _ j hj => absurd (hsize ▸ hj) (Nat.not_lt_zero j)

theorem Refines.claim (hg : g.Ok) (h : Refines g s t) {i : ℕ} (hi : i < g.ninodes)
    (hfree : (t.vol.dinode i).type = 0) {type : BitVec 16} (hty : type ≠ 0) : Refines g
      { s with vol := { s.vol with
          disk := update s.vol.disk (g.iblock i)
            (newDinode (s.vol.disk (g.iblock i)) (i % IPB) type) } }
      { t with vol := t.vol.setDinode i ⟨type, 0, 0, 0, 0⟩ } := by
  have hr := Rewritten.claim h.disk.accounts hi (by rw [h.dinode i hi]; exact hfree) hty rfl
    (inodeWritten_newDinode type)
  constructor
  case disk => exact hr.diskOk hg h.disk
  case cache => exact h.cache
  case tables => exact h.tables
  case dinode => exact hr.dinode hg h.dinode
  case bytes =>
    have := hr.contents hg h.disk (f := t.vol.bytes i) (fun _ j hj => absurd hj (Nat.not_lt_zero j)) h.bytes
    rwa [update_eq_self] at this
  case range => exact h.range
  case uniq => exact h.uniq
  case lock => exact h.lock
  case sync =>
    intro jp hj hv
    obtain ⟨hdin, hne, haddrs⟩ := h.sync jp hj hv
    have hji : (t.cache jp).inum ≠ i := fun heq => hne (heq ▸ hfree)
    simp only [Volume.setDinode, update_of_ne hji, (hr.other hg (h.range jp hj) hji).2]
    exact ⟨hdin, hne, haddrs⟩

theorem refines_ialloc (hg : g.Ok) (h : Refines g s t) {type : BitVec 16} (hty : type ≠ 0) :
    Answers g (Blocks.ialloc g type s) (t.ialloc g.conf type) := by
  have hsearch : (List.range' 1 (g.ninodes - 1)).find? (fun i => (readDinode g s.vol.disk i).type = 0) =
      (List.range' 1 (g.ninodes - 1)).find? (fun i => (t.vol.dinode i).type = 0) := by
    apply List.find?_congr
    intro i hi
    rw [List.mem_range'_1] at hi
    rw [h.dinode i (by omega)]
  simp only [Blocks.ialloc, State.ialloc, hsearch, Geometry.conf]
  cases hfind : (List.range' 1 (g.ninodes - 1)).find? (fun i => (t.vol.dinode i).type = 0) with
  | none => exact answers_error _
  | some i =>
    have hfree := List.find?_some hfind
    have hmem := List.mem_of_find?_eq_some hfind
    rw [List.mem_range'_1] at hmem
    have hi : i < g.ninodes := by omega
    exact refines_iget (h.claim hg hi (of_decide_eq_true hfree) hty) hi

theorem refines_perform (hg : g.Ok) {β : Type} (o : Op β) (h : Refines g s t) :
    Answers g (performB g β o s) (perform g.conf β o t) := by
  cases o with
  | iget i => exact answers_unless fun hi => refines_iget h (Nat.not_le.mp hi)
  | idup ip => exact answers_unless fun hz => refines_idup h (Nat.pos_of_ne_zero hz)
  | ilock ip => exact refines_ilock h
  | iunlock ip => exact refines_iunlock h
  | iput ip => exact answers_unless fun hz => refines_iput hg h (Nat.pos_of_ne_zero hz)
  | ialloc type => exact answers_unless fun hty => refines_ialloc hg h hty
  | inum ip | dinode ip =>
    simp only [performB, perform, h.cache]
    exact answers_ok h
  | updateNlink ip n | updateNew ip major minor =>
    simp only [performB, perform, h.cache]
    exact answers_unless fun hlk =>
      answers_ok (h.iupdate hg (Bool.eq_true_of_not_eq_false hlk) rfl rfl)
  | readi ip off n =>
    refine answers_unless fun hlk => ?_
    rw [performB, refines_readi h (Bool.eq_true_of_not_eq_false hlk)]
    exact answers_ok h
  | writei ip src off =>
    refine answers_unless fun hlk => ?_
    push Not at hlk
    exact refines_writei hg h (Bool.eq_true_of_not_eq_false hlk.1) src off
  | readDirent ip off =>
    refine answers_unless fun hlk => ?_
    rw [performB, refines_readDirent h (Bool.eq_true_of_not_eq_false hlk)]
    exact answers_ok h
  | writeDirent ip de off =>
    refine answers_unless fun hlk => ?_
    push Not at hlk
    exact refines_writei hg h (Bool.eq_true_of_not_eq_false hlk.1) de.encode off
  | tables =>
    simp only [performB, perform, h.tables]
    exact answers_ok h
  | setTables tb =>
    simp only [performB, perform]
    exact answers_ok { h with tables := rfl }

theorem refines_run (hg : g.Ok) (p : Prog Op Fault α) (h : Refines g s t) :
    Answers g (p.run (performB g) s) (p.run (perform g.conf) t) :=
  run_simulates (fun _ o _ _ hR => refines_perform hg o hR) p s t h

end Xv6.Fs
