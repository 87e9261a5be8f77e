import Xv6.Fs.Refinement
import Xv6.Fs.Links

/-!
# Runs of calls on disk blocks

A run on the blocks of a consistent disk is a run on the volume that the disk represents, so what
holds at the inode level holds of the blocks.
-/

namespace Xv6.Fs

open Lib Lib.Prog Lib.Runs Blocks

/-- The inodes and the contents of the files on the disk are those of the volume. -/
structure Represents (g : Geometry) (d : Disk) (v : Volume) : Prop where
  dinode : ∀ i < g.ninodes, readDinode g d i = v.dinode i
  bytes : ∀ i a, table g d i = some a → ∀ j < (readDinode g d i).size, contentOf a d j = v.bytes i j

/-- A consistent disk without holes: exact block accounts and a consistent volume. -/
structure Consistent (g : Geometry) (d : Disk) : Prop where
  geometry : g.Ok
  blocks : DiskOk g d
  image : ∃ v : Volume, v.Image g.conf ∧ Represents g d v

def bootB (d : Disk) : BState where
  vol := ⟨d, fun _ _ => 0⟩
  cache ip := ⟨if ip = 0 then ROOTINO else 0, if ip = 0 then 1 else 0, false, false, ⟨0, 0, 0, 0, 0⟩⟩
  tables := ⟨fun p => if p = 0 then some 0 else none, fun _ _ => none,
    fun _ => ⟨.none, 0, false, false, 0, 0⟩⟩

variable {g : Geometry} {d : Disk} {s s' : BState} {t : State} {e : Pid × Call}

/-- A state of the block level, next to the state of the inode level that it refines. -/
def Tracks (g : Geometry) (s : BState) (t : State) : Prop :=
  (∃ num, Good g.conf num 0 ∅ t) ∧ Refines g s t

theorem tracks_boot {v : Volume} (hd : DiskOk g d) (hv : v.Image g.conf) (hr : Represents g d v) :
    Tracks g (bootB d) (boot v) := by
  obtain hgood := hv.good
  refine ⟨⟨_, hgood⟩, ?_⟩
  constructor
  case disk => exact hd
  case cache => rfl
  case tables => rfl
  case dinode => exact hr.dinode
  case bytes => exact hr.bytes
  case range => exact hgood.range
  case uniq => exact hgood.uniq
  case lock => exact fun ip hl => nomatch hl
  case sync => exact fun ip _ hval => nomatch hval

theorem Tracks.not_refused (h : Tracks g s t) (hen : e.2.enabled t.tables e.1 = true) {f : Fault}
    (hrun : (e.2.prog e.1).run (perform g.conf) t = .error f) :
    f ≠ .misuse ∧ ∀ p ∈ excludedPanics, f ≠ .panic p := by
  obtain ⟨num, hgood⟩ := h.1
  have hw : W g.conf false (e.2.prog e.1) _ t := wp_prog hgood hen fun h => nomatch h
  have hpost := wp_error hw hrun
  exact ⟨hpost.1, hpost.2.2⟩

theorem stepB_refines (hg : g.Ok) (h : Tracks g s t) (hs : stepB g s e = some s') :
    ∃ t', step g.conf t e = some t' ∧ Tracks g s' t' := by
  unfold stepB at hs
  split_ifs at hs with hen
  rw [h.2.tables] at hen
  rcases refines_run hg (e.2.prog e.1) h.2 with ⟨f, hf, rfl⟩ | ⟨r, u, t', hu, ht', hR⟩ | ⟨f, hf, -⟩
  · exact absurd rfl (h.not_refused hen hf).1
  · rw [hu] at hs
    cases hs
    have hstep : step g.conf t e = some t' := by
      unfold step
      rw [if_pos hen, ht']
    obtain ⟨num, hgood⟩ := h.1
    exact ⟨t', hstep, (step_spec hgood hstep).1, hR⟩
  · rw [hf] at hs
    cases hs

theorem runB_refines (hg : g.Ok) {evs : List (Pid × Call)} (h : Tracks g s t)
    (hrun : Runs.exec (stepB g) s evs = some s') :
    ∃ t', Runs.exec (step g.conf) t evs = some t' ∧ Tracks g s' t' :=
  exec_simulates (stepB g) (fun _ _ _ _ => stepB_refines hg) h hrun

theorem Consistent.runB (hd : Consistent g d) {evs : List (Pid × Call)}
    (hrun : Runs.exec (stepB g) (bootB d) evs = some s) :
    ∃ v t, v.Image g.conf ∧ Represents g d v ∧ Runs.exec (step g.conf) (boot v) evs = some t ∧
      Tracks g s t := by
  obtain ⟨v, hv, hr⟩ := hd.image
  obtain ⟨t, ht, htr⟩ := runB_refines hd.geometry (tracks_boot hd.blocks hv hr) hrun
  exact ⟨v, t, hv, hr, ht, htr⟩

theorem Tracks.excluded (hg : g.Ok) (h : Tracks g s t) {p : Pid} {call : Call}
    (hen : call.enabled s.tables p = true) {q : Panic} (hq : q ∈ excludedPanics) :
    (call.prog p).run (performB g) s ≠ .error (.panic q) := by
  intro hrun
  rw [h.2.tables] at hen
  rcases refines_run hg (call.prog p) h.2 with ⟨f, hf, rfl⟩ | ⟨r, u, t', hu, -⟩ | ⟨f, hf, hown⟩
  · exact (h.not_refused (e := (p, call)) hen hf).1 rfl
  · rw [hu] at hrun
    cases hrun
  · rw [hrun] at hf
    cases hf
    rcases hown with hown | hlow
    · cases hown
      exact absurd hq (by decide)
    · exact (h.not_refused (e := (p, call)) hen hlow).2 q hq rfl

def RefersTo (g : Geometry) (d : Disk) (o : ℕ × Place) (b : ℕ) : Prop :=
  o.1 < g.ninodes ∧ (readDinode g d o.1).type ≠ 0 ∧ b ≠ 0 ∧ blockOf (readAddrs g d o.1) d o.2 = b

theorem refersTo_iff {o : ℕ × Place} {b : ℕ} :
    RefersTo g d o b ↔ b ≠ 0 ∧ refs (table g d) d o = b := by
  obtain ⟨i, p⟩ := o
  by_cases hi : i < g.ninodes ∧ (readDinode g d i).type ≠ 0
  · rw [refs_some (table_of_type hi.1 hi.2), RefersTo]
    simp only [hi.1, hi.2, true_and, ne_eq, not_false_eq_true]
  · have hnone : table g d i = none := if_neg hi
    rw [refs_none hnone, RefersTo]
    constructor
    · exact fun h => absurd ⟨h.1, h.2.1⟩ hi
    · exact fun h => absurd h.2.symm h.1

theorem inUse_iff (h : Accounts g (table g d) d) {b : ℕ} (hb : b < g.size) :
    inUse g d b = true ↔ b < g.nmeta ∨ ∃! o, RefersTo g d o b := by
  rw [h.existsUnique hb]
  by_cases hlo : b < g.nmeta
  · simp only [hlo, true_or]
  · have hb0 : b ≠ 0 := by
      have := h.pos
      omega
    simp only [hlo, false_or, refersTo_iff, hb0, ne_eq, not_false_eq_true, true_and]

/-- In every run, a block is marked in use exactly if it is a metadata block or has one owner. -/
theorem block_accounts (hd : Consistent g d) {evs : List (Pid × Call)}
    (hrun : Runs.exec (stepB g) (bootB d) evs = some s) :
    (∀ b < g.size, inUse g s.vol.disk b = true ↔
      b < g.nmeta ∨ ∃! o, RefersTo g s.vol.disk o b) ∧
    (∀ o o' b, RefersTo g s.vol.disk o b → RefersTo g s.vol.disk o' b → o = o') ∧
    (∀ x b x', balloc g x = .ok (b, x') → b < g.size ∧ inUse g x b = false ∧
      (∀ b' < b, inUse g x b' = true) ∧ x' b = Bytes.zero BSIZE) ∧
    ∀ p (call : Call), call.enabled s.tables p = true →
      (call.prog p).run (performB g) s ≠ .error (.panic .freeingFreeBlock) := by
  obtain ⟨v, t, -, -, -, htr⟩ := hd.runB hrun
  have hacc := htr.2.disk.accounts
  refine ⟨fun b hb => inUse_iff hacc hb, ?_, ?_, ?_⟩
  · intro o o' b ho ho'
    rw [refersTo_iff] at ho ho'
    exact hacc.inj o o' (by rw [ho.2]; exact ho.1) (ho.2.trans ho'.2.symm)
  · intro x b x' hb
    obtain ⟨hlt, hfree, hlow, rfl⟩ := balloc_ok hb
    exact ⟨hlt, hfree, hlow, Function.update_self _ _ _⟩
  · exact fun p call hen => htr.excluded hd.geometry hen (by decide)

def NoHoles (g : Geometry) (d : Disk) : Prop :=
  ∀ i < g.ninodes, (readDinode g d i).type ≠ 0 →
    ∀ bn < ((readDinode g d i).size + (BSIZE - 1)) / BSIZE,
      blockOf (readAddrs g d i) d (place bn) ≠ 0 ∧
        inUse g d (blockOf (readAddrs g d i) d (place bn)) = true

instance : Decidable (NoHoles g d) := inferInstanceAs (Decidable (∀ _, _))

theorem DiskOk.noHoles (h : DiskOk g d) : NoHoles g d := by
  intro i hi hty bn hbn
  have ht := table_of_type hi hty
  have hlt : BSIZE * bn < (readDinode g d i).size := by
    simp only [BSIZE] at hbn ⊢
    omega
  have hblock := h.full i _ ht _ hlt
  rw [HasBlock, Nat.mul_div_cancel_left _ (by norm_num)] at hblock
  rw [← refs_some ht] at hblock ⊢
  exact ⟨hblock, h.accounts.used_of_ref hblock⟩

section

variable (hg : g.Ok) (h : Tracks g s t) (hen : e.2.enabled s.tables e.1 = true)
include hg h hen

theorem Tracks.visits {β : Type} {o : Op β} (hv : Visits (performB g) o s' (e.2.prog e.1) s) :
    ∃ t', Refines g s' t' ∧ perform g.conf β o t' ≠ .error .misuse := by
  rw [h.2.tables] at hen
  rcases hv.simulates (fun _ o _ _ hR => refines_perform hg o hR) t h.2 with ⟨f, hf, rfl⟩ | ⟨t', hv', hR⟩
  · exact absurd rfl (h.not_refused hen hf).1
  · exact ⟨t', hR, fun hbad => (h.not_refused hen (hv'.run_error hbad)).1 rfl⟩

theorem Tracks.read_pure {β : Type} {o : Op β} {ip : ISlot} (off n : ℕ)
    (hv : Visits (performB g) o s' (e.2.prog e.1) s)
    (ho : ∀ t : State, (t.cache ip).locked = false → perform g.conf β o t = .error .misuse) :
    ∃ r, Blocks.readi g ip off n s' = .ok (r, s') := by
  obtain ⟨t', hR, hused⟩ := h.visits hg hen hv
  have hlk : (t'.cache ip).locked = true := by
    by_contra hlk
    exact hused (ho t' (Bool.eq_false_of_not_eq_true hlk))
  exact ⟨_, refines_readi hR hlk off n⟩

end

@[simp] theorem wb_tables {E : Fault → Prop} {Q : Tables → BState → Prop} :
    WP (performB g) E tables Q s ↔ Q s.tables s := Iff.rfl

@[simp] theorem wb_setTables {E : Fault → Prop} {Q : Unit → BState → Prop} {t : Tables} :
    WP (performB g) E (setTables t) Q s ↔ Q () { s with tables := t } := Iff.rfl

theorem files_written_through (hd : Consistent g d) {evs : List (Pid × Call)}
    (hrun : Runs.exec (stepB g) (bootB d) evs = some s) :
    NoHoles g s.vol.disk ∧
    (∀ i < g.ninodes, (readDinode g s.vol.disk i).type ≠ 0 →
      (readDinode g s.vol.disk i).size ≤ MAXFILE * BSIZE) ∧
    (∀ ip, 0 < (s.cache ip).ref → (s.cache ip).valid = true →
      (s.cache ip).din = readDinode g s.vol.disk (s.cache ip).inum ∧
        s.vol.addrs ip = readAddrs g s.vol.disk (s.cache ip).inum) ∧
    ∀ p (call : Call), call.enabled s.tables p = true →
      (call.prog p).run (performB g) s ≠ .error (.panic .bmapOutOfRange) ∧
      (∀ ip off n s', Visits (performB g) (.readi ip off n) s' (call.prog p) s →
        ∃ r, Blocks.readi g ip off n s' = .ok (r, s')) ∧
      ∀ ip off s', Visits (performB g) (.readDirent ip off) s' (call.prog p) s →
        ∃ r, Blocks.readi g ip off DIRENT s' = .ok (r, s') := by
  obtain ⟨v, t, -, -, -, htr⟩ := hd.runB hrun
  have hg := hd.geometry
  refine ⟨htr.2.disk.noHoles, fun i hi hty => htr.2.disk.size_le i _ (table_of_type hi hty), ?_, ?_⟩
  · intro ip href hval
    rw [htr.2.cache] at href hval ⊢
    obtain ⟨hdin, -, haddrs⟩ := htr.2.sync ip href hval
    exact ⟨by rw [hdin, htr.2.dinode _ (htr.2.range ip href)], haddrs⟩
  · intro p call hen
    refine ⟨htr.excluded hg hen (by decide), fun ip off n s' hv => ?_, fun ip off s' hv => ?_⟩
    · exact htr.read_pure (e := (p, call)) hg hen off n hv fun _ h => if_pos h
    · exact htr.read_pure (e := (p, call)) hg hen off DIRENT hv fun _ h => if_pos h

def xv6Geometry : Geometry := ⟨1000, 941, 200, 32, 58, fun _ => none⟩

def mkfsBlocks (bits : Block) : Disk := fun b =>
  if b = 32 then
    putDinode (Bytes.zero BSIZE) 1 ⟨T_DIR, 0, 0, 1, BSIZE⟩ fun k => if k = 0 then 59 else 0
  else if b = 58 then bits
  else if b = 59 then
    (Bytes.zero BSIZE).blit 0 (2 * DIRENT) fun j =>
      (Dirent.encode ⟨ROOTINO, dotName⟩ ++ Dirent.encode ⟨ROOTINO, dotdotName⟩).getD j 0
  else Bytes.zero BSIZE

def mkfsBits : Block := fun j => if j.val < 7 then 0xff else if j.val = 7 then 0x0f else 0

def mkfsDisk : Disk := mkfsBlocks mkfsBits

theorem xv6Geometry_ok : xv6Geometry.Ok := by
  constructor
  case inodes =>
    intro i hi
    simp only [xv6Geometry, Geometry.iblock, IPB, BSIZE, DINODE] at hi ⊢
    omega
  case bits =>
    intro b hb
    simp only [xv6Geometry, Geometry.bblock, Geometry.nmeta, BPB, BSIZE] at hb ⊢
    omega
  case size_lt => decide

theorem mkfsDisk_dinode : ∀ i < xv6Geometry.ninodes, readDinode xv6Geometry mkfsDisk i = mkfs.dinode i := by
  decide +kernel

theorem mkfsDisk_table {i : ℕ} {a : Addrs} (h : table xv6Geometry mkfsDisk i = some a) :
    i = ROOTINO ∧ a = fun k => if k = 0 then 59 else 0 := by
  obtain ⟨hi, hty, ha⟩ := table_some h
  rw [mkfsDisk_dinode i hi] at hty
  obtain rfl := mkfs_type_ne hty
  have haddrs : ∀ k, readAddrs xv6Geometry mkfsDisk ROOTINO k = if k = 0 then 59 else 0 := by
    decide +kernel
  exact ⟨rfl, ha ▸ funext haddrs⟩

theorem mkfsDisk_refs (o : ℕ × Place) :
    refs (table xv6Geometry mkfsDisk) mkfsDisk o = if o = (ROOTINO, .addr 0) then 59 else 0 := by
  obtain ⟨i, p⟩ := o
  cases ht : table xv6Geometry mkfsDisk i with
  | none =>
    rw [refs_none ht, if_neg]
    rintro heq
    cases heq
    have : table xv6Geometry mkfsDisk ROOTINO ≠ none := by
      rw [table_of_type (by decide) (by rw [mkfsDisk_dinode _ (by decide)]; decide)]
      exact Option.some_ne_none _
    exact this ht
  | some a =>
    obtain ⟨rfl, rfl⟩ := mkfsDisk_table ht
    rw [refs_some ht]
    cases p with
    | addr k =>
      simp only [blockOf, Prod.mk.injEq, true_and, Place.addr.injEq]
      split_ifs <;> rfl
    | slot j =>
      have hlast : (if Fin.last NDIRECT = 0 then (59 : BitVec 32) else 0) = 0 := by decide
      rw [blockOf, if_pos hlast]
      rfl

theorem mkfsDisk_ok : DiskOk xv6Geometry mkfsDisk := by
  constructor
  case accounts =>
    constructor
    case pos => decide
    case range =>
      intro o
      rw [mkfsDisk_refs]
      split_ifs <;> decide
    case inj =>
      intro o o'
      rw [mkfsDisk_refs, mkfsDisk_refs]
      split_ifs with h1 h2
      · exact fun _ _ => h1.trans h2.symm
      · exact fun _ h => absurd h (by decide)
      · exact fun h => absurd rfl h
      · exact fun h => absurd rfl h
    case used_iff =>
      have hbits : ∀ b < xv6Geometry.size, inUse xv6Geometry mkfsDisk b = decide (b < 60) := by
        decide +kernel
      intro b hb
      rw [hbits b hb, decide_eq_true_eq]
      simp only [mkfsDisk_refs]
      have hmeta : xv6Geometry.nmeta = 59 := rfl
      rw [hmeta]
      constructor
      · intro hlt
        by_cases h59 : b = 59
        · exact .inr ⟨(ROOTINO, .addr 0), by rw [if_pos rfl, h59]⟩
        · exact .inl (by omega)
      · rintro (hlt | ⟨o, rfl⟩)
        · omega
        · split_ifs <;> norm_num
  case size_le =>
    intro i a ht
    obtain ⟨rfl, -⟩ := mkfsDisk_table ht
    rw [mkfsDisk_dinode _ (by decide)]
    decide
  case full =>
    intro i a ht j hj
    obtain ⟨rfl, rfl⟩ := mkfsDisk_table ht
    rw [mkfsDisk_dinode _ (by decide)] at hj
    have hzero : j / BSIZE = 0 := Nat.div_eq_of_lt hj
    rw [HasBlock, hzero]
    decide

theorem mkfsDisk_represents : Represents xv6Geometry mkfsDisk mkfs := by
  refine ⟨mkfsDisk_dinode, fun i a ht j hj => ?_⟩
  obtain ⟨rfl, rfl⟩ := mkfsDisk_table ht
  rw [mkfsDisk_dinode _ (by decide)] at hj
  have hbytes : ∀ j < (mkfs.dinode ROOTINO).size,
      contentOf (fun k => if k = 0 then 59 else 0) mkfsDisk j = mkfs.bytes ROOTINO j := by
    decide +kernel
  exact hbytes j hj

theorem mkfsDisk_consistent : Consistent xv6Geometry mkfsDisk :=
  ⟨xv6Geometry_ok, mkfsDisk_ok, mkfs, mkfs_image (by decide), mkfsDisk_represents⟩

def writtenRun : List (Pid × Call) := [(0, .open [47, 102] (O_CREATE ||| O_RDWR)), (0, .write 0 [120])]

theorem block_accounts_writtenRun :
    ∃ s, Runs.exec (stepB xv6Geometry) (bootB mkfsDisk) writtenRun = some s ∧
      inUse xv6Geometry s.vol.disk 60 = true ∧ ∃! o, RefersTo xv6Geometry s.vol.disk o 60 := by
  obtain ⟨s, hs, hp⟩ : ∃ s ∈ Runs.exec (stepB xv6Geometry) (bootB mkfsDisk) writtenRun,
      inUse xv6Geometry s.vol.disk 60 = true := by decide +kernel
  have hall := block_accounts mkfsDisk_consistent hs
  exact ⟨s, hs, hp, ((hall.1 60 (by decide)).mp hp).resolve_left (by decide)⟩

theorem files_written_through_writtenRun :
    ∃ s, Runs.exec (stepB xv6Geometry) (bootB mkfsDisk) writtenRun = some s ∧
      (readDinode xv6Geometry s.vol.disk 2).size = 1 ∧ NoHoles xv6Geometry s.vol.disk ∧
      (s.cache 1).din = readDinode xv6Geometry s.vol.disk 2 := by
  obtain ⟨s, hs, hsize, href, hval, hinum⟩ :
      ∃ s ∈ Runs.exec (stepB xv6Geometry) (bootB mkfsDisk) writtenRun,
        (readDinode xv6Geometry s.vol.disk 2).size = 1 ∧ 0 < (s.cache 1).ref ∧
        (s.cache 1).valid = true ∧ (s.cache 1).inum = 2 := by decide +kernel
  have hall := files_written_through mkfsDisk_consistent hs
  exact ⟨s, hs, hsize, hall.1, hinum ▸ (hall.2.2.1 1 href hval).1⟩

/-- A run on blocks is one on inodes and contents, and the next call returns the same. -/
theorem block_level_refines (hd : Consistent g d) {evs : List (Pid × Call)}
    (hrun : Runs.exec (stepB g) (bootB d) evs = some s) :
    ∃ v t, Represents g d v ∧ Runs.exec (step g.conf) (boot v) evs = some t ∧
      Represents g s.vol.disk t.vol ∧ s.tables = t.tables ∧
      ∀ (p : Pid) (call : Call), call.enabled s.tables p = true →
        ((call.prog p).run (performB g) s).map Prod.fst =
            ((call.prog p).run (perform g.conf) t).map Prod.fst ∨
          (call.prog p).run (performB g) s = .error (.panic .outOfBlocks) := by
  obtain ⟨v, t, -, hr, ht, htr⟩ := hd.runB hrun
  refine ⟨v, t, hr, ht, ⟨htr.2.dinode, htr.2.bytes⟩, htr.2.tables, fun p call hen => ?_⟩
  rw [htr.2.tables] at hen
  rcases refines_run hd.geometry (call.prog p) htr.2 with
    ⟨f, hf, rfl⟩ | ⟨r, u, t', hu, ht', -⟩ | ⟨f, hf, hown⟩
  · exact absurd rfl (htr.not_refused (e := (p, call)) hen hf).1
  · left
    rw [hu, ht']
    rfl
  · rcases hown with rfl | hlow
    · exact .inr hf
    · left
      rw [hf, hlow]
      rfl

theorem block_level_refines_writtenRun :
    ∃ s, Runs.exec (stepB xv6Geometry) (bootB mkfsDisk) writtenRun = some s ∧
      ∃ v t, Runs.exec (step xv6Geometry.conf) (boot v) writtenRun = some t ∧
        Represents xv6Geometry s.vol.disk t.vol := by
  have hrun : (Runs.exec (stepB xv6Geometry) (bootB mkfsDisk) writtenRun).isSome = true := by
    decide +kernel
  obtain ⟨s, hs⟩ := Option.isSome_iff_exists.mp hrun
  obtain ⟨v, t, -, ht, hr, -⟩ := block_level_refines mkfsDisk_consistent hs
  exact ⟨s, hs, v, t, ht, hr⟩

def clearedBits : Block := fun j => if j.val = 7 then 0x08 else 0

theorem writtenRun_leaves_hole :
    NoHoles xv6Geometry (mkfsBlocks clearedBits) ∧
    ∃ s, Runs.exec (stepB xv6Geometry) (bootB (mkfsBlocks clearedBits)) writtenRun = some s ∧
      ¬ NoHoles xv6Geometry s.vol.disk := by
  refine ⟨by decide +kernel, ?_⟩
  change ∃ s ∈ Runs.exec _ _ _, _
  decide +kernel

end Xv6.Fs
