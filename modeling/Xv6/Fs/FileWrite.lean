import Xv6.Fs.ReadWrite

/-!
# Writing to an open file

`filewrite` cuts its bytes into chunks of at most `maxWrite`, each a transaction of its own, and
stops at the first chunk that `writei` refuses because it would end past `MAXFILE` blocks.
-/

namespace Xv6.Fs

open Lib Lib.Prog Blocks Function

variable {g : Geometry} {s s' : BState} {ip : ISlot} {i off : ℕ} {f : FileSlot} {c src : List Byte}
  {E : Fault → Prop}

def SameRefs (s s' : BState) : Prop :=
  ∀ jp, (s'.cache jp).inum = (s.cache jp).inum ∧ (s'.cache jp).ref = (s.cache jp).ref

theorem SameRefs.setInode {x : Inode} (hinum : x.inum = (s.cache ip).inum)
    (href : x.ref = (s.cache ip).ref) : SameRefs s (s.setInode ip x) := by
  intro jp
  by_cases h : jp = ip
  · subst h
    simp only [Kernel.setInode, update_self]
    exact ⟨hinum, href⟩
  · simp only [Kernel.setInode, update_of_ne h, and_self]

theorem Settled.ilock (h : Settled g s) (hpos : 0 < (s.cache ip).ref)
    (hfree : (s.cache ip).locked = false)
    (hty : (readDinode g s.vol.disk (s.cache ip).inum).type ≠ 0) :
    ∃ s', Blocks.ilock g ip s = .ok ((), s') ∧ Settled g s' ∧ s'.vol.disk = s.vol.disk ∧
      s'.tables = s.tables ∧ SameRefs s s' ∧ (s'.cache ip).locked = true := by
  have hR : Answers g (Blocks.ilock g ip s) ((inodesOf g s).ilock ip) := refines_ilock h.refines
  have href : ¬ (s.cache ip).ref < 1 := by omega
  have hlk : ¬ (s.cache ip).locked = true := by rw [hfree]; exact Bool.false_ne_true
  have hok : ∃ s', Blocks.ilock g ip s = .ok ((), s') ∧ s'.vol.disk = s.vol.disk ∧
      s'.tables = s.tables ∧ SameRefs s s' ∧ (s'.cache ip).locked = true := by
    simp only [Blocks.ilock, if_neg href, if_neg hlk, if_neg hty]
    split_ifs
    · exact ⟨_, rfl, rfl, rfl, .setInode rfl rfl, by simp [Kernel.setInode]⟩
    · exact ⟨_, rfl, rfl, rfl, .setInode rfl rfl, by simp [Kernel.setInode, setStore]⟩
  obtain ⟨s', hs', hframe⟩ := hok
  refine ⟨s', hs', ?_, hframe⟩
  rcases hR with ⟨f, hf, rfl⟩ | ⟨_, s1, t1, hs1, -, hR⟩ | ⟨f, hf, -⟩
  · simp only [State.ilock] at hf
    split_ifs at hf <;> cases hf
  · rw [hs'] at hs1
    cases hs1
    exact hR.settled
  · rw [hs'] at hf
    cases hf

theorem Settled.iunlock (h : Settled g s) (hlk : (s.cache ip).locked = true) :
    ∃ s', Kernel.iunlock ip s = .ok ((), s') ∧ Settled g s' ∧ s'.vol.disk = s.vol.disk ∧
      s'.tables = s.tables ∧ SameRefs s s' ∧ (s'.cache ip).locked = false := by
  obtain ⟨hpos, hval⟩ := h.lock ip hlk
  have hcond : ¬ ((s.cache ip).locked = false ∨ (s.cache ip).ref < 1) := by
    rw [hlk]
    exact fun h => h.elim (fun h => by cases h) (by omega)
  refine ⟨_, if_neg hcond, ?_, rfl, rfl, .setInode rfl rfl, by simp [Kernel.setInode]⟩
  exact (h.refines.setInode_same (x := { s.cache ip with locked := false }) hpos rfl rfl rfl
    fun hl => by cases hl).settled

theorem Settled.setTables (h : Settled g s) (t : Tables) : Settled g { s with tables := t } :=
  ⟨h.disk, h.range, h.uniq, h.lock, h.sync⟩

theorem writei_frame {r : ℤ × BState} (hok : Blocks.writei g ip src off s = .ok r) :
    r.2.tables = s.tables ∧ SameRefs s r.2 ∧ ∀ jp, (r.2.cache jp).locked = (s.cache jp).locked := by
  have hsame : ∀ jp, (s.cache jp).inum = (s.cache jp).inum ∧ (s.cache jp).ref = (s.cache jp).ref :=
    fun _ => ⟨rfl, rfl⟩
  unfold Blocks.writei at hok
  simp only [] at hok
  split_ifs at hok
  · cases hdrv : g.conf.driver (s.cache ip).din.major with
    | none | some dev =>
      rw [hdrv] at hok
      cases hok
      exact ⟨rfl, hsame, fun _ => rfl⟩
  · cases hok
    exact ⟨rfl, hsame, fun _ => rfl⟩
  · cases hok
    exact ⟨rfl, hsame, fun _ => rfl⟩
  · split at hok
    · cases hok
    · cases hok
      refine ⟨rfl, .setInode rfl rfl, fun jp => ?_⟩
      simp only [Blocks.iupdate, setDin, setStore, Kernel.setInode, update_apply]
      split_ifs with h
      · rw [h]
      · rfl
  · split at hok
    · cases hok
    · cases hok
      exact ⟨rfl, hsame, fun _ => rfl⟩

def Ample (g : Geometry) (i : ℕ) (d : Disk) : Prop := Room g (readAddrs g d i) d allPlaces

theorem Settled.ample (hg : g.Ok) (h : Settled g s) (hlk : (s.cache ip).locked = true)
    (hi : (s.cache ip).inum = i) (hdev : (readDinode g s.vol.disk i).type ≠ T_DEV)
    (hoff : off ≤ (readDinode g s.vol.disk i).size) (hfit : off + src.length ≤ MAXFILE * BSIZE)
    (hroom : Ample g i s.vol.disk) :
    ∃ r, Blocks.writei g ip src off s = .ok r ∧ Ample g i r.2.vol.disk := by
  obtain ⟨hlt, hne, hdin, haddrs⟩ := h.locked hlk hi
  have htab := table_of_type hlt hne
  obtain ⟨a, d, hloop, hroom'⟩ := hroom.writeLoop (n := src.length) hg h.disk.accounts htab hfit
    fun _ _ _ p _ => mem_allPlaces p
  have hw := writeLoop_ok hg h.disk.accounts htab le_rfl hfit hloop
  have hin : ¬ ((readDinode g s.vol.disk i).size < off ∨ (off + src.length) % 2 ^ 32 < off) := by
    simp only [MAXFILE, NDIRECT, NINDIRECT, BSIZE] at hfit
    omega
  simp only [Blocks.writei, hdin, haddrs, hloop, if_neg hdev, if_neg hin, if_neg (Nat.not_lt.mpr hfit)]
  split_ifs with hgrow
  · refine ⟨_, rfl, ?_⟩
    have hx : InodeWritten g d (writeDinode g d i
        { readDinode g s.vol.disk i with size := off + src.length } a) i
        { readDinode g s.vol.disk i with size := off + src.length } a :=
      inodeWritten_writeDinode (by
        simp only [MAXFILE, NDIRECT, NINDIRECT, BSIZE] at hfit
        dsimp only
        omega)
    have hrefs := refs_congr_data hw.own fun b _ hb =>
      hx.data hg hlt ((Geometry.bblock_ge g b).trans (by have := hg.bits b hb; omega))
    have hblock : ∀ p, blockOf a (writeDinode g d i
        { readDinode g s.vol.disk i with size := off + src.length } a) p = blockOf a d p := by
      intro p
      have := congrFun hrefs (i, p)
      rwa [refs_some (update_self _ _ _), refs_some (update_self _ _ _)] at this
    simp only [Blocks.iupdate, setDin, setStore, Kernel.setInode, update_self, hi]
    rw [Ample, hx.addrs]
    exact hroom'.congr (fun b _ => hx.bits hg hlt b) hblock
  · refine ⟨_, rfl, ?_⟩
    have ha : a = readAddrs g s.vol.disk i :=
      hw.same fun j h1 h2 => h.disk.full _ _ htab j (by omega)
    have hsame := (readDinode_congr hg hw.inodes hlt).2
    change Room g (readAddrs g d i) d allPlaces
    rw [hsame, ← ha]
    exact hroom'

structure FileAt (g : Geometry) (f : FileSlot) (i : ℕ) (c : List Byte) (off : ℕ) (s : BState) : Prop where
  settled : Settled g s
  type : (s.tables.file f).type = .inode
  writable : (s.tables.file f).writable = true
  ref : 0 < (s.cache (s.tables.file f).ip).ref
  inum : (s.cache (s.tables.file f).ip).inum = i
  file : (readDinode g s.vol.disk i).type = T_FILE
  contents : (volumeOf g s.vol.disk).contents i = c
  offset : (s.tables.file f).off = off

namespace FileAt

variable {Q : Unit → BState → Prop}

section

variable (h : FileAt g f i c off s)
include h

theorem length_eq : c.length = (readDinode g s.vol.disk i).size := by
  rw [← h.contents, Volume.length_contents]
  rfl

theorem range : i < g.ninodes := by
  have := h.settled.range _ h.ref
  rwa [h.inum] at this

theorem type_ne : (readDinode g s.vol.disk i).type ≠ 0 := by
  rw [h.file]
  decide

theorem length_le : c.length ≤ MAXFILE * BSIZE := by
  rw [h.length_eq]
  exact h.settled.disk.size_le _ _ (table_of_type h.range h.type_ne)

theorem frame {c' : List Byte} (hset : Settled g s')
    (htables : s'.tables = s.tables) (hslots : SameRefs s s')
    (htype : (readDinode g s'.vol.disk i).type = (readDinode g s.vol.disk i).type)
    (hc : (volumeOf g s'.vol.disk).contents i = c') : FileAt g f i c' off s' := by
  constructor
  case settled => exact hset
  case type => rw [htables]; exact h.type
  case writable => rw [htables]; exact h.writable
  case ref => rw [htables, (hslots _).2]; exact h.ref
  case inum => rw [htables, (hslots _).1]; exact h.inum
  case file => rw [htype]; exact h.file
  case contents => exact hc
  case offset => rw [htables]; exact h.offset

theorem wp_ilock (hfree : (s.cache (s.tables.file f).ip).locked = false)
    (hQ : ∀ s', FileAt g f i c off s' → s'.tables = s.tables → s'.vol.disk = s.vol.disk →
      (s'.cache (s'.tables.file f).ip).locked = true → Q () s') :
    WP (performB g) E (ilock (s.tables.file f).ip) Q s := by
  obtain ⟨s', hs', hset, hdisk, htables, hslots, hlk⟩ := h.settled.ilock h.ref hfree
    (by rw [h.inum]; exact h.type_ne)
  simp only [Fs.ilock, wp_call, performB, hs']
  exact hQ s' (h.frame hset htables hslots (by rw [hdisk]) (by rw [hdisk]; exact h.contents)) htables
    hdisk (by rw [htables]; exact hlk)

theorem wp_iunlock (hlk : (s.cache (s.tables.file f).ip).locked = true)
    (hQ : ∀ s', FileAt g f i c off s' → s'.tables = s.tables → s'.vol.disk = s.vol.disk →
      (s'.cache (s'.tables.file f).ip).locked = false → Q () s') :
    WP (performB g) E (iunlock (s.tables.file f).ip) Q s := by
  obtain ⟨s', hs', hset, hdisk, htables, hslots, hfree⟩ := h.settled.iunlock hlk
  simp only [Fs.iunlock, wp_call, performB, hs']
  exact hQ s' (h.frame hset htables hslots (by rw [hdisk]) (by rw [hdisk]; exact h.contents)) htables
    hdisk (by rw [htables]; exact hfree)

end

theorem wp_writei {Q : ℤ → BState → Prop} (hg : g.Ok) (h : FileAt g f i c off s)
    (hlk : (s.cache (s.tables.file f).ip).locked = true)
    (hample : off ≤ c.length → ¬ E (.panic .outOfBlocks) → Ample g i s.vol.disk)
    (hfail : ¬ (off ≤ c.length ∧ off + src.length ≤ MAXFILE * BSIZE) → Q (-1) s)
    (hok : off ≤ c.length → off + src.length ≤ MAXFILE * BSIZE → ∀ s',
      FileAt g f i (overwrite c off src) off s' → s'.tables = s.tables →
      (s'.cache (s'.tables.file f).ip).locked = true →
      (¬ E (.panic .outOfBlocks) → Ample g i s'.vol.disk) → Q src.length s') :
    WP (performB g) E (writei (s.tables.file f).ip src off) Q s := by
  have hdev : (readDinode g s.vol.disk i).type ≠ T_DEV := by
    rw [h.file]
    decide
  have hdin := (h.settled.locked hlk h.inum).2.2.1
  simp only [Fs.writei, wp_call, performB]
  by_cases hin : off ≤ c.length ∧ off + src.length ≤ MAXFILE * BSIZE
  · have hoff : off ≤ (readDinode g s.vol.disk i).size := h.length_eq ▸ hin.1
    cases hw : Blocks.writei g (s.tables.file f).ip src off s with
    | error fault =>
      obtain rfl := h.settled.writei_error hg hlk hw
      by_contra hE
      obtain ⟨r, hr, -⟩ := h.settled.ample hg hlk h.inum hdev hoff hin.2 (hample hin.1 hE)
      rw [hw] at hr
      cases hr
    | ok r =>
      obtain ⟨hr1, hbytes, htype, -, hset⟩ := h.settled.written hg hlk h.inum hdev hoff hin.2 hw
      obtain ⟨htables, hslots, hlocks⟩ := writei_frame hw
      dsimp only
      rw [hr1]
      refine hok hin.1 hin.2 r.2 (h.frame hset htables hslots htype (by rw [hbytes, h.contents])) htables
        (by rw [htables, hlocks]; exact hlk) fun hE => ?_
      obtain ⟨r', hr', hroom⟩ := h.settled.ample hg hlk h.inum hdev hoff hin.2 (hample hin.1 hE)
      rw [hw] at hr'
      cases hr'
      exact hroom
  · rw [writei_refused (by rw [hdin]; exact hdev) (by rw [hdin, ← h.length_eq]; exact hin)]
    exact hfail hin

theorem move (h : FileAt g f i c off s) (x : ℕ) :
    FileAt g f i c x { s with tables := s.tables.setFile f { s.tables.file f with off := x } } := by
  have hfile : (s.tables.setFile f { s.tables.file f with off := x }).file f =
      { s.tables.file f with off := x } := by
    simp [Tables.setFile_file]
  constructor
  case settled => exact h.settled.setTables _
  case type => rw [hfile]; exact h.type
  case writable => rw [hfile]; exact h.writable
  case ref => rw [hfile]; exact h.ref
  case inum => rw [hfile]; exact h.inum
  case file => exact h.file
  case contents => exact h.contents
  case offset => rw [hfile]

theorem wp_advance {n : ℕ} (h : FileAt g f i c off s) (hn : off + n < 2 ^ 32)
    (hQ : ∀ s', FileAt g f i c (off + n) s' → (s'.tables.file f).ip = (s.tables.file f).ip →
      s'.vol = s.vol → s'.cache = s.cache → Q () s') : WP (performB g) E (advance f n) Q s := by
  simp only [advance, wp_bind, tables, setTables, wp_call, performB]
  split_ifs with hpos
  · simp only [wp_call, performB, Int.toNat_natCast, h.offset, Nat.mod_eq_of_lt hn]
    exact hQ _ (h.move (off + n)) (by simp [Tables.setFile_file]) rfl rfl
  · obtain rfl : n = 0 := by omega
    exact hQ s h rfl rfl rfl

theorem wp_advance_fail (hQ : Q () s) : WP (performB g) E (advance f (-1)) Q s := by
  simp only [advance, wp_bind, tables, wp_call, performB]
  rw [if_neg (by omega)]
  exact hQ

def fitting (off n : ℕ) : ℕ :=
  if off + n ≤ MAXFILE * BSIZE then n else maxWrite * ((MAXFILE * BSIZE - off) / maxWrite)

theorem fitting_chunk {n m : ℕ} (hm : m = min n maxWrite) (hfit : off + m ≤ MAXFILE * BSIZE) :
    fitting off n = m + fitting (off + m) (n - m) ∧
      (off + n ≤ MAXFILE * BSIZE ↔ off + m + (n - m) ≤ MAXFILE * BSIZE) := by
  simp only [fitting, MAXFILE, NDIRECT, NINDIRECT, BSIZE, maxWrite, MAXOPBLOCKS] at *
  split_ifs <;> omega

theorem fitting_full {n m : ℕ} (hm : m = min n maxWrite) (hfit : ¬ off + m ≤ MAXFILE * BSIZE) :
    fitting off n = 0 ∧ ¬ off + n ≤ MAXFILE * BSIZE := by
  simp only [fitting, MAXFILE, NDIRECT, NINDIRECT, BSIZE, maxWrite, MAXOPBLOCKS] at *
  split_ifs <;> omega

def Outcome (g : Geometry) (f : FileSlot) (i : ℕ) (c : List Byte) (off : ℕ) (src : List Byte)
    (done : Bool) (s : BState) : Prop :=
  FileAt g f i (overwrite c off (src.take (fitting off src.length))) (off + fitting off src.length) s ∧
    done = decide (off + src.length ≤ MAXFILE * BSIZE)

theorem outcome_nil (h : FileAt g f i c off s) (hoff : off ≤ c.length) :
    Outcome g f i c off [] true s := by
  have hle : off ≤ MAXFILE * BSIZE := hoff.trans h.length_le
  have hzero : fitting off 0 = 0 := if_pos hle
  refine ⟨?_, by simp [hle]⟩
  simpa [hzero] using h

theorem wp_filewriteLoop {Q : Bool → BState → Prop} (hg : g.Ok) {n : ℕ} (h : FileAt g f i c off s)
    (hn : src.length ≤ n) (hoff : off ≤ c.length)
    (hfree : (s.cache (s.tables.file f).ip).locked = false)
    (hample : ¬ E (.panic .outOfBlocks) → Ample g i s.vol.disk)
    (hQ : ∀ done s', Outcome g f i c off src done s' → Q done s') :
    WP (performB g) E (filewriteLoop f n src) Q s := by
  induction n generalizing s off c src with
  | zero =>
    obtain rfl : src = [] := List.length_eq_zero_iff.mp (by omega)
    exact hQ _ s (outcome_nil h hoff)
  | succ n ih =>
    simp only [filewriteLoop]
    split_ifs with h0
    · subst h0
      exact hQ _ s (outcome_nil h hoff)
    simp only [wp_bind, wb_tables]
    have hm : (src.take maxWrite).length = min src.length maxWrite := by
      rw [List.length_take, min_comm]
    apply h.wp_ilock hfree
    intro s1 h1 ht1 hd1 hlk1
    rw [h1.offset, ← ht1]
    apply h1.wp_writei hg hlk1 (fun _ hE => hd1 ▸ hample hE)
    · intro hout
      apply wp_advance_fail
      apply h1.wp_iunlock hlk1
      intro s2 h2 _ _ _
      rw [if_pos (by omega), wp_pure]
      obtain ⟨hzero, hbig⟩ := fitting_full hm fun hfit => hout ⟨hoff, hfit⟩
      refine hQ _ s2 ⟨?_, (decide_eq_false hbig).symm⟩
      rw [hzero]
      simpa using h2
    · intro _ hfit s2 h2 ht2 hlk2 hample2
      have hmax : MAXFILE * BSIZE < 2 ^ 32 := by decide
      apply h2.wp_advance (by omega)
      intro s3 h3 hip3 hv3 hc3
      rw [← ht2, ← hip3]
      apply h3.wp_iunlock (by rw [hip3, hc3]; exact hlk2)
      intro s4 h4 ht4 hd4 hfree4
      rw [if_neg (by omega), if_neg (by simp)]
      have hlen : (src.drop maxWrite).length = src.length - (src.take maxWrite).length := by
        rw [List.length_drop, hm]
        omega
      obtain ⟨hsum, hiff⟩ := fitting_chunk hm hfit
      have hcat : src.take maxWrite ++ (src.drop maxWrite).take
            (fitting (off + (src.take maxWrite).length) (src.drop maxWrite).length) =
          src.take (fitting off src.length) := by
        rw [← List.take_add, List.take_eq_take_iff, hsum, hlen]
        omega
      have hpos : 0 < (src.take maxWrite).length := by
        have := List.length_pos_iff.mpr h0
        rw [hm]
        exact lt_min this (by decide)
      refine ih h4 (by omega) ?_ hfree4 (fun hE => ?_) fun done s5 h => hQ done s5 ⟨?_, ?_⟩
      · rw [length_overwrite hoff]
        exact le_max_right _ _
      · rw [hd4, hv3]
        exact hample2 hE
      · have h5 := h.1
        rw [overwrite_append hoff, hcat, Nat.add_assoc, hlen, ← hsum] at h5
        exact h5
      · rw [h.2, hlen]
        exact decide_eq_decide.mpr hiff.symm

theorem wp_filewriteLoop_past {Q : Bool → BState → Prop} (hg : g.Ok) {n : ℕ} (h : FileAt g f i c off s)
    (hn : src.length ≤ n) (hoff : c.length < off)
    (hfree : (s.cache (s.tables.file f).ip).locked = false)
    (hQ : ∀ s', FileAt g f i c off s' → Q (decide (src = [])) s') :
    WP (performB g) E (filewriteLoop f n src) Q s := by
  cases n with
  | zero =>
    obtain rfl : src = [] := List.length_eq_zero_iff.mp (by omega)
    exact hQ s h
  | succ n =>
    simp only [filewriteLoop]
    split_ifs with h0
    · have := hQ s h
      rwa [decide_eq_true h0] at this
    simp only [wp_bind, wb_tables]
    rw [decide_eq_false h0] at hQ
    apply h.wp_ilock hfree
    intro s1 h1 ht1 hd1 hlk1
    rw [h1.offset, ← ht1]
    apply h1.wp_writei hg hlk1 (fun hle => absurd hle (by omega))
    · intro _
      apply wp_advance_fail
      apply h1.wp_iunlock hlk1
      intro s2 h2 _ _ _
      rw [if_pos (by omega), wp_pure]
      exact hQ s2 h2
    · exact fun hle => absurd hle (by omega)

theorem wp_filewrite {Q : ℤ → BState → Prop} (hg : g.Ok) (h : FileAt g f i c off s)
    (hfree : (s.cache (s.tables.file f).ip).locked = false)
    (hample : ¬ E (.panic .outOfBlocks) → Ample g i s.vol.disk)
    (hin : off ≤ c.length → ∀ s', FileAt g f i (overwrite c off (src.take (fitting off src.length)))
      (off + fitting off src.length) s' →
      Q (if off + src.length ≤ MAXFILE * BSIZE then src.length else -1) s')
    (hpast : c.length < off → ∀ s', FileAt g f i c off s' → Q (if src = [] then src.length else -1) s') :
    WP (performB g) E (filewrite f src) Q s := by
  have hw : ¬ (s.tables.file f).writable = false := by
    rw [h.writable]
    exact fun hfalse => nomatch hfalse
  simp only [filewrite, wp_bind, wb_tables, if_neg hw, h.type, wp_pure]
  rcases Nat.lt_or_ge c.length off with hlt | hle
  · apply h.wp_filewriteLoop_past hg le_rfl hlt hfree
    intro s' h'
    simpa using hpast hlt s' h'
  · apply h.wp_filewriteLoop hg le_rfl hle hfree hample
    intro done s' h'
    rw [h'.2]
    simpa using hin hle s' h'.1

end FileAt

theorem filewrite_all_or_nothing (hg : g.Ok) (h : FileAt g f i c off s)
    (hfree : (s.cache (s.tables.file f).ip).locked = false)
    {r : ℤ} (hrun : (filewrite f src).run (performB g) s = .ok (r, s')) :
    ((r = src.length ∨ r = -1) ∧
      (r = src.length → (volumeOf g s'.vol.disk).contents i = overwrite c off src ∧
        (s'.tables.file f).off = off + src.length) ∧
      (r = -1 → (volumeOf g s'.vol.disk).contents i = c ∧
        (readDinode g s'.vol.disk i).size = (readDinode g s.vol.disk i).size ∧
        (s'.tables.file f).off = off)) ↔
    (off + src.length ≤ MAXFILE * BSIZE ∨ c.length < off ∨ MAXFILE * BSIZE < off + maxWrite) := by
  have hpost : WP (performB g) (fun _ => True) (filewrite f src) (fun r s' =>
      (off + src.length ≤ MAXFILE * BSIZE ∨ c.length < off ∨ MAXFILE * BSIZE < off + maxWrite) ∧
        (r = src.length ∧ FileAt g f i (overwrite c off src) (off + src.length) s' ∨
          r = -1 ∧ FileAt g f i c off s') ∨
      ¬(off + src.length ≤ MAXFILE * BSIZE ∨ c.length < off ∨ MAXFILE * BSIZE < off + maxWrite) ∧
        r = -1 ∧ (s'.tables.file f).off ≠ off) s := by
    apply h.wp_filewrite hg hfree (fun hE => absurd trivial hE)
    · intro hle s' h'
      split_ifs with hfit
      · rw [FileAt.fitting, if_pos hfit, List.take_length] at h'
        exact .inl ⟨.inl hfit, .inl ⟨rfl, h'⟩⟩
      · rw [FileAt.fitting, if_neg hfit] at h'
        by_cases hcut : MAXFILE * BSIZE < off + maxWrite
        · have hmax := h.length_le
          rw [Nat.div_eq_of_lt (by omega), Nat.mul_zero] at h'
          exact .inl ⟨.inr (.inr hcut), .inr ⟨rfl, by simpa using h'⟩⟩
        · -- a chunk has been written
          refine .inr ⟨by omega, rfl, ?_⟩
          have hchunk : 0 < (MAXFILE * BSIZE - off) / maxWrite := Nat.div_pos (by omega) (by decide)
          have hpos := Nat.mul_pos (show 0 < maxWrite by decide) hchunk
          rw [h'.offset]
          omega
    · intro hlt s' h'
      refine .inl ⟨.inr (.inl hlt), ?_⟩
      split_ifs with hnil
      · subst hnil
        exact .inl ⟨rfl, by simpa using h'⟩
      · exact .inr ⟨rfl, h'⟩
  rcases wp_ok hpost hrun with ⟨hcut, ⟨rfl, h'⟩ | ⟨rfl, h'⟩⟩ | ⟨hcut, rfl, hoff⟩
  · exact iff_of_true ⟨.inl rfl, fun _ => ⟨h'.contents, h'.offset⟩, fun hr => absurd hr (by omega)⟩ hcut
  · exact iff_of_true ⟨.inr rfl, fun hr => absurd hr (by omega),
      fun _ => ⟨h'.contents, h'.length_eq.symm.trans h.length_eq, h'.offset⟩⟩ hcut
  · exact iff_of_false (fun hall => hoff (hall.2.2 rfl).2.2) hcut

def createdRun : List (Pid × Call) := [(0, .open [47, 102] (O_CREATE ||| O_RDWR))]

theorem createdRun_file : ∃ s, Runs.exec (stepB xv6Geometry) (bootB mkfsDisk) createdRun = some s ∧
      FileAt xv6Geometry 0 2 [] 0 s ∧ (s.cache (s.tables.file 0).ip).locked = false ∧
      Ample xv6Geometry 2 s.vol.disk := by
  obtain ⟨s, hs, htype, hwritable, hoff, href, hinum, hfree, hfile, hsize, hbits⟩ :
      ∃ s ∈ Runs.exec (stepB xv6Geometry) (bootB mkfsDisk) createdRun,
        (s.tables.file 0).type = .inode ∧ (s.tables.file 0).writable = true ∧
        (s.tables.file 0).off = 0 ∧ 0 < (s.cache (s.tables.file 0).ip).ref ∧
        (s.cache (s.tables.file 0).ip).inum = 2 ∧ (s.cache (s.tables.file 0).ip).locked = false ∧
        (readDinode xv6Geometry s.vol.disk 2).type = T_FILE ∧
        (readDinode xv6Geometry s.vol.disk 2).size = 0 ∧
        ∀ b < 200, inUse xv6Geometry s.vol.disk (100 + b) = false := by decide +kernel
  obtain ⟨v, t, -, -, -, htr⟩ := mkfsDisk_consistent.runB hs
  refine ⟨s, hs, ⟨htr.2.settled, htype, hwritable, href, hinum, hfile, ?_, hoff⟩, hfree, ?_⟩
  · rw [← List.length_eq_zero_iff, Volume.length_contents]
    exact hsize
  · have hsub : Finset.Ico 100 300 ⊆ freeBlocks xv6Geometry s.vol.disk := by
      intro b hb
      obtain ⟨h1, h2⟩ := Finset.mem_Ico.mp hb
      have hbit := hbits (b - 100) (by omega)
      rw [Nat.add_sub_cancel' h1] at hbit
      have hsz : xv6Geometry.size = 1000 := rfl
      exact Finset.mem_filter.mpr ⟨Finset.mem_range.mpr (by omega), by simp [hbit]⟩
    have hcard := Finset.card_le_card hsub
    rw [Nat.card_Ico] at hcard
    have hmissing := (Finset.card_filter_le allPlaces fun p =>
      blockOf (readAddrs xv6Geometry s.vol.disk 2) s.vol.disk p = 0).trans card_allPlaces_le
    simp only [NDIRECT, NINDIRECT, BSIZE] at hmissing
    exact hmissing.trans (le_trans (by norm_num) hcard)

theorem filewrite_partly_done :
    ∃ s, Runs.exec (stepB xv6Geometry) (bootB mkfsDisk) createdRun = some s ∧
      FileAt xv6Geometry 0 2 [] 0 s ∧ (s.cache (s.tables.file 0).ip).locked = false ∧
      ∃ s', (filewrite 0 (List.replicate 71681 0)).run (performB xv6Geometry) s = .ok (-1, s') ∧
        (volumeOf xv6Geometry s'.vol.disk).contents 2 = List.replicate 70656 0 ∧
        (s'.tables.file 0).off = 70656 := by
  obtain ⟨s, hs, h, hfree, hample⟩ := createdRun_file
  refine ⟨s, hs, h, hfree, ?_⟩
  have hpost : WP (performB xv6Geometry) (fun _ => False) (filewrite 0 (List.replicate 71681 0))
      (fun r s' => r = -1 ∧ FileAt xv6Geometry 0 2 (List.replicate 70656 0) 70656 s') s := by
    have hfit : FileAt.fitting 0 71681 = 70656 := by decide
    apply h.wp_filewrite xv6Geometry_ok hfree (fun _ => hample)
    · intro _ s' h'
      rw [List.length_replicate, hfit, List.take_replicate, overwrite, List.take_nil, List.drop_nil,
        List.nil_append, List.append_nil, min_eq_left (by norm_num), Nat.zero_add] at h'
      rw [List.length_replicate, if_neg (by decide)]
      exact ⟨rfl, h'⟩
    · exact fun hlt => absurd hlt (Nat.not_lt_zero _)
  cases hrun : (filewrite 0 (List.replicate 71681 0)).run (performB xv6Geometry) s with
  | error f => exact (wp_error hpost hrun).elim
  | ok r =>
    obtain ⟨hr, h'⟩ := wp_ok hpost hrun
    exact ⟨r.2, by rw [← hr], h'.contents, h'.offset⟩

theorem filewrite_all_or_nothing_createdRun :
    ∃ s s', Runs.exec (stepB xv6Geometry) (bootB mkfsDisk) createdRun = some s ∧
      (filewrite 0 [120]).run (performB xv6Geometry) s = .ok (1, s') ∧
      (volumeOf xv6Geometry s'.vol.disk).contents 2 = [120] ∧ (s'.tables.file 0).off = 1 := by
  obtain ⟨s, hs, h, hfree, hample⟩ := createdRun_file
  have hpost : WP (performB xv6Geometry) (fun _ => False) (filewrite 0 [120]) (fun r _ => r = 1) s := by
    apply h.wp_filewrite xv6Geometry_ok hfree (fun _ => hample)
    · exact fun _ _ _ => rfl
    · exact fun hlt => absurd hlt (Nat.not_lt_zero _)
  cases hrun : (filewrite 0 [120]).run (performB xv6Geometry) s with
  | error f => exact (wp_error hpost hrun).elim
  | ok r =>
    have hr := wp_ok hpost hrun
    have hall := (filewrite_all_or_nothing xv6Geometry_ok h hfree hrun).mpr (.inl (by decide))
    obtain ⟨hc, hoff⟩ := hall.2.1 hr
    exact ⟨s, r.2, hs, by rw [hrun, ← hr], hc, hoff⟩

end Xv6.Fs
