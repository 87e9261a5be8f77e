import Xv6.Mkfs.Model
import Xv6.Fs.Refinement

/-!
# `mkfs` allocates as the kernel does

`mkfs` hands out blocks by a counter and writes the bitmap at the end; the kernel searches the
bitmap. `kernelDisk` is the image with the bitmap that the counter stands for.
-/

namespace Xv6.Mkfs

open Lib Fs Fs.Blocks
open Function (update update_self update_of_ne update_comm update_idem)

def geo : Geometry := { sb.geometry fun _ => none with ninodes := ninodeblocks * IPB }

def kernelDisk (m : State) : Disk := update m.disk sb.bmapstart (usedBits m.freeblock)

structure Space (m : State) : Prop where
  len : m.len = FSSIZE
  lo : nmeta ≤ m.freeblock
  hi : m.freeblock ≤ FSSIZE
  zero : ∀ b, m.freeblock ≤ b → m.disk b = Bytes.zero BSIZE

def PastEnd (e : Abort) : Prop := ∃ b, FSSIZE ≤ b ∧ e = .read b

variable {m m' : State} {b fbn i off : ℕ} {buf : Block} {w : BitVec 32}
  {t : AddrTable} {a : Addrs} {p : List Byte}

theorem nmeta_eq : nmeta = 59 := rfl

theorem bmapstart_eq : sb.bmapstart = 58 := rfl

theorem geo_nmeta : geo.nmeta = nmeta := by
  change FSSIZE - (FSSIZE - nmeta) = nmeta
  simp only [nmeta_eq, FSSIZE]

theorem geo_ok : geo.Ok := by
  constructor
  case inodes =>
    intro i hi
    have hstart : geo.inodestart = 32 := rfl
    have hmap : geo.bmapstart = 58 := rfl
    have hn : geo.ninodes = 208 := rfl
    rw [hn] at hi
    simp only [Geometry.iblock, hstart, hmap, IPB, BSIZE, DINODE]
    omega
  case bits =>
    intro b hb
    have hmap : geo.bmapstart = 58 := rfl
    have hsize : geo.size = 1000 := rfl
    rw [hsize] at hb
    rw [geo_nmeta, nmeta_eq]
    simp only [Geometry.bblock, hmap, BPB, BSIZE]
    omega
  case size_lt =>
    change FSSIZE < 2 ^ 31
    norm_num

theorem sector_eq (h : b ≤ FSSIZE) : sector b = b := by
  simp only [sector, FSSIZE, BSIZE] at *
  omega

theorem rsect_ok (hlen : m.len = FSSIZE) (hb : b < FSSIZE) : rsect b m = .ok (m.disk b) := by
  rw [rsect, sector_eq hb.le, hlen, if_pos hb]

theorem rsect_end (hlen : m.len = FSSIZE) : rsect FSSIZE m = .error (.read FSSIZE) := by
  rw [rsect, sector_eq le_rfl, hlen, if_neg (lt_irrefl _)]

theorem wsect_eq (hlen : m.len = FSSIZE) (hb : b < FSSIZE) :
    wsect b buf m = { m with disk := update m.disk b buf } := by
  rw [wsect, sector_eq hb.le, hlen, max_eq_left hb, ← hlen]

theorem kernelDisk_of_ne (h : b ≠ sb.bmapstart) : kernelDisk m b = m.disk b :=
  update_of_ne h _ _

theorem kernelDisk_wsect (hlen : m.len = FSSIZE) (hb : b < FSSIZE) (h : b ≠ sb.bmapstart) :
    kernelDisk (wsect b buf m) = update (kernelDisk m) b buf := by
  rw [wsect_eq hlen hb]
  exact (update_comm h.symm _ _ _).symm

theorem Space.wsect (hs : Space m) (hb : b < m.freeblock) : Space (wsect b buf m) := by
  rw [wsect_eq hs.len (hb.trans_le hs.hi)]
  refine ⟨hs.len, hs.lo, hs.hi, fun x hx => ?_⟩
  rw [← hs.zero x hx]
  exact update_of_ne (by change m.freeblock ≤ x at hx; omega) _ _

theorem bit_usedBits {n x : ℕ} (hn : n ≤ BPB) : bit (usedBits n) x = decide (x < n) := by
  induction n with
  | zero => simp [usedBits, bit]
  | succ n ih =>
    rw [usedBits, bit_mark (by omega), ih (by omega), ← Bool.decide_or]
    apply decide_eq_decide.mpr
    omega

theorem inUse_kernelDisk (hs : Space m) (hb : b < BPB) :
    inUse geo (kernelDisk m) b = decide (b < m.freeblock) := by
  have hblock : geo.bblock b = sb.bmapstart := by
    rw [Geometry.bblock, Nat.div_eq_of_lt hb, Nat.zero_add]
    rfl
  have hhi := hs.hi
  rw [inUse, hblock, kernelDisk, update_self, Nat.mod_eq_of_lt hb, bit_usedBits]
  simp only [FSSIZE, BPB, BSIZE] at hhi ⊢
  omega

theorem balloc_kernelDisk (hs : Space m) (hlt : m.freeblock < FSSIZE) :
    Blocks.balloc geo (kernelDisk m) =
      .ok (m.freeblock, kernelDisk { m with freeblock := m.freeblock + 1 }) := by
  have hbpb : FSSIZE < BPB := by norm_num
  have hlo := hs.lo
  have hfree : inUse geo (kernelDisk m) m.freeblock = false := by
    rw [inUse_kernelDisk hs (by omega), decide_eq_false (lt_irrefl _)]
  obtain ⟨r, d', hr⟩ := balloc_of_free (g := geo) hlt hfree
  obtain ⟨hrlt, hrfree, hlow, rfl⟩ := balloc_ok hr
  have hrlt' : r < FSSIZE := hrlt
  -- `r` is the lowest free block, and the blocks in use are those below the counter.
  rw [inUse_kernelDisk hs (by omega), decide_eq_false_iff_not] at hrfree
  have hr' : r = m.freeblock := by
    by_contra hne
    have := hlow m.freeblock (by omega)
    rw [hfree] at this
    cases this
  subst hr'
  have hmod : m.freeblock % BPB = m.freeblock := Nat.mod_eq_of_lt (by omega)
  have hblock : geo.bblock m.freeblock = sb.bmapstart := by
    rw [Geometry.bblock, Nat.div_eq_of_lt (by omega), Nat.zero_add]
    rfl
  have hne : m.freeblock ≠ sb.bmapstart := by
    rw [bmapstart_eq]
    rw [nmeta_eq] at hlo
    omega
  rw [hr]
  congr 2
  rw [mark, markBit, hblock, hmod, kernelDisk, update_self, update_idem, bzero]
  -- The block is zeroed already.
  rw [← hs.zero m.freeblock le_rfl, Function.update_eq_iff]
  exact ⟨(update_of_ne hne _ _).symm, fun x _ => rfl⟩

structure Next (w : BitVec 32) (m : State) (w' : BitVec 32) (m' : State) :
    Prop where
  ensure : ensure geo w (kernelDisk m) = .ok (w', kernelDisk m')
  space : Space m'
  disk : m'.disk = m.disk
  freeinode : m'.freeinode = m.freeinode
  mono : m.freeblock ≤ m'.freeblock
  count : m'.freeblock ≤ m.freeblock + if w = 0 then 1 else 0
  fresh : w = 0 → nmeta ≤ w'.toNat ∧ w'.toNat < m'.freeblock
  kept : w ≠ 0 → w' = w ∧ m' = m

theorem nextBlock_next (hs : Space m) (hw : w = 0 → m.freeblock < FSSIZE) :
    Next w m (nextBlock w m).1 (nextBlock w m).2 := by
  by_cases h0 : w = 0
  · have hlt := hw h0
    have hnat : (BitVec.ofNat 32 m.freeblock).toNat = m.freeblock := by
      rw [BitVec.toNat_ofNat, Nat.mod_eq_of_lt]
      simp only [FSSIZE] at hlt
      omega
    rw [nextBlock, if_pos h0]
    constructor
    case ensure => rw [Blocks.ensure, if_pos h0, balloc_kernelDisk hs hlt]
    case space => exact ⟨hs.len, Nat.le_succ_of_le hs.lo, hlt, fun x hx => hs.zero x (Nat.le_of_succ_le hx)⟩
    case disk => rfl
    case freeinode => rfl
    case mono => exact Nat.le_succ _
    case count => rw [if_pos h0]
    case fresh =>
      intro _
      rw [hnat]
      exact ⟨hs.lo, Nat.lt_succ_self _⟩
    case kept => exact fun h => absurd h0 h
  · rw [nextBlock, if_neg h0]
    exact ⟨if_neg h0, hs, rfl, rfl, le_rfl, Nat.le_add_right _ _, fun h => absurd h h0, fun _ => ⟨rfl, rfl⟩⟩

theorem nextBlock_cases {w' : BitVec 32} (hs : Space m) (h : nextBlock w m = (w', m')) :
    Next w m w' m' ∨ w = 0 ∧ m.freeblock = FSSIZE ∧ w'.toNat = FSSIZE ∧ m'.len = FSSIZE := by
  by_cases hw : w = 0 → m.freeblock < FSSIZE
  · have hn := nextBlock_next hs hw
    rw [h] at hn
    exact .inl hn
  · push Not at hw
    have hend := hs.hi
    have hfull : m.freeblock = FSSIZE := by omega
    rw [nextBlock, if_pos hw.1, hfull] at h
    cases h
    exact .inr ⟨hw.1, hfull, rfl, hs.len⟩

theorem ref_lt {o : ℕ × Place} (hs : Space m) (hacc : Accounts geo t (kernelDisk m))
    (hne : refs t (kernelDisk m) o ≠ 0) :
    nmeta ≤ refs t (kernelDisk m) o ∧ refs t (kernelDisk m) o < m.freeblock := by
  obtain ⟨hlo, hhi⟩ := hacc.range o hne
  have hbpb : FSSIZE < BPB := by norm_num
  have hhi' : refs t (kernelDisk m) o < FSSIZE := hhi
  have hused := hacc.used_of_ref hne
  rw [inUse_kernelDisk hs (by omega), decide_eq_true_eq] at hused
  rw [geo_nmeta] at hlo
  exact ⟨hlo, hused⟩

def cost (fbn : ℕ) (a : Addrs) (d : Disk) : ℕ :=
  (if blockOf a d (place fbn) = 0 then 1 else 0) +
    if NDIRECT ≤ fbn ∧ a (Fin.last NDIRECT) = 0 then 1 else 0

structure Placed (fbn : ℕ) (a : Addrs) (m : State) (r : ℕ × Addrs × State) :
    Prop where
  bmap : Blocks.bmap geo fbn a (kernelDisk m) = .ok (r.1, r.2.1, kernelDisk r.2.2)
  space : Space r.2.2
  freeinode : r.2.2.freeinode = m.freeinode
  count : r.2.2.freeblock ≤ m.freeblock + cost fbn a (kernelDisk m)

/-- The outcomes of `fileBlock`: a block, or a number past the end of the image. -/
def Outcome (fbn : ℕ) (a : Addrs) (m : State) (r : ℕ × Addrs × State) : Prop :=
  Placed fbn a m r ∨
    r.1 = FSSIZE ∧ r.2.2.len = FSSIZE ∧ FSSIZE < m.freeblock + cost fbn a (kernelDisk m)

theorem cost_direct {d : Disk} (h : fbn < NDIRECT) :
    cost fbn a d = if a ⟨fbn, Nat.lt_succ_of_lt h⟩ = 0 then 1 else 0 := by
  have hout : ¬ (NDIRECT ≤ fbn ∧ a (Fin.last NDIRECT) = 0) := fun h' => Nat.not_lt.mpr h'.1 h
  have h0 : blockOf a d (place fbn) = 0 ↔ a ⟨fbn, Nat.lt_succ_of_lt h⟩ = 0 := by
    rw [place_direct h]
    exact ⟨fun h0 => BitVec.eq_of_toNat_eq h0, fun h0 => by rw [blockOf, h0]; rfl⟩
  simp only [cost, h0, if_neg hout, Nat.add_zero]

theorem cost_indirect {d : Disk} (h : ¬ fbn < NDIRECT) (hfbn : fbn < MAXFILE) : cost fbn a d =
      if a (Fin.last NDIRECT) = 0 then 2
      else if (d (a (Fin.last NDIRECT)).toNat).word (4 * (fbn - NDIRECT)) = 0 then 1 else 0 := by
  have hj : fbn - NDIRECT < NINDIRECT := by
    simp only [MAXFILE] at hfbn
    omega
  have hzero : ∀ w : BitVec 32, w.toNat = 0 ↔ w = 0 := fun w =>
    ⟨fun h0 => BitVec.eq_of_toNat_eq h0, fun h0 => by rw [h0]; rfl⟩
  rw [cost, place, dif_neg h, dif_pos hj, blockOf]
  by_cases h0 : a (Fin.last NDIRECT) = 0
  · simp only [h0, if_true, Nat.not_lt.mp h, and_self]
  · simp only [h0, if_false, and_false, Nat.add_zero, hzero]

theorem fileBlock_direct (hs : Space m) (h : fbn < NDIRECT) :
    Ensures (fun e => PastEnd e ∧ FSSIZE < m.freeblock + cost fbn a (kernelDisk m))
      (Outcome fbn a m) (fileBlock fbn a m) := by
  have hcost := cost_direct (a := a) (d := kernelDisk m) h
  rw [fileBlock, dif_pos h]
  generalize hk : (⟨fbn, Nat.lt_succ_of_lt h⟩ : Fin (NDIRECT + 1)) = k at hcost ⊢
  cases hnb : nextBlock (a k) m with
  | mk w m1 =>
    rcases nextBlock_cases hs hnb with hn | ⟨h0, hfull, hw, hlen⟩
    · refine .of_ok (.inl ⟨?_, hn.space, hn.freeinode, ?_⟩)
      · rw [Blocks.bmap, dif_pos h, hk, hn.ensure]
      · rw [hcost]
        exact hn.count
    · refine .of_ok (.inr ⟨hw, hlen, ?_⟩)
      rw [hcost, if_pos h0, hfull]
      exact Nat.lt_succ_self _

theorem fileBlock_indirect (hs : Space m) (hacc : Accounts geo t (kernelDisk m))
    (ht : t i = some a) (h : ¬ fbn < NDIRECT) (hfbn : fbn < MAXFILE) :
    Ensures (fun e => PastEnd e ∧ FSSIZE < m.freeblock + cost fbn a (kernelDisk m))
      (Outcome fbn a m) (fileBlock fbn a m) := by
  have hcost := cost_indirect (a := a) (d := kernelDisk m) h hfbn
  have hj : fbn - NDIRECT < NINDIRECT := by
    simp only [MAXFILE] at hfbn
    omega
  have hmap : nmeta = sb.bmapstart + 1 := rfl
  rw [fileBlock, dif_neg h]
  cases hnb : nextBlock (a (Fin.last NDIRECT)) m with
  | mk iw m1 =>
    rcases nextBlock_cases hs hnb with hn | ⟨h0, hfull, hw, hlen⟩
    · have hiw : nmeta ≤ iw.toNat ∧ iw.toNat < m1.freeblock := by
        by_cases h0 : a (Fin.last NDIRECT) = 0
        · exact hn.fresh h0
        · obtain ⟨rfl, rfl⟩ := hn.kept h0
          have href := ref_lt (o := (i, .addr (Fin.last NDIRECT))) hs hacc
            (refs_indirect ht h0)
          rwa [refs_some ht, blockOf] at href
      have hend := hn.space.hi
      have hdisk : kernelDisk m1 iw.toNat = m1.disk iw.toNat := kernelDisk_of_ne (by omega)
      dsimp only
      rw [rsect_ok hn.space.len (show iw.toNat < FSSIZE by omega)]
      simp only [bind, Except.bind, pure, Except.pure]
      generalize hold : (m1.disk iw.toNat).word (4 * (fbn - NDIRECT)) = old
      -- The two allocations together cost what the missing blocks are.
      have hsum : m1.freeblock + (if old = 0 then 1 else 0) ≤ m.freeblock + cost fbn a (kernelDisk m) := by
        have hcount := hn.count
        rw [hcost]
        by_cases h0 : a (Fin.last NDIRECT) = 0
        · simp only [h0, if_true] at hcount ⊢
          split_ifs <;> omega
        · obtain ⟨rfl, rfl⟩ := hn.kept h0
          simp only [h0, if_false, hdisk, hold, le_refl]
      cases hnb2 : nextBlock old m1 with
      | mk w m2 =>
        rcases nextBlock_cases hn.space hnb2 with hn2 | ⟨h0, hfull, hw, hlen⟩
        · have hdisk2 : kernelDisk m2 iw.toNat = m1.disk iw.toNat := by
            rw [kernelDisk_of_ne (by omega), hn2.disk]
          have hmono := hn2.mono
          have hend2 := hn2.space.hi
          refine .of_ok (.inl ⟨?_, ?_, ?_, ?_⟩)
          · rw [Blocks.bmap, dif_neg h, if_pos hj, hn.ensure]
            simp only [hdisk, hold, hn2.ensure, hdisk2]
            split_ifs
            · rw [kernelDisk_wsect hn2.space.len (by omega) (by omega)]
            · rfl
          · split_ifs
            · exact hn2.space.wsect (by omega)
            · exact hn2.space
          · rw [← hn.freeinode, ← hn2.freeinode]
            split_ifs <;> rfl
          · refine le_trans ?_ (hn2.count.trans hsum)
            split_ifs <;> exact le_rfl
        · refine .of_ok (.inr ⟨hw, ?_, ?_⟩)
          · rw [if_pos h0, wsect_eq hlen (by omega)]
            exact hlen
          · rw [if_pos h0] at hsum
            omega
    · dsimp only
      rw [hw, rsect_end hlen]
      refine .of_error ⟨⟨FSSIZE, le_rfl, rfl⟩, ?_⟩
      rw [hcost, if_pos h0]
      omega

theorem fileBlock_spec (hs : Space m) (hacc : Accounts geo t (kernelDisk m))
    (ht : t i = some a) (hfbn : fbn < MAXFILE) :
    Ensures (fun e => PastEnd e ∧ FSSIZE < m.freeblock + cost fbn a (kernelDisk m))
      (Outcome fbn a m) (fileBlock fbn a m) := by
  by_cases h : fbn < NDIRECT
  · exact fileBlock_direct hs h
  · exact fileBlock_indirect hs hacc ht h hfbn

def need (n : ℕ) : ℕ := (n + (BSIZE - 1)) / BSIZE + if NDIRECT * BSIZE < n then 1 else 0

theorem need_mono {n n' : ℕ} (h : n ≤ n') : need n ≤ need n' := by
  simp only [need, BSIZE, NDIRECT]
  split_ifs <;> omega

theorem cost_le {d : Disk} {n : ℕ} (hmap : ∀ j < off, HasBlock a d j) (hfit : off / BSIZE < MAXFILE)
    (hn : 0 < n) : cost (off / BSIZE) a d + need off ≤ need (off + n) := by
  -- An indirect block that is missing leaves every block after the direct ones unmapped.
  have hindirect : ∀ j, NDIRECT ≤ j / BSIZE → j / BSIZE < MAXFILE → HasBlock a d j →
      a (Fin.last NDIRECT) ≠ 0 := by
    intro j h1 h2 hj h0
    apply hj
    rw [place, dif_neg (Nat.not_lt.mpr h1), dif_pos (by simp only [MAXFILE] at h2; omega), blockOf, if_pos h0]
  rw [cost]
  by_cases hmod : off % BSIZE = 0
  · have hsecond : NDIRECT * BSIZE < off → a (Fin.last NDIRECT) ≠ 0 := by
      intro hlt
      apply hindirect (NDIRECT * BSIZE) (by norm_num) (by norm_num) (hmap _ hlt)
    simp only [need, BSIZE, NDIRECT] at *
    by_cases hlt : 12 * 512 < off
    · simp only [hsecond hlt, and_false, if_false]
      split_ifs <;> omega
    · split_ifs <;> omega
  · -- The block is the one of the byte before.
    have hdiv : (off - 1) / BSIZE = off / BSIZE := by
      simp only [BSIZE] at *
      omega
    have hblock := hmap (off - 1) (by
      have : off ≠ 0 := fun h0 => hmod (by rw [h0, Nat.zero_mod])
      omega)
    have hlast := hindirect (off - 1)
    rw [HasBlock, hdiv] at hblock hlast
    have hnone : ¬ (NDIRECT ≤ off / BSIZE ∧ a (Fin.last NDIRECT) = 0) :=
      fun h0 => hlast h0.1 hfit hblock h0.2
    rw [if_neg hblock, if_neg hnone, Nat.zero_add]
    exact need_mono (Nat.le_add_right _ _)

structure Stored (i : ℕ) (t : AddrTable) (off x : ℕ) (a : Addrs) (m : State)
    (bp : Block) : Prop where
  lt : x < FSSIZE
  read : kernelDisk m x = m.disk x
  disk : kernelDisk (wsect x bp m) = update (kernelDisk m) x bp
  space : Space (wsect x bp m)
  own : Accounts geo (update t i (some a)) (kernelDisk (wsect x bp m))
  mapped : ∀ j < off + (BSIZE - off % BSIZE), HasBlock a (kernelDisk (wsect x bp m)) j

theorem Placed.stored {x : ℕ} {a1 : Addrs} {m1 : State} (hr : Placed (off / BSIZE) a m (x, a1, m1))
    (hacc : Accounts geo t (kernelDisk m)) (ht : t i = some a)
    (hmap : ∀ j < off, HasBlock a (kernelDisk m) j) (hfbn : off / BSIZE < MAXFILE) (bp : Block) :
    Stored i t off x a1 m1 bp := by
  obtain ⟨hbmap, hspace, -, -⟩ := hr
  dsimp only at hbmap hspace
  have hm := bmap_ok geo_ok hacc ht hfbn hbmap
  have hrow : update t i (some a1) i = some a1 := update_self _ _ _
  have hself : refs (update t i (some a1)) (kernelDisk m1) (i, place (off / BSIZE)) = x := by
    rw [refs_some hrow, hm.self]
  have hne : refs (update t i (some a1)) (kernelDisk m1) (i, place (off / BSIZE)) ≠ 0 := by
    rw [hself]
    exact hm.ne
  have hx := ref_lt hspace hm.grows.own hne
  rw [hself] at hx
  have hend := hspace.hi
  have hmeta : nmeta = sb.bmapstart + 1 := rfl
  have hdisk : kernelDisk (wsect x bp m1) = update (kernelDisk m1) x bp :=
    kernelDisk_wsect hspace.len (by omega) (by omega)
  obtain ⟨hrefs, hown, -⟩ := write_data geo_ok hm.grows.own (place_isData (i := i) hfbn) hne bp
  rw [hself, ← hdisk] at hrefs hown
  refine ⟨by omega, kernelDisk_of_ne (by omega), hdisk, hspace.wsect hx.2, hown, fun j hj => ?_⟩
  have hblock := congrFun hrefs (i, place (j / BSIZE))
  rw [refs_some hrow] at hblock
  rw [HasBlock, hblock]
  by_cases hlt : j < off
  · have hold := hmap j hlt
    rw [HasBlock, ← refs_some ht] at hold
    rw [hm.grows.mono _ hold]
    exact hold
  · rw [(div_eq_of_chunk (by omega) hj).1]
    exact hne

structure Appended (k : ℕ) (p : List Byte) (off : ℕ) (a : Addrs) (m : State)
    (r : ℕ × Addrs × State) : Prop where
  stop : r.1 = off + p.length
  fits : off + p.length ≤ MAXFILE * BSIZE
  writes : writeLoop geo k p off a (kernelDisk m) = .ok (r.2.1, kernelDisk r.2.2)
  space : Space r.2.2
  freeinode : r.2.2.freeinode = m.freeinode
  count : r.2.2.freeblock + need off ≤ m.freeblock + need (off + p.length)

def TooLarge (off : ℕ) (p : List Byte) (m : State) (e : Abort) : Prop :=
  PastEnd e ∧ FSSIZE + need off < m.freeblock + need (off + p.length) ∨
    e = .assertion ∧ MAXFILE * BSIZE < off + p.length

theorem iappendLoop_spec {k : ℕ} (hk : p.length ≤ k) (hs : Space m)
    (hacc : Accounts geo t (kernelDisk m)) (ht : t i = some a)
    (hmap : ∀ j < off, HasBlock a (kernelDisk m) j) (hoff : off ≤ MAXFILE * BSIZE) :
    Ensures (TooLarge off p m) (Appended k p off a m) (iappendLoop k p off a m) := by
  induction k generalizing p off a m t with
  | zero =>
    obtain rfl : p = [] := List.length_eq_zero_iff.mp (by omega)
    exact .of_ok ⟨rfl, hoff, rfl, hs, rfl, le_rfl⟩
  | succ k ih =>
    rw [iappendLoop]
    split_ifs with h0 hend
    · subst h0
      exact .of_ok ⟨rfl, hoff, if_pos rfl, hs, rfl, le_rfl⟩
    · refine .of_error (.inr ⟨rfl, ?_⟩)
      have hpos := List.length_pos_iff.mpr h0
      simp only [BSIZE] at *
      omega
    · have hfbn : off / BSIZE < MAXFILE := Nat.not_le.mp hend
      have hcost := cost_le hmap hfbn (List.length_pos_iff.mpr h0)
      refine ((fileBlock_spec hs hacc ht hfbn).mono (fun _ he => .inl ⟨he.1, by omega⟩) fun _ hr => hr).bind
        fun r hr => ?_
      obtain ⟨x, a1, m1⟩ := r
      rcases hr with hr | ⟨rfl, hlen, hfull⟩
      · have hn1 : (off / BSIZE + 1) * BSIZE - off = BSIZE - off % BSIZE := by
          simp only [BSIZE]
          omega
        have hstart : off - off / BSIZE * BSIZE = off % BSIZE := by
          simp only [BSIZE]
          omega
        dsimp only
        rw [rsect_ok hr.space.len (hr.stored hacc ht hmap hfbn (Bytes.zero BSIZE)).lt, hn1, hstart]
        simp only [bind, Except.bind]
        generalize hn : min p.length (BSIZE - off % BSIZE) = n
        generalize hbp : (m1.disk x).blit (off % BSIZE) n (fun t => p.getD t 0) = bp
        have hst := hr.stored hacc ht hmap hfbn bp
        have hpos := List.length_pos_iff.mpr h0
        have hnpos : 0 < n := by
          simp only [BSIZE] at hn
          omega
        have hround := cost_le hmap hfbn hnpos
        have hcount := hr.count
        dsimp only at hcount
        have hdrop : (p.drop n).length = p.length - n := List.length_drop
        have hsum : off + n + (p.drop n).length = off + p.length := by omega
        refine (ih (by omega) hst.space hst.own
          (update_self _ _ _) (fun j hj => hst.mapped j (by omega)) ?_).mono ?_ ?_
        · simp only [BSIZE] at *
          omega
        · intro e he
          rw [TooLarge, hsum] at he
          rcases he with ⟨hpast, hfull⟩ | he
          · change FSSIZE + need (off + n) < m1.freeblock + need (off + p.length) at hfull
            exact .inl ⟨hpast, by omega⟩
          · exact .inr he
        · intro r hloop
          constructor
          case stop => rw [hloop.stop, hsum]
          case fits => rw [← hsum]; exact hloop.fits
          case writes =>
            rw [writeLoop, if_neg h0, hr.bmap]
            dsimp only
            rw [hn, hst.read, hbp, ← hst.disk]
            exact hloop.writes
          case space => exact hloop.space
          case freeinode => exact hloop.freeinode.trans hr.freeinode
          case count =>
            have hrest := hloop.count
            rw [hsum] at hrest
            change r.2.2.freeblock + need (off + n) ≤ m1.freeblock + need (off + p.length) at hrest
            omega
      · dsimp only
        rw [rsect_end hlen]
        exact .of_error (.inl ⟨⟨FSSIZE, le_rfl, rfl⟩, by omega⟩)

end Xv6.Mkfs
