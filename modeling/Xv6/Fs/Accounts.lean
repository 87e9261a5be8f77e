import Xv6.Lib.Ownership
import Xv6.Fs.Bitmap

/-!
# Block accounts

Every block number that an allocated inode holds stands in one place: a slot of `ip->addrs` or a
word of its indirect block. `Accounts` says that the bitmap and these places agree exactly.
-/

namespace Xv6.Fs

open Lib
open Function (update_of_ne update_self update_eq_self update)

/-- Inode blocks, then bitmap, then data blocks, with block numbers that fit an `int`. -/
structure Geometry.Ok (g : Geometry) : Prop where
  inodes : ∀ i < g.ninodes, g.iblock i < g.bmapstart
  bits : ∀ b < g.size, g.bblock b < g.nmeta
  size_lt : g.size < 2 ^ 31

inductive Place
  | addr (k : Fin (NDIRECT + 1))
  | slot (j : Fin NINDIRECT)
deriving DecidableEq

def place (bn : ℕ) : Place :=
  if h : bn < NDIRECT then .addr ⟨bn, Nat.lt_succ_of_lt h⟩
  else if h : bn - NDIRECT < NINDIRECT then .slot ⟨bn - NDIRECT, h⟩
  else .addr (Fin.last NDIRECT)

namespace Blocks

abbrev AddrTable := ℕ → Option Addrs

def blockOf (a : Addrs) (d : Disk) : Place → ℕ
  | .addr k => (a k).toNat
  | .slot j =>
    if a (Fin.last NDIRECT) = 0 then 0
    else ((d (a (Fin.last NDIRECT)).toNat).word (4 * j.val)).toNat

def refs (t : AddrTable) (d : Disk) (o : ℕ × Place) : ℕ :=
  match t o.1 with
  | none => 0
  | some a => blockOf a d o.2

abbrev Accounts (g : Geometry) (t : AddrTable) (d : Disk) : Prop :=
  Owned g.nmeta g.size (fun b => inUse g d b = true) (refs t d)

variable {g : Geometry} {t t' : AddrTable} {d d' d'' : Disk} {i b bn : ℕ} {a a' : Addrs}

theorem refs_some (h : t i = some a) (d : Disk) (p : Place) : refs t d (i, p) = blockOf a d p := by
  simp only [refs, h]

theorem refs_none (h : t i = none) (d : Disk) (p : Place) : refs t d (i, p) = 0 := by
  simp only [refs, h]

variable {o : ℕ × Place}

theorem refs_update_ne (h : o.1 ≠ i) (x : Option Addrs) (d : Disk) :
    refs (update t i x) d o = refs t d o := by
  simp only [refs, update_of_ne h]

theorem Geometry.bblock_ge (g : Geometry) (b : ℕ) : g.bmapstart ≤ g.bblock b :=
  Nat.le_add_left _ _

theorem refs_indirect (ht : t i = some a) (ha : a (Fin.last NDIRECT) ≠ 0) :
    refs t d (i, .addr (Fin.last NDIRECT)) ≠ 0 := by
  rw [refs_some ht]
  exact fun h0 => ha (BitVec.eq_of_toNat_eq h0)

theorem refs_congr (h : ∀ i a, t i = some a → a (Fin.last NDIRECT) ≠ 0 →
    d' (a (Fin.last NDIRECT)).toNat = d (a (Fin.last NDIRECT)).toNat) : refs t d' = refs t d := by
  funext o
  obtain ⟨i, p⟩ := o
  cases ht : t i with
  | none => rw [refs_none ht, refs_none ht]
  | some a =>
    rw [refs_some ht, refs_some ht]
    cases p with
    | addr k => rfl
    | slot j =>
      simp only [blockOf]
      split_ifs with h0
      · rfl
      · rw [h i a ht h0]

theorem refs_congr_data (h : Accounts g t d)
    (hd : ∀ x, g.nmeta ≤ x → x < g.size → d' x = d x) : refs t d' = refs t d := by
  apply refs_congr
  intro i a ht ha
  have hr := h.range _ (refs_indirect ht ha)
  rw [refs_some ht] at hr
  exact hd _ hr.1 hr.2

theorem Accounts.congr_disk (h : Accounts g t d)
    (hdata : ∀ x, g.nmeta ≤ x → x < g.size → d' x = d x)
    (hbits : ∀ b < g.size, inUse g d' b = inUse g d b) : Accounts g t d' :=
  h.congr (fun b hb => by rw [hbits b hb]) fun o => by rw [refs_congr_data h hdata]

structure Fresh (g : Geometry) (t : AddrTable) (d : Disk) (b : ℕ) (d' : Disk) : Prop where
  lo : g.nmeta ≤ b
  hi : b < g.size
  unref : ∀ o, refs t d o ≠ b
  zero : d' b = Bytes.zero BSIZE
  inodes : ∀ x < g.bmapstart, d' x = d x
  data : ∀ x, g.nmeta ≤ x → x ≠ b → d' x = d x
  refs_eq : refs t d' = refs t d
  own : ∀ o, refs t d o = 0 →
    Owned g.nmeta g.size (fun x => inUse g d' x = true) (update (refs t d) o b)

theorem balloc_fresh (hg : g.Ok) (h : Accounts g t d) (hb : balloc g d = .ok (b, d')) :
    Fresh g t d b d' := by
  obtain ⟨hlt, hfree, -, rfl⟩ := balloc_ok hb
  obtain ⟨hlo, hunref⟩ := h.of_free hlt (by rw [hfree]; exact Bool.false_ne_true)
  have hbit := hg.bits b hlt
  have hmeta : ∀ x, x ≠ b → x ≠ g.bblock b → bzero b (mark g b d) x = d x := by
    intro x h1 h2
    rw [bzero, update_of_ne h1, mark, markBit, update_of_ne h2]
  have hdata : ∀ x, g.nmeta ≤ x → x ≠ b → bzero b (mark g b d) x = d x :=
    fun x h1 h2 => hmeta x h2 (by omega)
  have huse : ∀ x < g.size, inUse g (bzero b (mark g b d)) x = (inUse g d x || decide (x = b)) := by
    intro x hx
    have hbx := hg.bits x hx
    rw [← inUse_mark]
    exact inUse_congr (update_of_ne (by omega) _ _)
  have hrefs : refs t (bzero b (mark g b d)) = refs t d := by
    apply refs_congr
    intro i a ht ha
    have hr := h.range _ (refs_indirect ht ha)
    have hub := hunref (i, .addr (Fin.last NDIRECT))
    rw [refs_some ht] at hr hub
    exact hdata _ hr.1 hub
  constructor
  case lo => exact hlo
  case hi => exact hlt
  case unref => exact hunref
  case zero => rw [bzero, update_self]
  case inodes =>
    intro x hx
    have := Geometry.bblock_ge g b
    have := Nat.lt_of_le_of_lt this hbit
    exact hmeta x (by omega) (by omega)
  case data => exact hdata
  case refs_eq => exact hrefs
  case own =>
    intro o ho
    refine (h.alloc hlt (by rw [hfree]; exact Bool.false_ne_true) ho).congr (fun x hx => ?_)
      fun _ => rfl
    rw [huse x hx, Bool.or_eq_true, decide_eq_true_iff, or_comm]

theorem Fresh.toNat_ofNat (hg : g.Ok) (hf : Fresh g t d b d') : (BitVec.ofNat 32 b).toNat = b := by
  have := hg.size_lt
  have := hf.hi
  rw [BitVec.toNat_ofNat, Nat.mod_eq_of_lt (by omega)]

theorem Fresh.refs_addr (hg : g.Ok) (hf : Fresh g t d b d') (ht : t i = some a)
    {k : Fin (NDIRECT + 1)} (hk : a k = 0) :
    refs (update t i (some (update a k (BitVec.ofNat 32 b)))) d' =
      update (refs t d) (i, .addr k) b := by
  have hb : (BitVec.ofNat 32 b).toNat = b := hf.toNat_ofNat hg
  funext o
  obtain ⟨i', p⟩ := o
  by_cases hi : i' = i
  · subst hi
    rw [refs_some (update_self _ _ _)]
    by_cases hp : p = .addr k
    · subst hp
      rw [update_self, blockOf, update_self, hb]
    · rw [update_of_ne (fun h => hp (Prod.mk.inj h).2), ← hf.refs_eq, refs_some ht]
      cases p with
      | addr k' => rw [blockOf, blockOf, update_of_ne fun h => hp (congrArg Place.addr h)]
      | slot j =>
        by_cases hlast : Fin.last NDIRECT = k
        · -- The new indirect block is zero, as if there were none.
          subst hlast
          simp only [blockOf, update_self, hk, if_true, hb, hf.zero, Bytes.word_zero]
          split_ifs <;> rfl
        · simp only [blockOf, update_of_ne hlast]
  · rw [refs_update_ne hi, update_of_ne fun h => hi (Prod.mk.inj h).1, hf.refs_eq]

theorem Fresh.refs_slot (hg : g.Ok) (h : Accounts g t d) (hf : Fresh g t d b d') (ht : t i = some a)
    (ha : a (Fin.last NDIRECT) ≠ 0) (j : Fin NINDIRECT) :
    refs t (update d' (a (Fin.last NDIRECT)).toNat
      ((d' (a (Fin.last NDIRECT)).toNat).setWord (4 * j.val) (BitVec.ofNat 32 b))) =
      update (refs t d) (i, .slot j) b := by
  have hb : (BitVec.ofNat 32 b).toNat = b := hf.toNat_ofNat hg
  have hne := refs_indirect (d := d) ht ha
  funext o
  obtain ⟨i', p⟩ := o
  by_cases hi : i' = i
  · subst hi
    rw [refs_some ht]
    cases p with
    | addr k =>
      rw [update_of_ne (fun h => by simp at h), refs_some ht]
      rfl
    | slot j' =>
      have hj' := j'.isLt
      have hj := j.isLt
      simp only [NINDIRECT, BSIZE] at hj hj'
      rw [blockOf, if_neg ha, update_self]
      by_cases hjj : j' = j
      · subst hjj
        rw [update_self, Bytes.word_setWord _ _ (by simp only [BSIZE]; omega), hb]
      · have hne' : j'.val ≠ j.val := fun h => hjj (Fin.ext h)
        rw [update_of_ne (fun h => hjj (by simpa using h)),
          Bytes.word_setWord_of_disjoint _ _ (by omega), ← hf.refs_eq, refs_some ht, blockOf,
          if_neg ha]
  · rw [update_of_ne fun h => hi (Prod.mk.inj h).1, ← hf.refs_eq]
    -- The indirect blocks of other inodes are other blocks.
    cases ht' : t i' with
    | none => rw [refs_none ht', refs_none ht']
    | some a' =>
      rw [refs_some ht', refs_some ht']
      cases p with
      | addr k => rfl
      | slot j' =>
        simp only [blockOf]
        split_ifs with ha'
        · rfl
        · rw [update_of_ne]
          intro heq
          refine hi (Prod.mk.inj (h.inj (i', .addr (Fin.last NDIRECT)) (i, .addr (Fin.last NDIRECT))
            ?_ ?_)).1
          · exact refs_indirect ht' ha'
          · rw [refs_some ht', refs_some ht]
            exact heq

def IsData (o : ℕ × Place) : Prop := o.2 ≠ .addr (Fin.last NDIRECT)

structure Grows (g : Geometry) (i : ℕ) (t : AddrTable) (d : Disk) (t' : AddrTable) (d' : Disk) :
    Prop where
  own : Accounts g t' d'
  mono : ∀ o, refs t d o ≠ 0 → refs t' d' o = refs t d o
  others : ∀ o, o.1 ≠ i → refs t' d' o = refs t d o
  inodes : ∀ x < g.bmapstart, d' x = d x
  data : ∀ o, IsData o → refs t d o ≠ 0 → d' (refs t d o) = d (refs t d o)

theorem Grows.refl (h : Accounts g t d) : Grows g i t d t d :=
  ⟨h, fun _ _ => rfl, fun _ _ => rfl, fun _ _ => rfl, fun _ _ _ => rfl⟩

theorem Grows.trans (h : Grows g i t d t' d') {t'' : AddrTable} (h' : Grows g i t' d' t'' d'') :
    Grows g i t d t'' d'' where
  own := h'.own
  mono o ho := (h'.mono o (by rw [h.mono o ho]; exact ho)).trans (h.mono o ho)
  others o ho := (h'.others o ho).trans (h.others o ho)
  inodes x hx := (h'.inodes x hx).trans (h.inodes x hx)
  data o hdata ho := by
    have hd := h'.data o hdata (by rw [h.mono o ho]; exact ho)
    rw [h.mono o ho] at hd
    exact hd.trans (h.data o hdata ho)

theorem Fresh.grows (h : Accounts g t d) (hf : Fresh g t d b d') (hoi : o.1 = i)
    (ho : refs t d o = 0) (href : refs t' d'' = update (refs t d) o b)
    (hbits : ∀ x < g.size, inUse g d'' x = inUse g d' x) (hinodes : ∀ x < g.bmapstart, d'' x = d' x)
    (hdata : ∀ o, IsData o → refs t d o ≠ 0 → d'' (refs t d o) = d' (refs t d o)) :
    Grows g i t d t' d'' where
  own := (hf.own o ho).congr (fun x hx => by rw [hbits x hx]) fun o => by rw [href]
  mono o' ho' := by
    rw [href, update_of_ne]
    rintro rfl
    exact ho' ho
  others o' ho' := by
    rw [href, update_of_ne]
    rintro rfl
    exact ho' hoi
  inodes x hx := (hinodes x hx).trans (hf.inodes x hx)
  data o' hd ho' := (hdata o' hd ho').trans (hf.data _ (h.range o' ho').1 (hf.unref o'))

theorem ensure_ok {w w' : BitVec 32} (h : ensure g w d = .ok (w', d')) : (w ≠ 0 ∧ w' = w ∧ d' = d) ∨
      (w = 0 ∧ ∃ b, balloc g d = .ok (b, d') ∧ w' = BitVec.ofNat 32 b) := by
  unfold ensure at h
  split_ifs at h with hw
  · split at h
    · next b d1 hb =>
      cases h
      exact .inr ⟨hw, b, hb, rfl⟩
    · cases h
  · cases h
    exact .inl ⟨hw, rfl, rfl⟩

theorem ensure_error {w : BitVec 32} {f : Fault} (h : ensure g w d = .error f) :
    f = .panic .outOfBlocks := by
  unfold ensure at h
  split_ifs at h with hw
  split at h
  · cases h
  · next hb =>
    cases h
    exact balloc_error hb

theorem ensure_addr (hg : g.Ok) (h : Accounts g t d) (ht : t i = some a) {k : Fin (NDIRECT + 1)}
    {w : BitVec 32} (hok : ensure g (a k) d = .ok (w, d')) :
    Grows g i t d (update t i (some (update a k w))) d' ∧ w ≠ 0 ∧
      (a k ≠ 0 → update a k w = a ∧ d' = d) := by
  rcases ensure_ok hok with ⟨hw, rfl, rfl⟩ | ⟨hw, b, hb, rfl⟩
  · rw [update_eq_self, ← ht, update_eq_self]
    exact ⟨.refl h, hw, fun _ => ⟨rfl, rfl⟩⟩
  · have hf := balloc_fresh hg h hb
    have hzero : refs t d (i, .addr k) = 0 := by
      rw [refs_some ht, blockOf, hw]
      rfl
    refine ⟨hf.grows h rfl hzero (hf.refs_addr hg ht hw) (fun _ _ => rfl) (fun _ _ => rfl)
      fun _ _ _ => rfl, ?_, fun hne => absurd hw hne⟩
    intro h0
    have hb0 := hf.toNat_ofNat hg
    rw [h0] at hb0
    have hlo := hf.lo
    have hpos := h.pos
    change 0 = b at hb0
    omega

/-- What `bmap` returns: the block in the place of `bn`, which it has filled if need be. -/
structure Mapped (g : Geometry) (i : ℕ) (t : AddrTable) (a : Addrs) (d : Disk) (bn b : ℕ) (a' : Addrs)
    (d' : Disk) : Prop where
  grows : Grows g i t d (update t i (some a')) d'
  self : blockOf a' d' (place bn) = b
  ne : b ≠ 0
  same : blockOf a d (place bn) ≠ 0 → a' = a ∧ d' = d

theorem bmap_direct (hg : g.Ok) (h : Accounts g t d) (ht : t i = some a) (hbn : bn < NDIRECT)
    (hok : bmap g bn a d = .ok (b, a', d')) : Mapped g i t a d bn b a' d' := by
  have hplace : place bn = .addr ⟨bn, Nat.lt_succ_of_lt hbn⟩ := dif_pos hbn
  rw [bmap, dif_pos hbn] at hok
  split at hok
  · next w d1 hens =>
    cases hok
    obtain ⟨hgrow, hne, hsame⟩ := ensure_addr hg h ht hens
    refine ⟨hgrow, ?_, fun h0 => hne (BitVec.eq_of_toNat_eq h0), fun hold => hsame ?_⟩
    · rw [hplace, blockOf, update_self]
    · intro h0
      rw [hplace, blockOf, h0] at hold
      exact hold rfl
  · cases hok

theorem bmap_steps (hbn : ¬ bn < NDIRECT) (hj : bn - NDIRECT < NINDIRECT)
    (hok : bmap g bn a d = .ok (b, a', d')) :
    ∃ iw d1 w d2, ensure g (a (Fin.last NDIRECT)) d = .ok (iw, d1) ∧
      ensure g ((d1 iw.toNat).word (4 * (bn - NDIRECT))) d1 = .ok (w, d2) ∧ b = w.toNat ∧
      a' = update a (Fin.last NDIRECT) iw ∧ d' = if (d1 iw.toNat).word (4 * (bn - NDIRECT)) = 0 then
          update d2 iw.toNat ((d2 iw.toNat).setWord (4 * (bn - NDIRECT)) w) else d2 := by
  rw [bmap, dif_neg hbn, if_pos hj] at hok
  split at hok
  · cases hok
  next iw d1 hens =>
  simp only [] at hok
  split at hok
  · cases hok
  next w d2 hens2 =>
  cases hok
  exact ⟨iw, d1, w, d2, hens, hens2, rfl, rfl, rfl⟩

theorem bmap_indirect (hg : g.Ok) (h : Accounts g t d) (ht : t i = some a) (hbn : ¬ bn < NDIRECT)
    (hj : bn - NDIRECT < NINDIRECT) (hok : bmap g bn a d = .ok (b, a', d')) :
    Mapped g i t a d bn b a' d' := by
  have hplace : place bn = .slot ⟨bn - NDIRECT, hj⟩ := by
    rw [place, dif_neg hbn, dif_pos hj]
  obtain ⟨iw, d1, w, d2, hens, hens2, rfl, rfl, rfl⟩ := bmap_steps hbn hj hok
  obtain ⟨hgrow, hiw, hsame⟩ := ensure_addr hg h ht hens
  -- The addresses with the indirect block in place, and the disk then.
  generalize ha1 : update a (Fin.last NDIRECT) iw = a1 at *
  have hlast : a1 (Fin.last NDIRECT) = iw := by rw [← ha1, update_self]
  have ht1 : update t i (some a1) i = some a1 := update_self _ _ _
  have hblock : ∀ d, blockOf a1 d (place bn) =
      ((d iw.toNat).word (4 * (bn - NDIRECT))).toNat := by
    intro d
    rw [hplace, blockOf, hlast, if_neg hiw]
  have hfirst : blockOf a d (place bn) ≠ 0 → a1 = a ∧ d1 = d := by
    intro hold
    apply hsame
    intro h0
    rw [hplace, blockOf, if_pos h0] at hold
    exact hold rfl
  rcases ensure_ok hens2 with ⟨hw, rfl, rfl⟩ | ⟨hw, b2, hb2, rfl⟩
  · rw [if_neg hw]
    exact ⟨hgrow, hblock _, fun h0 => hw (BitVec.eq_of_toNat_eq h0), hfirst⟩
  · rw [if_pos hw]
    have hf := balloc_fresh hg hgrow.own hb2
    have hb2' := hf.toNat_ofNat hg
    have hiref : refs (update t i (some a1)) d1 (i, .addr (Fin.last NDIRECT)) = iw.toNat := by
      rw [refs_some ht1, blockOf, hlast]
    have hine : iw.toNat ≠ 0 := fun h0 => hiw (BitVec.eq_of_toNat_eq h0)
    have hir := hgrow.own.range (i, .addr (Fin.last NDIRECT)) (by rw [hiref]; exact hine)
    rw [hiref] at hir
    have hzero : refs (update t i (some a1)) d1 (i, place bn) = 0 := by
      rw [refs_some ht1, hblock, hw]
      rfl
    have hrefs := hf.refs_slot hg hgrow.own ht1 (by rw [hlast]; exact hiw) ⟨bn - NDIRECT, hj⟩
    rw [hlast, ← hplace] at hrefs
    have hgrow2 := hf.grows (i := i) hgrow.own rfl hzero hrefs
      (fun x hx => inUse_congr (update_of_ne (by have := hg.bits x hx; omega) _ _))
      (fun x hx => update_of_ne (by
        have h1 := hg.bits b2 hf.hi
        have h2 := Geometry.bblock_ge g b2
        omega) _ _)
      (fun o hdata ho => update_of_ne (by
        intro heq
        rw [← hiref] at heq
        have := hgrow.own.inj o _ ho heq
        exact hdata (by rw [this])) _ _)
    refine ⟨hgrow.trans hgrow2, ?_, ?_, ?_⟩
    · rw [hblock, update_self, Bytes.word_setWord]
      simp only [NINDIRECT, BSIZE] at hj ⊢
      omega
    · have hlo := hf.lo
      have hpos := h.pos
      rw [hb2']
      omega
    · intro hold
      obtain ⟨rfl, rfl⟩ := hfirst hold
      rw [refs_some ht1] at hzero
      exact absurd hzero hold

theorem bmap_ok (hg : g.Ok) (h : Accounts g t d) (ht : t i = some a) (hbn : bn < MAXFILE)
    (hok : bmap g bn a d = .ok (b, a', d')) : Mapped g i t a d bn b a' d' := by
  by_cases hdir : bn < NDIRECT
  · exact bmap_direct hg h ht hdir hok
  · refine bmap_indirect hg h ht hdir ?_ hok
    simp only [MAXFILE] at hbn
    omega

theorem bmap_error {f : Fault} (hbn : bn < MAXFILE) (herr : bmap g bn a d = .error f) :
    f = .panic .outOfBlocks := by
  unfold bmap at herr
  split_ifs at herr with h1 h2
  · split at herr
    · cases herr
    · next hens =>
      cases herr
      exact ensure_error hens
  · split at herr
    · next hens =>
      cases herr
      exact ensure_error hens
    · simp only [] at herr
      split at herr
      · next hens =>
        cases herr
        exact ensure_error hens
      · cases herr
  · simp only [MAXFILE] at hbn
    omega

def SameOutside (g : Geometry) (d d' : Disk) : Prop :=
  (∀ x < g.bmapstart, d' x = d x) ∧ ∀ x, g.nmeta ≤ x → d' x = d x

theorem SameOutside.trans (h : SameOutside g d d') (h' : SameOutside g d' d'') :
    SameOutside g d d'' :=
  ⟨fun x hx => (h'.1 x hx).trans (h.1 x hx), fun x hx => (h'.2 x hx).trans (h.2 x hx)⟩

theorem bfree_owned (hg : g.Ok) {r : ℕ × Place → ℕ}
    (h : Owned g.nmeta g.size (fun x => inUse g d x = true) r) (ho : r o ≠ 0) :
    bfree g (r o) d = .ok (unmark g (r o) d) ∧ SameOutside g d (unmark g (r o) d) ∧
      Owned g.nmeta g.size (fun x => inUse g (unmark g (r o) d) x = true) (update r o 0) := by
  have hbit := hg.bits _ (h.range o ho).2
  have hge := Geometry.bblock_ge g (r o)
  refine ⟨bfree_of_inUse (h.used_of_ref ho), ⟨fun x hx => ?_, fun x hx => ?_⟩, ?_⟩
  · exact update_of_ne (by omega) _ _
  · exact update_of_ne (by omega) _ _
  · refine (h.free ho).congr (fun x _ => ?_) fun _ => rfl
    simp [inUse_unmark, and_comm]

theorem freeLoop_ok (hg : g.Ok) {f : ℕ → Disk → BitVec 32} {o : ℕ → ℕ × Place} {n j : ℕ}
    {r : ℕ × Place → ℕ} (h : Owned g.nmeta g.size (fun x => inUse g d x = true) r)
    (haddr : ∀ k, j ≤ k → k < j + n → ∀ d', SameOutside g d d' → (f k d').toNat = r (o k))
    (hinj : ∀ k k', j ≤ k → k < k' → k' < j + n → o k ≠ o k') :
    ∃ d' r', freeLoop g f n j d = .ok d' ∧ SameOutside g d d' ∧
      Owned g.nmeta g.size (fun x => inUse g d' x = true) r' ∧
      (∀ k, j ≤ k → k < j + n → r' (o k) = 0) ∧
      ∀ x, (∀ k, j ≤ k → k < j + n → o k ≠ x) → r' x = r x := by
  induction n generalizing j d r with
  | zero => exact ⟨d, r, rfl, ⟨fun _ _ => rfl, fun _ _ => rfl⟩, h, fun k h1 h2 => by omega,
      fun _ _ => rfl⟩
  | succ n ih =>
    have hself := haddr j le_rfl (by omega) d ⟨fun _ _ => rfl, fun _ _ => rfl⟩
    by_cases h0 : f j d = 0
    · rw [h0] at hself
      obtain ⟨d', r', hrun, hsame, hown, hzero, hrest⟩ := ih (j := j + 1) h
        (fun k h1 h2 => haddr k (by omega) (by omega))
        (fun k k' h1 h2 h3 => hinj k k' (by omega) h2 (by omega))
      refine ⟨d', r', ?_, hsame, hown, fun k h1 h2 => ?_, fun x hx => ?_⟩
      · simp only [freeLoop, bfreeNonzero, h0, if_true]
        exact hrun
      · rcases Nat.eq_or_lt_of_le h1 with rfl | h1
        · rw [hrest _ fun k' h3 h4 => (hinj j k' le_rfl (by omega) (by omega)).symm]
          exact hself.symm
        · exact hzero k h1 (by omega)
      · exact hrest x fun k h1 h2 => hx k (by omega) (by omega)
    · have hne : r (o j) ≠ 0 := by
        rw [← hself]
        exact fun hz => h0 (BitVec.eq_of_toNat_eq hz)
      obtain ⟨hfree, hsame1, hown1⟩ := bfree_owned hg h hne
      obtain ⟨d', r', hrun, hsame, hown, hzero, hrest⟩ := ih (j := j + 1) hown1
        (fun k h1 h2 d' hd' => by
          rw [update_of_ne (hinj j k le_rfl (by omega) (by omega)).symm]
          exact haddr k (by omega) (by omega) d' (hsame1.trans hd'))
        (fun k k' h1 h2 h3 => hinj k k' (by omega) h2 (by omega))
      refine ⟨d', r', ?_, hsame1.trans hsame, hown, fun k h1 h2 => ?_, fun x hx => ?_⟩
      · simp only [freeLoop, bfreeNonzero, if_neg h0, hself, hfree]
        exact hrun
      · rcases Nat.eq_or_lt_of_le h1 with rfl | h1
        · rw [hrest _ fun k' h3 h4 => (hinj j k' le_rfl (by omega) (by omega)).symm,
            update_self]
        · exact hzero k h1 (by omega)
      · rw [hrest x fun k h1 h2 => hx k (by omega) (by omega),
          update_of_ne (hx j le_rfl (by omega)).symm]

theorem place_direct {k : ℕ} (hk : k < NDIRECT) : place k = .addr ⟨k, Nat.lt_succ_of_lt hk⟩ :=
  dif_pos hk

theorem place_indirect {j : ℕ} (hj : j < NINDIRECT) : place (NDIRECT + j) = .slot ⟨j, hj⟩ := by
  simp only [place, dif_neg (Nat.not_lt.mpr (Nat.le_add_right NDIRECT j)), Nat.add_sub_cancel_left,
    dif_pos hj]

theorem place_cases (p : Place) : p = .addr (Fin.last NDIRECT) ∨
    (∃ k < NDIRECT, p = place k) ∨ ∃ j < NINDIRECT, p = place (NDIRECT + j) := by
  cases p with
  | addr k =>
    by_cases hk : k.val < NDIRECT
    · exact .inr (.inl ⟨k.val, hk, (place_direct hk).symm⟩)
    · refine .inl (congrArg Place.addr (Fin.ext ?_))
      have := k.isLt
      simp only [Fin.val_last]
      omega
  | slot j => exact .inr (.inr ⟨j.val, j.isLt, (place_indirect j.isLt).symm⟩)

theorem place_inj {bn bn' : ℕ} (h : bn < MAXFILE) (h' : bn' < MAXFILE) (heq : place bn = place bn') :
    bn = bn' := by
  simp only [MAXFILE] at h h'
  by_cases h1 : bn < NDIRECT <;> by_cases h2 : bn' < NDIRECT
  · rw [place_direct h1, place_direct h2] at heq
    simpa using heq
  · obtain ⟨k, rfl⟩ := Nat.exists_eq_add_of_le (Nat.not_lt.mp h2)
    rw [place_direct h1, place_indirect (by omega)] at heq
    cases heq
  · obtain ⟨k, rfl⟩ := Nat.exists_eq_add_of_le (Nat.not_lt.mp h1)
    rw [place_indirect (by omega), place_direct h2] at heq
    cases heq
  · obtain ⟨k, rfl⟩ := Nat.exists_eq_add_of_le (Nat.not_lt.mp h1)
    obtain ⟨k', rfl⟩ := Nat.exists_eq_add_of_le (Nat.not_lt.mp h2)
    rw [place_indirect (by omega), place_indirect (by omega)] at heq
    simpa using heq

theorem place_isData (h : bn < MAXFILE) : IsData (i, place bn) := by
  simp only [MAXFILE] at h
  by_cases h1 : bn < NDIRECT
  · rw [IsData, place_direct h1]
    intro heq
    have := congrArg Fin.val (Place.addr.inj heq)
    simp only [Fin.val_last] at this
    omega
  · obtain ⟨k, rfl⟩ := Nat.exists_eq_add_of_le (Nat.not_lt.mp h1)
    rw [IsData, place_indirect (by omega)]
    exact Place.noConfusion

theorem itruncBlocks_ok (hg : g.Ok) (h : Accounts g t d) (ht : t i = some a) :
    ∃ d', itruncBlocks g a d = .ok d' ∧ SameOutside g d d' ∧ Accounts g (update t i none) d' := by
  have hne : ∀ {k k' : ℕ}, k < MAXFILE → k' < MAXFILE → k < k' → (i, place k) ≠ (i, place k') :=
    fun h1 h2 hlt heq => hlt.ne (place_inj h1 h2 (Prod.mk.inj heq).2)
  have hpointer : ∀ {k : ℕ}, k < MAXFILE → (i, place k) ≠ (i, .addr (Fin.last NDIRECT)) :=
    fun hk heq => place_isData (i := i) hk (Prod.mk.inj heq).2
  -- The direct blocks.
  obtain ⟨d1, r1, hrun1, hsame1, hown1, hzero1, hrest1⟩ := freeLoop_ok hg
    (o := fun k => (i, place k)) (n := NDIRECT) (j := 0) h
    (f := fun k _ => directAddr a k)
    (fun k _ hk d' _ => by
      have hk' : k < NDIRECT := by omega
      rw [directAddr, dif_pos (by omega), refs_some ht, place_direct hk']
      rfl)
    (fun k k' _ h2 h3 => hne (by simp only [MAXFILE]; omega) (by simp only [MAXFILE]; omega) h2)
  have hslots1 : ∀ j < NINDIRECT, r1 (i, place (NDIRECT + j)) = refs t d (i, place (NDIRECT + j)) :=
    fun j hj => hrest1 _ fun k _ hk => hne (by simp only [MAXFILE]; omega)
      (by simp only [MAXFILE]; omega) (by omega)
  have hpointer1 : r1 (i, .addr (Fin.last NDIRECT)) = (a (Fin.last NDIRECT)).toNat := by
    rw [hrest1 _ fun k _ hk => hpointer (by simp only [MAXFILE]; omega), refs_some ht]
    rfl
  -- What is left to show once the indirect blocks are gone too.
  have hfinish : ∀ d' r', SameOutside g d d' →
      Owned g.nmeta g.size (fun x => inUse g d' x = true) r' →
      (∀ k < MAXFILE, r' (i, place k) = 0) → r' (i, .addr (Fin.last NDIRECT)) = 0 →
      (∀ o, o.1 ≠ i → r' o = refs t d o) → Accounts g (update t i none) d' := by
    intro d' r' hsame hown hplace hlast hother
    refine hown.congr (fun _ _ => Iff.rfl) fun o => ?_
    obtain ⟨i', p⟩ := o
    by_cases hi : i' = i
    · subst hi
      rw [refs_none (update_self _ _ _)]
      rcases place_cases p with rfl | ⟨k, hk, rfl⟩ | ⟨j, hj, rfl⟩
      · exact hlast.symm
      · exact (hplace k (by simp only [MAXFILE]; omega)).symm
      · exact (hplace _ (by simp only [MAXFILE]; omega)).symm
    · rw [refs_update_ne hi, refs_congr_data h fun x hx _ => hsame.2 x hx, hother _ hi]
  unfold itruncBlocks
  simp only [hrun1]
  by_cases hiw : a (Fin.last NDIRECT) = 0
  · rw [if_pos hiw]
    refine ⟨d1, rfl, hsame1, hfinish d1 r1 hsame1 hown1 ?_ (by rw [hpointer1, hiw]; rfl) ?_⟩
    · intro k hk
      simp only [MAXFILE] at hk
      by_cases hdir : k < NDIRECT
      · exact hzero1 k (Nat.zero_le _) (by omega)
      · obtain ⟨j, rfl⟩ := Nat.exists_eq_add_of_le (Nat.not_lt.mp hdir)
        rw [hslots1 j (by omega), refs_some ht, place_indirect (by omega), blockOf, if_pos hiw]
    · exact fun o ho => hrest1 o fun k _ _ heq => ho (by rw [← heq])
  · rw [if_neg hiw]
    have hiref : refs t d (i, .addr (Fin.last NDIRECT)) = (a (Fin.last NDIRECT)).toNat := by
      rw [refs_some ht]
      rfl
    have hine := refs_indirect (d := d) ht hiw
    have hir := h.range _ hine
    rw [hiref] at hine hir
    -- The blocks of the indirect block, then the indirect block itself.
    obtain ⟨d2, r2, hrun2, hsame2, hown2, hzero2, hrest2⟩ := freeLoop_ok hg
      (o := fun j => (i, place (NDIRECT + j))) (n := NINDIRECT) (j := 0) hown1
      (f := fun j d' => (d' (a (Fin.last NDIRECT)).toNat).word (4 * j))
      (fun j _ hj d' hd' => by
        have hj' : j < NINDIRECT := by omega
        rw [hslots1 j hj', refs_some ht, place_indirect hj', blockOf, if_neg hiw,
          (hsame1.trans hd').2 _ hir.1])
      (fun k k' _ h2 h3 => hne (by simp only [MAXFILE]; omega) (by simp only [MAXFILE]; omega)
        (by omega))
    have hpointer2 : r2 (i, .addr (Fin.last NDIRECT)) = (a (Fin.last NDIRECT)).toNat := by
      rw [hrest2 _ fun j _ hj => hpointer (by simp only [MAXFILE]; omega), hpointer1]
    obtain ⟨hfree, hsame3, hown3⟩ := bfree_owned hg hown2 (o := (i, .addr (Fin.last NDIRECT)))
      (by rw [hpointer2]; exact hine)
    rw [hpointer2] at hfree hsame3 hown3
    simp only [hrun2, hfree]
    have hsame := (hsame1.trans hsame2).trans hsame3
    refine ⟨_, rfl, hsame, hfinish _ _ hsame hown3 ?_ (update_self _ _ _) ?_⟩
    · intro k hk
      rw [update_of_ne (hpointer hk)]
      simp only [MAXFILE] at hk
      by_cases hdir : k < NDIRECT
      · rw [hrest2 _ fun j _ hj => (hne (by simp only [MAXFILE]; omega)
          (by simp only [MAXFILE]; omega) (by omega)).symm]
        exact hzero1 k (Nat.zero_le _) (by omega)
      · obtain ⟨j, rfl⟩ := Nat.exists_eq_add_of_le (Nat.not_lt.mp hdir)
        exact hzero2 j (Nat.zero_le _) (by omega)
    · intro o ho
      have hno : ∀ p, (i, p) ≠ o := fun p heq => ho (by rw [← heq])
      rw [update_of_ne (hno _).symm, hrest2 o fun _ _ _ => hno _,
        hrest1 o fun _ _ _ => hno _]

end Blocks
end Xv6.Fs
