import Xv6.Bio.Model
import Xv6.Lib.Counting

/-!
# The buffer cache is a block store

The invariant says where the contents of each block are: in the one valid buffer that has its
address, or else on disk.
-/

namespace Xv6.Bio

open Lib
open Function (update_of_ne update_self update_eq_self update)

theorem find_erase_of_neg {l : List Slot} {f : Slot → Bool} {i : Slot} (hf : f i = false) :
    (l.erase i).find? f = l.find? f := by
  induction l with
  | nil => rfl
  | cons a l ih =>
    by_cases ha : a = i
    · rw [ha, List.erase_cons_head, List.find?_cons_of_neg (by simp [hf])]
    · rw [List.erase_cons_tail (by simpa using ha), List.find?_cons, List.find?_cons, ih]

theorem find_of_imp {l : List Slot} {f g : Slot → Bool} {i : Slot} (hi : g i = true)
    (himp : ∀ j, g j = true → f j = true) (h : l.find? f = some i) : l.find? g = some i := by
  induction l with
  | nil => cases h
  | cons a l ih =>
    rw [List.find?_cons] at h ⊢
    cases hfa : f a with
    | true =>
      rw [hfa] at h
      cases h
      rw [hi]
    | false =>
      rw [hfa] at h
      have hga : g a = false := by
        by_contra hne
        rw [himp a (by simpa using hne)] at hfa
        cases hfa
      rw [hga]
      exact ih h

theorem find_of_unique {l : List Slot} {f : Slot → Bool} {i : Slot} (hi : i ∈ l) (hf : f i = true)
    (hu : ∀ j, f j = true → j = i) : l.find? f = some i := by
  cases h : l.find? f with
  | none => exact absurd hf (List.find?_eq_none.mp h i hi)
  | some j => rw [hu j (List.find?_some h)]

section Invariant

variable {P β : Type*} {s t : State P β} {b c : BlockStore P β} {p q : P} {i j : Slot} {k : Addr}

def First (s : State P β) (i : Slot) : Prop := cached s (s.buf i).key = some i

theorem First.eq (hi : First s i) (hj : First s j) (hk : (s.buf i).key = (s.buf j).key) : i = j := by
  unfold First at hi hj
  rw [hk, hj] at hi
  exact (Option.some.inj hi).symm

theorem First.congr (hi : First s i) (hord : t.order = s.order)
    (hkey : ∀ j, (t.buf j).key = (s.buf j).key) : First t i := by
  unfold First cached at hi ⊢
  simpa only [hord, hkey] using hi

theorem cached_eq_some (h : cached s k = some i) : (s.buf i).key = k := by
  simpa using List.find?_some h

theorem unused_eq_some (h : unused s = some i) : (s.buf i).refcnt = 0 ∧ (s.buf i).dirty = false := by
  simpa using List.find?_some h

structure Linked (s : State P β) : Prop where
  order : ∀ i, i ∈ s.order
  refs : ∀ i, Counts (fun p => (s.use p).slot = some i) (s.buf i).refcnt
  lock : ∀ i p, s.lock i = some p ↔ (s.use p).lock = some i
  asked : ∀ p i, (s.use p).slot = some i → (s.buf i).key = s.asked p
  first : ∀ i, First s i ∨
    ((s.buf i).refcnt = 0 ∧ (s.buf i).valid = false ∧ (s.buf i).dirty = false)

def Sees (s : State P β) (p : P) : Prop :=
  match s.use p with
  | .reading i => (s.buf i).valid = false
  | .holding i _ => (s.buf i).valid = true
  | .writing i => (s.buf i).dirty = true
  | _ => True

structure Right (b : BlockStore P β) (s : State P β) (i : Slot) : Prop where
  dirty : (s.buf i).dirty = true → (s.buf i).valid = true
  data : (s.buf i).valid = true → (s.buf i).data = b.contents (s.buf i).key
  clean : (s.buf i).valid = true → (s.buf i).dirty = false →
    (∀ p, s.use p ≠ .holding i true) → s.disk (s.buf i).key = (s.buf i).data

structure Coherent (b : BlockStore P β) (s : State P β) : Prop where
  linked : Linked s
  sees : ∀ p, Sees s p
  right : ∀ i, Right b s i
  absent : ∀ k, (∀ i, (s.buf i).key = k → (s.buf i).valid = false) → s.disk k = b.contents k
  holder : ∀ k p, b.holder k = some p ↔ (s.use p).Holds ∧ s.asked p = k

theorem binit_coherent (zero : β) (log : RedoLog.Log) (disk : Addr → β) :
    Coherent (.new disk) (binit zero log disk : State P β) where
  linked :=
    { order := fun i => by simp [binit]
      refs := fun i => Counts.none fun p => by simp [binit, Use.slot]
      lock := fun i p => by simp [binit, Use.lock]
      asked := fun p i h => nomatch h
      first := fun i => .inr ⟨rfl, rfl, rfl⟩ }
  sees _ := trivial
  right _ := ⟨(nomatch ·), (nomatch ·), (nomatch ·)⟩
  absent _ _ := rfl
  holder k p := by simp [BlockStore.new, binit, Use.Holds]

theorem Use.slot_of_lock {u : Use} (h : u.lock = some i) : u.slot = some i := by
  cases u <;> first | exact h | cases h

theorem Sees.congr (h : Sees s p) (hu : t.use p = s.use p) (hb : ∀ i, (s.use p).lock = some i →
      (t.buf i).valid = (s.buf i).valid ∧ (t.buf i).dirty = (s.buf i).dirty) : Sees t p := by
  unfold Sees at h ⊢
  rw [hu]
  cases hp : s.use p with
  | idle | waiting i | locked i | leaving i => trivial
  | reading i | holding i m =>
    rw [hp] at h hb
    exact (hb i rfl).1.trans h
  | writing i =>
    rw [hp] at h hb
    exact (hb i rfl).2.trans h

namespace Linked

theorem first_of_slot (h : Linked s) (hp : (s.use p).slot = some i) : First s i := by
  rcases h.first i with hf | ⟨h0, -⟩
  · exact hf
  · have := (h.refs i).pos hp
    omega

theorem first_of_valid (h : Linked s) (hv : (s.buf i).valid = true) : First s i := by
  rcases h.first i with hf | ⟨-, hnv, -⟩
  · exact hf
  · rw [hv] at hnv
    cases hnv

theorem eq_of_lock (h : Linked s) (hp : (s.use p).lock = some i) (hq : (s.use q).lock = some j)
    (hk : s.asked p = s.asked q) : p = q := by
  have hpi := Use.slot_of_lock hp
  have hqj := Use.slot_of_lock hq
  have hij : i = j := by
    apply (h.first_of_slot hpi).eq (h.first_of_slot hqj)
    rw [h.asked p i hpi, h.asked q j hqj, hk]
  have h1 := (h.lock i p).mpr hp
  have h2 := (h.lock j q).mpr hq
  rw [hij, h2] at h1
  exact (Option.some.inj h1).symm

theorem ne_of_lock (h : Linked s) (hp : (s.use p).lock = some i) (hqp : q ≠ p)
    (hq : (s.use q).lock = some j) : j ≠ i := by
  rintro rfl
  have h1 := (h.lock j p).mpr hp
  rw [(h.lock j q).mpr hq] at h1
  exact hqp (Option.some.inj h1)

end Linked

theorem Use.Holds.lock {u : Use} (h : u.Holds) : ∃ i, u.lock = some i := by
  cases u with
  | holding i m | writing i => exact ⟨i, rfl⟩
  | idle | waiting i | locked i | reading i | leaving i => exact h.elim

namespace Coherent

theorem valid_of_dirty (h : Coherent b s) (hd : (s.buf i).dirty = true) : (s.buf i).valid = true :=
  (h.right i).dirty hd

theorem disk_of_first (h : Coherent b s) (hi : First s i) (hv : (s.buf i).valid = false) :
    s.disk (s.buf i).key = b.contents (s.buf i).key := by
  apply h.absent
  intro j hj
  by_contra hne
  have hj' : (s.buf j).valid = true := by simpa using hne
  rw [(h.linked.first_of_valid hj').eq hi hj, hv] at hj'
  cases hj'

end Coherent

theorem Coherent.frame (h : Coherent b s) (hl : Linked t) (huse : ∀ q, q ≠ p → t.use q = s.use q)
    (hbuf : ∀ j, j ≠ i → t.buf j = s.buf j) (hlocked : ∀ q, q ≠ p → (s.use q).lock = some i →
      (t.buf i).valid = (s.buf i).valid ∧ (t.buf i).dirty = (s.buf i).dirty)
    (hkey : ∀ j, j ≠ i → (s.buf j).valid = true →
      c.contents (s.buf j).key = b.contents (s.buf j).key ∧
        t.disk (s.buf j).key = s.disk (s.buf j).key)
    (hmod : ∀ j, j ≠ i → s.use p ≠ .holding j true) (hsees : Sees t p) (hright : Right c t i)
    (habs : ∀ k, (∀ j, (t.buf j).key = k → (t.buf j).valid = false) → t.disk k = c.contents k)
    (hhold : ∀ k q, c.holder k = some q ↔ (t.use q).Holds ∧ t.asked q = k) : Coherent c t := by
  refine ⟨hl, fun q => ?_, fun j => ?_, habs, hhold⟩
  · by_cases hq : q = p
    · rw [hq]
      exact hsees
    · refine (h.sees q).congr (huse q hq) fun j hj => ?_
      by_cases hji : j = i
      · rw [hji] at hj ⊢
        exact hlocked q hq hj
      · rw [hbuf j hji]
        exact ⟨rfl, rfl⟩
  · by_cases hj : j = i
    · rw [hj]
      exact hright
    · have hr := h.right j
      refine ⟨fun hd => ?_, fun hv => ?_, fun hv hd hm => ?_⟩
      · rw [hbuf j hj] at hd ⊢
        exact hr.dirty hd
      · rw [hbuf j hj] at hv ⊢
        rw [hr.data hv, (hkey j hj hv).1]
      · rw [hbuf j hj] at hv hd ⊢
        rw [(hkey j hj hv).2]
        refine hr.clean hv hd fun q hq => ?_
        by_cases hqp : q = p
        · exact hmod j hj (hqp ▸ hq)
        · exact hm q ((huse q hqp).trans hq)

structure Held (s t : State P β) (p : P) (i : Slot) : Prop where
  before : (s.use p).lock = some i
  after : (t.use p).lock = some i
  use : ∀ q, q ≠ p → t.use q = s.use q
  buf : ∀ j, j ≠ i → t.buf j = s.buf j
  key : (t.buf i).key = (s.buf i).key
  refcnt : (t.buf i).refcnt = (s.buf i).refcnt
  order : t.order = s.order
  lock : t.lock = s.lock
  asked : t.asked = s.asked

namespace Held

theorem keys (hh : Held s t p i) (j : Slot) : (t.buf j).key = (s.buf j).key := by
  by_cases hj : j = i
  · rw [hj, hh.key]
  · rw [hh.buf j hj]

theorem slots (hh : Held s t p i) (q : P) : (t.use q).slot = (s.use q).slot := by
  by_cases hq : q = p
  · rw [hq, Use.slot_of_lock hh.before, Use.slot_of_lock hh.after]
  · rw [hh.use q hq]

theorem linked (hh : Held s t p i) (h : Linked s) : Linked t where
  order j := by
    rw [hh.order]
    exact h.order j
  refs j := by
    have hr : (t.buf j).refcnt = (s.buf j).refcnt := by
      by_cases hj : j = i
      · rw [hj, hh.refcnt]
      · rw [hh.buf j hj]
    rw [hr]
    exact (h.refs j).congr fun q => by rw [hh.slots q]
  lock j q := by
    rw [hh.lock, h.lock]
    by_cases hq : q = p
    · rw [hq, hh.before, hh.after]
    · rw [hh.use q hq]
  asked q j hq := by
    rw [hh.slots q] at hq
    rw [hh.keys j, hh.asked, h.asked q j hq]
  first j := by
    by_cases hj : j = i
    · left
      rw [hj]
      exact (h.first_of_slot (Use.slot_of_lock hh.before)).congr hh.order hh.keys
    · rw [hh.buf j hj]
      exact (h.first j).imp_left fun hf => hf.congr hh.order hh.keys

theorem coherent (hh : Held s t p i) (h : Coherent b s)
    (hc : ∀ k, k ≠ (s.buf i).key → c.contents k = b.contents k)
    (hd : ∀ k, k ≠ (s.buf i).key → t.disk k = s.disk k) (hsees : Sees t p) (hright : Right c t i)
    (habs : (t.buf i).valid = false → t.disk (s.buf i).key = c.contents (s.buf i).key)
    (hhold : ∀ k q, c.holder k = some q ↔ (t.use q).Holds ∧ t.asked q = k) : Coherent c t := by
  have hkey : ∀ j, j ≠ i → (s.buf j).valid = true → (s.buf j).key ≠ (s.buf i).key :=
    fun j hj hv hk => hj ((h.linked.first_of_valid hv).eq
      (h.linked.first_of_slot (Use.slot_of_lock hh.before)) hk)
  refine h.frame (hh.linked h.linked) hh.use hh.buf
    (fun q hq hl => absurd rfl (h.linked.ne_of_lock hh.before hq hl))
    (fun j hj hv => ⟨hc _ (hkey j hj hv), hd _ (hkey j hj hv)⟩) (fun j hj hm => ?_) hsees hright
    (fun k hk => ?_) hhold
  · have hl := hh.before
    rw [hm] at hl
    exact hj (Option.some.inj hl)
  · by_cases hki : k = (s.buf i).key
    · rw [hki]
      exact habs (hk i (by rw [hh.key, hki]))
    · rw [hd k hki, hc k hki]
      refine h.absent k fun j hj => ?_
      have hji : j ≠ i := by
        rintro rfl
        exact hki hj.symm
      rw [← hh.buf j hji]
      exact hk j (by rw [hh.buf j hji, hj])

end Held

theorem Coherent.outside {n : ℕ} (h : Coherent b s) (hl : Linked t)
    (hbuf : ∀ j, j ≠ i → t.buf j = s.buf j) (hi : t.buf i = { s.buf i with refcnt := n })
    (hdisk : t.disk = s.disk) (hc : c.contents = b.contents)
    (huse : ∀ q, q ≠ p → t.use q = s.use q) (hmod : ∀ i, s.use p ≠ .holding i true)
    (hsees : Sees t p)
    (hhold : ∀ k q, c.holder k = some q ↔ (t.use q).Holds ∧ t.asked q = k) : Coherent c t := by
  have hr := h.right i
  refine h.frame hl huse hbuf (fun _ _ _ => by simp [hi]) (fun j _ _ => by simp [hc, hdisk])
    (fun j _ => hmod j) hsees ?_ (fun k hk => ?_) hhold
  · refine ⟨fun hd => ?_, fun hv => ?_, fun hv hd hm => ?_⟩
    · rw [hi] at hd ⊢
      exact hr.dirty hd
    · rw [hi] at hv ⊢
      rw [hc]
      exact hr.data hv
    · rw [hi] at hv hd ⊢
      rw [hdisk]
      refine hr.clean hv hd fun q hq => ?_
      by_cases hqp : q = p
      · exact hmod i (hqp ▸ hq)
      · exact hm q ((huse q hqp).trans hq)
  · rw [hdisk, hc]
    refine h.absent k fun j hj => ?_
    have hb : (t.buf j).key = (s.buf j).key ∧ (t.buf j).valid = (s.buf j).valid := by
      by_cases hji : j = i
      · simp [hji, hi]
      · simp [hbuf j hji]
    rw [← hb.2]
    exact hk j (hb.1.trans hj)

end Invariant

variable {P β : Type*} [DecidableEq P] {s t : State P β} {b c : BlockStore P β}

inductive Moves (s : State P β) : Event P β → State P β → Prop
  | hit {p k i} (hp : s.use p = .idle) (hc : cached s k = some i) :
      Moves s (.bget p k)
        { (s.setBuf i { s.buf i with refcnt := (s.buf i).refcnt + 1 }).setUse p (.waiting i) with
          asked := update s.asked p k }
  | recycle {p k i} (hp : s.use p = .idle) (hc : cached s k = none) (hi : unused s = some i) :
      Moves s (.bget p k)
        { (s.setBuf i { s.buf i with key := k, valid := false, dirty := false, refcnt := 1 }).setUse p
            (.waiting i) with
          asked := update s.asked p k }
  | acquire {p i} (hp : s.use p = .waiting i) (hl : s.lock i = none) :
      Moves s (.acquiresleep p) ((s.setLock i (some p)).setUse p (.locked i))
  | miss {p i} (hp : s.use p = .locked i) (hv : (s.buf i).valid = false) :
      Moves s (.bread p) (s.setUse p (.reading i))
  | found {p i} (hp : s.use p = .locked i) (hv : (s.buf i).valid = true) :
      Moves s (.bread p) (returned s p i)
  | read {p i} (hp : s.use p = .reading i) :
      Moves s (.iderw p)
        (returned (s.setBuf i { s.buf i with data := s.disk (s.buf i).key, valid := true }) p i)
  | written {p i} (hp : s.use p = .writing i) :
      Moves s (.iderw p)
        { (s.setBuf i { s.buf i with dirty := false, valid := true }).setUse p (.holding i false) with
          disk := update s.disk (s.buf i).key (s.buf i).data }
  | modify {p i m x} (hp : s.use p = .holding i m) :
      Moves s (.modify p x)
        (((s.setBuf i { s.buf i with data := x }).setUse p (.holding i true)).record
          (.modify p (s.asked p) x))
  | logWrite {p i m l} (hp : s.use p = .holding i m) :
      Moves s (.logWrite p)
        { (s.setBuf i { s.buf i with dirty := true }).setUse p (.holding i false) with
          log := l
          logged := (s.buf i).key :: s.logged }
  | bwrite {p i m} (hp : s.use p = .holding i m) :
      Moves s (.bwrite p) ((s.setBuf i { s.buf i with dirty := true }).setUse p (.writing i))
  | brelse {p i} (hp : s.use p = .holding i false) :
      Moves s (.brelse p)
        (((s.setLock i none).setUse p (.leaving i)).record (.brelse p (s.asked p)))
  | unref {p i} (hp : s.use p = .leaving i) : Moves s (.unref p) ((unref s i).setUse p .idle)
  | log {e l c z g} (hg : ∀ k ∈ g, k ∈ s.logged) (he : ∀ p, e ≠ .bwrite p) :
      Moves s e { s with log := l, committing := c, sealed := z, logged := g }

theorem Coherent.moves {e : Event P β} (hs : Coherent b s) (h : step s e = some t) : Moves s e t := by
  cases e with
  | bget p k =>
    simp only [step] at h
    split at h
    · rename_i hp
      unfold bget at h
      cases hc : cached s k with
      | some i =>
        rw [hc] at h
        cases h
        exact .hit hp hc
      | none =>
        rw [hc] at h
        cases hi : unused s with
        | some i =>
          rw [hi] at h
          cases h
          exact .recycle hp hc hi
        | none =>
          rw [hi] at h
          cases h
    · cases h
  | acquiresleep p =>
    simp only [step] at h
    split at h
    · rename_i i hp
      split_ifs at h with hl
      cases h
      exact .acquire hp hl
    · cases h
  | bread p =>
    simp only [step] at h
    split at h
    · rename_i i hp
      split_ifs at h with hv <;> cases h
      · exact .miss hp hv
      · exact .found hp (by simpa using hv)
    · cases h
  | iderw p =>
    have hp := hs.sees p
    simp only [step] at h
    split at h
    · rename_i i hu
      simp only [Sees, hu] at hp
      have hd : (s.buf i).dirty = false := by
        by_contra hne
        rw [hs.valid_of_dirty (by simpa using hne)] at hp
        cases hp
      unfold iderw at h
      rw [if_neg (by simp [hd]), if_pos hp] at h
      cases h
      exact .read hu
    · rename_i i hu
      simp only [Sees, hu] at hp
      unfold iderw at h
      rw [if_pos hp] at h
      cases h
      exact .written hu
    · cases h
  | modify p x =>
    simp only [step] at h
    split at h <;> cases h
    next hp => exact .modify hp
  | logWrite p =>
    simp only [step] at h
    split at h
    · rename_i hp
      split at h <;> cases h
      exact .logWrite hp
    · cases h
  | bwrite p =>
    simp only [step] at h
    split at h <;> cases h
    next hp => exact .bwrite hp
  | brelse p =>
    simp only [step] at h
    split at h <;> cases h
    next hp => exact .brelse hp
  | unref p =>
    simp only [step] at h
    split at h <;> cases h
    next hp => exact .unref hp
  | beginOp | endOp | erase | commitDone =>
    simp only [step] at h
    split at h <;> cases h
    exact .log (fun _ hk => hk) nofun
  | writeHead =>
    simp only [step] at h
    split at h <;> cases h
    exact .log (fun _ hk => nomatch hk) nofun

variable {p q : P} {i j : Slot} {k : Addr} {u : Use} {x : Buf β}

theorem Linked.ref (h : Linked s) (hp : s.use p = .idle) (hk : x.key = k)
    (hn : x.refcnt = (s.buf i).refcnt + 1) (hold : 0 < (s.buf i).refcnt → (s.buf i).key = k)
    (hfirst : ∀ j, First (s.setBuf i x) j ∨
      (((s.setBuf i x).buf j).refcnt = 0 ∧ ((s.setBuf i x).buf j).valid = false ∧
        ((s.setBuf i x).buf j).dirty = false)) :
    Linked { (s.setBuf i x).setUse p (.waiting i) with asked := update s.asked p k } := by
  have hslot : ∀ q j, (update s.use p (.waiting i) q).slot = some j ↔
      (q = p ∧ j = i) ∨ (s.use q).slot = some j := fun q j => by
    by_cases hq : q = p
    · rw [hq, update_self, hp]
      simp [Use.slot, eq_comm]
    · rw [update_of_ne hq]
      simp [hq]
  refine ⟨h.order, fun j => ?_, fun j q => ?_, fun q j hq => ?_, hfirst⟩
  · change Counts (fun q => (update s.use p (.waiting i) q).slot = some j)
      (update s.buf i x j).refcnt
    by_cases hj : j = i
    · rw [hj, update_self, hn]
      apply (h.refs i).add (a := p)
      · simp [hp, Use.slot]
      · intro q
        rw [hslot]
        simp
    · rw [update_of_ne hj]
      apply (h.refs j).congr
      intro q
      rw [hslot]
      simp [hj]
  · change s.lock j = some q ↔ (update s.use p (.waiting i) q).lock = some j
    rw [h.lock]
    by_cases hq : q = p
    · rw [hq, update_self, hp]
      simp [Use.lock]
    · rw [update_of_ne hq]
  · change (update s.buf i x j).key = update s.asked p k q
    rcases (hslot q j).mp hq with ⟨rfl, rfl⟩ | hq'
    · rw [update_self, update_self, hk]
    · have hqp : q ≠ p := by
        rintro rfl
        rw [hp] at hq'
        cases hq'
      rw [update_of_ne hqp]
      by_cases hj : j = i
      · rw [hj] at hq' ⊢
        rw [update_self, hk, ← hold ((h.refs i).pos hq'), h.asked q i hq']
      · rw [update_of_ne hj, h.asked q j hq']

theorem Linked.unref (h : Linked s) (hp : s.use p = .leaving i)
    (hbuf : t.buf = update s.buf i { s.buf i with refcnt := (s.buf i).refcnt - 1 })
    (huse : t.use = update s.use p .idle) (hlock : t.lock = s.lock)
    (hasked : t.asked = s.asked) (hord : ∀ i, i ∈ t.order)
    (hfirst : ∀ j, First s j → First t j) : Linked t := by
  have hslot : ∀ q j, (t.use q).slot = some j ↔ q ≠ p ∧ (s.use q).slot = some j := fun q j => by
    rw [huse]
    by_cases hq : q = p
    · rw [hq, update_self]
      simp [Use.slot]
    · rw [update_of_ne hq]
      simp [hq]
  have hpi : (s.use p).slot = some i := by rw [hp]; rfl
  have hkey : ∀ j, (t.buf j).key = (s.buf j).key := fun j => by
    rw [hbuf]
    by_cases hj : j = i
    · rw [hj, update_self]
    · rw [update_of_ne hj]
  refine ⟨hord, fun j => ?_, fun j q => ?_, fun q j hq => ?_, fun j => ?_⟩
  · rw [hbuf]
    by_cases hj : j = i
    · rw [hj, update_self]
      exact (h.refs i).remove hpi fun q => hslot q i
    · rw [update_of_ne hj]
      apply (h.refs j).congr
      intro q
      rw [hslot]
      constructor
      · exact And.right
      · refine fun hq => ⟨?_, hq⟩
        rintro rfl
        rw [hpi] at hq
        exact hj (Option.some.inj hq).symm
  · rw [hlock, h.lock, huse]
    by_cases hq : q = p
    · rw [hq, update_self, hp]
      simp [Use.lock]
    · rw [update_of_ne hq]
  · rw [hkey, hasked]
    exact h.asked q j ((hslot q j).mp hq).2
  · rw [hbuf]
    by_cases hj : j = i
    · rw [hj]
      exact .inl (hfirst i (h.first_of_slot hpi))
    · rw [update_of_ne hj]
      exact (h.first j).imp_left (hfirst j)

theorem Linked.relock {o : Option P} (h : Linked s) (hu : u.slot = (s.use p).slot)
    (ho : o = some p ∧ u.lock = some i ∨ o = none ∧ u.lock = none)
    (hp : ∀ j, (s.use p).lock = some j → j = i) (hi : ∀ q, q ≠ p → s.lock i ≠ some q) :
    Linked ((s.setLock i o).setUse p u) := by
  have hslot : ∀ q, (update s.use p u q).slot = (s.use q).slot := fun q => by
    by_cases hq : q = p
    · rw [hq, update_self, hu]
    · rw [update_of_ne hq]
  refine ⟨h.order, fun j => ?_, fun j q => ?_, fun q j hq => ?_, h.first⟩
  · exact (h.refs j).congr fun q => by rw [← hslot q]; rfl
  · change update s.lock i o j = some q ↔ (update s.use p u q).lock = some j
    by_cases hj : j = i
    · rw [hj, update_self]
      by_cases hq : q = p
      · rw [hq, update_self]
        rcases ho with ⟨rfl, hul⟩ | ⟨rfl, hul⟩ <;> simp [hul]
      · rw [update_of_ne hq, ← h.lock]
        simp only [hi q hq, iff_false]
        rcases ho with ⟨rfl, -⟩ | ⟨rfl, -⟩ <;> simp [Ne.symm hq]
    · rw [update_of_ne hj, h.lock]
      by_cases hq : q = p
      · rw [hq, update_self]
        have hpj : (s.use p).lock ≠ some j := fun hl => hj (hp j hl)
        rcases ho with ⟨-, hul⟩ | ⟨-, hul⟩ <;> simp [hpj, hul, Ne.symm hj]
      · rw [update_of_ne hq]
  · exact h.asked q j ((hslot q).symm.trans hq)

theorem Coherent.holder_frame (h : Coherent b s) (huse : ∀ q, q ≠ p → t.use q = s.use q)
    (hasked : ∀ q, q ≠ p → t.asked q = s.asked q)
    (hp : ∀ k, (t.use p).Holds ∧ t.asked p = k ↔ (s.use p).Holds ∧ s.asked p = k) (k : Addr) (q : P) :
    b.holder k = some q ↔ (t.use q).Holds ∧ t.asked q = k := by
  rw [h.holder]
  by_cases hq : q = p
  · rw [hq, hp]
  · rw [huse q hq, hasked q hq]

theorem Coherent.holder_setUse (h : Coherent b s) (huse : t.use = update s.use p u)
    (hasked : t.asked = s.asked) (hu : u.Holds ↔ (s.use p).Holds) (k : Addr) (q : P) :
    b.holder k = some q ↔ (t.use q).Holds ∧ t.asked q = k := by
  refine h.holder_frame (p := p) (fun q hq => ?_) (fun q _ => by rw [hasked]) (fun k => ?_) k q
  · rw [huse, update_of_ne hq]
  · rw [huse, update_self, hasked, hu]

omit [DecidableEq P] in
theorem Coherent.not_holds (h : Coherent b s) (hp : (s.use p).lock = some i) (hq : q ≠ p) :
    ¬ ((s.use q).Holds ∧ s.asked q = s.asked p) := by
  rintro ⟨hh, hk⟩
  obtain ⟨j, hj⟩ := hh.lock
  exact hq (h.linked.eq_of_lock hj hp hk)

theorem Coherent.holder_returned (h : Coherent b s) (hp : (s.use p).lock = some i)
    (hph : ¬ (s.use p).Holds) (huse : t.use = update s.use p u) (hu : u.Holds)
    (hasked : t.asked = s.asked) :
    b.holder (s.asked p) = none ∧ ∀ k q, update b.holder (s.asked p) (some p) k = some q ↔
      (t.use q).Holds ∧ t.asked q = k := by
  refine ⟨Option.eq_none_iff_forall_ne_some.mpr fun q hq => ?_, fun k q => ?_⟩
  · have hq' := (h.holder _ q).mp hq
    by_cases hqp : q = p
    · exact hph (hqp ▸ hq'.1)
    · exact h.not_holds hp hqp hq'
  · rw [huse, hasked]
    by_cases hk : k = s.asked p
    · rw [hk, update_self]
      by_cases hq : q = p
      · simp [hq, hu]
      · rw [update_of_ne hq]
        simp only [h.not_holds hp hq, Option.some.injEq, Ne.symm hq]
    · rw [update_of_ne hk, h.holder]
      by_cases hq : q = p
      · simp [hq, hph, Ne.symm hk]
      · rw [update_of_ne hq]

theorem Coherent.holder_released (h : Coherent b s) (hp : (s.use p).lock = some i)
    (huse : t.use = update s.use p u) (hu : ¬ u.Holds) (hasked : t.asked = s.asked)
    (k : Addr) (q : P) : update b.holder (s.asked p) none k = some q ↔
      (t.use q).Holds ∧ t.asked q = k := by
  rw [huse, hasked]
  by_cases hq : q = p
  · rw [hq, update_self]
    simp only [hu, false_and, iff_false]
    by_cases hk : k = s.asked p
    · simp [hk]
    · rw [update_of_ne hk, h.holder]
      exact fun hh => hk hh.2.symm
  · rw [update_of_ne hq]
    by_cases hk : k = s.asked p
    · rw [hk, update_self]
      simp only [h.not_holds hp hq, reduceCtorEq]
    · rw [update_of_ne hk, h.holder]

theorem Coherent.hit (h : Coherent b s) (hp : s.use p = .idle) (hc : cached s k = some i) :
    Coherent b { (s.setBuf i { s.buf i with refcnt := (s.buf i).refcnt + 1 }).setUse p (.waiting i) with
      asked := update s.asked p k } := by
  have hk := cached_eq_some hc
  have hkeys : ∀ j, ((s.setBuf i { s.buf i with refcnt := (s.buf i).refcnt + 1 }).buf j).key =
      (s.buf j).key := fun j => by
    by_cases hj : j = i
    · simp [State.setBuf, hj]
    · simp [State.setBuf, hj]
  refine h.outside ?_ (fun j hj => update_of_ne hj _ _) (update_self _ _ _) rfl rfl
    (fun q hq => update_of_ne hq _ _) (by simp [hp]) (by simp [Sees, State.setUse]) ?_
  · apply h.linked.ref (x := { s.buf i with refcnt := (s.buf i).refcnt + 1 }) hp hk rfl (fun _ => hk)
    intro j
    by_cases hj : j = i
    · left
      have hf : First s i := by
        unfold First
        rw [hk, hc]
      rw [hj]
      exact hf.congr rfl hkeys
    · rw [show (s.setBuf i _).buf j = s.buf j from update_of_ne hj _ _]
      exact (h.linked.first j).imp_left fun hf => hf.congr rfl hkeys
  · apply h.holder_frame (fun q hq => update_of_ne hq _ _)
      (fun q hq => update_of_ne hq _ _)
    simp [State.setUse, hp, Use.Holds]

omit [DecidableEq P] in
theorem Linked.key_ne_of_uncached (h : Linked s) (hc : cached s k = none) (j : Slot) :
    (s.buf j).key ≠ k := by
  simpa using List.find?_eq_none.mp hc j (h.order j)

theorem Linked.recycle (h : Linked s) (hp : s.use p = .idle) (hc : cached s k = none)
    (href : (s.buf i).refcnt = 0) (hk : x.key = k) (hx : x.refcnt = 1) :
    Linked { (s.setBuf i x).setUse p (.waiting i) with asked := update s.asked p k } := by
  have hne := h.key_ne_of_uncached hc
  have hself : (s.setBuf i x).buf i = x := update_self _ _ _
  have hbuf : ∀ j, j ≠ i → (s.setBuf i x).buf j = s.buf j := fun j hj => update_of_ne hj _ _
  apply h.ref hp hk (by rw [hx, href]) (fun h0 => absurd href h0.ne')
  intro j
  by_cases hj : j = i
  · left
    rw [hj]
    apply find_of_unique (h.order i)
    · simp
    · intro j' hj'
      by_contra hji
      rw [hbuf j' hji, hself, hk] at hj'
      exact hne j' (by simpa using hj')
  · rw [hbuf j hj]
    refine (h.first j).imp_left fun hf => ?_
    refine find_of_imp (by simp) (fun j' hj' => ?_) hf
    -- the recycled buffer has left its old address, and nobody else has the new one
    rw [hbuf j hj] at hj'
    by_cases hji : j' = i
    · rw [hji, hself, hk] at hj'
      exact absurd (by simpa using hj' : k = (s.buf j).key).symm (hne j)
    · rwa [hbuf j' hji] at hj'

omit [DecidableEq P] in
theorem Coherent.emptied (h : Coherent b s) (hl : Linked t)
    (hfree : ∀ q, (s.use q).slot ≠ some i) (hclean : (s.buf i).dirty = false)
    (hbuf : ∀ j, j ≠ i → t.buf j = s.buf j)
    (hvalid : (t.buf i).valid = false) (hdirty : (t.buf i).dirty = false) (hdisk : t.disk = s.disk)
    (hp : s.use p = .idle) (huse : ∀ q, q ≠ p → t.use q = s.use q) (hsees : Sees t p)
    (hhold : ∀ k q, b.holder k = some q ↔ (t.use q).Holds ∧ t.asked q = k) : Coherent b t := by
  refine h.frame hl huse hbuf (fun q _ hq => absurd (Use.slot_of_lock hq) (hfree q))
    (fun j _ _ => ⟨rfl, by rw [hdisk]⟩) (by simp [hp]) hsees
    ⟨by simp [hdirty], by simp [hvalid], by simp [hvalid]⟩ (fun k hk => ?_) hhold
  rw [hdisk]
  have hother : ∀ j, j ≠ i → (s.buf j).key = k → (s.buf j).valid = false := fun j hji hj => by
    rw [← hbuf j hji]
    exact hk j (by rw [hbuf j hji, hj])
  by_cases hik : (s.buf i).key = k ∧ (s.buf i).valid = true
  · -- the block that leaves the cache is on disk
    have hr := h.right i
    rw [← hik.1, ← hr.data hik.2]
    refine hr.clean hik.2 hclean fun q hq => hfree q ?_
    rw [hq]
    rfl
  · apply h.absent
    intro j hj
    by_cases hji : j = i
    · rw [hji] at hj ⊢
      simpa using fun hv => hik ⟨hj, hv⟩
    · exact hother j hji hj

theorem Coherent.recycle (h : Coherent b s) (hp : s.use p = .idle) (hc : cached s k = none)
    (hi : unused s = some i) : Coherent b
      { (s.setBuf i { s.buf i with key := k, valid := false, dirty := false, refcnt := 1 }).setUse p
          (.waiting i) with
        asked := update s.asked p k } := by
  obtain ⟨href, hdirty⟩ := unused_eq_some hi
  have hfree : ∀ q, (s.use q).slot ≠ some i := by
    have hcount := h.linked.refs i
    rw [href] at hcount
    exact hcount.not_of_zero
  apply h.emptied (h.linked.recycle hp hc href rfl rfl) hfree hdirty (p := p)
  · exact fun j hj => update_of_ne hj _ _
  · simp [State.setBuf, State.setUse]
  · simp [State.setBuf, State.setUse]
  · rfl
  · exact hp
  · exact fun q hq => update_of_ne hq _ _
  · simp [Sees, State.setUse]
  · apply h.holder_frame (fun q hq => update_of_ne hq _ _)
      (fun q hq => update_of_ne hq _ _)
    simp [State.setUse, hp, Use.Holds]

theorem Coherent.acquire (h : Coherent b s) (hp : s.use p = .waiting i) (hl : s.lock i = none) :
    Coherent b ((s.setLock i (some p)).setUse p (.locked i)) := by
  refine h.outside (i := i) (h.linked.relock ?_ (.inl ⟨rfl, rfl⟩) ?_ ?_) (fun _ _ => rfl) rfl rfl rfl
    (fun q hq => update_of_ne hq _ _) (by simp [hp]) (by simp [Sees, State.setUse])
    (h.holder_setUse rfl rfl (by simp [hp, Use.Holds]))
  · rw [hp]
    rfl
  · simp [hp, Use.lock]
  · simp [hl]

theorem Coherent.brelse (h : Coherent b s) (hp : s.use p = .holding i false) :
    Coherent { b with holder := update b.holder (s.asked p) none }
      (((s.setLock i none).setUse p (.leaving i)).record (.brelse p (s.asked p))) := by
  have hpl : (s.use p).lock = some i := by
    rw [hp]
    rfl
  have hlinked : Linked ((s.setLock i none).setUse p (.leaving i)) := by
    refine h.linked.relock ?_ (.inr ⟨rfl, rfl⟩) ?_ ?_
    · rw [hp]
      rfl
    · simp [hp, Use.lock]
    · rw [(h.linked.lock i p).mpr hpl]
      exact fun q hq hqp => hq (Option.some.inj hqp).symm
  exact h.outside (i := i)
    ⟨hlinked.order, hlinked.refs, hlinked.lock, hlinked.asked, hlinked.first⟩ (fun _ _ => rfl) rfl rfl
    rfl (fun q hq => update_of_ne hq _ _) (by simp [hp]) (by simp [Sees, State.setUse, State.record])
    (h.holder_released hpl rfl (fun hu => hu) rfl)

omit [DecidableEq P] in
theorem Linked.first_moved (h : Linked s) (hp : (s.use p).slot = some i)
    (hkey : ∀ j, (t.buf j).key = (s.buf j).key) (hord : t.order = i :: s.order.erase i)
    (hj : First s j) : First t j := by
  unfold First cached
  simp only [hord, hkey]
  by_cases hji : j = i
  · rw [hji, List.find?_cons_of_pos (by simp)]
  · -- another first buffer has another address
    have hne : (s.buf i).key ≠ (s.buf j).key := fun hk =>
      hji (hj.eq (h.first_of_slot hp) hk.symm)
    rw [List.find?_cons_of_neg (by simpa using hne), find_erase_of_neg (by simpa using hne)]
    exact hj

theorem Coherent.unref (h : Coherent b s) (hp : s.use p = .leaving i) :
    Coherent b ((unref s i).setUse p .idle) := by
  have hslot : (s.use p).slot = some i := by
    rw [hp]
    rfl
  have hbuf : (Bio.unref s i).buf =
      update s.buf i { s.buf i with refcnt := (s.buf i).refcnt - 1 } := by
    unfold Bio.unref
    split <;> rfl
  have hrest : (Bio.unref s i).use = s.use ∧ (Bio.unref s i).lock = s.lock ∧
      (Bio.unref s i).asked = s.asked ∧ (Bio.unref s i).disk = s.disk := by
    unfold Bio.unref
    split <;> exact ⟨rfl, rfl, rfl, rfl⟩
  have hkey : ∀ j, ((Bio.unref s i).buf j).key = (s.buf j).key := fun j => by
    rw [hbuf]
    by_cases hj : j = i
    · rw [hj, update_self]
    · rw [update_of_ne hj]
  have hord : (Bio.unref s i).order = s.order ∨ (Bio.unref s i).order = i :: s.order.erase i := by
    unfold Bio.unref
    split
    · exact .inr rfl
    · exact .inl rfl
  have huse : ((Bio.unref s i).setUse p .idle).use = update s.use p .idle := by
    rw [← hrest.1]
    rfl
  have hself : (Bio.unref s i).buf i = { s.buf i with refcnt := (s.buf i).refcnt - 1 } := by
    rw [hbuf, update_self]
  refine h.outside (p := p) ?_ (fun j hj => ?_) hself hrest.2.2.2 rfl (fun q hq => ?_) (by simp [hp])
    (by simp [Sees, State.setUse]) (h.holder_setUse huse hrest.2.2.1 (by simp [hp, Use.Holds]))
  · apply h.linked.unref (t := (Bio.unref s i).setUse p .idle) hp hbuf huse hrest.2.1 hrest.2.2.1
    · intro j
      change j ∈ (Bio.unref s i).order
      rcases hord with ho | ho
      · rw [ho]
        exact h.linked.order j
      · rw [ho, List.mem_cons]
        by_cases hj : j = i
        · exact .inl hj
        · exact .inr ((List.mem_erase_of_ne hj).mpr (h.linked.order j))
    · intro j hj
      rcases hord with ho | ho
      · exact hj.congr ho hkey
      · exact h.linked.first_moved hslot hkey ho hj
  · change (Bio.unref s i).buf j = s.buf j
    rw [hbuf, update_of_ne hj]
  · rw [huse, update_of_ne hq]

theorem held_set (hp : (s.use p).lock = some i) (hu : u.lock = some i)
    (hbuf : t.buf = update s.buf i x) (huse : t.use = update s.use p u)
    (hk : x.key = (s.buf i).key) (hn : x.refcnt = (s.buf i).refcnt)
    (hord : t.order = s.order) (hlock : t.lock = s.lock) (hasked : t.asked = s.asked) :
    Held s t p i where
  before := hp
  after := by rw [huse, update_self, hu]
  use q hq := by rw [huse, update_of_ne hq]
  buf j hj := by rw [hbuf, update_of_ne hj]
  key := by rw [hbuf, update_self, hk]
  refcnt := by rw [hbuf, update_self, hn]
  order := hord
  lock := hlock
  asked := hasked

theorem Coherent.miss (h : Coherent b s) (hp : s.use p = .locked i) (hv : (s.buf i).valid = false) :
    Coherent b (s.setUse p (.reading i)) := by
  have hpl : (s.use p).lock = some i := by
    rw [hp]
    rfl
  have hh : Held s (s.setUse p (.reading i)) p i :=
    held_set hpl rfl (update_eq_self i s.buf).symm rfl rfl rfl rfl rfl rfl
  apply hh.coherent h (fun _ _ => rfl) (fun _ _ => rfl)
  · simpa [Sees, State.setUse] using hv
  · refine ⟨(h.right i).dirty, (h.right i).data, fun hv' => ?_⟩
    rw [show (s.setUse p (.reading i)).buf i = s.buf i from rfl, hv] at hv'
    cases hv'
  · exact fun _ => h.disk_of_first (h.linked.first_of_slot (Use.slot_of_lock hpl)) hv
  · exact h.holder_setUse rfl rfl (by simp [hp, Use.Holds])

omit [DecidableEq P] in
theorem Held.coherent_valid (hh : Held s t p i) (h : Coherent b s)
    (hc : ∀ k, k ≠ (s.buf i).key → c.contents k = b.contents k)
    (hd : ∀ k, k ≠ (s.buf i).key → t.disk k = s.disk k) (hsees : Sees t p)
    (hv : (t.buf i).valid = true) (hdata : (t.buf i).data = c.contents (s.buf i).key)
    (hclean : (t.buf i).dirty = false → (∀ q, t.use q ≠ .holding i true) →
      t.disk (s.buf i).key = (t.buf i).data)
    (hhold : ∀ k q, c.holder k = some q ↔ (t.use q).Holds ∧ t.asked q = k) : Coherent c t := by
  apply hh.coherent h hc hd hsees _ _ hhold
  · refine ⟨fun _ => hv, fun _ => ?_, fun _ hdirty hm => ?_⟩
    · rw [hdata, hh.key]
    · rw [hh.key, hclean hdirty hm]
  · intro hnv
    rw [hv] at hnv
    cases hnv

theorem Coherent.found (h : Coherent b s) (hp : s.use p = .locked i) (hv : (s.buf i).valid = true) :
    Coherent { b with holder := update b.holder (s.asked p) (some p) } (returned s p i) ∧
      b.holder (s.asked p) = none ∧ (s.buf i).data = b.contents (s.asked p) := by
  have hpl : (s.use p).lock = some i := by
    rw [hp]
    rfl
  have hkey := h.linked.asked p i (Use.slot_of_lock hpl)
  have hdata := (h.right i).data hv
  have hh : Held s (returned s p i) p i :=
    held_set hpl rfl (update_eq_self i s.buf).symm rfl rfl rfl rfl rfl rfl
  obtain ⟨hnone, hhold⟩ := h.holder_returned (t := returned s p i) hpl (by simp [hp, Use.Holds]) rfl
    trivial rfl
  refine ⟨hh.coherent_valid h (fun _ _ => rfl) (fun _ _ => rfl) ?_ hv hdata ?_ hhold, hnone,
    hdata.trans (by rw [hkey])⟩
  · simpa [Sees, returned, State.setUse, State.record] using hv
  · intro hd hm
    refine (h.right i).clean hv hd fun q hq => ?_
    by_cases hqp : q = p
    · rw [hqp, hp] at hq
      cases hq
    · exact hm q ((hh.use q hqp).trans hq)

theorem Coherent.read (h : Coherent b s) (hp : s.use p = .reading i) :
    Coherent { b with holder := update b.holder (s.asked p) (some p) }
        (returned (s.setBuf i { s.buf i with data := s.disk (s.buf i).key, valid := true }) p i) ∧
      b.holder (s.asked p) = none ∧ s.disk (s.buf i).key = b.contents (s.asked p) := by
  have hpl : (s.use p).lock = some i := by
    rw [hp]
    rfl
  have hkey := h.linked.asked p i (Use.slot_of_lock hpl)
  have hinv : (s.buf i).valid = false := by
    have hs := h.sees p
    simpa only [Sees, hp] using hs
  have hdisk := h.disk_of_first (h.linked.first_of_slot (Use.slot_of_lock hpl)) hinv
  set x : Buf β := { s.buf i with data := s.disk (s.buf i).key, valid := true }
  have hbuf : (returned (s.setBuf i x) p i).buf i = x := update_self _ _ _
  have hh : Held s (returned (s.setBuf i x) p i) p i :=
    held_set hpl rfl rfl rfl rfl rfl rfl rfl rfl
  obtain ⟨hnone, hhold⟩ := h.holder_returned (t := returned (s.setBuf i x) p i) hpl
    (by simp [hp, Use.Holds]) rfl trivial rfl
  refine ⟨hh.coherent_valid h (fun _ _ => rfl) (fun _ _ => rfl) ?_ ?_ ?_ ?_ hhold, hnone,
    hdisk.trans (by rw [hkey])⟩
  · simp [Sees, returned, State.setUse, State.record, State.setBuf, x]
  · rw [hbuf]
  · rw [hbuf]
    exact hdisk
  · intro _ _
    rw [hbuf]
    rfl

theorem Coherent.written (h : Coherent b s) (hp : s.use p = .writing i) : Coherent b
      { (s.setBuf i { s.buf i with dirty := false, valid := true }).setUse p (.holding i false) with
        disk := update s.disk (s.buf i).key (s.buf i).data } := by
  have hpl : (s.use p).lock = some i := by
    rw [hp]
    rfl
  have hdirty : (s.buf i).dirty = true := by
    have hs := h.sees p
    simpa only [Sees, hp] using hs
  set x : Buf β := { s.buf i with dirty := false, valid := true }
  have hself : update s.buf i x i = x := update_self _ _ _
  refine Held.coherent_valid (held_set hpl rfl rfl rfl rfl rfl rfl rfl rfl) h (fun _ _ => rfl)
    (fun k hk => update_of_ne hk _ _) ?_ ?_ ?_ ?_ ?_
  · simp [Sees, State.setUse, State.setBuf, x]
  · exact congrArg Buf.valid hself
  · exact (congrArg Buf.data hself).trans ((h.right i).data (h.valid_of_dirty hdirty))
  · exact fun _ _ => (update_self _ _ _).trans (congrArg Buf.data hself).symm
  · exact h.holder_setUse rfl rfl (by simp [hp, Use.Holds])

omit [DecidableEq P] in
theorem Coherent.valid_of_holding {m : Bool} (h : Coherent b s) (hp : s.use p = .holding i m) :
    (s.buf i).valid = true := by
  have hs := h.sees p
  simpa only [Sees, hp] using hs

theorem Coherent.modify {m : Bool} {y : β} (h : Coherent b s) (hp : s.use p = .holding i m) :
    Coherent { b with contents := update b.contents (s.asked p) y }
        (((s.setBuf i { s.buf i with data := y }).setUse p (.holding i true)).record
          (.modify p (s.asked p) y)) ∧ b.holder (s.asked p) = some p := by
  have hpl : (s.use p).lock = some i := by
    rw [hp]
    rfl
  have hkey := h.linked.asked p i (Use.slot_of_lock hpl)
  have hv := h.valid_of_holding hp
  have hself : update s.buf i { s.buf i with data := y } i = { s.buf i with data := y } :=
    update_self _ _ _
  constructor
  · refine Held.coherent_valid (held_set hpl rfl rfl rfl rfl rfl rfl rfl rfl) h ?_ (fun _ _ => rfl)
      ?_ ?_ ?_ ?_ ?_
    · intro k hk
      exact update_of_ne (by rwa [← hkey]) _ _
    · simpa [Sees, State.setUse, State.setBuf, State.record] using hv
    · exact (congrArg Buf.valid hself).trans hv
    · refine (congrArg Buf.data hself).trans ?_
      rw [hkey]
      exact (update_self (s.asked p) y b.contents).symm
    · intro _ hm
      exact absurd (update_self p _ s.use) (hm p)
    · change ∀ k q, b.holder k = some q ↔ _
      exact h.holder_setUse rfl rfl (by simp [hp, Use.Holds])
  · exact (h.holder _ p).mpr ⟨by rw [hp]; trivial, rfl⟩

theorem Coherent.mark {m : Bool} (h : Coherent b s) (hp : s.use p = .holding i m)
    (hu : u = .holding i false ∨ u = .writing i) :
    Coherent b ((s.setBuf i { s.buf i with dirty := true }).setUse p u) := by
  have hpl : (s.use p).lock = some i := by
    rw [hp]
    rfl
  have hul : u.lock = some i := by
    rcases hu with rfl | rfl <;> rfl
  have hv := h.valid_of_holding hp
  have hself : update s.buf i { s.buf i with dirty := true } i =
      { s.buf i with dirty := true } := update_self _ _ _
  refine Held.coherent_valid (held_set hpl hul rfl rfl rfl rfl rfl rfl rfl) h (fun _ _ => rfl)
    (fun _ _ => rfl) ?_ ?_ ?_ ?_ ?_
  · rcases hu with rfl | rfl
    · simpa [Sees, State.setUse, State.setBuf] using hv
    · simp [Sees, State.setUse, State.setBuf]
  · exact (congrArg Buf.valid hself).trans hv
  · exact (congrArg Buf.data hself).trans ((h.right i).data hv)
  · intro hd _
    have := (congrArg Buf.dirty hself).symm.trans hd
    cases this
  · refine h.holder_setUse rfl rfl ?_
    rcases hu with rfl | rfl <;> simp [hp, Use.Holds]

omit [DecidableEq P] in
theorem Coherent.congr (h : Coherent b s) (hbuf : t.buf = s.buf) (hord : t.order = s.order)
    (hlock : t.lock = s.lock) (huse : t.use = s.use) (hasked : t.asked = s.asked)
    (hdisk : t.disk = s.disk) : Coherent b t := by
  obtain ⟨⟩ := s
  obtain ⟨⟩ := t
  cases hbuf
  cases hord
  cases hlock
  cases huse
  cases hasked
  cases hdisk
  exact ⟨⟨h.linked.order, h.linked.refs, h.linked.lock, h.linked.asked, h.linked.first⟩, h.sees,
    fun i => ⟨(h.right i).dirty, (h.right i).data, (h.right i).clean⟩, h.absent, h.holder⟩

section Refinement

variable {P β : Type*} [DecidableEq P] [DecidableEq β] {s t : State P β} {b : BlockStore P β}
  {e : Event P β}

theorem Coherent.step (h : Coherent b s) (he : Bio.step s e = some t) :
    ∃ c, Coherent c t ∧ ((t.calls = s.calls ∧ c = b) ∨
      ∃ r, t.calls = s.calls ++ [r] ∧ BlockStore.step b r = some c) := by
  cases h.moves he with
  | hit hp hc => exact ⟨b, h.hit hp hc, .inl ⟨rfl, rfl⟩⟩
  | recycle hp hc hi => exact ⟨b, h.recycle hp hc hi, .inl ⟨rfl, rfl⟩⟩
  | acquire hp hl => exact ⟨b, h.acquire hp hl, .inl ⟨rfl, rfl⟩⟩
  | miss hp hv => exact ⟨b, h.miss hp hv, .inl ⟨rfl, rfl⟩⟩
  | found hp hv =>
    obtain ⟨hc, hnone, hdata⟩ := h.found hp hv
    exact ⟨_, hc, .inr ⟨_, rfl, if_pos ⟨hnone, hdata⟩⟩⟩
  | @read p i hp =>
    obtain ⟨hc, hnone, hdata⟩ := h.read hp
    refine ⟨_, hc, .inr ⟨_, rfl, if_pos ⟨hnone, ?_⟩⟩⟩
    exact (congrArg Buf.data (update_self i _ s.buf)).trans hdata
  | written hp => exact ⟨b, h.written hp, .inl ⟨rfl, rfl⟩⟩
  | modify hp =>
    obtain ⟨hc, hsome⟩ := h.modify hp
    exact ⟨_, hc, .inr ⟨_, rfl, if_pos hsome⟩⟩
  | logWrite hp =>
    exact ⟨b, (h.mark hp (.inl rfl)).congr rfl rfl rfl rfl rfl rfl, .inl ⟨rfl, rfl⟩⟩
  | bwrite hp => exact ⟨b, h.mark hp (.inr rfl), .inl ⟨rfl, rfl⟩⟩
  | @brelse p i hp =>
    refine ⟨_, h.brelse hp, .inr ⟨_, rfl, if_pos ?_⟩⟩
    exact (h.holder _ p).mpr ⟨by rw [hp]; trivial, rfl⟩
  | @unref p i hp =>
    refine ⟨b, h.unref hp, .inl ⟨?_, rfl⟩⟩
    change (Bio.unref s i).calls = s.calls
    unfold Bio.unref
    split <;> rfl
  | log hg he => exact ⟨b, h.congr rfl rfl rfl rfl rfl rfl, .inl ⟨rfl, rfl⟩⟩

def Tracks (disk : Addr → β) (b : BlockStore P β) (s : State P β) : Prop :=
  Runs.exec BlockStore.step (.new disk) s.calls = some b ∧ Coherent b s

theorem Tracks.step {disk : Addr → β} (h : Tracks disk b s) (he : Bio.step s e = some t) :
    ∃ c, Tracks disk c t := by
  obtain ⟨c, hc, ⟨hcalls, rfl⟩ | ⟨r, hcalls, hr⟩⟩ := h.2.step he
  · refine ⟨c, ?_, hc⟩
    rw [hcalls]
    exact h.1
  · refine ⟨c, ?_, hc⟩
    rw [hcalls, Runs.exec_append]
    exact ⟨b, h.1, (Runs.exec_cons _).mpr ⟨c, hr, rfl⟩⟩

theorem tracks_run {zero : β} {log : RedoLog.Log} {disk : Addr → β} {es : List (Event P β)}
    (hrun : Runs.exec Bio.step (binit zero log disk) es = some s) : ∃ b, Tracks disk b s := by
  refine Runs.exec_invariant Bio.step (I := fun s => ∃ b, Tracks disk b s) ?_
    ⟨_, rfl, binit_coherent zero log disk⟩ hrun
  rintro s e t ⟨b, hb⟩ he
  exact hb.step he

end Refinement

end Xv6.Bio
