import Xv6.Bio.Coherence

/-!
# Logged blocks stay in the cache

`log_write` sets `B_DIRTY`, so that `bget` does not recycle the buffer; only `iderw` clears the
flag, and it writes the block home.
-/

namespace Xv6.Bio

open Lib
open Function (update_self update_of_ne)

variable {P β : Type*} [DecidableEq P] {s t : State P β} {b : BlockStore P β} {e : Event P β}
  {p : P} {i j : Slot} {k : Addr}

/-- `bwrite` is not called for a block that is logged and not yet committed. -/
def SparesLogged (s : State P β) : Event P β → Prop
  | .bwrite p =>
    match s.use p with
    | .holding i _ => (s.buf i).key ∉ s.logged
    | _ => True
  | _ => True

instance (s : State P β) (e : Event P β) : Decidable (SparesLogged s e) := by
  unfold SparesLogged
  split
  · split <;> infer_instance
  · infer_instance

structure Pinned (s : State P β) : Prop where
  dirty : ∀ k ∈ s.logged, ∃ i, (s.buf i).key = k ∧ (s.buf i).dirty = true
  spared : ∀ p i, s.use p = .writing i → (s.buf i).key ∉ s.logged

omit [DecidableEq P] in
theorem binit_pinned (zero : β) (log : RedoLog.Log) (disk : Addr → β) :
    Pinned (binit zero log disk : State P β) :=
  ⟨nofun, nofun⟩

def Kept (s t : State P β) (i : Slot) : Prop :=
  (t.buf i).key = (s.buf i).key ∧ ((s.buf i).dirty = true → (t.buf i).dirty = true)

omit [DecidableEq P] in
theorem Kept.other {x : Buf β} (hbuf : t.buf = Function.update s.buf i x) (hj : j ≠ i) : Kept s t j := by
  unfold Kept
  rw [hbuf, update_of_ne hj]
  exact ⟨rfl, id⟩

omit [DecidableEq P] in
theorem Kept.update {x : Buf β} (hbuf : t.buf = Function.update s.buf i x)
    (hk : x.key = (s.buf i).key) (hd : (s.buf i).dirty = true → x.dirty = true) (j : Slot) :
    Kept s t j := by
  by_cases hj : j = i
  · unfold Kept
    rw [hbuf, hj, update_self]
    exact ⟨hk, hd⟩
  · exact .other hbuf hj

theorem Moves.kept (h : Moves s e t) (hd : (s.buf j).dirty = true) :
    (t.buf j).key = (s.buf j).key ∧ ((t.buf j).dirty = true ∨ ∃ p, s.use p = .writing j) := by
  have hkept : ∀ {t : State P β}, Kept s t j →
      (t.buf j).key = (s.buf j).key ∧ ((t.buf j).dirty = true ∨ ∃ p, s.use p = .writing j) :=
    fun hk => ⟨hk.1, .inl (hk.2 hd)⟩
  cases h with
  | @hit p k i hp hc =>
    exact hkept (Kept.update (x := { s.buf i with refcnt := (s.buf i).refcnt + 1 }) rfl rfl id j)
  | @recycle p k i hp hc hi =>
    have hj : j ≠ i := by
      rintro rfl
      rw [(unused_eq_some hi).2] at hd
      cases hd
    exact hkept (Kept.other rfl hj)
  | acquire hp hl | miss hp hv | found hp hv | brelse hp | log hg he => exact hkept ⟨rfl, id⟩
  | @read p i hp =>
    exact hkept (Kept.update (x := { s.buf i with data := s.disk (s.buf i).key, valid := true }) rfl
      rfl id j)
  | @written p i hp =>
    by_cases hj : j = i
    · subst hj
      have hb := update_self j { s.buf j with dirty := false, valid := true } s.buf
      have hkey := congrArg Buf.key hb
      exact ⟨hkey, .inr ⟨p, hp⟩⟩
    · exact hkept (Kept.other rfl hj)
  | @modify p i m y hp => exact hkept (Kept.update (x := { s.buf i with data := y }) rfl rfl id j)
  | @logWrite p i m l hp | @bwrite p i m hp =>
    exact hkept (Kept.update (x := { s.buf i with dirty := true }) rfl rfl (fun _ => rfl) j)
  | @unref p i hp =>
    refine hkept (Kept.update (i := i) (x := { s.buf i with refcnt := (s.buf i).refcnt - 1 }) ?_ rfl id j)
    change (Bio.unref s i).buf = _
    unfold Bio.unref
    split <;> rfl

theorem Moves.disk (h : Moves s e t) (k : Addr) :
    t.disk k = s.disk k ∨ ∃ p i, s.use p = .writing i ∧ (s.buf i).key = k := by
  cases h with
  | @written p i hp =>
    by_cases hk : k = (s.buf i).key
    · exact .inr ⟨p, i, hp, hk.symm⟩
    · exact .inl (update_of_ne hk _ _)
  | @unref p i hp =>
    left
    change (Bio.unref s i).disk k = _
    unfold Bio.unref
    split <;> rfl
  | _ => exact .inl rfl

theorem Moves.logged (h : Moves s e t) (hk : k ∈ t.logged) : k ∈ s.logged ∨
    ∃ p i m, s.use p = .holding i m ∧ (s.buf i).key = k ∧
      (t.buf i).key = k ∧ (t.buf i).dirty = true := by
  cases h with
  | @logWrite p i m l hp =>
    rcases List.mem_cons.mp hk with rfl | hk
    · have hb := update_self i { s.buf i with dirty := true } s.buf
      have hkey := congrArg Buf.key hb
      have hdirty := congrArg Buf.dirty hb
      exact .inr ⟨p, i, m, hp, rfl, hkey, hdirty⟩
    · exact .inl hk
  | @unref p i hp =>
    left
    have hl : (Bio.unref s i).logged = s.logged := by
      unfold Bio.unref
      split <;> rfl
    rw [← hl]
    exact hk
  | log hg he => exact .inl (hg k hk)
  | _ => exact .inl hk

theorem Moves.writing {q : P} (h : Moves s e t) (hq : t.use q = .writing j) :
    s.use q = .writing j ∨ (e = .bwrite q ∧ ∃ m, s.use q = .holding j m) := by
  have hother : ∀ {p : P} {u : Use}, Function.update s.use p u q = .writing j → u ≠ .writing j →
      s.use q = .writing j := by
    intro p u h hu
    by_cases hqp : q = p
    · rw [hqp, update_self] at h
      exact absurd h hu
    · rwa [update_of_ne hqp] at h
  cases h with
  | @bwrite p i m hp =>
    by_cases hqp : q = p
    · subst hqp
      have hi : Use.writing i = .writing j := (update_self q _ s.use).symm.trans hq
      cases hi
      exact .inr ⟨rfl, m, hp⟩
    · exact .inl ((update_of_ne hqp _ _).symm.trans hq)
  | log hg he => exact .inl hq
  | @unref p i hp =>
    left
    have hu : (Bio.unref s i).use = s.use := by
      unfold Bio.unref
      split <;> rfl
    have hq' : Function.update (Bio.unref s i).use p .idle q = .writing j := hq
    rw [hu] at hq'
    exact hother hq' nofun
  | _ => exact .inl (hother hq nofun)

theorem Pinned.step (h : Pinned s) (hb : Coherent b s) (hC : SparesLogged s e)
    (he : Bio.step s e = some t) : Pinned t ∧ ∀ k ∈ s.logged, t.disk k = s.disk k ∧
      ∃ i, (s.buf i).key = k ∧ (s.buf i).dirty = true ∧ (t.buf i).key = k := by
  have hm := hb.moves he
  refine ⟨⟨fun k hk => ?_, fun p i hp hk => ?_⟩, fun k hk => ⟨?_, ?_⟩⟩
  · rcases hm.logged hk with hk | ⟨p, i, m, -, -, hkey, hd⟩
    · obtain ⟨i, rfl, hd⟩ := h.dirty k hk
      obtain ⟨hkey, hd' | ⟨p, hp⟩⟩ := hm.kept hd
      · exact ⟨i, hkey, hd'⟩
      · exact absurd hk (h.spared p i hp)
    · exact ⟨i, hkey, hd⟩
  · rcases hm.writing hp with hw | ⟨rfl, m, hw⟩
    · have hsees := hb.sees p
      simp only [Sees, hw] at hsees
      rw [(hm.kept hsees).1] at hk
      rcases hm.logged hk with hk | ⟨q, j, m, hq, hkey, -⟩
      · exact h.spared p i hw hk
      · -- `log_write` needs the lock that `p` has
        have hpi : (s.use p).lock = some i := by rw [hw]; rfl
        have hqj : (s.use q).lock = some j := by rw [hq]; rfl
        have hasked : s.asked p = s.asked q := by
          rw [← hb.linked.asked p i (Use.slot_of_lock hpi),
            ← hb.linked.asked q j (Use.slot_of_lock hqj), hkey]
        rw [← hb.linked.eq_of_lock hpi hqj hasked, hw] at hq
        cases hq
    · simp only [SparesLogged, hw] at hC
      simp only [Bio.step, hw] at he
      cases he
      have hkey := congrArg Buf.key (update_self i { s.buf i with dirty := true } s.buf)
      exact hC (hkey ▸ hk)
  · rcases hm.disk k with hd | ⟨p, i, hp, rfl⟩
    · exact hd
    · exact absurd hk (h.spared p i hp)
  · obtain ⟨i, rfl, hd⟩ := h.dirty k hk
    exact ⟨i, rfl, hd, (hm.kept hd).1⟩

theorem pinned_run [DecidableEq β] {zero : β} {log : RedoLog.Log} {disk : Addr → β}
    {es : List (Event P β)} (hC : Runs.Meets step SparesLogged (binit zero log disk) es)
    (hrun : Runs.exec step (binit zero log disk) es = some s) : Pinned s := by
  have hinv : (∃ b, Tracks disk b s) ∧ Pinned s := by
    refine Runs.exec_preserves step (C := SparesLogged) (I := fun s => (∃ b, Tracks disk b s) ∧ Pinned s)
      ?_ ⟨⟨_, rfl, binit_coherent zero log disk⟩, binit_pinned zero log disk⟩ hC hrun
    rintro s e t ⟨⟨b, hb⟩, hp⟩ hC he
    exact ⟨hb.step he, (hp.step hb.2 hC he).1⟩
  exact hinv.2

/-- The cache behaves like a disk with a lock for each block, and keeps what is logged. -/
theorem cache_refines_block_store [DecidableEq β] (zero : β) (log : RedoLog.Log) (disk : Addr → β)
    (es : List (Event P β)) (s : State P β)
    (hrun : Runs.exec step (binit zero log disk) es = some s) :
    (∃ b, Runs.exec BlockStore.step (.new disk) s.calls = some b ∧
      (∀ p, (s.use p).Holds → b.holder (s.asked p) = some p) ∧
      (∀ p q, (s.use p).Holds → (s.use q).Holds → s.asked p = s.asked q → p = q) ∧
      ∀ p i m, s.use p = .holding i m →
        (s.buf i).key = s.asked p ∧ (s.buf i).data = b.contents (s.asked p)) ∧
    (Runs.Meets step SparesLogged (binit zero log disk) es →
      ∀ e t, SparesLogged s e → step s e = some t →
        ∀ k ∈ s.logged, t.disk k = s.disk k ∧
          ∃ i, (s.buf i).key = k ∧ (s.buf i).dirty = true ∧ (t.buf i).key = k) := by
  obtain ⟨b, hcalls, hb⟩ := tracks_run hrun
  have hholder : ∀ p, (s.use p).Holds → b.holder (s.asked p) = some p := fun p hp =>
    (hb.holder _ p).mpr ⟨hp, rfl⟩
  refine ⟨⟨b, hcalls, hholder, fun p q hp hq hk => ?_, fun p i m hp => ?_⟩, fun hC e t he hstep => ?_⟩
  · have h1 := hholder p hp
    rw [hk, hholder q hq] at h1
    exact (Option.some.inj h1).symm
  · have hkey := hb.linked.asked p i (by rw [hp]; rfl)
    refine ⟨hkey, ?_⟩
    rw [(hb.right i).data (hb.valid_of_holding hp), hkey]
  · exact ((pinned_run hC hrun).step hb he hstep).2

def logged (p : Bool) (k : Addr) (x : ℕ) : List (Event Bool ℕ) :=
  [.beginOp, .bget p k, .acquiresleep p, .bread p, .iderw p, .modify p x, .logWrite p, .brelse p, .unref p]

def writtenThrough (p : Bool) (k : Addr) (x : ℕ) : List (Event Bool ℕ) :=
  [.bget p k, .acquiresleep p, .bread p, .modify p x, .bwrite p, .iderw p]

def mkfsLog : RedoLog.Log := ⟨2, LOGSIZE, 0, []⟩

theorem cache_refines_block_store_logged : ∃ s,
    Runs.exec step (binit 0 mkfsLog fun _ => 0) (logged false ⟨1, 40⟩ 7) = some s ∧
      (∃ b, Runs.exec BlockStore.step (.new fun _ => 0) s.calls = some b) ∧
      ∀ e t, SparesLogged s e → step s e = some t → ∀ k ∈ s.logged, t.disk k = s.disk k := by
  have hrun : (Runs.exec step (binit 0 mkfsLog fun _ => 0) (logged false ⟨1, 40⟩ 7)).isSome = true := by
    decide +kernel
  have hC : Runs.Meets step SparesLogged (binit 0 mkfsLog fun _ => 0) (logged false ⟨1, 40⟩ 7) := by
    decide +kernel
  obtain ⟨s, hs⟩ := Option.isSome_iff_exists.mp hrun
  obtain ⟨⟨b, hb, -⟩, hpin⟩ := cache_refines_block_store 0 mkfsLog (fun _ => 0) _ s hs
  exact ⟨s, hs, ⟨b, hb⟩, fun e t he ht k hk => (hpin hC e t he ht k hk).1⟩

theorem bwrite_writes_logged_block_home : ∃ s,
    Runs.exec step (binit 0 mkfsLog fun _ => 0)
        (logged false ⟨1, 40⟩ 7 ++ writtenThrough true ⟨1, 40⟩ 8) = some s ∧
      ⟨1, 40⟩ ∈ s.logged ∧ s.committing = false ∧ s.disk ⟨1, 40⟩ = 8 ∧
      ∀ i, (s.buf i).dirty = false := by
  change ∃ s ∈ Runs.exec step _ _, _
  decide +kernel

end Xv6.Bio
