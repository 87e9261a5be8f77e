import Xv6.Lib.Counting
import Xv6.Log.GroupCommit

/-!
# Reservation of log space

`begin_op` admits an operation when the blocks in the log, and `MAXOPBLOCKS` for every operation in
progress and the new one, fit into `LOGSIZE`.
-/

namespace Xv6.GroupCommit
open Lib RedoLog

variable {P : Type*} [DecidableEq P] {s t : State P} {p : P} {b : ℕ}

def opBlocks (s : State P) (p : P) : Finset ℕ :=
  ((s.writes.filter fun w => w.proc = p ∧ w.op = s.op p).map Write.block).toFinset

def WithinReservation (s : State P) : Event P → Prop
  | .logWrite p b => (insert b (opBlocks s p)).card ≤ MAXOPBLOCKS
  | _ => True

def LeavesSlack (s : State P) : Event P → Prop
  | .beginOp _ => s.committing = false →
      (s.lh.length : ℤ) + (s.outstanding + 1) * MAXOPBLOCKS ≤ LOGSIZE →
      (s.lh.length : ℤ) + (s.outstanding + 1) * MAXOPBLOCKS ≤ LOGSIZE - 2
  | _ => True

instance (s : State P) (e : Event P) : Decidable (WithinReservation s e) := by
  unfold WithinReservation
  split <;> infer_instance

instance (s : State P) (e : Event P) : Decidable (LeavesSlack s e) := by
  unfold LeavesSlack
  split <;> infer_instance

theorem mem_opBlocks : b ∈ opBlocks s p ↔ ∃ w ∈ s.writes, w.proc = p ∧ w.op = s.op p ∧ w.block = b := by
  simp only [opBlocks, List.mem_toFinset, List.mem_map, List.mem_filter, decide_eq_true_eq]
  constructor
  · rintro ⟨w, ⟨hw, h1, h2⟩, h3⟩
    exact ⟨w, hw, h1, h2, h3⟩
  · rintro ⟨w, hw, h1, h2, h3⟩
    exact ⟨w, ⟨hw, h1, h2⟩, h3⟩

theorem opBlocks_congr (hw : t.writes = s.writes) (hop : t.op p = s.op p) :
    opBlocks t p = opBlocks s p := by
  simp only [opBlocks, hw, hop]

theorem Hist.opBlocks_subset (h : Hist s) (hp : (s.pc p).InOp) : ∀ b ∈ opBlocks s p, b ∈ s.lh := by
  intro b hb
  obtain ⟨w, hw, rfl, hop, rfl⟩ := mem_opBlocks.mp hb
  exact h.logged w hw (h.current w hw hp hop)

theorem opBlocks_append (s : State P) (p q : P) (b : ℕ) :
    opBlocks (logWriteAppend s p b) q = if q = p then insert b (opBlocks s p) else opBlocks s q := by
  ext x
  have hop : (logWriteAppend s p b).op = s.op := rfl
  have hw : (logWriteAppend s p b).writes = ⟨p, s.op p, s.commits.length, b⟩ :: s.writes := rfl
  rw [mem_opBlocks, hop, hw]
  simp only [List.mem_cons, exists_eq_or_imp]
  split_ifs with hq
  · subst hq
    rw [Finset.mem_insert, mem_opBlocks]
    simp only [true_and, eq_comm]
  · rw [mem_opBlocks]
    simp only [Ne.symm hq, false_and, false_or]

structure Reserved (s : State P) : Prop where
  fits : s.panic ≠ some .tooBig
  pending : ∀ p b, s.pc p = .logWrite b → (insert b (opBlocks s p)).card ≤ MAXOPBLOCKS
  room : ∀ S : Finset P, (∀ p ∈ S, (s.pc p).InOp) →
    s.lh.length + ∑ p ∈ S, (MAXOPBLOCKS - (opBlocks s p).card) ≤ LOGSIZE - 2

theorem Reserved.length_le (h : Reserved s) : s.lh.length ≤ LOGSIZE - 2 := by
  have := h.room ∅ (by simp)
  rwa [Finset.sum_empty, Nat.add_zero] at this

theorem Reserved.initial : Reserved (initial : State P) := by
  refine ⟨by simp [GroupCommit.initial], by simp [GroupCommit.initial], fun S hS => ?_⟩
  have hnone : S = ∅ := Finset.eq_empty_of_forall_notMem fun p hp => by
    have := hS p hp
    simp [GroupCommit.initial, Pc.InOp] at this
  rw [hnone, Finset.sum_empty]
  exact Nat.zero_le _

section

variable (h : Reserved s)
include h

theorem Reserved.mono (hlh : t.lh.length ≤ s.lh.length) (hin : ∀ p, (t.pc p).InOp → (s.pc p).InOp)
    (hpend : ∀ p b, t.pc p = .logWrite b → s.pc p = .logWrite b)
    (hw : t.writes = s.writes) (hop : t.op = s.op) (hp : t.panic ≠ some .tooBig) : Reserved t := by
  have hlog : ∀ p, opBlocks t p = opBlocks s p := fun p => opBlocks_congr hw (by rw [hop])
  refine ⟨hp, fun p b hb => ?_, fun S hS => ?_⟩
  · rw [hlog]
    exact h.pending p b (hpend p b hb)
  · have hroom := h.room S fun p hp => hin p (hS p hp)
    simp only [hlog]
    omega

theorem Reserved.same (hpc : t.pc = s.pc) (hlh : t.lh.length ≤ s.lh.length)
    (hw : t.writes = s.writes) (hop : t.op = s.op) (hp : t.panic ≠ some .tooBig) : Reserved t :=
  h.mono hlh (fun _ hq => hpc ▸ hq) (fun _ _ hb => hpc ▸ hb) hw hop hp

theorem Reserved.goto (pc : Pc) (hin : pc.InOp → (s.pc p).InOp)
    (hpend : ∀ b, pc ≠ .logWrite b) : Reserved (s.goto p pc) := by
  exact h.mono le_rfl (goto_elim (fun q c => c.InOp → (s.pc q).InOp) hin fun _ _ hq => hq)
    (goto_elim (fun q c => ∀ b, c = .logWrite b → s.pc q = .logWrite b)
      (fun b hb => absurd hb (hpend b)) fun _ _ _ hb => hb) rfl rfl h.fits

theorem Reserved.wakeup : Reserved s.wakeup := by
  refine h.mono le_rfl (fun q hq => ?_) (fun q b hb => ?_) rfl rfl h.fits
  · rwa [wakeup_inOp] at hq
  · by_cases hq : s.pc q = .sleeping
    · simp [State.wakeup, hq] at hb
    · simpa [State.wakeup, hq] using hb

theorem Reserved.enter (hx : Excl s) (hp : s.pc p = .beginOp)
    (hroom : (s.lh.length : ℤ) + (s.outstanding + 1) * MAXOPBLOCKS ≤ LOGSIZE - 2) :
    Reserved { s.goto p .inOp with
      outstanding := s.outstanding + 1
      op := Function.update s.op p (s.op p + 1) } := by
  set t : State P := { s.goto p .inOp with
    outstanding := s.outstanding + 1
    op := Function.update s.op p (s.op p + 1) }
  have hpc : ∀ q, q ≠ p → t.pc q = s.pc q := fun q hq => (goto_pc s p q .inOp).trans (if_neg hq)
  have hpp : t.pc p = .inOp := (goto_pc s p p .inOp).trans (if_pos rfl)
  have hlog : ∀ q, q ≠ p → opBlocks t q = opBlocks s q := fun q hq =>
    opBlocks_congr rfl (Function.update_of_ne hq _ _)
  refine ⟨h.fits, fun q b hb => ?_, fun S hS => ?_⟩
  · have hqp : q ≠ p := fun heq => by
      rw [heq, hpp] at hb
      cases hb
    rw [hlog q hqp]
    exact h.pending q b (hpc q hqp ▸ hb)
  · -- The others are among the operations that `outstanding` counts.
    obtain ⟨k, hcard, A, hA, rfl⟩ := hx.count
    have hpA : p ∉ A := by
      rw [hA]
      simp [hp, Pc.InOp]
    have hsub : S ⊆ insert p A := by
      intro q hq
      by_cases hqp : q = p
      · rw [hqp]
        exact Finset.mem_insert_self p A
      · have := hS q hq
        rw [hpc q hqp] at this
        exact Finset.mem_insert_of_mem ((hA q).mpr this)
    have hle : ∑ q ∈ S, (MAXOPBLOCKS - (opBlocks t q).card) ≤ (A.card + 1) * MAXOPBLOCKS :=
      calc ∑ q ∈ S, (MAXOPBLOCKS - (opBlocks t q).card)
          ≤ ∑ _q ∈ S, MAXOPBLOCKS := Finset.sum_le_sum fun q _ => Nat.sub_le _ _
        _ = S.card * MAXOPBLOCKS := by rw [Finset.sum_const, smul_eq_mul]
        _ ≤ (A.card + 1) * MAXOPBLOCKS := by
          rw [← Finset.card_insert_of_notMem hpA]
          exact Nat.mul_le_mul_right _ (Finset.card_le_card hsub)
    change s.lh.length + _ ≤ _
    rw [hcard] at hroom
    simp only [MAXOPBLOCKS, LOGSIZE] at hroom hle ⊢
    omega

theorem Reserved.append (hh : Hist s) (hp : s.pc p = .logWrite b) :
    Reserved (logWriteAppend s p b) := by
  have hin : (s.pc p).InOp := by
    rw [hp]
    rfl
  have hpc : ∀ q, (logWriteAppend s p b).pc q = if q = p then .inOp else s.pc q :=
    fun q => goto_pc s p q .inOp
  have hpend := h.pending p b hp
  refine ⟨h.fits, fun q b' hb' => ?_, fun S hS => ?_⟩
  · rw [hpc] at hb'
    split_ifs at hb' with hq
    rw [opBlocks_append, if_neg hq]
    exact h.pending q b' hb'
  · have hroom := h.room (insert p S) fun q hq => by
      rcases Finset.mem_insert.mp hq with rfl | hq
      · exact hin
      · by_cases hqp : q = p
        · rw [hqp]
          exact hin
        · simpa [hpc, hqp] using hS q hq
    have hlen := length_absorb_le s.lh b
    -- What the operation may still log shrinks with the room, unless the block is there.
    have hterm : (if b ∈ s.lh then 0 else 1) + (MAXOPBLOCKS - (insert b (opBlocks s p)).card) ≤
        MAXOPBLOCKS - (opBlocks s p).card := by
      have hgrow : (opBlocks s p).card ≤ (insert b (opBlocks s p)).card :=
        Finset.card_le_card (Finset.subset_insert _ _)
      split_ifs with hb
      · omega
      · have hnew : b ∉ opBlocks s p := fun hmem => hb (hh.opBlocks_subset hin b hmem)
        rw [Finset.card_insert_of_notMem hnew] at hpend ⊢
        omega
    have hself : opBlocks (logWriteAppend s p b) p = insert b (opBlocks s p) := by
      rw [opBlocks_append, if_pos rfl]
    have hsum := sum_change (f := fun q => MAXOPBLOCKS - (opBlocks s q).card)
      (g := fun q => MAXOPBLOCKS - (opBlocks (logWriteAppend s p b) q).card)
      (Finset.mem_insert_self p S) fun q _ hq => by simp only [opBlocks_append, if_neg hq]
    have hle := Finset.sum_le_sum_of_subset (Finset.subset_insert p S)
      (f := fun q => MAXOPBLOCKS - (opBlocks (logWriteAppend s p b) q).card)
    simp only [hself] at hsum
    change (absorb s.lh b).length + _ ≤ _
    omega

theorem Reserved.step {e : Event P} (hx : Excl s) (hh : Hist s)
    (hw : WithinReservation s e) (hl : LeavesSlack s e) (hstep : step LOGSIZE s e = some t) :
    Reserved t := by
  unfold GroupCommit.step at hstep
  split at hstep
  · cases hstep
  cases e with
  | call p | spurious p =>
    simp only [] at hstep
    split_ifs at hstep with hp
    cases hstep
    exact h.goto _ (by simp [Pc.InOp]) (by simp)
  | beginOp p =>
    simp only [beginOp] at hstep
    split_ifs at hstep with hp hc hfull <;> cases hstep
    · exact h.goto _ (by simp [Pc.InOp]) (by simp)
    · exact h.goto _ (by simp [Pc.InOp]) (by simp)
    · exact h.enter hx hp (hl (by simpa using hc) (not_lt.mp hfull))
  | logWrite p b =>
    have hlen := h.length_le
    simp only [logWriteTest] at hstep
    split_ifs at hstep with hp hbig hout
    · simp only [LOGSIZE, MAXOPBLOCKS] at hbig hlen
      omega
    · cases hstep
      exact h.same rfl le_rfl rfl rfl (by simp)
    · cases hstep
      have hpc := goto_pc s p
      refine ⟨h.fits, fun q b' hb' => ?_, fun S hS => h.room S fun q hq => ?_⟩
      · rw [hpc] at hb'
        split_ifs at hb' with hq
        · cases hb'
          rw [hq]
          exact hw
        · exact h.pending q b' hb'
      · by_cases hqp : q = p
        · rw [hqp, hp]
          rfl
        · simpa [hqp] using hS q hq
  | append p =>
    simp only [] at hstep
    split at hstep
    next b hp =>
      cases hstep
      exact h.append hh hp
    · cases hstep
  | endOp p =>
    simp only [endOp] at hstep
    split_ifs at hstep with hp hc hlast <;> cases hstep
    · exact h.same rfl le_rfl rfl rfl (by simp)
    · exact (h.goto (.commit .test) (by simp [Pc.InOp]) (by simp)).same rfl le_rfl rfl rfl
        h.fits
    · exact (h.goto .idle (by simp [Pc.InOp]) (by simp)).wakeup.same rfl le_rfl rfl rfl
        h.fits
  | commit p =>
    simp only [] at hstep
    split at hstep
    next stage hp =>
      cases hstep
      have hgoto : ∀ pc : Pc, pc.InOp = false → Reserved (s.goto p pc) := fun pc hpc =>
        h.goto pc (fun hin => by simp [hpc] at hin) fun b hb => by simp [hb, Pc.InOp] at hpc
      cases stage with
      | test =>
        simp only [commitStep]
        split_ifs
        · exact hgoto _ rfl
        · exact (hgoto .committed rfl).same rfl le_rfl rfl rfl h.fits
      | writeLog tail | installTrans tail =>
        simp only [commitStep]
        split_ifs
        · exact hgoto _ rfl
        · exact hgoto _ rfl
      | writeHead =>
        exact (hgoto (.commit (.installTrans 0)) rfl).same rfl le_rfl rfl rfl h.fits
      | erase =>
        exact (hgoto .committed rfl).same rfl (Nat.zero_le _) rfl rfl h.fits
    · cases hstep
  | finish p =>
    simp only [] at hstep
    split_ifs at hstep with hp
    cases hstep
    exact (h.goto .idle (by simp [Pc.InOp]) (by simp)).wakeup.same rfl le_rfl rfl rfl h.fits

end

theorem log_never_full {es : List (Event P)}
    (hw : Runs.Meets (step LOGSIZE) WithinReservation initial es)
    (hl : Runs.Meets (step LOGSIZE) LeavesSlack initial es)
    (hrun : Runs.exec (step LOGSIZE) initial es = some s) :
    s.panic ≠ some .tooBig ∧ s.lh.length ≤ LOGSIZE - 1 := by
  have hinv : Excl s ∧ Hist s ∧ Reserved s := by
    refine Runs.exec_preserves (step LOGSIZE)
      (C := fun s e => WithinReservation s e ∧ LeavesSlack s e)
      (I := fun s => Excl s ∧ Hist s ∧ Reserved s) ?_
      ⟨Excl.initial, Hist.initial, Reserved.initial⟩ (.and _ hw hl) hrun
    rintro s e t ⟨hx, hh, h⟩ ⟨he, hs⟩ hstep
    exact ⟨hx.step (step_cases hstep), hh.step hx (step_cases hstep), h.step hx hh he hs hstep⟩
  have hlen := hinv.2.2.length_le
  exact ⟨hinv.2.2.fits, by omega⟩

theorem log_never_full_twoOps :
    ∃ s, Runs.exec (step LOGSIZE) initial twoOps = some s ∧ s.panic ≠ some .tooBig ∧
      s.lh.length ≤ LOGSIZE - 1 := by
  have hw : Runs.Meets (step LOGSIZE) WithinReservation initial twoOps := by decide
  have hl : Runs.Meets (step LOGSIZE) LeavesSlack initial twoOps := by decide
  exact ⟨_, rfl, log_never_full hw hl rfl⟩

def threeOps : List (Event (Fin 3)) :=
  (List.finRange 3).flatMap (fun p => [.call p, .beginOp p]) ++
    (List.range 29).flatMap (fun i =>
      [.logWrite (Fin.ofNat 3 (i / 10)) (60 + i), .append (Fin.ofNat 3 (i / 10))]) ++
    [.logWrite 2 89]

theorem threeOps_panics :
    ∃ s, Runs.exec (step LOGSIZE) initial threeOps = some s ∧
      Runs.Meets (step LOGSIZE) WithinReservation initial threeOps ∧ s.panic = some .tooBig := by
  change ∃ s ∈ Runs.exec _ _ _, _
  decide +kernel

def Crowded (s : State P) : Prop :=
  s.committing = true ∨ (LOGSIZE : ℤ) < s.lh.length + (s.outstanding + 1) * MAXOPBLOCKS

structure Awaits (s : State P) : Prop where
  crowded : ∀ p, s.pc p = .sleeping → Crowded s
  erased : ∀ p, s.pc p = .committed → s.lh = []
  drained : s.outstanding = 0 → s.committing = false → s.lh = []

theorem Awaits.goto (h : Awaits s) (p : P) (pc : Pc) (hsleep : pc = .sleeping → Crowded s)
    (hdone : pc = .committed → s.lh = []) : Awaits (s.goto p pc) := by
  refine ⟨fun q hq => ?_, fun q hq => ?_, h.drained⟩
  · rw [goto_pc] at hq
    split_ifs at hq
    · exact hsleep hq
    · exact h.crowded q hq
  · rw [goto_pc] at hq
    split_ifs at hq
    · exact hdone hq
    · exact h.erased q hq

omit [DecidableEq P] in
theorem wakeup_not_sleeping (s : State P) (q : P) : s.wakeup.pc q ≠ .sleeping := by
  simp only [State.wakeup]
  split_ifs with h
  · simp
  · exact h

theorem Awaits.step {size : ℕ} {e : Event P} (h : Awaits s) (hx : Excl s)
    (hstep : step size s e = some t) : Awaits t := by
  have hwake : ∀ p q, (s.goto p .idle).wakeup.pc q = .committed → s.lh = [] := by
    intro p q hq
    simp only [State.wakeup, goto_pc] at hq
    split_ifs at hq
    exact h.erased q hq
  have hcard := hx.count
  unfold GroupCommit.step at hstep
  split at hstep
  · cases hstep
  cases e with
  | call p | spurious p =>
    simp only at hstep
    split_ifs at hstep
    cases hstep
    exact h.goto p _ (by simp) (by simp)
  | beginOp p =>
    simp only [beginOp] at hstep
    split_ifs at hstep with hp hc hfull
    · cases hstep
      exact h.goto p _ (fun _ => .inl hc) (by simp)
    · cases hstep
      exact h.goto p _ (fun _ => .inr hfull) (by simp)
    · cases hstep
      obtain ⟨n, hn, -⟩ := hcard
      have hgo := h.goto p .inOp (by simp) (by simp)
      refine ⟨fun q hq => ?_, hgo.erased, fun h0 => ?_⟩
      · rcases hgo.crowded q hq with hcom | hlt
        · exact .inl hcom
        · simp only [State.goto] at hlt
          exact .inr (by simp only [State.goto]; omega)
      · change s.outstanding + 1 = 0 at h0
        omega
  | logWrite p b =>
    simp only [logWriteTest] at hstep
    split_ifs at hstep <;> cases hstep
    · exact ⟨h.crowded, h.erased, h.drained⟩
    · exact ⟨h.crowded, h.erased, h.drained⟩
    · exact h.goto p _ (by simp) (by simp)
  | append p =>
    simp only at hstep
    split at hstep
    next b hp =>
      cases hstep
      have hin : (s.pc p).InOp = true := by simp [hp, Pc.InOp]
      have hpos := hx.count.pos hin
      have hgo := h.goto p .inOp (by simp) (by simp)
      have hlen : s.lh.length ≤ (absorb s.lh b).length := by
        rw [absorb]
        split_ifs <;> simp
      refine ⟨fun q hq => ?_, fun q hq => ?_, fun h0 => absurd h0 hpos.ne'⟩
      · rcases hgo.crowded q hq with hcom | hlt
        · exact .inl hcom
        · refine .inr (lt_of_lt_of_le hlt ?_)
          change (s.lh.length : ℤ) + _ ≤ ((absorb s.lh b).length : ℤ) + (s.outstanding + 1) * _
          simp only [State.goto]
          omega
      · -- no operation runs while a process is in `commit`
        have hcom : (s.pc q).InCommit = true := by
          simp only [logWriteAppend, goto_pc] at hq
          split_ifs at hq
          rw [hq]
          rfl
        exact absurd hin (by rw [hx.notInOp (hx.committing q hcom)]; simp)
    · cases hstep
  | endOp p =>
    simp only [endOp] at hstep
    split_ifs at hstep with hp hc hlast
    · exact absurd (hx.notInOp hc p) (by simp [hp, Pc.InOp])
    · cases hstep
      have hgo := h.goto p (.commit .test) (by simp) (by simp)
      exact ⟨fun _ _ => .inl rfl, hgo.erased, by simp⟩
    · cases hstep
      exact ⟨fun q hq => absurd hq (wakeup_not_sleeping _ q), hwake p, fun h0 => absurd h0 hlast⟩
  | commit p =>
    simp only at hstep
    split at hstep
    next stage hp =>
      cases hstep
      have hcom : s.committing = true := hx.committing p (by simp [hp, Pc.InCommit])
      cases stage with
      | test =>
        simp only [commitStep]
        split_ifs with hn
        · exact h.goto p _ (by simp) (by simp)
        · have hnil : s.lh = [] := List.length_eq_zero_iff.mp (by omega)
          have hgo := h.goto p .committed (by simp) fun _ => hnil
          exact ⟨hgo.crowded, hgo.erased, hgo.drained⟩
      | writeLog tail | installTrans tail =>
        simp only [commitStep]
        split_ifs <;> exact h.goto p _ (by simp) (by simp)
      | writeHead =>
        have hgo := h.goto p (.commit (.installTrans 0)) (by simp) (by simp)
        exact ⟨hgo.crowded, hgo.erased, hgo.drained⟩
      | erase => exact ⟨fun _ _ => .inl hcom, fun _ _ => rfl, fun _ _ => rfl⟩
    · cases hstep
  | finish p =>
    simp only at hstep
    split_ifs at hstep with hp
    cases hstep
    exact ⟨fun q hq => absurd hq (wakeup_not_sleeping _ q), hwake p, fun _ _ => h.erased p hp⟩

theorem begin_op_sleeps_crowded {size : ℕ} {es : List (Event P)}
    (hrun : Runs.exec (step size) initial es = some s) :
    (∀ p, s.pc p = .sleeping → s.committing = true ∨
      (s.lh.length : ℤ) + (s.outstanding + 1) * MAXOPBLOCKS > LOGSIZE) ∧
    (s.outstanding = 0 → s.committing = false → s.lh = [] ∧ ∀ p, s.pc p ≠ .sleeping) := by
  have hinv : Excl s ∧ Awaits s := by
    refine Runs.exec_invariant (step size) (I := fun s => Excl s ∧ Awaits s) ?_
      ⟨Excl.initial, nofun, nofun, fun _ _ => rfl⟩ hrun
    rintro s e t ⟨hx, h⟩ hstep
    exact ⟨hx.step (step_cases hstep), h.step hx hstep⟩
  refine ⟨hinv.2.crowded, fun h0 hc => ?_⟩
  have hnil := hinv.2.drained h0 hc
  refine ⟨hnil, fun p hp => ?_⟩
  rcases hinv.2.crowded p hp with hcom | hlt
  · simp [hc] at hcom
  · simp [hnil, h0, LOGSIZE, MAXOPBLOCKS] at hlt

def lateOp : List (Event Bool) :=
  [.call false, .beginOp false, .endOp false, .call true, .beginOp true]

theorem begin_op_sleeps_crowded_lateOp :
    ∃ s, Runs.exec (step LOGSIZE) initial lateOp = some s ∧ s.pc true = .sleeping ∧
      (s.committing = true ∨ (s.lh.length : ℤ) + (s.outstanding + 1) * MAXOPBLOCKS > LOGSIZE) := by
  have hrun : Runs.exec (step LOGSIZE) initial lateOp = _ := rfl
  exact ⟨_, hrun, rfl, (begin_op_sleeps_crowded hrun).1 true rfl⟩

end Xv6.GroupCommit
