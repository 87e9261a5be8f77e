import Xv6.Sched.Aging
import Xv6.Sched.Queues

/-!
# The time slices of the MLFQ build

`rrtime[l]` of a process at level `l` is set to 0 whenever the process enters the level, and counts
the timer interrupts that find the process RUNNING.
-/

namespace Xv6.Sched
open Lib ProcState Kernel

def Level.next : Level → Level
  | 0 => 1
  | 1 => 2
  | 2 => 3
  | 3 => 4
  | 4 => 4

def KilledTick (s : Slot) (k : Kernel) (e : Event) : Prop :=
  e = .tick true ∧ (k.proc s).state = RUNNING ∧ (k.proc s).killed = true

instance (s : Slot) (k : Kernel) (e : Event) : Decidable (KilledTick s k e) :=
  inferInstanceAs (Decidable (_ ∧ _))

def sliceUsed (s : Slot) (n : Option ℕ) (k : Kernel) (e : Event) (k' : Kernel) : Option ℕ :=
  if (k.proc s).state = UNUSED then some 0
  else if KilledTick s k e then none
  else if (k'.proc s).qno ≠ (k.proc s).qno then n.map fun _ => 0
  else n.map (· + (ticksIn s (· == RUNNING) k e k').toNat)

section Process

variable {x : Proc}

theorem Proc.nextSlice_qno (x : Proc) : x.nextSlice.qno = Level.next x.qno := by
  rcases level_cases x.qno with h | h | h | h | h <;>
    simp only [Proc.nextSlice, Proc.moved, Proc.rotated, Level.next, h]

theorem Proc.nextSlice_rrtime (x : Proc) : x.nextSlice.rrtime (Level.next x.qno) = 0 := by
  rcases level_cases x.qno with h | h | h | h | h <;>
    simp only [Proc.nextSlice, Proc.moved, Proc.rotated, Level.next, h, Function.update_self]

theorem Proc.promoted_cases (x : Proc) :
    x.promoted = x ∨ x.promoted.qno < x.qno ∧ x.promoted.rrtime x.promoted.qno = 0 := by
  rcases level_cases x.qno with h | h | h | h | h <;>
    simp only [Proc.promoted, Proc.moved, h, Function.update_self]
  · exact .inl trivial
  all_goals exact .inr ⟨by decide, trivial⟩

theorem Proc.expired_iff {r : ℕ} (hx : x.rrtime x.qno = ((r + 1 : ℕ) : ℤ)) :
    x.expired = true ↔ (r + 1) % 2 ^ x.qno.val = 0 := by
  have hmod : ((r + 1 : ℕ) : ℤ).tmod (2 ^ x.qno.val) = (((r + 1) % 2 ^ x.qno.val : ℕ) : ℤ) := by
    rw [Int.ofNat_tmod]
    push_cast
    rfl
  have hne : ((r + 1 : ℕ) : ℤ) ≠ 0 := by omega
  simp only [Proc.expired, hx, hmod, hne, ne_eq, not_false_eq_true, decide_true, Bool.true_and,
    decide_eq_true_eq, Int.natCast_eq_zero]

theorem Proc.accounted_slice (hx : x.state = RUNNING) : x.accounted.state = RUNNING ∧
    x.accounted.qno = x.qno ∧ x.accounted.killed = x.killed ∧
    x.accounted.rrtime x.qno = int32 (x.rrtime x.qno + 1) := by
  rw [Proc.accounted, if_pos hx]
  exact ⟨hx, rfl, rfl, Function.update_self ..⟩

end Process

section Steps

variable {k k' : Kernel} {e : Event} {s : Slot} {r : ℕ}

theorem tick_back (hsole : Sole k) (h : step .MLFQ k e = some k') (ht : e.isTick = true)
    (hs : (k.proc s).state = RUNNING) (hkill : ¬KilledTick s k e) :
    (k.timer .MLFQ).proc s = (k.proc s).accounted ∧ k' = (k.timer .MLFQ).mlfqTick s := by
  obtain ⟨hcpu, hcur⟩ := hsole s hs
  cases step_cases h with
  | tick p user _ hp _ =>
    cases hcur.symm.trans hp
    have htimer := timer_current hcur hs
    obtain ⟨hstate, -, hkilled, -⟩ := (k.proc s).accounted_slice hs
    refine ⟨htimer, ?_⟩
    rw [tick_mlfq k user (by rw [htimer, hstate]), htimer, hkilled, if_neg]
    intro hboth
    obtain ⟨hk, hu⟩ := Bool.and_eq_true_iff.mp hboth
    exact hkill ⟨by rw [hu], hs, hk⟩
  | tickIdle user hidle =>
    rw [hcpu] at hidle
    cases hidle
  | _ => cases ht

theorem killed_kept (hsole : Sole k) (h : step .MLFQ k e = some k') (hkill : KilledTick s k e) :
    (k'.proc s).qno = (k.proc s).qno := by
  obtain ⟨rfl, hs, hk⟩ := hkill
  obtain ⟨hcpu, hcur⟩ := hsole s hs
  obtain ⟨hstate, hqno, hkilled, -⟩ := (k.proc s).accounted_slice hs
  cases step_cases h with
  | tick p _ _ hp _ =>
    cases hcur.symm.trans hp
    have htimer := timer_current hcur hs
    rw [tick_mlfq k true (by rw [htimer, hstate]), htimer, hkilled, hk, Bool.and_self,
      if_pos rfl, setKont_proc, htimer, hqno]
  | tickIdle _ hidle =>
    rw [hcpu] at hidle
    cases hidle

theorem accounted_rrtime (hs : (k.proc s).state = RUNNING)
    (hrr : (k.proc s).rrtime (k.proc s).qno = (r : ℤ)) (hr : r < 16) :
    (k.proc s).accounted.rrtime (k.proc s).accounted.qno = ((r + 1 : ℕ) : ℤ) := by
  obtain ⟨-, hqno, -, hused⟩ := (k.proc s).accounted_slice hs
  rw [hqno, hused, hrr]
  exact int32_of_lt (by omega) (by omega)

theorem tick_slice (hsole : Sole k) (h : step .MLFQ k e = some k') (ht : e.isTick = true)
    (hs : (k.proc s).state = RUNNING) (hkill : ¬KilledTick s k e)
    (hrr : (k.proc s).rrtime (k.proc s).qno = (r : ℤ)) (hr : r < 16) :
    (r + 1) % 2 ^ (k.proc s).qno.val = 0 ∧ (k'.proc s).qno = Level.next (k.proc s).qno ∧
        (k'.proc s).rrtime (k'.proc s).qno = 0 ∨
      (r + 1) % 2 ^ (k.proc s).qno.val ≠ 0 ∧ (k'.proc s).qno = (k.proc s).qno ∧
        (k'.proc s).rrtime (k'.proc s).qno = ((r + 1 : ℕ) : ℤ) := by
  obtain ⟨htimer, hk'⟩ := tick_back hsole h ht hs hkill
  have hqno := ((k.proc s).accounted_slice hs).2.1
  have hnext := accounted_rrtime hs hrr hr
  have hne : ((r + 1 : ℕ) : ℤ) ≠ 0 := by omega
  rw [hk', mlfqTick_self _ _ htimer, hnext, ← hqno, if_neg hne]
  by_cases hexp : (k.proc s).accounted.expired = true
  · rw [if_pos hexp]
    refine .inl ⟨(Proc.expired_iff hnext).mp hexp, Proc.nextSlice_qno _, ?_⟩
    change (k.proc s).accounted.nextSlice.rrtime (k.proc s).accounted.nextSlice.qno = 0
    rw [Proc.nextSlice_qno, Proc.nextSlice_rrtime]
  · rw [if_neg hexp]
    refine .inr ⟨mt (Proc.expired_iff hnext).mpr hexp, ?_⟩
    split_ifs <;> exact ⟨rfl, hnext⟩

theorem tick_rotates (hq : Queued (k.timer .MLFQ)) (hsole : Sole k)
    (h : step .MLFQ k e = some k') (ht : e.isTick = true) (hs : (k.proc s).state = RUNNING)
    (hkill : ¬KilledTick s k e) (h4 : (k.proc s).qno = 4)
    (hrr : (k.proc s).rrtime (k.proc s).qno = (r : ℤ)) (hr : r < 16) :
    (r + 1) % 2 ^ (k.proc s).qno.val = 0 ∧ (∃ j, ((k.timer .MLFQ).q 4).toList[j]? = some s ∧
          (k'.q 4).toList = ((k.timer .MLFQ).q 4).toList.eraseIdx j ++ [s]) ∨
      (r + 1) % 2 ^ (k.proc s).qno.val ≠ 0 ∧ (k'.q 4).toList = ((k.timer .MLFQ).q 4).toList := by
  obtain ⟨htimer, hk'⟩ := tick_back hsole h ht hs hkill
  obtain ⟨hstate, hqno, -⟩ := (k.proc s).accounted_slice hs
  have hnext := accounted_rrtime hs hrr hr
  have hne : ((r + 1 : ℕ) : ℤ) ≠ 0 := by omega
  rw [hk', mlfqTick_eq, htimer, hnext, ← hqno, if_neg hne]
  by_cases hexp : (k.proc s).accounted.expired = true
  · refine .inl ⟨(Proc.expired_iff hnext).mp hexp, ?_⟩
    have hrot : (k.timer .MLFQ).endSlice s = (k.timer .MLFQ).rotate4 s := by
      simp only [endSlice, htimer, hqno, h4]
    obtain ⟨j, hj, hget, heq⟩ :=
      (hq.rotated (by rw [htimer, hstate]; decide) (by rw [htimer, hqno, h4])).q4
    refine ⟨j, by rw [List.getElem?_eq_getElem hj, hget], ?_⟩
    rw [if_pos hexp, yield, sched_q, setProc_q, hrot, heq]
  · have hflags := (setFlags_frame (k := k.timer .MLFQ) [0, 1, 2, 3]).1.q 4
    rw [if_neg hexp]
    refine .inr ⟨mt (Proc.expired_iff hnext).mpr hexp, ?_⟩
    split_ifs
    · rw [yield, sched_q, setProc_q, hflags.toList]
    · exact hflags.toList

section

variable (hc : Ctl k) (h : step .MLFQ k e = some k')
include hc h

theorem tick_other_slice (ht : e.isTick = true) (hs : (k.proc s).state ≠ RUNNING) :
    (k'.proc s).qno = (k.proc s).qno ∧ (k'.proc s).rrtime = (k.proc s).rrtime ∨
      (k'.proc s).qno < (k.proc s).qno ∧ (k'.proc s).rrtime (k'.proc s).qno = 0 := by
  obtain ⟨t, hproc⟩ := tick_other_proc hc h ht hs
  obtain ⟨st, hwoken⟩ := (k.proc s).woken_eq (some .ticks)
  rw [hproc, hwoken]
  simp only [Proc.aged]
  split_ifs
  · rcases Proc.promoted_cases { k.proc s with state := st } with hp | hp
    · rw [hp]
      exact .inl ⟨rfl, rfl⟩
    · exact .inr hp
  · exact .inl ⟨rfl, rfl⟩

theorem slice_kept (ht : e.isTick = false) (hs : (k.proc s).state ≠ UNUSED) :
    (k'.proc s).qno = (k.proc s).qno ∧ (k'.proc s).rrtime = (k.proc s).rrtime := by
  change (k.info s).state ≠ UNUSED at hs
  change (k'.info s).qno = (k.info s).qno ∧ (k'.info s).rrtime = (k.info s).rrtime
  cases step_change hc h ht s with
  | taken p he hk hst hi => exact absurd hst hs
  | copied p pgdir he hk hst hi =>
    rw [hi]
    exact ⟨(hc.fork p s (by rw [hk]; rfl)).2.symm, rfl⟩
  | kept hi | woken hst hi | stacked p page he hk hp hst hi | dropped hst hi
  | readied p hk hst hi | slept hst hi | exited hst hi | reaped hst hi | prioritized pid pr he hi
  | dispatched he hst hi hcpu hcur => rw [hi]; exact ⟨rfl, rfl⟩

theorem slice_new (hs : (k.proc s).state = UNUSED) (hs' : (k'.proc s).state ≠ UNUSED) :
    (k'.proc s).qno = 0 ∧ (k'.proc s).rrtime (k'.proc s).qno = 0 := by
  cases ht : e.isTick with
  | true => exact absurd ((tick_times hc h ht s).2.2.mpr hs) hs'
  | false =>
    rcases taken_of_used hc h ht hs hs' with ⟨-, -, hi⟩
    have hqno := congrArg Info.qno hi
    have hrr := congrArg Info.rrtime hi
    exact ⟨hqno, congrFun hrr _⟩

end

end Steps

structure Sliced (s : Slot) (k : Kernel) (o : Option ℕ) : Prop where
  ctl : Ctl k
  sole : Sole k
  slice : ∀ n, o = some n → (k.proc s).state ≠ UNUSED →
    (k.proc s).rrtime (k.proc s).qno = ((n % 2 ^ (k.proc s).qno.val : ℕ) : ℤ) ∧
      ((k.proc s).qno.val < 4 → n < 2 ^ (k.proc s).qno.val)

theorem slice_lt (l : Level) (n : ℕ) : n % 2 ^ l.val < 16 := by
  have hle : 2 ^ l.val ≤ 2 ^ 4 := Nat.pow_le_pow_right (by decide) (by omega)
  exact (Nat.mod_lt n (Nat.two_pow_pos _)).trans_le hle

theorem mod_succ_of_ne {n d : ℕ} (hd : 0 < d) (h : (n % d + 1) % d ≠ 0) :
    n % d + 1 = (n + 1) % d ∧ n % d + 1 < d := by
  have hlt : n % d + 1 < d := by
    refine lt_of_le_of_ne (Nat.mod_lt n hd) fun heq => h ?_
    rw [heq, Nat.mod_self]
  exact ⟨by rw [← Nat.mod_add_mod, Nat.mod_eq_of_lt hlt], hlt⟩

theorem Level.next_val {l : Level} (h : l.val < 4) : (Level.next l).val = l.val + 1 := by
  revert l
  decide

theorem Level.next_eq_self {l : Level} (h : Level.next l = l) : l = 4 := by
  revert l
  decide

theorem Sliced.step {s : Slot} {k k' : Kernel} {o : Option ℕ} {e : Event} (hsl : Sliced s k o)
    (h : step .MLFQ k e = some k') : Sliced s k' (sliceUsed s o k e k') := by
  refine ⟨(step_effect hsl.ctl h).1, hsl.sole.step hsl.ctl h, fun m hm hs' => ?_⟩
  simp only [sliceUsed] at hm
  split_ifs at hm with hu hkill hqno
  · cases hm
    obtain ⟨hq, hrr⟩ := slice_new hsl.ctl h hu hs'
    rw [hrr, hq]
    exact ⟨rfl, fun _ => Nat.one_pos⟩
  · -- The process has entered another level.
    obtain ⟨n, ho, rfl⟩ := Option.map_eq_some_iff.mp hm
    have hzero : (k'.proc s).rrtime (k'.proc s).qno = 0 := by
      cases ht : e.isTick with
      | false => exact absurd (slice_kept hsl.ctl h ht hu).1 hqno
      | true =>
        by_cases hrun : (k.proc s).state = RUNNING
        · rcases tick_slice hsl.sole h ht hrun hkill (hsl.slice n ho hu).1 (slice_lt _ n) with
            ⟨-, -, hrr⟩ | ⟨-, hq, -⟩
          · exact hrr
          · exact absurd hq hqno
        · rcases tick_other_slice hsl.ctl h ht hrun with ⟨hq, -⟩ | ⟨-, hrr⟩
          · exact absurd hq hqno
          · exact hrr
    rw [hzero, Nat.zero_mod]
    exact ⟨rfl, fun _ => Nat.two_pow_pos _⟩
  · obtain ⟨n, ho, rfl⟩ := Option.map_eq_some_iff.mp hm
    have hq : (k'.proc s).qno = (k.proc s).qno := not_not.mp hqno
    obtain ⟨hrr, hlt⟩ := hsl.slice n ho hu
    have kept : (k'.proc s).rrtime = (k.proc s).rrtime → ticksIn s (· == RUNNING) k e k' = false →
        (k'.proc s).rrtime (k'.proc s).qno = (((n + (ticksIn s (· == RUNNING) k e k').toNat) %
            2 ^ (k'.proc s).qno.val : ℕ) : ℤ) ∧
          ((k'.proc s).qno.val < 4 →
            n + (ticksIn s (· == RUNNING) k e k').toNat < 2 ^ (k'.proc s).qno.val) := by
      intro hrr' hno
      rw [hrr', hq, hno, Bool.toNat_false, Nat.add_zero]
      exact ⟨hrr, hlt⟩
    cases ht : e.isTick with
    | false => exact kept (slice_kept hsl.ctl h ht hu).2 (by simp [ticksIn, ht])
    | true =>
      by_cases hrun : (k.proc s).state = RUNNING
      · have hone : (ticksIn s (· == RUNNING) k e k').toNat = 1 := by simp [ticksIn, ht, hrun]
        rw [hone]
        rcases tick_slice hsl.sole h ht hrun hkill hrr (slice_lt _ n) with
          ⟨hmod, hnext, hrr'⟩ | ⟨hmod, -, hrr'⟩
        · have h4 : (k.proc s).qno = 4 := Level.next_eq_self (hnext.symm.trans hq)
          have hfour : (4 : Level).val = 4 := rfl
          rw [Nat.mod_add_mod, h4] at hmod
          rw [hrr', hq, h4, hmod]
          exact ⟨rfl, fun hlt => absurd hfour (ne_of_lt hlt)⟩
        · obtain ⟨hsucc, hless⟩ := mod_succ_of_ne (Nat.two_pow_pos _) hmod
          rw [hrr', hq, hsucc]
          refine ⟨rfl, fun hl => ?_⟩
          rwa [Nat.mod_eq_of_lt (hlt hl)] at hless
      · refine kept ?_ (by simp [ticksIn, hrun])
        rcases tick_other_slice hsl.ctl h ht hrun with ⟨-, hrr'⟩ | ⟨hlt', -⟩
        · exact hrr'
        · exact absurd hq (ne_of_lt hlt')

theorem boot_sliced (kstack pgdir : ℕ) (s : Slot) : Sliced s (boot kstack pgdir) (some 0) := by
  refine ⟨boot_ctl _ _, boot_sole _ _, fun n hn hs => ?_⟩
  cases hn
  by_cases h0 : s = 0
  · subst h0
    have hzero : ((boot kstack pgdir).proc 0).qno = 0 ∧
        ((boot kstack pgdir).proc 0).rrtime 0 = 0 := by
      simp only [boot, allocStack, setProc_self]
      split_ifs <;> simp [allocproc]
    rw [hzero.1, hzero.2]
    exact ⟨rfl, fun _ => Nat.one_pos⟩
  · exact absurd (by rw [boot_proc _ _ h0]; rfl) hs

theorem succ_mod_eq_zero {n d : ℕ} (hn : n < d) : (n + 1) % d = 0 ↔ n + 1 = d := by
  constructor
  · intro h
    have hdvd := Nat.le_of_dvd (Nat.succ_pos n) (Nat.dvd_of_mod_eq_zero h)
    omega
  · intro h
    rw [h, Nat.mod_self]

/-- `n` is the part of the slice that is used up: `2 ^ l` interrupts at level `l`. -/
theorem mlfq_slices (kstack pgdir : ℕ) (es : List Event) (k : Kernel)
    (hrun : Runs.exec (step .MLFQ) (boot kstack pgdir) es = some k) (s : Slot) (n : ℕ)
    (hn : Runs.track (step .MLFQ) (sliceUsed s) (some 0) (boot kstack pgdir) es = some n)
    (hs : (k.proc s).state ≠ UNUSED) :
    (k.proc s).rrtime (k.proc s).qno = ((n % 2 ^ (k.proc s).qno.val : ℕ) : ℤ) ∧
    ((k.proc s).qno.val < 4 → n < 2 ^ (k.proc s).qno.val) ∧
    (∀ e k', step .MLFQ k e = some k' → (k.proc s).qno < (k'.proc s).qno →
      e.isTick = true ∧ (k.proc s).state = RUNNING ∧ n + 1 = 2 ^ (k.proc s).qno.val) ∧
    (∀ e k', step .MLFQ k e = some k' → e.isTick = true → (k.proc s).state = RUNNING →
      ¬KilledTick s k e →
      ((k.proc s).qno.val < 4 → (k'.proc s).qno.val =
        if n + 1 = 2 ^ (k.proc s).qno.val then (k.proc s).qno.val + 1 else (k.proc s).qno.val) ∧
      ((k.proc s).qno = 4 → (k'.proc s).qno = 4 ∧
        (Runs.Meets (step .MLFQ) PidRoom (boot kstack pgdir) es →
          (n + 1) % 16 = 0 ∧ (∃ j, ((k.timer .MLFQ).q 4).toList[j]? = some s ∧
            (k'.q 4).toList = ((k.timer .MLFQ).q 4).toList.eraseIdx j ++ [s]) ∨
          (n + 1) % 16 ≠ 0 ∧ (k'.q 4).toList = ((k.timer .MLFQ).q 4).toList))) := by
  have hsl : Sliced s k (some n) := hn ▸ Runs.exec_track (step .MLFQ) (f := sliceUsed s)
    (I := Sliced s) (fun _ _ _ _ hI h => hI.step h) (boot_sliced _ _ s) hrun
  obtain ⟨hrr, hlt⟩ := hsl.slice n rfl hs
  refine ⟨hrr, hlt, fun e k' h hup => ?_, fun e k' h ht hrunning hkill => ⟨fun hl => ?_, fun h4 => ?_⟩⟩
  · cases ht : e.isTick with
    | false => exact absurd (slice_kept hsl.ctl h ht hs).1 (ne_of_gt hup)
    | true =>
      by_cases hrunning : (k.proc s).state = RUNNING
      · by_cases hkill : KilledTick s k e
        · exact absurd (killed_kept hsl.sole h hkill) (ne_of_gt hup)
        · rcases tick_slice hsl.sole h ht hrunning hkill hrr (slice_lt _ n) with
            ⟨hmod, hnext, -⟩ | ⟨-, hq, -⟩
          · have hl : (k.proc s).qno.val < 4 := by
              have := (k'.proc s).qno.isLt
              have := Fin.lt_def.mp hup
              omega
            rw [Nat.mod_eq_of_lt (hlt hl), succ_mod_eq_zero (hlt hl)] at hmod
            exact ⟨rfl, hrunning, hmod⟩
          · exact absurd hq (ne_of_gt hup)
      · rcases tick_other_slice hsl.ctl h ht hrunning with ⟨hq, -⟩ | ⟨hdown, -⟩
        · exact absurd hq (ne_of_gt hup)
        · exact absurd hdown (lt_asymm hup)
  · have hstep := tick_slice hsl.sole h ht hrunning hkill hrr (slice_lt _ n)
    rw [Nat.mod_eq_of_lt (hlt hl), ne_eq, succ_mod_eq_zero (hlt hl)] at hstep
    rcases hstep with ⟨hend, hnext, -⟩ | ⟨hmore, hq, -⟩
    · rw [if_pos hend, hnext, Level.next_val hl]
    · rw [if_neg hmore, hq]
  · have hmod : (n % 2 ^ (k.proc s).qno.val + 1) % 2 ^ (k.proc s).qno.val = (n + 1) % 16 := by
      rw [Nat.mod_add_mod, h4]
      rfl
    constructor
    · rcases tick_slice hsl.sole h ht hrunning hkill hrr (slice_lt _ n) with
        ⟨-, hnext, -⟩ | ⟨-, hq, -⟩
      · rw [hnext, h4]
        rfl
      · rw [hq, h4]
    · intro hpid
      have hq := (run_queued hpid hrun).2
      have hqt := micros_preserve Queued.micro hq (timer_works .MLFQ k).micros
      have hrot := tick_rotates hqt hsl.sole h ht hrunning hkill h4 hrr (slice_lt _ n)
      rwa [hmod] at hrot

/-- The first process has used 1 of the 2 interrupts of its slice at level 1. -/
def halfSliceRun : List Event := [.schedule, .tick true, .schedule, .tick true]

theorem mlfq_slices_halfSliceRun : ∃ k k',
    Runs.exec (step .MLFQ) (boot 1 1) halfSliceRun = some k ∧ (k.proc 0).rrtime 1 = 1 ∧
      step .MLFQ k (.tick true) = some k' ∧ (k'.proc 0).qno.val = 2 := by
  have hused : Runs.track (step .MLFQ) (sliceUsed 0) (some 0) (boot 1 1) halfSliceRun = some 1 := by
    decide +kernel
  obtain ⟨k, hk, k', hk', hrunning, hqno, hkilled⟩ :
      ∃ k ∈ Runs.exec (step .MLFQ) (boot 1 1) halfSliceRun, ∃ _ ∈ step .MLFQ k (.tick true),
        (k.proc 0).state = RUNNING ∧ (k.proc 0).qno = 1 ∧ (k.proc 0).killed = false := by
    decide +kernel
  have hkill : ¬KilledTick 0 k (.tick true) := fun hkill =>
    Bool.false_ne_true (hkilled.symm.trans hkill.2.2)
  obtain ⟨hrr, -, -, hend⟩ :=
    mlfq_slices 1 1 halfSliceRun k hk 0 1 hused (by rw [hrunning]; nofun)
  have hdemoted := (hend _ k' hk' rfl hrunning hkill).1 (by rw [hqno]; decide)
  rw [hqno] at hrr hdemoted
  exact ⟨k, k', hk, hrr, hk', hdemoted⟩

def killedRun : List Event :=
  [.schedule, .alloc, .stack 2, .copy 3, .run, .kill 2, .sleep (.other 0), .schedule]

/-- The interrupt that ends its slice does not demote it. -/
theorem mlfq_killed_not_demoted : ∃ k k',
    Runs.exec (step .MLFQ) (boot 1 1) killedRun = some k ∧
      Runs.track (step .MLFQ) (sliceUsed 1) (some 0) (boot 1 1) killedRun = some 0 ∧
      (k.proc 1).state = RUNNING ∧ (k.proc 1).qno = 0 ∧ step .MLFQ k (.tick true) = some k' ∧
      (k'.proc 1).rrtime 0 = 2 ^ 0 ∧ (k'.proc 1).qno = 0 := by
  obtain ⟨k, hk, k', hk', hused, hrunning, hqno, hend⟩ :
      ∃ k ∈ Runs.exec (step .MLFQ) (boot 1 1) killedRun, ∃ k' ∈ step .MLFQ k (.tick true),
        Runs.track (step .MLFQ) (sliceUsed 1) (some 0) (boot 1 1) killedRun = some 0 ∧
        (k.proc 1).state = RUNNING ∧ (k.proc 1).qno = 0 ∧
        (k'.proc 1).rrtime 0 = 2 ^ 0 ∧ (k'.proc 1).qno = 0 := by decide +kernel
  exact ⟨k, k', hk, hused, hrunning, hqno, hk', hend⟩

end Xv6.Sched
