import Xv6.Lib.Bytes

/-!
# Scanning the MP configuration table

`conf` gives the bytes from the start of the table on, `p` is an offset into it.
-/

namespace Xv6.Boot
open Lib

abbrev NCPU : ℕ := 8

abbrev MPPROC : Byte := 0
abbrev MPBUS : Byte := 1
abbrev MPIOAPIC : Byte := 2
abbrev MPIOINTR : Byte := 3
abbrev MPLINTR : Byte := 4

def confLength (conf : ℕ → Byte) : ℕ := (conf 4).toNat + 256 * (conf 5).toNat

def sum (conf : ℕ → Byte) (len : ℕ) : Byte := (List.range len).foldl (fun s i => s + conf i) 0

def Valid (conf : ℕ → Byte) : Prop :=
  [conf 0, conf 1, conf 2, conf 3] = [80, 67, 77, 80] ∧ (conf 6 = 1 ∨ conf 6 = 4) ∧
    sum conf (confLength conf) = 0

instance (conf : ℕ → Byte) : Decidable (Valid conf) :=
  inferInstanceAs (Decidable (_ ∧ _ ∧ _))

structure Scan where
  p : ℕ
  ismp : Bool
  cpus : List Byte
  ioapicid : Byte

def start : Scan := ⟨44, true, [], 0⟩

def entry (conf : ℕ → Byte) (s : Scan) : Scan :=
  if conf s.p = MPPROC then
    { s with
      cpus := if s.cpus.length < NCPU then s.cpus ++ [conf (s.p + 1)] else s.cpus
      p := s.p + 20 }
  else if conf s.p = MPIOAPIC then { s with ioapicid := conf (s.p + 1), p := s.p + 8 }
  else if conf s.p = MPBUS ∨ conf s.p = MPIOINTR ∨ conf s.p = MPLINTR then { s with p := s.p + 8 }
  else { s with ismp := false }

def loop (conf : ℕ → Byte) : ℕ → Scan → Option Scan
  | 0, _ => none
  | n + 1, s => if s.p < confLength conf then loop conf n (entry conf s) else some s

inductive Outcome
  | panic
  | found (s : Scan)

def mpinit (conf : ℕ → Byte) (n : ℕ) : Option Outcome :=
  (loop conf n start).map fun s => if s.ismp then .found s else .panic

def entryAt (conf : ℕ → Byte) : ℕ → ℕ
  | 0 => 44
  | k + 1 => entryAt conf k + if conf (entryAt conf k) = MPPROC then 20 else 8

def Known (conf : ℕ → Byte) : Prop :=
  ∀ k, entryAt conf k < confLength conf → (conf (entryAt conf k)).toNat ≤ 4

section Loop

variable {conf : ℕ → Byte} {s : Scan}

theorem entry_cpus (h : s.cpus.length ≤ NCPU) : (entry conf s).cpus.length ≤ NCPU := by
  simp only [entry]
  split_ifs with hp hroom
  · rw [List.length_append, List.length_singleton]
    exact hroom
  all_goals exact h

theorem iterate_cpus (conf : ℕ → Byte) (n : ℕ) : ((entry conf)^[n] start).cpus.length ≤ NCPU := by
  induction n with
  | zero => exact Nat.zero_le _
  | succ n ih =>
    rw [Function.iterate_succ_apply']
    exact entry_cpus ih

theorem toNat_le_four (b : Byte) : b.toNat ≤ 4 ↔
    b = MPPROC ∨ b = MPIOAPIC ∨ b = MPBUS ∨ b = MPIOINTR ∨ b = MPLINTR := by
  simp only [← BitVec.toNat_inj]
  change b.toNat ≤ 4 ↔ b.toNat = 0 ∨ b.toNat = 2 ∨ b.toNat = 1 ∨ b.toNat = 3 ∨ b.toNat = 4
  omega

theorem entry_known (h : (conf s.p).toNat ≤ 4) :
    (entry conf s).p = s.p + if conf s.p = MPPROC then 20 else 8 := by
  rcases (toNat_le_four _).mp h with h | h | h | h | h <;> simp [entry, h]

theorem entry_unknown (h : ¬(conf s.p).toNat ≤ 4) : (entry conf s).p = s.p := by
  rw [toNat_le_four, not_or, not_or] at h
  rw [entry, if_neg h.1, if_neg h.2.1, if_neg h.2.2]

theorem entryAt_mono (conf : ℕ → Byte) : Monotone (entryAt conf) :=
  monotone_nat_of_le_succ fun _ => Nat.le_add_right _ _

-- by induction on the bytes that are left
theorem loop_ends {k : ℕ} (n : ℕ) (hn : confLength conf ≤ s.p + n) (h : Known conf)
    (hk : s.p = entryAt conf k) : ∃ t, loop conf (n + 1) s = some t := by
  induction n generalizing s k with
  | zero => exact ⟨s, if_neg (by omega)⟩
  | succ n ih =>
    by_cases hs : s.p < confLength conf
    · have hp := entry_known (hk ▸ h k (hk ▸ hs))
      obtain ⟨t, ht⟩ := ih (by split_ifs at hp <;> omega) (hp.trans (by rw [hk]; rfl) : _ = entryAt conf (k + 1))
      exact ⟨t, (if_pos hs).trans ht⟩
    · exact ⟨s, if_neg hs⟩

theorem known_of_loop {t : Scan} {n k : ℕ} (h : loop conf n s = some t) (hk : s.p = entryAt conf k) :
    ∀ j, k ≤ j → entryAt conf j < confLength conf → (conf (entryAt conf j)).toNat ≤ 4 := by
  induction n generalizing s k with
  | zero => cases h
  | succ n ih =>
    intro j hj hlt
    have hs : s.p < confLength conf := hk ▸ (entryAt_mono conf hj).trans_lt hlt
    rw [loop, if_pos hs] at h
    by_cases hknown : (conf s.p).toNat ≤ 4
    · rcases hj.eq_or_lt with rfl | hj
      · exact hk ▸ hknown
      · exact ih h ((entry_known hknown).trans (by rw [hk]; rfl) : _ = entryAt conf (k + 1)) j hj hlt
    · -- the scan stays where it is, so it would have to know the entry
      exact absurd (hk ▸ ih h ((entry_unknown hknown).trans hk) k le_rfl (hk ▸ hs)) hknown

end Loop

theorem mpinit_ends (conf : ℕ → Byte) :
    ((∃ n r, mpinit conf n = some r) ↔ Known conf) ∧
      ∀ n, ((entry conf)^[n] start).cpus.length ≤ NCPU := by
  refine ⟨⟨fun ⟨n, r, hr⟩ k => ?_, fun h => ?_⟩, iterate_cpus conf⟩
  · obtain ⟨t, ht, -⟩ := Option.map_eq_some_iff.mp hr
    exact known_of_loop ht rfl k k.zero_le
  · obtain ⟨t, ht⟩ := loop_ends (s := start) (k := 0) (confLength conf) (Nat.le_add_left _ _) h rfl
    exact ⟨_, _, by rw [mpinit, ht, Option.map_some]⟩

def table (length checksum : Byte) (entries : List Byte) (i : ℕ) : Byte :=
  ([80, 67, 77, 80, length, 0, 1, checksum] ++ List.replicate 36 0 ++ entries).getD i 0

def twoCpus : ℕ → Byte :=
  table 100 103 (MPPROC :: List.replicate 19 0 ++ MPPROC :: 1 :: List.replicate 18 0 ++
    MPBUS :: List.replicate 7 0 ++ MPIOAPIC :: List.replicate 7 0)

theorem mpinit_ends_twoCpus : Valid twoCpus ∧ Known twoCpus ∧ ∃ n r, mpinit twoCpus n = some r := by
  have hknown : Known twoCpus := by
    have hfour : ∀ k < 4, (twoCpus (entryAt twoCpus k)).toNat ≤ 4 := by decide +kernel
    refine fun k hk => hfour k ?_
    by_contra hge
    exact absurd ((entryAt_mono twoCpus (Nat.not_lt.mp hge)).trans_lt hk) (by decide +kernel)
  exact ⟨by decide +kernel, hknown, (mpinit_ends twoCpus).1.mpr hknown⟩

/-- An entry of type 5: the scan does not get past it. -/
theorem mpinit_stuck : Valid (table 45 157 [5]) ∧ ∀ n, mpinit (table 45 157 [5]) n = none := by
  have hloop : ∀ n b, loop (table 45 157 [5]) n ⟨44, b, [], 0⟩ = none := by
    intro n
    induction n with
    | zero => exact fun _ => rfl
    | succ n ih => exact fun _ => ih false
  exact ⟨by decide +kernel, fun n => by rw [mpinit, start, hloop n true, Option.map_none]⟩

end Xv6.Boot
