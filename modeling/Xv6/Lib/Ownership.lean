import Mathlib.Tactic

/-!
# Exact ownership of numbered units

Units are numbered up to `hi`, and those below `lo` are reserved. A place refers to at most one
unit: `ref o` is its number, or 0 for none.
-/

namespace Xv6.Lib

open Function (update_of_ne update_self update)

structure Owned {ω : Type*} (lo hi : ℕ) (used : ℕ → Prop) (ref : ω → ℕ) : Prop where
  pos : 0 < lo
  range : ∀ o, ref o ≠ 0 → lo ≤ ref o ∧ ref o < hi
  inj : ∀ o o', ref o ≠ 0 → ref o = ref o' → o = o'
  used_iff : ∀ b < hi, used b ↔ b < lo ∨ ∃ o, ref o = b

namespace Owned

variable {ω : Type*} {lo hi b : ℕ} {used used' : ℕ → Prop} {ref ref' : ω → ℕ} {o : ω}

section

variable (h : Owned lo hi used ref)
include h

theorem congr (hused : ∀ b < hi, used' b ↔ used b)
    (href : ∀ o, ref' o = ref o) : Owned lo hi used' ref' := by
  obtain rfl : ref' = ref := funext href
  exact ⟨h.pos, h.range, h.inj, fun b hb => (hused b hb).trans (h.used_iff b hb)⟩

theorem used_of_ref (ho : ref o ≠ 0) : used (ref o) :=
  (h.used_iff _ (h.range o ho).2).mpr (.inr ⟨o, rfl⟩)

theorem of_free (hb : b < hi) (hfree : ¬ used b) : lo ≤ b ∧ ∀ o, ref o ≠ b := by
  rw [h.used_iff b hb] at hfree
  push Not at hfree
  exact hfree

theorem existsUnique (hb : b < hi) : used b ↔ b < lo ∨ ∃! o, ref o = b := by
  rw [h.used_iff b hb]
  by_cases hlo : b < lo
  · simp only [hlo, true_or]
  · simp only [hlo, false_or]
    have hb0 : b ≠ 0 := by
      have := h.pos
      omega
    constructor
    · rintro ⟨o, rfl⟩
      exact ⟨o, rfl, fun o' ho' => (h.inj o o' hb0 ho'.symm).symm⟩
    · rintro ⟨o, ho, -⟩
      exact ⟨o, ho⟩

end

def vacant (used : ℕ → Prop) [DecidablePred used] (hi : ℕ) : Finset ℕ :=
  (Finset.range hi).filter fun b => ¬ used b

theorem room [DecidablePred used] [DecidablePred used'] (h : Owned lo hi used ref)
    (h' : Owned lo hi used' ref') (hmono : ∀ o, ref o ≠ 0 → ref' o = ref o) {κ : Type*}
    {place : κ → ω} {S : Finset κ} (hnew : ∀ o, ref o = 0 → ref' o ≠ 0 → ∃ k ∈ S, place k = o)
    (hroom : (S.filter fun k => ref (place k) = 0).card ≤ (vacant used hi).card) :
    (S.filter fun k => ref' (place k) = 0).card ≤ (vacant used' hi).card := by
  have htaken : vacant used hi \ vacant used' hi ⊆
      ((S.filter fun k => ref (place k) = 0).filter fun k => ¬ ref' (place k) = 0).image
        fun k => ref' (place k) := by
    intro b hb
    simp only [vacant, Finset.mem_sdiff, Finset.mem_filter, Finset.mem_range, not_and,
      not_not] at hb
    obtain ⟨⟨hlt, hfree⟩, hused⟩ := hb
    obtain ⟨hlo, hnone⟩ := h.of_free hlt hfree
    have hb0 : b ≠ 0 := by
      have := h.pos
      omega
    rcases (h'.used_iff b hlt).mp (hused hlt) with hlow | ⟨o, rfl⟩
    · omega
    · have hzero : ref o = 0 := by
        by_contra hne
        exact hnone o (hmono o hne).symm
      obtain ⟨k, hk, rfl⟩ := hnew o hzero hb0
      exact Finset.mem_image.mpr ⟨k, by simp [hk, hzero, hb0], rfl⟩
  have hstill : (S.filter fun k => ref (place k) = 0).filter (fun k => ref' (place k) = 0) =
      S.filter fun k => ref' (place k) = 0 := by
    ext k
    simp only [Finset.mem_filter]
    constructor
    · exact fun hk => ⟨hk.1.1, hk.2⟩
    · refine fun hk => ⟨⟨hk.1, ?_⟩, hk.2⟩
      by_contra hne
      exact hne ((hmono _ hne).symm.trans hk.2)
  have hsplit := Finset.card_filter_add_card_filter_not
    (s := S.filter fun k => ref (place k) = 0) fun k => ref' (place k) = 0
  rw [hstill] at hsplit
  have hcard := (Finset.card_le_card htaken).trans Finset.card_image_le
  have hle := Finset.card_le_card_sdiff_add_card (s := vacant used hi) (t := vacant used' hi)
  omega

theorem room_of_filled [DecidablePred used] (h : Owned lo hi used ref)
    (h' : Owned lo hi used' ref') (hmono : ∀ o, ref o ≠ 0 → ref' o = ref o) {κ : Type*}
    {place : κ → ω} (hplace : Function.Injective place) {S : Finset κ}
    (hfill : ∀ k ∈ S, ref' (place k) ≠ 0) :
    (S.filter fun k => ref (place k) = 0).card ≤ (vacant used hi).card := by
  apply Finset.card_le_card_of_injOn fun k => ref' (place k)
  · intro k hk
    obtain ⟨hk, hzero⟩ := Finset.mem_filter.mp hk
    obtain ⟨hlo, hhi⟩ := h'.range _ (hfill k hk)
    refine Finset.mem_filter.mpr ⟨Finset.mem_range.mpr hhi, fun hused => ?_⟩
    rcases (h.used_iff _ hhi).mp hused with hlow | ⟨o, ho⟩
    · omega
    · have hne : ref o ≠ 0 := by
        rw [ho]
        exact hfill k hk
      have heq := h'.inj (place k) o (hfill k hk) (by rw [hmono o hne, ho])
      rw [← heq] at hne
      exact hne hzero
  · intro k hk k' hk' heq
    exact hplace (h'.inj _ _ (hfill k (Finset.mem_filter.mp hk).1) heq)

variable [DecidableEq ω]

theorem alloc (h : Owned lo hi used ref) (hb : b < hi) (hfree : ¬ used b) (ho : ref o = 0) :
    Owned lo hi (fun x => x = b ∨ used x) (update ref o b) := by
  obtain ⟨hlo, hnone⟩ := h.of_free hb hfree
  constructor
  case pos => exact h.pos
  case range =>
    intro o' ho'
    by_cases heq : o' = o
    · subst heq
      rw [update_self]
      exact ⟨hlo, hb⟩
    · rw [update_of_ne heq] at ho' ⊢
      exact h.range o' ho'
  case inj =>
    intro o1 o2 h1 heq
    by_cases h1o : o1 = o <;> by_cases h2o : o2 = o
    · rw [h1o, h2o]
    · rw [h1o, update_self, update_of_ne h2o] at heq
      exact absurd heq.symm (hnone o2)
    · rw [h2o, update_self, update_of_ne h1o] at heq
      exact absurd heq (hnone o1)
    · rw [update_of_ne h1o] at h1 heq
      rw [update_of_ne h2o] at heq
      exact h.inj o1 o2 h1 heq
  case used_iff =>
    intro x hx
    rw [h.used_iff x hx]
    constructor
    · rintro (rfl | hlt | ⟨o', rfl⟩)
      · exact .inr ⟨o, update_self _ _ _⟩
      · exact .inl hlt
      · by_cases heq : o' = o
        · subst heq
          rw [ho]
          exact .inl h.pos
        · exact .inr ⟨o', update_of_ne heq _ _⟩
    · rintro (hlt | ⟨o', rfl⟩)
      · exact .inr (.inl hlt)
      · by_cases heq : o' = o
        · exact .inl (by rw [heq, update_self])
        · exact .inr (.inr ⟨o', (update_of_ne heq _ _).symm⟩)

theorem free (h : Owned lo hi used ref) (ho : ref o ≠ 0) :
    Owned lo hi (fun x => x ≠ ref o ∧ used x) (update ref o 0) := by
  have hkeep : ∀ {o'}, update ref o 0 o' ≠ 0 →
      o' ≠ o ∧ update ref o 0 o' = ref o' := by
    intro o' ho'
    have hne : o' ≠ o := by
      rintro rfl
      exact ho' (update_self _ _ _)
    exact ⟨hne, update_of_ne hne _ _⟩
  constructor
  case pos => exact h.pos
  case range =>
    intro o' ho'
    have heq := (hkeep ho').2
    rw [heq] at ho' ⊢
    exact h.range o' ho'
  case inj =>
    intro o1 o2 h1 heq
    have h2 : update ref o 0 o2 ≠ 0 := heq ▸ h1
    rw [(hkeep h1).2, (hkeep h2).2] at heq
    exact h.inj o1 o2 ((hkeep h1).2 ▸ h1) heq
  case used_iff =>
    intro x hx
    rw [h.used_iff x hx]
    have hr := h.range o ho
    constructor
    · rintro ⟨hne, hlt | ⟨o', rfl⟩⟩
      · exact .inl hlt
      · exact .inr ⟨o', update_of_ne (fun heq => hne (by rw [heq])) _ _⟩
    · rintro (hlt | ⟨o', ho'⟩)
      · exact ⟨by omega, .inl hlt⟩
      · by_cases heq : o' = o
        · rw [heq, update_self] at ho'
          have := h.pos
          exact ⟨by omega, .inl (by omega)⟩
        · rw [update_of_ne heq] at ho'
          refine ⟨fun hx' => heq ?_, .inr ⟨o', ho'⟩⟩
          exact (h.inj o o' ho (hx'.symm.trans ho'.symm)).symm

end Owned
end Xv6.Lib
