import Mathlib.Algebra.Order.Ring.Nat
import Mathlib.Data.List.Basic

/-!
# Runs of an event-driven state machine

`step s e = none` means that the event `e` is not enabled in `s`. A run is the list of the events
taken.
-/

namespace Xv6.Lib.Runs

instance neZeroTwo : NeZero (2 : ℕ) := ⟨by decide⟩

variable {σ ε : Type*} (step : σ → ε → Option σ)

def exec : σ → List ε → Option σ
  | s, [] => some s
  | s, e :: es => (step s e).bind fun t => exec t es

def Meets (C : σ → ε → Prop) : σ → List ε → Prop
  | _, [] => True
  | s, e :: es => C s e ∧ ∀ t, step s e = some t → Meets C t es

instance decidableMeets (C : σ → ε → Prop) [∀ s e, Decidable (C s e)] :
    ∀ s es, Decidable (Meets step C s es)
  | _, [] => .isTrue trivial
  | s, e :: es =>
    match h : step s e with
    | none => decidable_of_iff (C s e) (by simp [Meets, h])
    | some t =>
      have := decidableMeets C t es
      decidable_of_iff (C s e ∧ Meets step C t es) (by simp [Meets, h])

@[simp] theorem exec_nil (s : σ) : exec step s [] = some s := rfl

variable {es : List ε}
variable {s t : σ}

theorem exec_cons {e : ε} :
    exec step s (e :: es) = some t ↔ ∃ m, step s e = some m ∧ exec step m es = some t := by
  simp [exec, Option.bind_eq_some_iff]

theorem exec_append {fs : List ε} :
    exec step s (es ++ fs) = some t ↔ ∃ m, exec step s es = some m ∧ exec step m fs = some t := by
  induction es generalizing s with
  | nil => simp
  | cons e es ih =>
    simp only [List.cons_append, exec_cons, ih]
    constructor
    · rintro ⟨a, ha, m, hm, ht⟩
      exact ⟨m, ⟨a, ha, hm⟩, ht⟩
    · rintro ⟨m, ⟨a, ha, hm⟩, ht⟩
      exact ⟨a, ha, m, hm, ht⟩

variable {C : σ → ε → Prop}
variable {I : σ → Prop}

theorem exec_preserves (hstep : ∀ s e t, I s → C s e → step s e = some t → I t)
    (hs : I s) (hC : Meets step C s es) (hrun : exec step s es = some t) : I t := by
  induction es generalizing s with
  | nil =>
    cases hrun
    exact hs
  | cons e es ih =>
    obtain ⟨m, hm, ht⟩ := (exec_cons step).mp hrun
    exact ih (hstep s e m hs hC.1 hm) (hC.2 m hm) ht

theorem exec_invariant (hstep : ∀ s e t, I s → step s e = some t → I t)
    (hs : I s) (hrun : exec step s es = some t) : I t := by
  induction es generalizing s with
  | nil =>
    cases hrun
    exact hs
  | cons e es ih =>
    obtain ⟨m, hm, ht⟩ := (exec_cons step).mp hrun
    exact ih (hstep s e m hs hm) ht

theorem exec_progress (hstep : ∀ s e, I s → C s e → ∃ t, step s e = some t ∧ I t)
    (hs : I s) (hC : Meets step C s es) : ∃ t, exec step s es = some t ∧ I t := by
  induction es generalizing s with
  | nil => exact ⟨s, rfl, hs⟩
  | cons e es ih =>
    obtain ⟨m, hm, hI⟩ := hstep s e hs hC.1
    obtain ⟨t, ht, hIt⟩ := ih hI (hC.2 m hm)
    exact ⟨t, (exec_cons step).mpr ⟨m, hm, ht⟩, hIt⟩

theorem exec_simulates {τ : Type*} {step' : τ → ε → Option τ} {R : σ → τ → Prop}
    (hstep : ∀ s t e s', R s t → step s e = some s' → ∃ t', step' t e = some t' ∧ R s' t')
    {s s' : σ} {t : τ} (hR : R s t) (hrun : exec step s es = some s') :
    ∃ t', exec step' t es = some t' ∧ R s' t' := by
  induction es generalizing s t with
  | nil =>
    cases hrun
    exact ⟨t, rfl, hR⟩
  | cons e es ih =>
    obtain ⟨m, hm, hs'⟩ := (exec_cons step).mp hrun
    obtain ⟨m', hm', hR'⟩ := hstep s t e m hR hm
    obtain ⟨t', ht', hR''⟩ := ih hR' hs'
    exact ⟨t', (exec_cons step').mpr ⟨m', hm', ht'⟩, hR''⟩

variable {D : σ → ε → Prop}

theorem Meets.mono (h : ∀ s e, C s e → D s e) {s : σ}
    (hC : Meets step C s es) : Meets step D s es := by
  induction es generalizing s with
  | nil => trivial
  | cons e es ih => exact ⟨h s e hC.1, fun t ht => ih (hC.2 t ht)⟩

theorem Meets.and {s : σ} (hC : Meets step C s es)
    (hD : Meets step D s es) : Meets step (fun s e => C s e ∧ D s e) s es := by
  induction es generalizing s with
  | nil => trivial
  | cons e es ih => exact ⟨⟨hC.1, hD.1⟩, fun t ht => ih (hC.2 t ht) (hD.2 t ht)⟩

theorem Meets.of_forall (h : ∀ e ∈ es, ∀ s, C s e) (s : σ) : Meets step C s es := by
  induction es generalizing s with
  | nil => trivial
  | cons e es ih =>
    exact ⟨h e List.mem_cons_self s,
      fun t _ => ih (fun e' he' => h e' (List.mem_cons_of_mem e he')) t⟩

theorem Meets.of_append {fs : List ε}
    (hC : Meets step C s (es ++ fs)) (hrun : exec step s es = some t) : Meets step C t fs := by
  induction es generalizing s with
  | nil =>
    cases hrun
    exact hC
  | cons e es ih =>
    obtain ⟨m, hm, ht⟩ := (exec_cons step).mp hrun
    exact ih (hC.2 m hm) ht

theorem Meets.left {s : σ} {fs : List ε} (hC : Meets step C s (es ++ fs)) : Meets step C s es := by
  induction es generalizing s with
  | nil => trivial
  | cons e es ih => exact ⟨hC.1, fun t ht => ih (hC.2 t ht)⟩

def Occurs (C : σ → ε → σ → Prop) : σ → List ε → Prop
  | _, [] => False
  | s, e :: es => ∃ t, step s e = some t ∧ (C s e t ∨ Occurs C t es)

instance decidableOccurs (C : σ → ε → σ → Prop) [∀ s e t, Decidable (C s e t)] :
    ∀ s es, Decidable (Occurs step C s es)
  | _, [] => .isFalse id
  | s, e :: es =>
    match h : step s e with
    | none => .isFalse (by simp [Occurs, h])
    | some t =>
      have := decidableOccurs C t es
      decidable_of_iff (C s e t ∨ Occurs step C t es) (by simp [Occurs, h])

def count (C : σ → ε → σ → Bool) : σ → List ε → ℕ
  | _, [] => 0
  | s, e :: es =>
    match step s e with
    | none => 0
    | some t => (C s e t).toNat + count C t es

theorem count_cons {C : σ → ε → σ → Bool} {e : ε} (he : step s e = some t)
    (es : List ε) : count step C s (e :: es) = (C s e t).toNat + count step C t es := by
  simp only [count, he]

theorem count_append {C : σ → ε → σ → Bool} (hrun : exec step s es = some t) (fs : List ε) :
    count step C s (es ++ fs) = count step C s es + count step C t fs := by
  induction es generalizing s with
  | nil =>
    cases hrun
    exact (Nat.zero_add _).symm
  | cons e es ih =>
    obtain ⟨m, hm, ht⟩ := (exec_cons step).mp hrun
    rw [List.cons_append, count_cons step hm, count_cons step hm, ih ht, Nat.add_assoc]

theorem exec_count {C : σ → ε → σ → Bool} {I : σ → ℕ → Prop}
    (hstep : ∀ s e t n, I s n → D s e → step s e = some t → I t (n + (C s e t).toNat))
    {n : ℕ} (hs : I s n) (hD : Meets step D s es)
    (hrun : exec step s es = some t) : I t (n + count step C s es) := by
  induction es generalizing s n with
  | nil =>
    cases hrun
    exact hs
  | cons e es ih =>
    obtain ⟨m, hm, ht⟩ := (exec_cons step).mp hrun
    rw [count_cons step hm, ← Nat.add_assoc]
    exact ih (hstep s e m n hs hD.1 hm) (hD.2 m hm) ht

def track {α : Type*} (f : α → σ → ε → σ → α) : α → σ → List ε → α
  | a, _, [] => a
  | a, s, e :: es =>
    match step s e with
    | none => a
    | some t => track f (f a s e t) t es

theorem track_append {α : Type*} {f : α → σ → ε → σ → α} {s m : σ} {a : α}
    (h : exec step s es = some m) (fs : List ε) :
    track step f a s (es ++ fs) = track step f (track step f a s es) m fs := by
  induction es generalizing s a with
  | nil =>
    cases h
    rfl
  | cons e es ih =>
    obtain ⟨t, ht, h⟩ := (exec_cons step).mp h
    simp only [List.cons_append, track, ht]
    exact ih h

theorem exec_track_meets {α : Type*} {f : α → σ → ε → σ → α} {I : σ → α → Prop}
    (hstep : ∀ s e t a, I s a → D s e → step s e = some t → I t (f a s e t))
    {a : α} (hs : I s a) (hD : Meets step D s es)
    (hrun : exec step s es = some t) : I t (track step f a s es) := by
  induction es generalizing s a with
  | nil =>
    cases hrun
    exact hs
  | cons e es ih =>
    obtain ⟨m, hm, ht⟩ := (exec_cons step).mp hrun
    simp only [track, hm]
    exact ih (hstep s e m a hs hD.1 hm) (hD.2 m hm) ht

theorem exec_track {α : Type*} {f : α → σ → ε → σ → α} {I : σ → α → Prop}
    (hstep : ∀ s e t a, I s a → step s e = some t → I t (f a s e t))
    {a : α} (hs : I s a) (hrun : exec step s es = some t) : I t (track step f a s es) :=
  exec_track_meets step (D := fun _ _ => True) (fun s e t a hI _ => hstep s e t a hI) hs
    (Meets.of_forall step (fun _ _ _ => trivial) s) hrun

theorem occurs_or {C : σ → ε → σ → Prop}
    (hstep : ∀ s e t, I s → D s e → step s e = some t → C s e t ∨ I t)
    (hs : I s) (hD : Meets step D s es)
    (hrun : exec step s es = some t) : Occurs step C s es ∨ I t := by
  induction es generalizing s with
  | nil =>
    cases hrun
    exact .inr hs
  | cons e es ih =>
    obtain ⟨m, hm, ht⟩ := (exec_cons step).mp hrun
    rcases hstep s e m hs hD.1 hm with hC | hI
    · exact .inl ⟨m, hm, .inl hC⟩
    · exact (ih hI (hD.2 m hm) ht).imp_left fun h => ⟨m, hm, .inr h⟩

theorem foldlM_ok {ι φ : Type*} {b : σ → ι → Except φ σ} {I : List ι → σ → Prop}
    (hb : ∀ i l s, I (i :: l) s → ∃ t, b s i = .ok t ∧ I l t) :
    ∀ {l s}, I l s → ∃ t, l.foldlM b s = .ok t ∧ I [] t
  | [], s, h => ⟨s, rfl, h⟩
  | i :: l, s, h => by
    obtain ⟨t, ht, hI⟩ := hb i l s h
    obtain ⟨u, hu, hI'⟩ := foldlM_ok hb hI
    refine ⟨u, ?_, hI'⟩
    rw [List.foldlM_cons, ht]
    exact hu

end Xv6.Lib.Runs
