import Mathlib.Tactic

/-!
# Programs over a set of operations

A program is a tree of calls to operations `Op β`, each of which answers with a value of its result
type `β`.
-/

namespace Xv6.Lib

inductive Prog (Op : Type → Type) (F : Type) (α : Type) : Type 1 where
  | pure (a : α)
  | fault (f : F)
  | op {β : Type} (o : Op β) (k : β → Prog Op F α)

namespace Prog

variable {Op : Type → Type} {F σ τ : Type} {α β : Type}

def bind : Prog Op F α → (α → Prog Op F β) → Prog Op F β
  | .pure a, k => k a
  | .fault f, _ => .fault f
  | .op o j, k => .op o fun b => (j b).bind k

instance : Monad (Prog Op F) where
  pure := .pure
  bind := bind

theorem bind_pure (p : Prog Op F α) : p.bind .pure = p := by
  induction p with
  | pure a => rfl
  | fault f => rfl
  | op o j ih => exact congrArg (Prog.op o) (funext ih)

theorem bind_assoc {γ : Type} (p : Prog Op F α) (k : α → Prog Op F β) (l : β → Prog Op F γ) :
    (p.bind k).bind l = p.bind fun a => (k a).bind l := by
  induction p with
  | pure a => rfl
  | fault f => rfl
  | op o j ih => exact congrArg (Prog.op o) (funext ih)

instance : LawfulMonad (Prog Op F) :=
  LawfulMonad.mk' _ bind_pure (fun _ _ => rfl) bind_assoc

def call (o : Op β) : Prog Op F β := .op o .pure

abbrev Handler (Op : Type → Type) (F σ : Type) := ∀ β : Type, Op β → σ → Except F (β × σ)

def run (h : Handler Op F σ) : Prog Op F α → σ → Except F (α × σ)
  | .pure a, s => .ok (a, s)
  | .fault f, _ => .error f
  | .op o k, s =>
    match h _ o s with
    | .ok (b, s') => run h (k b) s'
    | .error f => .error f

def WP (h : Handler Op F σ) (E : F → Prop) (p : Prog Op F α) (Q : α → σ → Prop) (s : σ) : Prop :=
  match run h p s with
  | .ok (a, s') => Q a s'
  | .error f => E f

variable {p : Prog Op F α}

section Rules

variable {h : Handler Op F σ} {E : F → Prop} {s : σ}

@[simp] theorem wp_pure (a : α) (Q : α → σ → Prop) :
    WP h E (Pure.pure a : Prog Op F α) Q s ↔ Q a s := Iff.rfl

theorem wp_call {o : Op β} {Q : β → σ → Prop} :
    WP h E (call o) Q s ↔ match h _ o s with
      | .ok (b, s') => Q b s'
      | .error f => E f := by
  simp only [WP, call, run]
  cases h β o s <;> rfl

theorem run_bind (p : Prog Op F α) (k : α → Prog Op F β) :
    run h (p >>= k) s = match run h p s with
      | .ok (a, s') => run h (k a) s'
      | .error f => .error f := by
  induction p generalizing s with
  | pure a => rfl
  | fault f => rfl
  | op o j ih =>
    change run h (.op o fun b => j b >>= k) s = _
    simp only [run]
    cases h _ o s with
    | ok r => exact ih r.1
    | error f => rfl

theorem run_call {o : Op β} {k : β → Prog Op F α} {b : β} {s' : σ} (ho : h β o s = .ok (b, s')) :
    run h (call o >>= k) s = run h (k b) s' := by
  rw [run_bind]
  simp only [call, run, ho]

@[simp] theorem wp_bind (p : Prog Op F α) (k : α → Prog Op F β) (Q : β → σ → Prop) :
    WP h E (p >>= k) Q s ↔ WP h E p (fun a s' => WP h E (k a) Q s') s := by
  simp only [WP, run_bind]
  cases run h p s <;> rfl

theorem run_eq_of_wp {q : Prog Op F α} (hpq : ∀ E Q, WP h E p Q s = WP h E q Q s) :
    run h p s = run h q s := by
  have hq : WP h (fun f => .error f = run h q s) q (fun a s' => .ok (a, s') = run h q s) s := by
    simp only [WP]
    split <;> simp_all
  rw [← hpq] at hq
  simp only [WP] at hq
  split at hq <;> simp_all

variable {Q : α → σ → Prop}

theorem wp_mono {Q' : α → σ → Prop} (hp : WP h E p Q s)
    (himp : ∀ a s', Q a s' → Q' a s') : WP h E p Q' s := by
  simp only [WP] at hp ⊢
  cases hr : run h p s with
  | ok r => rw [hr] at hp; exact himp _ _ hp
  | error f => rw [hr] at hp; exact hp

def Triple (h : Handler Op F σ) (E : F → Prop) (P : σ → Prop) (p : Prog Op F α) (Q : α → σ → Prop) :
    Prop := ∀ s, P s → WP h E p Q s

variable {P : σ → Prop}

theorem wp_of_triple (hs : P s) (hp : Triple h E P p Q) : WP h E p Q s := hp s hs

theorem Triple.bind {k : α → Prog Op F β} {R : α → σ → Prop}
    {Q : β → σ → Prop} (hp : Triple h E P p R) (hk : ∀ a, Triple h E (R a) (k a) Q) :
    Triple h E P (p >>= k) Q :=
  fun s hs => (wp_bind p k Q).mpr (wp_mono (hp s hs) hk)

theorem Triple.seq {k : α → Prog Op F β} {Q : β → σ → Prop}
    (hp : Triple h E P p fun a => WP h E (k a) Q) : Triple h E P (p >>= k) Q :=
  fun s hs => (wp_bind p k Q).mpr (hp s hs)

theorem Triple.ite {c : Prop} [Decidable c] {q : Prog Op F α}
    (hp : c → Triple h E P p Q) (hq : ¬c → Triple h E P q Q) :
    Triple h E P (if c then p else q) Q := by
  split_ifs with hc
  · exact hp hc
  · exact hq hc

theorem Triple.assume {c : Prop}
    (hc : ∀ s, P s → c) (hp : c → Triple h E P p Q) : Triple h E P p Q :=
  fun s hs => hp (hc s hs) s hs

theorem Triple.mono {Q' : α → σ → Prop} (hp : Triple h E P p Q)
    (himp : ∀ a s, Q a s → Q' a s) : Triple h E P p Q' := fun s hs => wp_mono (hp s hs) himp

theorem wp_ok {a : α} {s' : σ} (hp : WP h E p Q s) (hrun : run h p s = .ok (a, s')) : Q a s' := by
  simpa only [WP, hrun] using hp

theorem wp_returns (hp : WP h (fun _ => False) p Q s) :
    ∃ a s', run h p s = .ok (a, s') ∧ Q a s' := by
  simp only [WP] at hp
  cases hr : run h p s with
  | ok r =>
    rw [hr] at hp
    exact ⟨r.1, r.2, rfl, hp⟩
  | error f =>
    rw [hr] at hp
    exact hp.elim

theorem wp_error {f : F} (hp : WP h E p Q s) (hrun : run h p s = .error f) : E f := by
  simpa only [WP, hrun] using hp

theorem wp_faults (hp : WP h E p (fun _ _ => False) s) : ∃ f, run h p s = .error f ∧ E f := by
  cases hr : run h p s with
  | ok r => exact (wp_ok hp hr).elim
  | error f => exact ⟨f, rfl, wp_error hp hr⟩

end Rules

def Matches (refused own : F → Prop) (R : σ → τ → Prop)
    (x : Except F (α × σ)) (y : Except F (α × τ)) : Prop :=
  (∃ f, y = .error f ∧ refused f) ∨
  (∃ a s t, x = .ok (a, s) ∧ y = .ok (a, t) ∧ R s t) ∨
  (∃ f, x = .error f ∧ (own f ∨ y = .error f))

theorem run_simulates {refused own : F → Prop} {R : σ → τ → Prop}
    {h : Handler Op F σ} {g : Handler Op F τ}
    (hop : ∀ (β : Type) (o : Op β) s t, R s t → Matches refused own R (h β o s) (g β o t)) :
    ∀ (p : Prog Op F α) s t, R s t → Matches refused own R (run h p s) (run g p t) := by
  intro p
  induction p with
  | pure a => exact fun s t hR => .inr (.inl ⟨a, s, t, rfl, rfl, hR⟩)
  | fault f => exact fun s t _ => .inr (.inr ⟨f, rfl, .inr rfl⟩)
  | op o k ih =>
    intro s t hR
    simp only [run]
    rcases hop _ o s t hR with ⟨f, hg, hf⟩ | ⟨b, s', t', hh, hg, hR'⟩ | ⟨f, hh, hf⟩
    · exact .inl ⟨f, by simp only [hg], hf⟩
    · simp only [hh, hg]
      exact ih b s' t' hR'
    · refine .inr (.inr ⟨f, by simp only [hh], ?_⟩)
      rcases hf with hown | hg
      · exact .inl hown
      · exact .inr (by simp only [hg])

inductive Visits (h : Handler Op F σ) {β : Type} (o : Op β) (s' : σ) : Prog Op F α → σ → Prop
  | here (k : β → Prog Op F α) : Visits h o s' (.op o k) s'
  | next {γ : Type} {o₁ : Op γ} {k : γ → Prog Op F α} {b : γ} {s s₁ : σ} (hok : h γ o₁ s = .ok (b, s₁))
      (hv : Visits h o s' (k b) s₁) : Visits h o s' (.op o₁ k) s

theorem Visits.run_error {h : Handler Op F σ} {o : Op β} {s s' : σ} {f : F}
    (hv : Visits h o s' p s) (herr : h β o s' = .error f) : run h p s = .error f := by
  induction hv with
  | here k => simp only [run, herr]
  | next hok _ ih => simp only [run, hok, ih]

theorem Visits.simulates {refused own : F → Prop} {R : σ → τ → Prop} {h : Handler Op F σ}
    {g : Handler Op F τ}
    (hop : ∀ (β : Type) (o : Op β) s t, R s t → Matches refused own R (h β o s) (g β o t))
    {o : Op β} {s s' : σ} (hv : Visits h o s' p s) :
    ∀ t, R s t → (∃ f, run g p t = .error f ∧ refused f) ∨ ∃ t', Visits g o t' p t ∧ R s' t' := by
  induction hv with
  | here k => exact fun t hR => .inr ⟨t, .here k, hR⟩
  | @next γ o₁ k b s s₁ hok _ ih =>
    intro t hR
    rcases hop γ o₁ s t hR with ⟨f, hg, hf⟩ | ⟨b', s₂, t₁, hh, hg, hR₁⟩ | ⟨f, hh, -⟩
    · exact .inl ⟨f, by simp only [run, hg], hf⟩
    · rw [hok] at hh
      cases hh
      rcases ih t₁ hR₁ with ⟨f, hrun, hf⟩ | ⟨t', hv', hR'⟩
      · exact .inl ⟨f, by simp only [run, hg, hrun], hf⟩
      · exact .inr ⟨t', .next hg hv', hR'⟩
    · rw [hok] at hh
      cases hh

end Prog
end Xv6.Lib
