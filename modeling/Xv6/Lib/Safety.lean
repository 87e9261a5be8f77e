import Xv6.Lib.Prog

/-!
# What the operations of a program are used for

`Safe` says that every operation that a program performs meets a rule in the state in which it is
performed, also when a later one faults, and that the program ends in a state as given.
-/

namespace Xv6.Lib.Prog

variable {Op Op' : Type → Type} {F F' σ τ α β : Type}

def Safe (h : Handler Op F σ) (R : ∀ β, Op β → σ → Prop) :
    Prog Op F α → (α → σ → Prop) → σ → Prop
  | .pure a, Q, s => Q a s
  | .fault _, _, _ => True
  | .op o k, Q, s => R _ o s ∧ ∀ b s', h _ o s = .ok (b, s') → Safe h R (k b) Q s'

variable {p : Prog Op F α} {Q : α → σ → Prop}

section Rules

variable {h : Handler Op F σ} {R : ∀ β, Op β → σ → Prop} {s : σ}

theorem Safe.mono {Q' : α → σ → Prop} (hp : Safe h R p Q s)
    (himp : ∀ a s', Q a s' → Q' a s') : Safe h R p Q' s := by
  induction p generalizing s with
  | pure a => exact himp a s hp
  | fault f => trivial
  | op o k ih => exact ⟨hp.1, fun b s' hok => ih b (hp.2 b s' hok)⟩

@[simp] theorem safe_bind (p : Prog Op F α) (k : α → Prog Op F β) (Q : β → σ → Prop) :
    Safe h R (p >>= k) Q s ↔ Safe h R p (fun a s' => Safe h R (k a) Q s') s := by
  induction p generalizing s with
  | pure a => rfl
  | fault f => rfl
  | op o j ih =>
    change (R _ o s ∧ ∀ b s', h _ o s = .ok (b, s') → Safe h R (j b >>= k) Q s') ↔ _
    simp only [ih]
    rfl

theorem Safe.bind {k : α → Prog Op F β} {Q' : β → σ → Prop}
    (hp : Safe h R p Q s) (hk : ∀ a s', Q a s' → Safe h R (k a) Q' s') : Safe h R (p >>= k) Q' s :=
  (safe_bind p k Q').mpr (hp.mono hk)

theorem Safe.visits {o : Op β} {s' : σ} (hp : Safe h R p Q s)
    (hv : Visits h o s' p s) : R β o s' := by
  induction hv with
  | here k => exact hp.1
  | next hok _ ih => exact ih (hp.2 _ _ hok)

theorem Safe.run_ok {a : α} {s' : σ} (hp : Safe h R p Q s)
    (hrun : run h p s = .ok (a, s')) : Q a s' := by
  induction p generalizing s with
  | pure a =>
    cases hrun
    exact hp
  | fault f => cases hrun
  | op o k ih =>
    simp only [run] at hrun
    split at hrun
    · next b t hok => exact ih b (hp.2 b t hok) hrun
    · cases hrun

theorem Safe.of_run {Q' : α → σ → Prop} (hp : Safe h R p Q s)
    (hrun : ∀ a s', run h p s = .ok (a, s') → Q a s' → Q' a s') : Safe h R p Q' s := by
  induction p generalizing s with
  | pure a => exact hrun a s rfl hp
  | fault f => trivial
  | op o k ih =>
    refine ⟨hp.1, fun b s' hok => ih b (hp.2 b s' hok) fun a t hrun' => hrun a t ?_⟩
    simp only [run, hok, hrun']

theorem visits_bind {o : Op β} {γ δ : Type} {p : Prog Op F γ} {k : γ → Prog Op F δ} {a : γ} {s₁ s' : σ}
    (hrun : run h p s = .ok (a, s₁)) (hv : Visits h o s' (k a) s₁) : Visits h o s' (p >>= k) s := by
  induction p generalizing s with
  | pure a =>
    cases hrun
    exact hv
  | fault f => cases hrun
  | op o j ih =>
    simp only [run] at hrun
    split at hrun
    · next b t hok => exact .next hok (ih b hrun)
    · cases hrun

end Rules

def Only (P : ∀ β, Op β → Prop) : Prog Op F α → Prop
  | .pure _ => True
  | .fault _ => True
  | .op o k => P _ o ∧ ∀ b, Only P (k b)

section Only

variable {P : ∀ β, Op β → Prop}

theorem only_true (p : Prog Op F α) : Only (fun _ _ => True) p := by
  induction p with
  | pure a => trivial
  | fault f => trivial
  | op o k ih => exact ⟨trivial, ih⟩

theorem Only.safe {h : Handler Op F σ} {R : ∀ β, Op β → σ → Prop} {I : σ → Prop}
    {s : σ} (hI : ∀ β (o : Op β) s, P β o → I s → R β o s ∧ ∀ b s', h β o s = .ok (b, s') → I s')
    (hp : Only P p) (hs : I s) : Safe h R p (fun _ => I) s := by
  induction p generalizing s with
  | pure a => exact hs
  | fault f => trivial
  | op o k ih =>
    obtain ⟨hR, hkeep⟩ := hI _ o s hp.1 hs
    exact ⟨hR, fun b s' hok => ih b (hp.2 b) (hkeep b s' hok)⟩

end Only

structure Meets (h : Handler Op F σ) (R : ∀ β, Op β → σ → Prop) (E : F → Prop) (p : Prog Op F α)
    (Q : α → σ → Prop) (s : σ) : Prop where
  wp : WP h E p Q s
  safe : Safe h R p (fun _ _ => True) s

section Meets

variable {h : Handler Op F σ} {R : ∀ β, Op β → σ → Prop} {E : F → Prop} {s : σ}

theorem meets_pure {a : α} (ha : Q a s) :
    Meets h R E (Pure.pure a : Prog Op F α) Q s := ⟨ha, trivial⟩

theorem meets_call {o : Op β} {Q : β → σ → Prop} {b : β} {s' : σ} (ho : R β o s)
    (hok : h β o s = .ok (b, s')) (hQ : Q b s') : Meets h R E (call o) Q s := by
  refine ⟨?_, ho, fun _ _ _ => trivial⟩
  rw [wp_call, hok]
  exact hQ

theorem meets_bind {k : α → Prog Op F β} {Q : β → σ → Prop}
    (hp : Meets h R E p (fun a s' => Meets h R E (k a) Q s') s) : Meets h R E (p >>= k) Q s := by
  refine ⟨(wp_bind p k Q).mpr (wp_mono hp.wp fun _ _ hk => hk.wp), (safe_bind p k _).mpr ?_⟩
  exact hp.safe.of_run fun a s' hrun _ => (wp_ok hp.wp hrun).safe

theorem Meets.mono {Q' : α → σ → Prop} (hp : Meets h R E p Q s)
    (himp : ∀ a s', Q a s' → Q' a s') : Meets h R E p Q' s :=
  ⟨wp_mono hp.wp himp, hp.safe⟩

theorem Meets.with_run (hp : Meets h R E p Q s) :
    Meets h R E p (fun a s' => run h p s = .ok (a, s') ∧ Q a s') s := by
  refine ⟨?_, hp.safe⟩
  have hwp := hp.wp
  simp only [WP] at hwp ⊢
  cases hr : run h p s with
  | ok r =>
    rw [hr] at hwp
    exact ⟨rfl, hwp⟩
  | error f =>
    rw [hr] at hwp
    exact hwp

end Meets

def inl : Prog Op F α → Prog (fun β => Op β ⊕ Op' β) F α
  | .pure a => .pure a
  | .fault f => .fault f
  | .op o k => .op (.inl o) fun b => inl (k b)

theorem inl_bind (p : Prog Op F α) (k : α → Prog Op F β) :
    ((p >>= k).inl : Prog (fun β => Op β ⊕ Op' β) F β) = p.inl >>= fun a => (k a).inl := by
  induction p with
  | pure a => rfl
  | fault f => rfl
  | op o j ih =>
    change (Prog.op (.inl o) _ : Prog (fun β => Op β ⊕ Op' β) F β) = Prog.op (.inl o) _
    exact congrArg _ (funext ih)

/-- The program with the operations of the second kind answered at once. -/
def answer (r : ∀ β, Op' β → β) : Prog (fun β => Op β ⊕ Op' β) F α → Prog Op F α
  | .pure a => .pure a
  | .fault f => .fault f
  | .op (.inl o) k => .op o fun b => answer r (k b)
  | .op (.inr o) k => answer r (k (r _ o))

theorem answer_inl {r : ∀ β, Op' β → β} (p : Prog Op F α) : answer r p.inl = p := by
  induction p with
  | pure a => rfl
  | fault f => rfl
  | op o k ih => exact congrArg _ (funext ih)

theorem answer_bind {r : ∀ β, Op' β → β} (p : Prog (fun β => Op β ⊕ Op' β) F α)
    (k : α → Prog (fun β => Op β ⊕ Op' β) F β) :
    answer r (p >>= k) = answer r p >>= fun a => answer r (k a) := by
  induction p with
  | pure a => rfl
  | fault f => rfl
  | op o j ih =>
    cases o with
    | inl o => exact congrArg (Prog.op o) (funext ih)
    | inr o => exact ih (r _ o)

theorem Only.inl {P : ∀ β, Op β → Prop} {P' : ∀ β, Op β ⊕ Op' β → Prop}
    (h : ∀ β (o : Op β), P β o → P' β (.inl o)) (hp : Only P p) :
    Only P' (p.inl : Prog (fun β => Op β ⊕ Op' β) F α) := by
  induction p with
  | pure a => trivial
  | fault f => trivial
  | op o k ih => exact ⟨h _ o hp.1, fun b => ih b (hp.2 b)⟩

def lift (f : ∀ β, Op β → Op' β) (e : F → F') : Prog Op F α → Prog Op' F' α
  | .pure a => .pure a
  | .fault x => .fault (e x)
  | .op o k => .op (f _ o) fun b => lift f e (k b)

structure Embeds (h : Handler Op F σ) (h' : Handler Op' F' τ) (f : ∀ β, Op β → Op' β) (e : F → F')
    (get : τ → σ) (put : σ → τ → τ) : Prop where
  op : ∀ β (o : Op β) t, h' β (f β o) t = match h β o (get t) with
    | .ok (b, s) => .ok (b, put s t)
    | .error x => .error (e x)
  get_put : ∀ s t, get (put s t) = s
  put_put : ∀ s s' t, put s' (put s t) = put s' t
  put_get : ∀ t, put (get t) t = t

section Embeds

variable {h : Handler Op F σ} {h' : Handler Op' F' τ} {f : ∀ β, Op β → Op' β} {e : F → F'}
  {get : τ → σ} {put : σ → τ → τ}

section

variable (he : Embeds h h' f e get put)
include he

theorem Embeds.run (p : Prog Op F α) (t : τ) :
    run h' (lift f e p) t = match Prog.run h p (get t) with
      | .ok (a, s) => .ok (a, put s t)
      | .error x => .error (e x) := by
  induction p generalizing t with
  | pure a => simp only [lift, Prog.run, he.put_get]
  | fault x => rfl
  | op o k ih =>
    simp only [lift, Prog.run, he.op]
    cases h _ o (get t) with
    | error x => rfl
    | ok r => simp only [ih, he.get_put, he.put_put]

variable {p : Prog Op F α}

theorem Embeds.wp {E : F' → Prop}
    {Q : α → τ → Prop} {t : τ} (hp : WP h (fun x => E (e x)) p (fun a s => Q a (put s t)) (get t)) :
    WP h' E (lift f e p) Q t := by
  simp only [WP, he.run] at hp ⊢
  cases hr : Prog.run h p (get t) with
  | ok r | error x => rw [hr] at hp; exact hp

theorem Embeds.safe {R : ∀ β, Op β → σ → Prop}
    {R' : ∀ β, Op' β → τ → Prop} (hR : ∀ β (o : Op β) t, R β o (get t) → R' β (f β o) t)
    {t : τ} (hp : Safe h R p (fun _ _ => True) (get t)) :
    Safe h' R' (lift f e p) (fun _ _ => True) t := by
  induction p generalizing t with
  | pure a => trivial
  | fault x => trivial
  | op o k ih =>
    refine ⟨hR _ o t hp.1, fun b t' hok => ih b ?_⟩
    rw [he.op] at hok
    cases hh : h _ o (get t) with
    | error x => rw [hh] at hok; cases hok
    | ok r =>
      rw [hh] at hok
      cases hok
      rw [he.get_put]
      exact hp.2 _ _ hh

theorem Embeds.meets {R : ∀ β, Op β → σ → Prop}
    {R' : ∀ β, Op' β → τ → Prop} (hR : ∀ β (o : Op β) t, R β o (get t) → R' β (f β o) t)
    {E : F' → Prop} {Q : α → τ → Prop} {t : τ}
    (hp : Meets h R (fun x => E (e x)) p (fun a s => Q a (put s t)) (get t)) :
    Meets h' R' E (lift f e p) Q t := ⟨he.wp hp.wp, he.safe hR hp.safe⟩

end

end Embeds

end Xv6.Lib.Prog
