import Xv6.Lib.Runs
import Xv6.Vm.Copy

/-!
# The address spaces of all processes

`copyuvm` (for `fork`), `growproc` and `freevm` (for `wait`), one call after the other.
-/

namespace Xv6.Vm.Processes

open Lib
open Function (update update_of_ne)

abbrev Table := Fin NPROC → Option (Frame × ℕ)

inductive Call
  | copyuvm (p np : Fin NPROC)
  | growproc (p : Fin NPROC) (n : Word)
  | freevm (p : Fin NPROC)

def Call.of : Call → Fin NPROC
  | copyuvm p _ | growproc p _ | freevm p => p

def Call.slot : Call → Fin NPROC
  | copyuvm _ p | growproc p _ | freevm p => p

def Call.prog (K : Image) (pgdir : Frame) (sz : ℕ) : Call → VmProg (Option (Frame × ℕ))
  | copyuvm _ _ => do
    match ← Vm.copyuvm K pgdir sz with
    | none => pure none
    | some d => pure (some (d, sz))
  | growproc _ n => do
    let r ← Vm.growproc pgdir sz n
    pure (some (pgdir, r.getD sz))
  | freevm _ => do
    Vm.freevm pgdir
    pure none

structure Machine where
  mem : Kmem
  proc : Table

def step (K : Image) (s : Machine) (c : Call) : Option Machine :=
  match s.proc c.of with
  | none => none
  | some (pgdir, sz) =>
    match (c.prog K pgdir sz).run (perform K) s.mem with
    | .ok (x, m) => some ⟨m, update s.proc c.slot x⟩
    | .error _ => none

def Allowed (s : Machine) (c : Call) : Prop :=
  ∃ pgdir sz, s.proc c.of = some (pgdir, sz) ∧
    match c with
    | .copyuvm _ np => s.proc np = none
    | .growproc _ n => n.toInt < 0 → (sz + n.toNat) % 2 ^ 32 ≠ 0
    | .freevm _ => True

variable {K : Image} {E : Panic → Prop} {m m' : Kmem} {ρ ρ' ρ₀ : Roles} {o : Owner} {c : Call}
  {d : Frame} {p q : Fin NPROC} {sz v : ℕ} {T : Table} {n : Word} {s : Machine}

def Has (m : Kmem) (ρ : Roles) (p : Fin NPROC) : Option (Frame × ℕ) → Prop
  | none => NoSpace ρ (.proc p)
  | some (d, sz) => Space m ρ (.proc p) d none ∧ Fills m d sz ∧ sz < KERNBASE

def Accounted (K : Image) (ρ₀ : Roles) (s : Machine) : Prop :=
  ∃ ρ, Books K s.mem ρ ∧ (∀ p, Has s.mem ρ p (s.proc p)) ∧
    ∀ f r, r ≠ .free → (∀ p, ¬ r.Of (.proc p)) → (ρ f = some r ↔ ρ₀ f = some r)

def Isolated (c : Call) (s s' : Machine) : Prop :=
  ∀ q d sz, s.proc q = some (d, sz) → q ≠ c.slot →
    s'.proc q = some (d, sz) ∧ ∀ v < 2 ^ 19, s'.mem.mapped d v = s.mem.mapped d v

theorem pte_ne_none_of_mapped (h : m'.mapped d v = m.mapped d v) :
    m'.pte d v ≠ none ↔ m.pte d v ≠ none := by
  have := congrArg Option.isNone h
  simp only [Kmem.mapped, Option.isNone_map] at this
  rw [ne_eq, ne_eq, ← Option.isNone_iff_eq_none, ← Option.isNone_iff_eq_none, this]

theorem Has.keeps {y : Option (Frame × ℕ)} (h : Has m ρ p y) (hk : Keeps (.proc q) m ρ m' ρ')
    (hne : p ≠ q) : Has m' ρ' p y := by
  have hne' : Owner.proc p ≠ .proc q := fun heq => hne (Owner.proc.inj heq)
  cases y with
  | none => exact fun f pl hf => h f pl ((hk.role f (.space _ pl) (by simp) hne').mp hf)
  | some y =>
    obtain ⟨hs, hfill, hsz⟩ := h
    refine ⟨hs.of_keeps hk hne', fun v hv => ?_, hsz⟩
    exact (pte_ne_none_of_mapped (hs.mapped_keeps hk hne' hv)).trans (hfill v hv)

theorem Grown.fills {r : Option ℕ} (h : Grown m m' d sz n r) (hfill : Fills m d sz)
    (hsz : sz < KERNBASE) : Fills m' d (r.getD sz) ∧ r.getD sz < KERNBASE := by
  cases r with
  | some sz' => exact ⟨h.2.2.1, h.2.1⟩
  | none => exact ⟨fun v hv => (pte_ne_none_of_mapped (h v hv)).trans (hfill v hv), hsz⟩

theorem w_prog (hb : Books K m ρ) (hT : ∀ p, Has m ρ p (T p)) (hp : T c.of = some (d, sz))
    (hc : Allowed ⟨m, T⟩ c) : W (perform K) E (c.prog K d sz)
      (fun x m' => ∃ ρ', Books K m' ρ' ∧ Keeps (.proc c.slot) m ρ m' ρ' ∧ Has m' ρ' c.slot x) m := by
  obtain ⟨hs, hfill, hsz⟩ : Has m ρ c.of (some (d, sz)) := hp ▸ hT c.of
  obtain ⟨d₀, sz₀, hp₀, hc⟩ := hc
  obtain ⟨rfl, rfl⟩ := Prod.mk.inj (Option.some.inj (hp.symm.trans hp₀))
  cases c with
  | growproc p n =>
    rw [Call.prog, w_bind]
    refine w_growproc ⟨hs, hb⟩ hsz hfill (fun _ r m' ρ' ha hk hgrown => ?_) (fun hpos hzero => ?_)
      fun _ _ => ⟨ρ, hb, .refl _ m ρ, hs, hfill, hsz⟩
    · exact ⟨ρ', ha.books, hk, ha.toSpace, Grown.fills hgrown hfill hsz⟩
    · refine absurd ?_ (hc (by omega))
      have := grown_size (n := n) hsz
      rw [if_neg (by omega)] at this
      omega
  | freevm p =>
    rw [Call.prog, w_bind]
    exact w_freevm ⟨hs, hb⟩ fun m' ρ' hb' hno hk => ⟨ρ', hb', hk, hno⟩
  | copyuvm p q =>
    have hne : Owner.proc p ≠ .proc q := by
      intro heq
      rw [← Owner.proc.inj heq] at hc
      exact absurd (hc.symm.trans hp) (by simp)
    have hsrc : ∀ v, v * PGSIZE < sz → m.pte d v ≠ none := fun v hv =>
      (hfill v (by simp only [PGSIZE, KERNBASE] at *; omega)).mpr ((lt_pgroundup_iff hsz.le).mpr hv)
    rw [Call.prog, w_bind]
    refine w_copyuvm hb hs (show Has m ρ q none from hc ▸ hT q) hne hsz.le hsrc
      (fun m' ρ' hb' hno hk _ => ⟨ρ', hb', hk, hno⟩) fun d' m' ρ' ha hk hall hrest => ?_
    refine ⟨ρ', ha.books, hk, ha.toSpace, fun v hv => ?_, hsz⟩
    rw [lt_pgroundup_iff hsz.le]
    by_cases hvs : v * PGSIZE < sz
    · obtain ⟨w, hw⟩ := Option.ne_none_iff_exists'.mp (hsrc v hvs)
      obtain ⟨g, -, hg, -⟩ := hall v hvs w hw
      exact iff_of_true (by rw [hg]; simp) hvs
    · rw [hrest v (by omega) (by omega), kernelPte_user K hv]
      exact iff_of_false (by simp) hvs

theorem step_accounted (h : Accounted K ρ₀ s) (hc : Allowed s c) :
    ∃ s', step K s c = some s' ∧ Accounted K ρ₀ s' ∧ Isolated c s s' := by
  obtain ⟨ρ, hb, hT, hrest⟩ := h
  obtain ⟨d, sz, hp, -⟩ := id hc
  obtain ⟨x, m, hrun, ρ', hb', hk, hx⟩ := Prog.wp_returns (w_prog hb hT hp hc)
  refine ⟨⟨m, update s.proc c.slot x⟩, by simp only [step, hp, hrun],
    ⟨ρ', hb', fun q => ?_, fun f r hr ho => ?_⟩, fun q d sz hq hne => ?_⟩
  · by_cases hq : q = c.slot
    · simpa [hq] using hx
    · simpa [hq] using (hT q).keeps hk hq
  · exact (hk.role f r hr (ho c.slot)).trans (hrest f r hr ho)
  · have hs := hT q
    rw [hq] at hs
    exact ⟨(update_of_ne hne _ _).trans hq,
      fun v hv => hs.1.mapped_keeps hk (fun heq => hne (Owner.proc.inj heq)) hv⟩

/-- Over any allowed calls no frame is lost or has two roles, and processes are isolated. -/
theorem frames_accounted {cs : List Call} (h : Accounted K ρ₀ s)
    (hcs : Runs.Meets (step K) Allowed s cs) :
    ∃ s', Runs.exec (step K) s cs = some s' ∧ Accounted K ρ₀ s' ∧
      ∀ c, Allowed s' c → ∃ s'', step K s' c = some s'' ∧ Isolated c s' s'' := by
  obtain ⟨s', hrun, h'⟩ := Runs.exec_progress (step K) (I := Accounted K ρ₀) (fun s c h hc => by
    obtain ⟨s', hs', h', -⟩ := step_accounted h hc
    exact ⟨s', hs', h'⟩) h hcs
  refine ⟨s', hrun, h', fun c hc => ?_⟩
  obtain ⟨s'', hs'', -, hiso⟩ := step_accounted h' hc
  exact ⟨s'', hs'', hiso⟩

def oneProc : Machine := ⟨onePage, fun p => if p = 0 then some (512, PGSIZE) else none⟩

theorem frames_accounted_oneProc : ∃ ρ s', Accounted smallImage ρ oneProc ∧
    Runs.exec (step smallImage) oneProc [.copyuvm 0 1] = some s' ∧ Accounted smallImage ρ s' := by
  obtain ⟨⟨ρ, ha, hno⟩, -⟩ := onePage_at
  have hstart : Accounted smallImage ρ oneProc := by
    refine ⟨ρ, ha.books, fun p => ?_, fun _ _ _ _ => Iff.rfl⟩
    by_cases h0 : p = 0
    · subst h0
      exact ⟨ha.toSpace, onePage_fills, by decide⟩
    · simp only [oneProc, h0, if_false]
      exact hno (.proc p) (by simpa using h0)
  have hcs : Runs.Meets (step smallImage) Allowed oneProc [.copyuvm 0 1] :=
    ⟨⟨512, PGSIZE, rfl, rfl⟩, fun _ _ => trivial⟩
  obtain ⟨s', hrun, h, -⟩ := frames_accounted hstart hcs
  exact ⟨ρ, s', hstart, hrun, h⟩

end Xv6.Vm.Processes
