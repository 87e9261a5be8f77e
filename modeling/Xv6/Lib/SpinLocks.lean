import Xv6.Lib.Runs
import Mathlib.Data.List.Nodup
import Mathlib.Order.Nat

/-!
# Spin locks on several CPUs

Every CPU runs either its own scheduler or a thread.
-/

namespace Xv6.Lib.SpinLocks

open Function (update_apply update_of_ne update)

inductive Op (L T : Type*)
  | acquire (l : L)
  | release (l : L)
  | swtch
  | dispatch (t : T)
  | exit
  deriving DecidableEq, Repr

structure State (L C T : Type*) where
  holder : L → Option C
  spin : C → Option L
  ncli : C → ℕ
  cur : C → Option T
  sched : C → List (Op L T)
  rest : T → List (Op L T)
  parked : T → Bool

inductive Event (C S : Type*)
  | call (c : C) (s : S)
  | step (c : C)
  deriving DecidableEq, Repr

variable {L C T S : Type*}

def State.code (s : State L C T) (c : C) : List (Op L T) :=
  match s.cur c with
  | none => s.sched c
  | some t => s.rest t

section Machine

variable [DecidableEq L] [DecidableEq C] [DecidableEq T]

def State.setCode (s : State L C T) (c : C) (ops : List (Op L T)) : State L C T :=
  match s.cur c with
  | none => { s with sched := update s.sched c ops }
  | some t => { s with rest := update s.rest t ops }

def State.take (s : State L C T) (c : C) (l : L) : State L C T :=
  { s with
    holder := update s.holder l (some c)
    spin := update s.spin c none }

def State.startAcquire (s : State L C T) (c : C) (l : L) (ops : List (Op L T)) : State L C T :=
  { s.setCode c ops with
    spin := update s.spin c (some l)
    ncli := update s.ncli c (s.ncli c + 1) }

def State.drop (s : State L C T) (c : C) (l : L) (ops : List (Op L T)) : State L C T :=
  { s.setCode c ops with
    holder := update s.holder l none
    ncli := update s.ncli c (s.ncli c - 1) }

def State.leave (s : State L C T) (c : C) (t : T) (ops : List (Op L T)) : State L C T :=
  { s with
    cur := update s.cur c none
    rest := update s.rest t ops
    parked := update s.parked t true }

def State.enter (s : State L C T) (c : C) (t : T) (ops : List (Op L T)) : State L C T :=
  { s with
    cur := update s.cur c (some t)
    sched := update s.sched c ops
    parked := update s.parked t false }

/-- One operation of CPU `c`. `none` is a lock that is not free yet, or a panic. -/
def stepCpu (m : L) (fresh : List (Op L T)) (s : State L C T) (c : C) : Option (State L C T) :=
  match s.spin c with
  | some l => if s.holder l = none then some (s.take c l) else none
  | none =>
    match s.code c, s.cur c with
    | .acquire l :: ops, _ => if s.holder l = some c then none else some (s.startAcquire c l ops)
    | .release l :: ops, _ =>
      if s.holder l = some c ∧ 0 < s.ncli c then some (s.drop c l ops) else none
    | .swtch :: ops, some t =>
      if s.holder m = some c ∧ s.ncli c = 1 then some (s.leave c t ops) else none
    | .exit :: _, some t =>
      if s.holder m = some c ∧ s.ncli c = 1 then some (s.leave c t fresh) else none
    | .dispatch t :: ops, none => if s.parked t then some (s.enter c t ops) else none
    | _, _ => none

def step (m : L) (fresh : List (Op L T)) (ops : S → List (Op L T)) (s : State L C T) :
    Event C S → Option (State L C T)
  | .call c x => if s.ncli c = 0 then some (s.setCode c (ops x ++ s.code c)) else none
  | .step c => stepCpu m fresh s c

end Machine

def initial (fresh : List (Op L T)) : State L C T where
  holder _ := none
  spin _ := none
  ncli _ := 0
  cur _ := none
  sched _ := []
  rest _ := fresh
  parked _ := true

def State.WaitsFor (s : State L C T) (c c' : C) : Prop :=
  ∃ l, s.spin c = some l ∧ s.holder l = some c'

def State.Deadlock (s : State L C T) : Prop := ∃ c, Relation.TransGen s.WaitsFor c c

section Ordered

variable [DecidableEq L] {rank : L → ℕ} {m : L}

def Ordered (rank : L → ℕ) (m : L) : List L → List (Op L T) → Prop
  | H, [] => H = []
  | H, .acquire l :: ops => (∀ h ∈ H, rank h < rank l) ∧ Ordered rank m (l :: H) ops
  | H, .release l :: ops => l ∈ H ∧ Ordered rank m (H.erase l) ops
  | H, .swtch :: ops => H = [m] ∧ Ordered rank m [m] ops
  | H, .dispatch _ :: ops => H = [m] ∧ Ordered rank m [m] ops
  | H, .exit :: _ => H = [m]

theorem Ordered.append {H : List L} {ops more : List (Op L T)} (h : Ordered rank m H ops)
    (h' : Ordered rank m [] more) : Ordered rank m H (ops ++ more) := by
  induction ops generalizing H with
  | nil =>
    have hH : H = [] := h
    rw [hH]
    exact h'
  | cons op ops ih =>
    cases op with
    | acquire l | release l | swtch | dispatch t => exact ⟨h.1, ih h.2⟩
    | exit => exact h

theorem Ordered.section_append {H : List L} {l : L} {body ops : List (Op L T)}
    (hlt : ∀ h ∈ H, rank h < rank l)
    (hbody : ∀ more, Ordered rank m (l :: H) more → Ordered rank m (l :: H) (body ++ more))
    (hops : Ordered rank m H ops) :
    Ordered rank m H (.acquire l :: (body ++ .release l :: ops)) := by
  refine ⟨hlt, hbody _ ⟨List.mem_cons_self, ?_⟩⟩
  rw [List.erase_cons_head]
  exact hops

end Ordered

structure Inv [DecidableEq L] (rank : L → ℕ) (m : L) (H : C → List L) (s : State L C T) : Prop where
  holder : ∀ l c, s.holder l = some c ↔ l ∈ H c
  ncli : ∀ c, s.ncli c = (H c).length + if (s.spin c).isSome then 1 else 0
  nodup : ∀ c, (H c).Nodup
  code : ∀ c, s.spin c = none → Ordered rank m (H c) (s.code c)
  spin : ∀ c l, s.spin c = some l →
    (∀ h ∈ H c, rank h < rank l) ∧ Ordered rank m (l :: H c) (s.code c)
  sched : ∀ c t, s.cur c = some t → Ordered rank m [m] (s.sched c)
  parked : ∀ t, s.parked t = true → Ordered rank m [m] (s.rest t)
  busy : ∀ c t, s.cur c = some t → s.parked t = false
  alone : ∀ c c' t, s.cur c = some t → s.cur c' = some t → c = c'

theorem initial_inv [DecidableEq L] {rank : L → ℕ} {m : L} {fresh : List (Op L T)}
    (hfresh : Ordered rank m [m] fresh) :
    Inv rank m (fun _ => []) (initial fresh : State L C T) where
  holder l c := by simp [initial]
  ncli c := rfl
  nodup c := List.nodup_nil
  code c _ := rfl
  spin c l h := nomatch h
  sched c t h := nomatch h
  parked t _ := hfresh
  busy c t h := nomatch h
  alone c c' t h := nomatch h

section SetCode

variable [DecidableEq C] [DecidableEq T] (s : State L C T) (c : C) (ops : List (Op L T))

@[simp] theorem setCode_holder : (s.setCode c ops).holder = s.holder := by
  cases h : s.cur c <;> simp [State.setCode, h]

@[simp] theorem setCode_spin : (s.setCode c ops).spin = s.spin := by
  cases h : s.cur c <;> simp [State.setCode, h]

@[simp] theorem setCode_ncli : (s.setCode c ops).ncli = s.ncli := by
  cases h : s.cur c <;> simp [State.setCode, h]

@[simp] theorem setCode_cur : (s.setCode c ops).cur = s.cur := by
  cases h : s.cur c <;> simp [State.setCode, h]

@[simp] theorem setCode_parked : (s.setCode c ops).parked = s.parked := by
  cases h : s.cur c <;> simp [State.setCode, h]

theorem setCode_self : (s.setCode c ops).code c = ops := by
  cases h : s.cur c <;> simp [State.setCode, State.code, h]

theorem setCode_of_ne {c' : C} (hne : c' ≠ c) (h : ∀ t, s.cur c = some t → s.cur c' ≠ some t) :
    (s.setCode c ops).code c' = s.code c' := by
  cases hc : s.cur c with
  | none => cases hc' : s.cur c' <;> simp [State.setCode, State.code, hc, hc', hne]
  | some t =>
    cases hc' : s.cur c' with
    | none => simp [State.setCode, State.code, hc, hc']
    | some t' =>
      have htt : t' ≠ t := by
        intro htt
        subst htt
        exact h t' hc hc'
      simp [State.setCode, State.code, hc, hc', htt]

theorem setCode_sched {c' : C} {t : T} (h : s.cur c' = some t) :
    (s.setCode c ops).sched c' = s.sched c' := by
  cases hc : s.cur c with
  | none =>
    have hne : c' ≠ c := by
      intro he
      rw [he, hc] at h
      cases h
    simp [State.setCode, hc, hne]
  | some t => simp [State.setCode, hc]

theorem setCode_rest {t : T} (h : s.cur c ≠ some t) : (s.setCode c ops).rest t = s.rest t := by
  cases hc : s.cur c with
  | none => simp [State.setCode, hc]
  | some t' =>
    have hne : t ≠ t' := by
      intro he
      rw [hc, he] at h
      exact h rfl
    simp [State.setCode, hc, hne]

end SetCode

section Steps

variable [DecidableEq L] [DecidableEq C] [DecidableEq T] {rank : L → ℕ} {m : L} {H : C → List L} {s s' : State L C T} {c : C} {l : L} {t : T}
  {ops fresh : List (Op L T)}

theorem Inv.setCode_frame (h : Inv rank m H s) (c : C) (ops : List (Op L T)) :
    (∀ c', c' ≠ c → (s.setCode c ops).code c' = s.code c') ∧
    (∀ c' t, s.cur c' = some t → Ordered rank m [m] ((s.setCode c ops).sched c')) ∧
    (∀ t, s.parked t = true → Ordered rank m [m] ((s.setCode c ops).rest t)) := by
  refine ⟨fun c' hne => ?_, fun c' t hc => ?_, fun t ht => ?_⟩
  · exact setCode_of_ne s c ops hne fun t hc hc' => hne (h.alone c' c t hc' hc)
  · rw [setCode_sched s c ops hc]
    exact h.sched c' t hc
  · have : s.cur c ≠ some t := by
      intro hc
      rw [h.busy c t hc] at ht
      cases ht
    rw [setCode_rest s c ops this]
    exact h.parked t ht

theorem Inv.setCode (h : Inv rank m H s) (hspin : s.spin c = none)
    (hops : Ordered rank m (H c) ops) : Inv rank m H (s.setCode c ops) := by
  obtain ⟨hcode, hsched, hrest⟩ := h.setCode_frame c ops
  refine ⟨by simpa using h.holder, by simpa using h.ncli, h.nodup, fun c' hc' => ?_,
    fun c' l hc' => ?_, by simpa using hsched, by simpa using hrest, by simpa using h.busy,
    by simpa using h.alone⟩
  · by_cases hcc : c' = c
    · rw [hcc, setCode_self]
      exact hops
    · rw [hcode c' hcc]
      exact h.code c' (by simpa using hc')
  · have hcc : c' ≠ c := by
      intro he
      rw [he, setCode_spin, hspin] at hc'
      cases hc'
    rw [hcode c' hcc]
    exact h.spin c' l (by simpa using hc')

omit [DecidableEq T] in
theorem Inv.take (h : Inv rank m H s) (hspin : s.spin c = some l) (hfree : s.holder l = none) :
    Inv rank m (update H c (l :: H c)) (s.take c l) := by
  obtain ⟨hlt, hord⟩ := h.spin c l hspin
  have hnot : ∀ c', l ∉ H c' := by
    intro c' hl
    rw [(h.holder l c').mpr hl] at hfree
    cases hfree
  have hcd : ∀ c', (s.take c l).code c' = s.code c' := fun _ => rfl
  refine ⟨fun l' c' => ?_, fun c' => ?_, fun c' => ?_, fun c' hc' => ?_, fun c' l' hc' => ?_,
    h.sched, h.parked, h.busy, h.alone⟩
  · simp only [State.take, update_apply]
    by_cases hl : l' = l <;> by_cases hc : c' = c
    · simp [hl, hc]
    · simp [hl, hc, Ne.symm hc, hnot c']
    · simp [hl, hc, h.holder]
    · simp [hl, hc, h.holder]
  · have hn := h.ncli c'
    simp only [State.take, update_apply]
    by_cases hc : c' = c
    · subst hc
      rw [hspin] at hn
      simpa using hn
    · simpa [hc] using hn
  · by_cases hc : c' = c
    · subst hc
      simpa using ⟨hnot c', h.nodup c'⟩
    · simpa [hc] using h.nodup c'
  · rw [hcd]
    by_cases hc : c' = c
    · subst hc
      simpa using hord
    · simp only [State.take, update_of_ne hc] at hc'
      simpa [hc] using h.code c' hc'
  · have hc : c' ≠ c := by
      intro he
      rw [he] at hc'
      simp [State.take] at hc'
    rw [hcd]
    simp only [State.take, update_of_ne hc] at hc'
    simpa [hc] using h.spin c' l' hc'

theorem Inv.startAcquire (h : Inv rank m H s) (hspin : s.spin c = none)
    (hcode : s.code c = .acquire l :: ops) : Inv rank m H (s.startAcquire c l ops) := by
  have hord : Ordered rank m (H c) (.acquire l :: ops) := hcode ▸ h.code c hspin
  obtain ⟨hother, hsched, hrest⟩ := h.setCode_frame c ops
  have hcd : ∀ c', (s.startAcquire c l ops).code c' = (s.setCode c ops).code c' := fun _ => rfl
  refine ⟨by simpa [State.startAcquire] using h.holder, fun c' => ?_, h.nodup, fun c' hc' => ?_,
    fun c' l' hc' => ?_, ?_, ?_, ?_, ?_⟩
  · have hn := h.ncli c'
    simp only [State.startAcquire, update_apply]
    by_cases hc : c' = c
    · subst hc
      rw [hspin] at hn
      simpa using hn
    · simpa [hc] using hn
  · have hc : c' ≠ c := by
      intro he
      rw [he] at hc'
      simp [State.startAcquire] at hc'
    rw [hcd, hother c' hc]
    simp only [State.startAcquire, update_of_ne hc] at hc'
    exact h.code c' hc'
  · by_cases hc : c' = c
    · subst hc
      have hl : l = l' := by simpa [State.startAcquire] using hc'
      subst hl
      rw [hcd, setCode_self]
      exact hord
    · rw [hcd, hother c' hc]
      simp only [State.startAcquire, update_of_ne hc] at hc'
      exact h.spin c' l' hc'
  · simpa [State.startAcquire] using hsched
  · simpa [State.startAcquire] using hrest
  · simpa [State.startAcquire] using h.busy
  · simpa [State.startAcquire] using h.alone

theorem Inv.drop (h : Inv rank m H s) (hspin : s.spin c = none)
    (hcode : s.code c = .release l :: ops) :
    Inv rank m (update H c ((H c).erase l)) (s.drop c l ops) := by
  obtain ⟨hmem, hord⟩ : l ∈ H c ∧ Ordered rank m ((H c).erase l) ops :=
    (hcode ▸ h.code c hspin : Ordered rank m (H c) (.release l :: ops))
  obtain ⟨hother, hsched, hrest⟩ := h.setCode_frame c ops
  have hcd : ∀ c', (s.drop c l ops).code c' = (s.setCode c ops).code c' := fun _ => rfl
  have hheld := (h.holder l c).mpr hmem
  refine ⟨fun l' c' => ?_, fun c' => ?_, fun c' => ?_, fun c' hc' => ?_, fun c' l' hc' => ?_,
    ?_, ?_, ?_, ?_⟩
  · simp only [State.drop, update_apply]
    by_cases hl : l' = l <;> by_cases hc : c' = c
    · simp [hl, hc, (h.nodup c).not_mem_erase]
    · have hnot : l ∉ H c' := by
        intro hm
        have := (h.holder l c').mpr hm
        rw [hheld] at this
        exact hc (Option.some.inj this).symm
      simp [hl, hc, hnot]
    · simp [hl, hc, h.holder, List.mem_erase_of_ne]
    · simp [hl, hc, h.holder]
  · have hn := h.ncli c'
    simp only [State.drop, update_apply, setCode_spin]
    by_cases hc : c' = c
    · subst hc
      rw [hspin] at hn ⊢
      have hpos := List.length_pos_of_mem hmem
      simp only [if_true, List.length_erase_of_mem hmem, hn]
      simp
    · simpa [hc] using hn
  · by_cases hc : c' = c
    · subst hc
      simpa using (h.nodup c').erase l
    · simpa [hc] using h.nodup c'
  · have hc'' : s.spin c' = none := by simpa [State.drop] using hc'
    by_cases hc : c' = c
    · subst hc
      rw [hcd, setCode_self]
      simpa using hord
    · rw [hcd, hother c' hc]
      simpa [hc] using h.code c' hc''
  · have hc'' : s.spin c' = some l' := by simpa [State.drop] using hc'
    have hc : c' ≠ c := by
      intro he
      rw [he, hspin] at hc''
      cases hc''
    rw [hcd, hother c' hc]
    simpa [hc] using h.spin c' l' hc''
  · simpa [State.drop] using hsched
  · simpa [State.drop] using hrest
  · simpa [State.drop] using h.busy
  · simpa [State.drop] using h.alone

theorem leave_code_of_ne (h : Inv rank m H s) (hcur : s.cur c = some t) {c' : C} (hc : c' ≠ c) :
    (s.leave c t ops).code c' = s.code c' := by
  simp only [State.leave, State.code, update_of_ne hc]
  cases hc' : s.cur c' with
  | none => rfl
  | some t' =>
    have htt : t' ≠ t := by
      intro htt
      subst htt
      exact hc (h.alone c' c t' hc' hcur)
    simp [update_of_ne htt]

theorem Inv.leave (h : Inv rank m H s) (hspin : s.spin c = none) (hcur : s.cur c = some t)
    (hH : H c = [m]) (hops : Ordered rank m [m] ops) : Inv rank m H (s.leave c t ops) := by
  refine ⟨h.holder, h.ncli, h.nodup, fun c' hc' => ?_, fun c' l hc' => ?_, fun c' t' hc' => ?_,
    fun t' ht' => ?_, fun c' t' hc' => ?_, fun c' c'' t' hc' hc'' => ?_⟩
  · by_cases hc : c' = c
    · subst hc
      have hself : (s.leave c' t ops).code c' = s.sched c' := by simp [State.leave, State.code]
      rw [hself, hH]
      exact h.sched c' t hcur
    · rw [leave_code_of_ne h hcur hc]
      exact h.code c' hc'
  · have hc : c' ≠ c := by
      intro he
      have hs : s.spin c' = some l := hc'
      rw [he, hspin] at hs
      cases hs
    rw [leave_code_of_ne h hcur hc]
    exact h.spin c' l hc'
  all_goals simp only [State.leave, update_apply] at *
  · split_ifs at hc' with hc
    exact h.sched c' t' hc'
  · split_ifs at ht' ⊢ with htt
    · exact hops
    · exact h.parked t' ht'
  · split_ifs at hc' with hc
    have htt : t' ≠ t := by
      intro htt
      subst htt
      exact hc (h.alone c' c t' hc' hcur)
    simp only [htt, if_false]
    exact h.busy c' t' hc'
  · split_ifs at hc' hc'' with h1 h2
    exact h.alone c' c'' t' hc' hc''

theorem Inv.enter (h : Inv rank m H s) (hspin : s.spin c = none) (hcur : s.cur c = none)
    (hH : H c = [m]) (hpark : s.parked t = true) (hops : Ordered rank m [m] ops) :
    Inv rank m H (s.enter c t ops) := by
  have hnot : ∀ c', s.cur c' ≠ some t := by
    intro c' hc'
    rw [h.busy c' t hc'] at hpark
    cases hpark
  have hself : (s.enter c t ops).code c = s.rest t := by simp [State.enter, State.code]
  have hother : ∀ c', c' ≠ c → (s.enter c t ops).code c' = s.code c' := by
    intro c' hc
    simp only [State.enter, State.code, update_of_ne hc]
  refine ⟨h.holder, h.ncli, h.nodup, fun c' hc' => ?_, fun c' l hc' => ?_, fun c' t' hc' => ?_,
    fun t' ht' => ?_, fun c' t' hc' => ?_, fun c' c'' t' hc' hc'' => ?_⟩
  · by_cases hc : c' = c
    · subst hc
      rw [hself, hH]
      exact h.parked t hpark
    · rw [hother c' hc]
      exact h.code c' hc'
  · have hc : c' ≠ c := by
      intro he
      have hs : s.spin c' = some l := hc'
      rw [he, hspin] at hs
      cases hs
    rw [hother c' hc]
    exact h.spin c' l hc'
  all_goals simp only [State.enter, update_apply] at *
  · split_ifs at hc' ⊢ with hc
    · exact hops
    · exact h.sched c' t' hc'
  · split_ifs at ht' with htt
    exact h.parked t' ht'
  · split_ifs at hc' with hc
    · simp [Option.some.inj hc']
    · have htt : t' ≠ t := by
        intro htt
        exact hnot c' (htt ▸ hc')
      simp only [htt, if_false]
      exact h.busy c' t' hc'
  · split_ifs at hc' hc'' with h1 h2 h2
    · rw [h1, h2]
    · exact absurd (Option.some.inj hc' ▸ hc'') (hnot c'')
    · exact absurd (Option.some.inj hc'' ▸ hc') (hnot c')
    · exact h.alone c' c'' t' hc' hc''

theorem Inv.stepCpu (hfresh : Ordered rank m [m] fresh) (h : Inv rank m H s)
    (hstep : stepCpu m fresh s c = some s') : ∃ H', Inv rank m H' s' := by
  simp only [SpinLocks.stepCpu] at hstep
  cases hspin : s.spin c with
  | some l =>
    simp only [hspin] at hstep
    split_ifs at hstep with hfree
    cases hstep
    exact ⟨_, h.take hspin hfree⟩
  | none =>
    simp only [hspin] at hstep
    have hcode := h.code c hspin
    split at hstep
    · rename_i l ops hc
      split_ifs at hstep
      cases hstep
      exact ⟨H, h.startAcquire hspin hc⟩
    · rename_i l ops hc
      split_ifs at hstep
      cases hstep
      exact ⟨_, h.drop hspin hc⟩
    · rename_i ops t hc hcur
      split_ifs at hstep
      cases hstep
      rw [hc] at hcode
      exact ⟨H, h.leave hspin hcur hcode.1 hcode.2⟩
    · rename_i ops t hc hcur
      split_ifs at hstep
      cases hstep
      rw [hc] at hcode
      exact ⟨H, h.leave hspin hcur hcode hfresh⟩
    · rename_i t ops hc hcur
      split_ifs at hstep with hpark
      cases hstep
      rw [hc] at hcode
      exact ⟨H, h.enter hspin hcur hcode.1 hpark hcode.2⟩
    · cases hstep

theorem Inv.call (h : Inv rank m H s) (hncli : s.ncli c = 0) (hops : Ordered rank m [] ops) :
    Inv rank m H (s.setCode c (ops ++ s.code c)) := by
  have hn := h.ncli c
  rw [hncli] at hn
  have hH : H c = [] := List.length_eq_zero_iff.mp (by omega)
  have hspin : s.spin c = none := by
    cases hs : s.spin c with
    | none => rfl
    | some l =>
      rw [hs] at hn
      simp at hn
  have hcode := h.code c hspin
  rw [hH] at hcode
  refine h.setCode hspin ?_
  rw [hH]
  exact hops.append hcode

end Steps

section Chain

variable [DecidableEq L] {rank : L → ℕ} {m : L} {H : C → List L} {s : State L C T}

theorem Inv.chain (h : Inv rank m H s) {c c' : C} (hchain : Relation.TransGen s.WaitsFor c c') :
    ∃ l l', s.spin c = some l ∧ l' ∈ H c' ∧ rank l ≤ rank l' := by
  induction hchain with
  | single hw =>
    obtain ⟨l, hl, hc⟩ := hw
    exact ⟨l, l, hl, (h.holder l _).mp hc, le_refl _⟩
  | tail _ hw ih =>
    obtain ⟨l, l', hl, hl', hle⟩ := ih
    obtain ⟨l'', hl'', hc⟩ := hw
    exact ⟨l, l'', hl, (h.holder l'' _).mp hc, hle.trans (le_of_lt ((h.spin _ l'' hl'').1 l' hl'))⟩

theorem Inv.no_deadlock (h : Inv rank m H s) : ¬s.Deadlock := by
  intro ⟨c, hc⟩
  obtain ⟨l, l', hl, hl', hle⟩ := h.chain hc
  exact absurd ((h.spin c l hl).1 l' hl') (not_lt.mpr hle)

end Chain

theorem run_no_deadlock [DecidableEq L] [DecidableEq C] [DecidableEq T] {rank : L → ℕ} {m : L} {fresh : List (Op L T)} {ops : S → List (Op L T)}
    (hfresh : Ordered rank m [m] fresh) {es : List (Event C S)} {s : State L C T}
    (hC : Runs.Meets (step m fresh ops)
      (fun _ e => ∀ c x, e = .call c x → Ordered rank m [] (ops x)) (initial fresh) es)
    (hrun : Runs.exec (step m fresh ops) (initial fresh) es = some s) : ¬s.Deadlock := by
  have hI := Runs.exec_preserves (step m fresh ops) (I := fun s => ∃ H, Inv rank m H s)
    (fun s e s' ⟨H, h⟩ hC hstep => by
      cases e with
      | call c x =>
        simp only [step] at hstep
        split_ifs at hstep with hncli
        cases hstep
        exact ⟨H, h.call hncli (hC c x rfl)⟩
      | step c => exact h.stepCpu hfresh hstep)
    ⟨_, initial_inv hfresh⟩ hC hrun
  obtain ⟨H, h⟩ := hI
  exact h.no_deadlock

end Xv6.Lib.SpinLocks
