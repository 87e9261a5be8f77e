import Xv6.Lib.Runs
import Mathlib.Tactic

/-!
# Monitors with `sleep` and `wakeup`

Any number of processes run code over a shared state `σ` under one spin lock. `body` says what a
process at location `l` does next with the lock held.
-/

namespace Xv6.Lib.Monitor

variable {P L C σ : Type*}

inductive Act (L C σ : Type*)
  | goto (l : L) (x : σ)
  | wakeup (c : C) (l : L)
  | sleep (c : C) (l : L)
  | release (l : L) (x : σ)

inductive Place (L C : Type*)
  | out (l : L)
  | wait (l : L)
  | inside (l : L)
  | falling (c : C) (l : L)
  | asleep (c : C) (l : L)
  deriving DecidableEq

def Place.loc : Place L C → L
  | .out l | .wait l | .inside l | .falling _ l | .asleep _ l => l

structure State (P L C σ : Type*) where
  place : P → Place L C
  lock : Option P
  ptable : Option P
  killed : P → Bool
  shared : σ

inductive Event (P L : Type*)
  | call (p : P) (l : L)
  | acquire (p : P)
  | run (p : P)
  | fall (p : P)
  | kill (p : P)

structure Code (P L C σ : Type*) where
  entry : L → Bool
  body : P → Bool → L → σ → Act L C σ

def Place.rouse [DecidableEq C] (c : C) : Place L C → Place L C
  | .asleep c' l => if c' = c then .wait l else .asleep c' l
  | x => x

def Place.rouseAny : Place L C → Place L C
  | .asleep _ l => .wait l
  | x => x

section

variable {c : C} {l : L} (x : Place L C)

theorem rouseAny_inside : x.rouseAny = .inside l ↔ x = .inside l := by
  cases x <;> simp [Place.rouseAny]

theorem rouseAny_falling : x.rouseAny = .falling c l ↔ x = .falling c l := by
  cases x <;> simp [Place.rouseAny]

theorem rouseAny_asleep : x.rouseAny ≠ .asleep c l := by
  cases x <;> simp [Place.rouseAny]

theorem rouseAny_loc : x.rouseAny.loc = x.loc := by
  cases x <;> rfl

theorem rouse_loc [DecidableEq C] : (x.rouse c).loc = x.loc := by
  cases x with
  | asleep c' l =>
    simp only [Place.rouse]
    split_ifs <;> rfl
  | out l | wait l | inside l | falling c' l => rfl

end

variable [DecidableEq P] [DecidableEq C]

def State.set (s : State P L C σ) (p : P) (x : Place L C) : State P L C σ :=
  { s with place := Function.update s.place p x }

def State.wakeup (s : State P L C σ) (c : C) : State P L C σ :=
  { s with place := fun p => (s.place p).rouse c }

def act (s : State P L C σ) (p : P) : Act L C σ → Option (State P L C σ)
  | .goto l x => some { s.set p (.inside l) with shared := x }
  | .wakeup c l => if s.ptable = none then some ((s.wakeup c).set p (.inside l)) else none
  | .sleep c l =>
    if s.ptable = none then some { s.set p (.falling c l) with lock := none, ptable := some p }
    else none
  | .release l x => some { s.set p (.out l) with lock := none, shared := x }

def step (code : Code P L C σ) (s : State P L C σ) : Event P L → Option (State P L C σ)
  | .call p l =>
    match s.place p with
    | .out _ => if code.entry l then some (s.set p (.wait l)) else none
    | _ => none
  | .acquire p =>
    match s.place p with
    | .wait l => if s.lock = none then some { s.set p (.inside l) with lock := some p } else none
    | _ => none
  | .run p =>
    match s.place p with
    | .inside l => act s p (code.body p (s.killed p) l s.shared)
    | _ => none
  | .fall p =>
    match s.place p with
    | .falling c l => some { s.set p (.asleep c l) with ptable := none }
    | _ => none
  | .kill p =>
    if s.ptable = none then
      some { s.set p (s.place p).rouseAny with killed := Function.update s.killed p true }
    else none

def initial (l : L) (x : σ) : State P L C σ := ⟨fun _ => .out l, none, none, fun _ => false, x⟩

inductive Steps (code : Code P L C σ) (s : State P L C σ) : Event P L → State P L C σ → Prop
  | call (p : P) (l₀ l : L) (hp : s.place p = .out l₀) (hl : code.entry l = true) :
      Steps code s (.call p l) (s.set p (.wait l))
  | acquire (p : P) (l : L) (hp : s.place p = .wait l) (hfree : s.lock = none) :
      Steps code s (.acquire p) { s.set p (.inside l) with lock := some p }
  | goto (p : P) (l l' : L) (x : σ) (hp : s.place p = .inside l)
      (hb : code.body p (s.killed p) l s.shared = .goto l' x) :
      Steps code s (.run p) { s.set p (.inside l') with shared := x }
  | wakeup (p : P) (l : L) (c : C) (l' : L) (hp : s.place p = .inside l)
      (hb : code.body p (s.killed p) l s.shared = .wakeup c l') (hfree : s.ptable = none) :
      Steps code s (.run p) ((s.wakeup c).set p (.inside l'))
  | sleep (p : P) (l : L) (c : C) (l' : L) (hp : s.place p = .inside l)
      (hb : code.body p (s.killed p) l s.shared = .sleep c l') (hfree : s.ptable = none) :
      Steps code s (.run p) { s.set p (.falling c l') with lock := none, ptable := some p }
  | release (p : P) (l l' : L) (x : σ) (hp : s.place p = .inside l)
      (hb : code.body p (s.killed p) l s.shared = .release l' x) :
      Steps code s (.run p) { s.set p (.out l') with lock := none, shared := x }
  | fall (p : P) (c : C) (l : L) (hp : s.place p = .falling c l) :
      Steps code s (.fall p) { s.set p (.asleep c l) with ptable := none }
  | kill (p : P) (hfree : s.ptable = none) :
      Steps code s (.kill p)
        { s.set p (s.place p).rouseAny with killed := Function.update s.killed p true }

theorem step_cases {code : Code P L C σ} {s t : State P L C σ} {e : Event P L}
    (h : step code s e = some t) : Steps code s e t := by
  cases e with
  | call p l =>
    simp only [step] at h
    split at h
    next l₀ hp =>
      split_ifs at h with hl
      cases h
      exact .call p l₀ l hp hl
    · cases h
  | acquire p =>
    simp only [step] at h
    split at h
    next l hp =>
      split_ifs at h with hfree
      cases h
      exact .acquire p l hp hfree
    · cases h
  | run p =>
    simp only [step] at h
    split at h
    next l hp =>
      cases hb : code.body p (s.killed p) l s.shared with
      | goto l' x =>
        rw [hb] at h
        cases h
        exact .goto p l l' x hp hb
      | wakeup c l' =>
        rw [hb] at h
        simp only [act] at h
        split_ifs at h with hfree
        cases h
        exact .wakeup p l c l' hp hb hfree
      | sleep c l' =>
        rw [hb] at h
        simp only [act] at h
        split_ifs at h with hfree
        cases h
        exact .sleep p l c l' hp hb hfree
      | release l' x =>
        rw [hb] at h
        cases h
        exact .release p l l' x hp hb
    · cases h
  | fall p =>
    simp only [step] at h
    split at h
    next c l hp =>
      cases h
      exact .fall p c l hp
    · cases h
  | kill p =>
    simp only [step] at h
    split_ifs at h with hfree
    cases h
    exact .kill p hfree

section Places

variable {s : State P L C σ} {p q : P} {c : C} {l : L} {x : Place L C}

omit [DecidableEq C] in
theorem set_place : (s.set p x).place q = if q = p then x else s.place q :=
  Function.update_apply _ _ _ _

omit [DecidableEq P] in
theorem wakeup_place_inside : (s.wakeup c).place q = .inside l ↔ s.place q = .inside l := by
  simp only [State.wakeup]
  cases s.place q with
  | asleep c' l' =>
    simp only [Place.rouse]
    split_ifs <;> simp
  | out l' | wait l' | inside l' | falling c' l' => rfl

omit [DecidableEq P] in
theorem wakeup_place_falling {c' : C} :
    (s.wakeup c).place q = .falling c' l ↔ s.place q = .falling c' l := by
  simp only [State.wakeup]
  cases s.place q with
  | asleep c₀ l' =>
    simp only [Place.rouse]
    split_ifs <;> simp
  | out l' | wait l' | inside l' | falling c₀ l' => rfl

omit [DecidableEq P] in
theorem wakeup_place_asleep {c' : C} (h : (s.wakeup c).place q = .asleep c' l) :
    s.place q = .asleep c' l ∧ c' ≠ c := by
  simp only [State.wakeup] at h
  cases hq : s.place q with
  | asleep c₀ l' =>
    simp only [hq, Place.rouse] at h
    split_ifs at h with hc
    cases h
    exact ⟨rfl, hc⟩
  | out l' | wait l' | inside l' | falling c₀ l' =>
    simp only [hq, Place.rouse] at h
    cases h

end Places

structure Mutex (s : State P L C σ) : Prop where
  lock : ∀ p, s.lock = some p ↔ ∃ l, s.place p = .inside l
  ptable : ∀ p, s.ptable = some p ↔ ∃ c l, s.place p = .falling c l

omit [DecidableEq P] [DecidableEq C] in
theorem Mutex.initial (l : L) (x : σ) : Mutex (initial l x : State P L C σ) := by
  constructor <;> simp [Monitor.initial]

variable {code : Code P L C σ} {s t : State P L C σ} {e : Event P L}

omit [DecidableEq P] [DecidableEq C] in
theorem Mutex.inside_unique (h : Mutex s) {p q : P} {l m : L} (hp : s.place p = .inside l)
    (hq : s.place q = .inside m) : p = q :=
  Option.some.inj (((h.lock p).mpr ⟨l, hp⟩).symm.trans ((h.lock q).mpr ⟨m, hq⟩))

omit [DecidableEq P] [DecidableEq C] in
theorem Mutex.not_inside (h : Mutex s) (hfree : s.lock = none) (p : P) (l : L) :
    s.place p ≠ .inside l := by
  intro hp
  rw [(h.lock p).mpr ⟨l, hp⟩] at hfree
  cases hfree

omit [DecidableEq C] in
theorem Mutex.set {p : P} {x : Place L C} (h : Mutex s) (hplace : t.place = (s.set p x).place)
    (hl : t.lock = some p ↔ ∃ l, x = .inside l) (hl' : ∀ q ≠ p, t.lock = some q ↔ s.lock = some q)
    (hp : t.ptable = some p ↔ ∃ c l, x = .falling c l)
    (hp' : ∀ q ≠ p, t.ptable = some q ↔ s.ptable = some q) : Mutex t := by
  constructor
  · intro q
    rw [hplace, set_place]
    split_ifs with hq
    · rw [hq, hl]
    · rw [hl' q hq, h.lock]
  · intro q
    rw [hplace, set_place]
    split_ifs with hq
    · rw [hq, hp]
    · rw [hp' q hq, h.ptable]

theorem Mutex.step (h : Mutex s) (hstep : Steps code s e t) : Mutex t := by
  cases hstep with
  | call p l₀ l hp hl | goto p l l' x hp hb =>
    exact h.set rfl (by simpa [State.set, hp] using h.lock p) (fun _ _ => Iff.rfl)
      (by simpa [State.set, hp] using h.ptable p) fun _ _ => Iff.rfl
  | acquire p l hp hfree =>
    exact h.set rfl (by simp) (fun q hq => by simp [hfree, hq.symm])
      (by simpa [State.set, hp] using h.ptable p) fun _ _ => Iff.rfl
  | wakeup p l c l' hp hb hfree =>
    have hw : Mutex (s.wakeup c) :=
      ⟨fun q => (h.lock q).trans (by simp only [wakeup_place_inside]),
        fun q => (h.ptable q).trans (by simp only [wakeup_place_falling])⟩
    exact hw.set rfl (by simpa [State.set, State.wakeup, hp] using h.lock p) (fun _ _ => Iff.rfl)
      (by simpa [State.set, State.wakeup, hp] using h.ptable p) fun _ _ => Iff.rfl
  | sleep p l c l' hp hb hfree =>
    have hown : s.lock = some p := (h.lock p).mpr ⟨l, hp⟩
    exact h.set rfl (by simp) (fun q hq => by simp [hown, hq.symm]) (by simp)
      fun q hq => by simp [hfree, hq.symm]
  | release p l l' x hp hb =>
    have hown : s.lock = some p := (h.lock p).mpr ⟨l, hp⟩
    exact h.set rfl (by simp) (fun q hq => by simp [hown, hq.symm])
      (by simpa [State.set, hp] using h.ptable p) fun _ _ => Iff.rfl
  | fall p c l hp =>
    have hown : s.ptable = some p := (h.ptable p).mpr ⟨c, l, hp⟩
    exact h.set rfl (by simpa [State.set, hp] using h.lock p) (fun _ _ => Iff.rfl) (by simp)
      fun q hq => by simp [hown, hq.symm]
  | kill p hfree =>
    exact h.set rfl (by simpa only [rouseAny_inside, State.set] using h.lock p) (fun _ _ => Iff.rfl)
      (by simpa only [rouseAny_falling, State.set] using h.ptable p) fun _ _ => Iff.rfl

def Act.loc : Act L C σ → L
  | .goto l _ | .wakeup _ l | .sleep _ l | .release l _ => l

def Act.shared (x : σ) : Act L C σ → σ
  | .goto _ y | .release _ y => y
  | .wakeup _ _ | .sleep _ _ => x

def Act.place : Act L C σ → Place L C
  | .goto l _ | .wakeup _ l => .inside l
  | .sleep c l => .falling c l
  | .release l _ => .out l

theorem place_step {A : Place L C → σ → Prop} {p : P} (h : A (s.place p) s.shared) (hm : Mutex s)
    (hcall : ∀ l₀ l, e = .call p l → s.place p = .out l₀ → code.entry l = true →
      A (.wait l) s.shared)
    (hacquire : ∀ l, e = .acquire p → s.place p = .wait l → s.lock = none → A (.inside l) s.shared)
    (hrun : ∀ l, s.place p = .inside l → A (code.body p (s.killed p) l s.shared).place
      ((code.body p (s.killed p) l s.shared).shared s.shared))
    (hfall : ∀ c l, s.place p = .falling c l → A (.asleep c l) s.shared)
    (hwake : ∀ c l, s.place p = .asleep c l → A (.wait l) s.shared)
    (hother : ∀ q l, s.place q = .inside l → (∀ m, s.place p ≠ .inside m) →
      A (s.place p) ((code.body q (s.killed q) l s.shared).shared s.shared))
    (hstep : Steps code s e t) : A (t.place p) t.shared := by
  have hset : ∀ q (x : Place L C) (y : σ), (q = p → A x y) → (q ≠ p → A (s.place p) y) →
      A ((s.set q x).place p) y := by
    intro q x y hself hne
    rw [set_place]
    split_ifs with hq
    · exact hself hq.symm
    · exact hne (Ne.symm hq)
  have hself : ∀ q l a, s.place q = .inside l → code.body q (s.killed q) l s.shared = a → q = p →
      A a.place (a.shared s.shared) := by
    rintro q l a hq rfl rfl
    exact hrun l hq
  have hbody : ∀ q l a, s.place q = .inside l → code.body q (s.killed q) l s.shared = a → q ≠ p →
      A (s.place p) (a.shared s.shared) := by
    rintro q l a hq rfl hqp
    exact hother q l hq fun m hpm => hqp (hm.inside_unique hq hpm)
  cases hstep with
  | call q l₀ l hq hl =>
    exact hset q _ _ (fun heq => hcall l₀ l (by rw [heq]) (heq ▸ hq) hl) fun _ => h
  | acquire q l hq hfree =>
    exact hset q _ _ (fun heq => hacquire l (by rw [heq]) (heq ▸ hq) hfree) fun _ => h
  | goto q l l' x hq hb | release q l l' x hq hb =>
    exact hset q _ x (hself q l _ hq hb) (hbody q l _ hq hb)
  | sleep q l c l' hq hb hfree =>
    exact hset q _ _ (hself q l _ hq hb) fun _ => h
  | wakeup q l c l' hq hb hfree =>
    change A (((s.wakeup c).set q _).place p) s.shared
    rw [set_place]
    split_ifs with hqp
    · exact hself q l _ hq hb hqp.symm
    · simp only [State.wakeup]
      cases hp : s.place p with
      | asleep c' m =>
        simp only [Place.rouse]
        split_ifs
        · exact hwake c' m hp
        · exact hp ▸ h
      | out m | wait m | inside m | falling c' m =>
        rw [hp] at h
        exact h
  | fall q c l hq => exact hset q _ _ (fun heq => hfall c l (heq ▸ hq)) fun _ => h
  | kill q hfree =>
    refine hset q _ _ (fun heq => ?_) fun _ => h
    rw [heq]
    cases hp : s.place p with
    | asleep c' m => exact hwake c' m hp
    | out m | wait m | inside m | falling c' m =>
      rw [hp] at h
      exact h

structure Guarded (Inv : σ → Prop) (Ready Done : L → Prop) (At : L → σ → Prop)
    (s : State P L C σ) : Prop where
  free : s.lock = none → Inv s.shared
  held : ∀ p l, s.place p = .inside l → At l s.shared
  ready : ∀ p, (∀ l, s.place p = .wait l → Ready l) ∧ (∀ c l, s.place p = .falling c l → Ready l) ∧
    ∀ c l, s.place p = .asleep c l → Ready l
  done : ∀ p l, s.place p = .out l → Done l

def Restores (Inv : σ → Prop) (Ready Done : L → Prop) (At : L → σ → Prop) (x : σ) :
    Act L C σ → Prop
  | .goto l y => At l y
  | .wakeup _ l => At l x
  | .sleep _ l => Inv x ∧ Ready l
  | .release l y => Inv y ∧ Done l

variable {Inv : σ → Prop} {Ready Done : L → Prop} {At : L → σ → Prop}

omit [DecidableEq P] [DecidableEq C] in
theorem Guarded.initial {l : L} {x : σ} (h : Inv x) (hl : Done l) :
    Guarded Inv Ready Done At (initial l x : State P L C σ) := by
  refine ⟨fun _ => h, by simp [Monitor.initial], by simp [Monitor.initial], fun p m hp => ?_⟩
  cases hp
  exact hl

def Place.Meets (Ready Done : L → Prop) (At : L → σ → Prop) : Place L C → σ → Prop
  | .inside l, x => At l x
  | .out l, _ => Done l
  | .wait l, _ | .falling _ l, _ | .asleep _ l, _ => Ready l

omit [DecidableEq P] [DecidableEq C] in
theorem guarded_iff : Guarded Inv Ready Done At s ↔
    (s.lock = none → Inv s.shared) ∧ ∀ p, (s.place p).Meets Ready Done At s.shared := by
  constructor
  · refine fun h => ⟨h.free, fun p => ?_⟩
    cases hp : s.place p with
    | inside l => exact h.held p l hp
    | out l => exact h.done p l hp
    | wait l => exact (h.ready p).1 l hp
    | falling c l => exact (h.ready p).2.1 c l hp
    | asleep c l => exact (h.ready p).2.2 c l hp
  · rintro ⟨hfree, h⟩
    have hat : ∀ p x, s.place p = x → x.Meets Ready Done At s.shared := fun p x hx => hx ▸ h p
    exact ⟨hfree, fun p l => hat p _, fun p => ⟨fun l => hat p _, fun c l => hat p _,
      fun c l => hat p _⟩, fun p l => hat p _⟩

theorem Guarded.step (h : Guarded Inv Ready Done At s) (hm : Mutex s)
    (hentry : ∀ l, code.entry l = true → Ready l) (hacquire : ∀ l x, Inv x → Ready l → At l x)
    (hbody : ∀ p k l x, At l x → Restores Inv Ready Done At x (code.body p k l x))
    (hstep : Steps code s e t) : Guarded Inv Ready Done At t := by
  have hres := fun p l hp => hbody p (s.killed p) l s.shared (h.held p l hp)
  refine guarded_iff.mpr ⟨?_, fun p => ?_⟩
  · cases hstep with
    | call | fall | kill => exact h.free
    | acquire => exact nofun
    | goto p l l' x hp hb | wakeup p l c l' hp hb =>
      exact fun hfree => absurd hp (hm.not_inside hfree p l)
    | sleep p l c l' hp hb | release p l l' x hp hb =>
      have := hres p l hp
      rw [hb] at this
      exact fun _ => this.1
  · refine place_step ((guarded_iff.mp h).2 p) hm (fun _ l _ _ hl => hentry l hl)
      (fun l _ hp hfree => hacquire l _ (h.free hfree) ((h.ready p).1 l hp)) (fun l hp => ?_)
      (h.ready p).2.1 (h.ready p).2.2 (fun q l _ hp => ?_) hstep
    · have := hres p l hp
      cases hb : code.body p (s.killed p) l s.shared with
      | goto | wakeup =>
        rw [hb] at this
        exact this
      | sleep | release =>
        rw [hb] at this
        exact this.2
    · have hmeets := (guarded_iff.mp h).2 p
      cases hplace : s.place p with
      | inside m => exact absurd hplace (hp m)
      | out m | wait m | falling c m | asleep c m =>
        rw [hplace] at hmeets
        exact hmeets
inductive Moves (code : Code P L C σ) (s : State P L C σ) (e : Event P L) (t : State P L C σ) : Prop
  | silent (hs : t.shared = s.shared) (hl : ∀ q, (t.place q).loc = (s.place q).loc)
  | call (p : P) (l₀ l : L) (he : e = .call p l) (hp : s.place p = .out l₀)
      (hentry : code.entry l = true) (hs : t.shared = s.shared) (hself : (t.place p).loc = l)
      (hother : ∀ q ≠ p, (t.place q).loc = (s.place q).loc)
  | run (p : P) (l : L) (he : e = .run p) (hp : s.place p = .inside l)
      (hs : t.shared = (code.body p (s.killed p) l s.shared).shared s.shared)
      (hself : (t.place p).loc = (code.body p (s.killed p) l s.shared).loc)
      (hother : ∀ q ≠ p, (t.place q).loc = (s.place q).loc)

theorem Steps.moves (h : Steps code s e t) : Moves code s e t := by
  have hself : ∀ p (x : Place L C), ((s.set p x).place p).loc = x.loc := by
    intro p x
    rw [set_place, if_pos rfl]
  have hother : ∀ p (x : Place L C), ∀ q ≠ p, ((s.set p x).place q).loc = (s.place q).loc := by
    intro p x q hq
    rw [set_place, if_neg hq]
  have hsilent : ∀ p (x : Place L C), x.loc = (s.place p).loc →
      ∀ q, ((s.set p x).place q).loc = (s.place q).loc := by
    intro p x hx q
    rw [set_place]
    split_ifs with hq
    · rw [hq, hx]
    · rfl
  cases h with
  | call p l₀ l hp hl => exact .call p l₀ l rfl hp hl rfl (hself p _) (hother p _)
  | acquire p l hp _ => exact .silent rfl (hsilent p (.inside l) (by rw [hp]; rfl))
  | goto p l l' x hp hb =>
    exact .run p l rfl hp (by rw [hb]; rfl) (by rw [hb]; exact hself p _) (hother p (.inside l'))
  | wakeup p l c l' hp hb _ =>
    refine .run p l rfl hp (by rw [hb]; rfl) ?_ fun q hq => ?_
    · rw [hb, set_place, if_pos rfl]
      rfl
    · rw [set_place, if_neg hq]
      exact rouse_loc (s.place q)
  | sleep p l c l' hp hb _ =>
    exact .run p l rfl hp (by rw [hb]; rfl) (by rw [hb]; exact hself p _) (hother p (.falling c l'))
  | release p l l' x hp hb =>
    exact .run p l rfl hp (by rw [hb]; rfl) (by rw [hb]; exact hself p _) (hother p (.out l'))
  | fall p c l hp => exact .silent rfl (hsilent p (.asleep c l) (by rw [hp]; rfl))
  | kill p _ => exact .silent rfl (hsilent p _ (rouseAny_loc _))

def Keeps (Own : P → L → σ → Prop) (p : P) (l : L) (x : σ) : Act L C σ → Prop
  | .goto l' y | .release l' y =>
    (Own p l x → Own p l' y) ∧ ∀ q m, q ≠ p → Own q m x → Own q m y
  | .wakeup _ l' | .sleep _ l' => Own p l x → Own p l' x

variable {Own : P → L → σ → Prop}

omit [DecidableEq P] [DecidableEq C] in
theorem Keeps.self {p : P} {l : L} {x : σ} {a : Act L C σ}
    (h : Keeps Own p l x a) (hown : Own p l x) : Own p a.loc (a.shared x) := by
  cases a with
  | goto l' y => exact h.1 hown
  | release l' y => exact h.1 hown
  | wakeup c l' => exact h hown
  | sleep c l' => exact h hown

omit [DecidableEq P] [DecidableEq C] in
theorem Keeps.other {p q : P} {l m : L} {x : σ} {a : Act L C σ}
    (h : Keeps Own p l x a) (hq : q ≠ p) (hown : Own q m x) : Own q m (a.shared x) := by
  cases a with
  | goto l' y => exact h.2 q m hq hown
  | release l' y => exact h.2 q m hq hown
  | wakeup c l' => exact hown
  | sleep c l' => exact hown

theorem private_step (h : ∀ p, Own p (s.place p).loc s.shared)
    (hdone : ∀ p l, s.place p = .out l → Done l)
    (hentry : ∀ p l₀ l x, Done l₀ → code.entry l = true → Own p l₀ x → Own p l x)
    (hbody : ∀ p k l x, Keeps Own p l x (code.body p k l x)) (hstep : Steps code s e t) :
    ∀ p, Own p (t.place p).loc t.shared := by
  intro q
  cases hstep.moves with
  | silent hs hl =>
    rw [hs, hl]
    exact h q
  | call p l₀ l he hp hl hs hself hother =>
    rw [hs]
    by_cases hq : q = p
    · have hown := h p
      rw [hp] at hown
      rw [hq, hself]
      exact hentry p l₀ l _ (hdone p l₀ hp) hl hown
    · rw [hother q hq]
      exact h q
  | run p l he hp hs hself hother =>
    have hk := hbody p (s.killed p) l s.shared
    rw [hs]
    by_cases hq : q = p
    · have hown := h p
      rw [hp] at hown
      rw [hq, hself]
      exact hk.self hown
    · rw [hother q hq]
      exact hk.other hq (h q)

/-- Every sleeper has a reason to sleep, or a process inside is going to wake it. -/
def NoLost (Wait : C → L → σ → Prop) (Owes : L → σ → C → Prop) (s : State P L C σ) : Prop :=
  ∀ p c l, s.place p = .asleep c l ∨ s.place p = .falling c l →
    Wait c l s.shared ∨ ∃ q m, s.place q = .inside m ∧ Owes m s.shared c

def Discharges (Wait : C → L → σ → Prop) (Owes : L → σ → C → Prop) (l : L) (x : σ) :
    Act L C σ → Prop
  | .goto l' y => ∀ c m, Wait c m x ∨ Owes l x c → Wait c m y ∨ Owes l' y c
  | .wakeup c l' => ∀ c' m, c' ≠ c → Wait c' m x ∨ Owes l x c' → Wait c' m x ∨ Owes l' x c'
  | .sleep c l' => Wait c l' x ∧ ∀ c' m, Owes l x c' → Wait c' m x
  | .release _ y => ∀ c m, Wait c m x ∨ Owes l x c → Wait c m y

variable {Wait : C → L → σ → Prop} {Owes : L → σ → C → Prop}

omit [DecidableEq P] [DecidableEq C] in
theorem NoLost.initial (l : L) (x : σ) : NoLost Wait Owes (initial l x : State P L C σ) := by
  intro p c m hp
  simp [Monitor.initial] at hp

omit [DecidableEq P] [DecidableEq C] in
theorem NoLost.inside (h : NoLost Wait Owes s) (hm : Mutex s) {p : P} {l : L}
    (hp : s.place p = .inside l) {q : P} {c : C} {m : L}
    (hq : s.place q = .asleep c m ∨ s.place q = .falling c m) :
    Wait c m s.shared ∨ Owes l s.shared c := by
  rcases h q c m hq with hw | ⟨r, n, hr, ho⟩
  · exact .inl hw
  · have hrp := hm.inside_unique hr hp
    rw [hrp, hp] at hr
    cases hr
    exact .inr ho

theorem NoLost.step (h : NoLost Wait Owes s) (hm : Mutex s)
    (hbody : ∀ p l, e = .run p → s.place p = .inside l →
      Discharges Wait Owes l s.shared (code.body p (s.killed p) l s.shared))
    (hstep : Steps code s e t) : NoLost Wait Owes t := by
  -- A sleeper after `set` was one before, unless it is the process that moved.
  have hset : ∀ {p : P} {x : Place L C} {q : P} {c : C} {m : L},
      (s.set p x).place q = .asleep c m ∨ (s.set p x).place q = .falling c m →
      (q = p ∧ (x = .asleep c m ∨ x = .falling c m)) ∨
        (q ≠ p ∧ (s.place q = .asleep c m ∨ s.place q = .falling c m)) := by
    intro p x q c m hq
    rw [set_place] at hq
    split_ifs at hq with hqp
    · exact .inl ⟨hqp, hq⟩
    · exact .inr ⟨hqp, hq⟩
  -- A process inside that does not move stays inside.
  have hstay : ∀ {p : P} {x : Place L C} {c : C} {n : L}, (∀ m, s.place p ≠ .inside m) →
      (Wait c n s.shared ∨ ∃ q m, s.place q = .inside m ∧ Owes m s.shared c) →
      Wait c n s.shared ∨ ∃ q m, (s.set p x).place q = .inside m ∧ Owes m s.shared c := by
    intro p x c n hp hw
    rcases hw with hw | ⟨q, m, hq, ho⟩
    · exact .inl hw
    · have hqp : q ≠ p := fun heq => hp m (heq ▸ hq)
      refine .inr ⟨q, m, ?_, ho⟩
      rw [set_place, if_neg hqp]
      exact hq
  cases hstep with
  | call p l₀ l hp hl | acquire p l hp hfree =>
    intro q c m hq
    rcases hset hq with ⟨-, hx⟩ | ⟨-, hq⟩
    · simp at hx
    · exact hstay (by simp [hp]) (h q c m hq)
  | goto p l l' x hp hb =>
    have hd := hbody p l rfl hp
    rw [hb] at hd
    intro q c m hq
    rcases hset hq with ⟨-, hx⟩ | ⟨-, hq⟩
    · simp at hx
    · rcases hd c m (h.inside hm hp hq) with hw | ho
      · exact .inl hw
      · exact .inr ⟨p, l', by simp [State.set], ho⟩
  | wakeup p l c l' hp hb hfree =>
    have hd := hbody p l rfl hp
    rw [hb] at hd
    intro q c' m hq
    rw [set_place] at hq
    split_ifs at hq with hqp
    · simp at hq
    · -- Nobody is falling asleep, so the sleepers of `c` have all been seen.
      have hq' : s.place q = .asleep c' m ∧ c' ≠ c := by
        rcases hq with hq | hq
        · exact wakeup_place_asleep hq
        · have hfall := (hm.ptable q).mpr ⟨c', m, wakeup_place_falling.mp hq⟩
          rw [hfree] at hfall
          cases hfall
      rcases hd c' m hq'.2 (h.inside hm hp (.inl hq'.1)) with hw | ho
      · exact .inl hw
      · exact .inr ⟨p, l', by simp [State.set], ho⟩
  | sleep p l c l' hp hb hfree =>
    have hd := hbody p l rfl hp
    rw [hb] at hd
    intro q c' m hq
    left
    rcases hset hq with ⟨-, hx⟩ | ⟨-, hq⟩
    · rcases hx with hx | hx
      · cases hx
      · cases hx
        exact hd.1
    · rcases h.inside hm hp hq with hw | ho
      · exact hw
      · exact hd.2 c' m ho
  | release p l l' x hp hb =>
    have hd := hbody p l rfl hp
    rw [hb] at hd
    intro q c m hq
    rcases hset hq with ⟨-, hx⟩ | ⟨-, hq⟩
    · simp at hx
    · exact .inl (hd c m (h.inside hm hp hq))
  | fall p c l hp =>
    intro q c' m hq
    have hwas : s.place q = .asleep c' m ∨ s.place q = .falling c' m := by
      rcases hset hq with ⟨hqp, hx⟩ | ⟨-, hq⟩
      · rcases hx with hx | hx
        · cases hx
          exact .inr (hqp ▸ hp)
        · cases hx
      · exact hq
    exact hstay (by simp [hp]) (h q c' m hwas)
  | kill p hfree =>
    intro q c m hq
    rcases hset hq with ⟨-, hx⟩ | ⟨-, hq⟩
    · rcases hx with hx | hx
      · exact absurd hx (rouseAny_asleep _)
      · rw [rouseAny_falling] at hx
        have hfall := (hm.ptable p).mpr ⟨c, m, hx⟩
        rw [hfree] at hfall
        cases hfall
    · rcases h q c m hq with hw | ⟨r, n, hr, ho⟩
      · exact .inl hw
      · refine .inr ⟨r, n, ?_, ho⟩
        change (s.set p (s.place p).rouseAny).place r = _
        rw [set_place]
        split_ifs with hrp
        · rw [rouseAny_inside, ← hrp]
          exact hr
        · exact hr

omit [DecidableEq P] [DecidableEq C] in
theorem NoLost.free (h : NoLost Wait Owes s) (hm : Mutex s) (hfree : s.lock = none) {p : P} {c : C}
    {l : L} (hp : s.place p = .asleep c l ∨ s.place p = .falling c l) : Wait c l s.shared := by
  rcases h p c l hp with hw | ⟨q, m, hq, -⟩
  · exact hw
  · exact absurd hq (hm.not_inside hfree q m)

end Xv6.Lib.Monitor
