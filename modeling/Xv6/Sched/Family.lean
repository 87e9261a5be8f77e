import Xv6.Sched.Smp
import Xv6.Sched.Queues
import Xv6.Sched.Wait

/-!
# Parents and children

Every process but the first has a parent that is alive: `exit` gives its children to `initproc` in
the critical section in which it becomes a ZOMBIE.
-/

namespace Xv6.Sched
open Lib ProcState Kernel
open Function (update_of_ne)

def Active (st : ProcState) : Prop := st = SLEEPING ∨ st = RUNNABLE ∨ st = RUNNING

structure Family (k : Kernel) : Prop where
  active : ∀ p, k.kont p ≠ .user → Active (k.proc p).state
  fork : ∀ p np, (k.kont p).child = some np → (k.proc np).state = EMBRYO
  inj : ∀ p q np, (k.kont p).child = some np → (k.kont q).child = some np → p = q
  filled : ∀ p np, k.kont p = .forkRun np → (k.proc np).parent = some p
  blank : ∀ p np, k.kont p = .forkStack np ∨ k.kont p = .forkCopy np → (k.proc np).parent = none
  unused : ∀ s, (k.proc s).state = UNUSED → (k.proc s).parent = none
  parent : ∀ s q, (k.proc s).parent = some q → q ≠ s ∧ Active (k.proc q).state
  init : (k.proc k.initproc).parent = none ∧ Active (k.proc k.initproc).state
  child : ∀ s, s ≠ k.initproc → Active (k.proc s).state ∨ (k.proc s).state = ZOMBIE →
    ∃ q, (k.proc s).parent = some q
  waits : ∀ p, (k.proc p).state = SLEEPING → k.kont p = .wait →
    (k.proc p).chan = some (.proc p) ∧ ∀ s, (k.proc s).parent = some p → (k.proc s).state ≠ ZOMBIE
  asleep : ∀ p q, (k.proc p).state = SLEEPING → (k.proc p).chan = some (.proc q) → k.kont p = .wait

theorem mem_slots (s : Slot) : s ∈ slots := List.mem_finRange s

namespace Kernel

variable {k k' : Kernel} {cur q s : Slot} {l : List Slot}

def Awake (k : Kernel) (q : Slot) : Prop :=
  (k.proc q).state = SLEEPING → (k.proc q).chan ≠ some (.proc q)

theorem Stirs.awake (h : Stirs k k') (hq : k.Awake q) : k'.Awake q := by
  intro hs
  rw [h.chan]
  rcases h.state q with he | ⟨-, he⟩
  · exact hq (he ▸ hs)
  · rw [hs] at he
    cases he

theorem wakeup1_awake (k : Kernel) (q : Slot) : (k.wakeup1 (some (.proc q))).Awake q := by
  intro hs hc
  simp only [wakeup1] at hs hc
  split_ifs at hs hc with h
  exact h ⟨hs, hc⟩

def adopted (k : Kernel) (cur : Slot) (l : List Slot) : Kernel :=
  { k with proc := fun s =>
      if s ∈ l ∧ (k.proc s).parent = some cur then { k.proc s with parent := some k.initproc }
      else k.proc s }

theorem adopted_fields (s : Slot) : ((k.adopted cur l).proc s).pid = (k.proc s).pid ∧
    ((k.adopted cur l).proc s).chan = (k.proc s).chan ∧
    ((k.adopted cur l).proc s).killed = (k.proc s).killed ∧
    ((k.adopted cur l).proc s).state = (k.proc s).state := by
  simp only [adopted]
  split_ifs <;> exact ⟨rfl, rfl, rfl, rfl⟩

theorem adopted_parent (s : Slot) : ((k.adopted cur l).proc s).parent =
    if s ∈ l ∧ (k.proc s).parent = some cur then some k.initproc else (k.proc s).parent := by
  simp only [adopted]
  split_ifs <;> rfl

def adoptOne (cur : Slot) (k : Kernel) (s : Slot) : Kernel :=
  if (k.proc s).parent = some cur then
    let k' := k.setProc s fun x => { x with parent := some k.initproc }
    if (k.proc s).state = ZOMBIE then k'.wakeup1 (some (.proc k.initproc)) else k'
  else k

theorem adoptOne_stirs (k : Kernel) (cur s : Slot) : Stirs (k.adopted cur [s]) (adoptOne cur k s) := by
  have hset : (k.proc s).parent = some cur → Stirs (k.adopted cur [s])
      (k.setProc s fun x => { x with parent := some k.initproc }) := by
    intro hs
    refine .of_eq (funext fun t => ?_) rfl rfl rfl
    rw [setProc_proc]
    simp only [adopted, List.mem_singleton]
    by_cases ht : t = s
    · subst ht
      simp [hs]
    · simp [ht]
  have hnone : (k.proc s).parent ≠ some cur → Stirs (k.adopted cur [s]) k := by
    intro hs
    refine .of_eq (funext fun t => ?_) rfl rfl rfl
    simp only [adopted, List.mem_singleton]
    rw [if_neg]
    rintro ⟨rfl, ht⟩
    exact hs ht
  simp only [adoptOne]
  split_ifs with hs hz
  · exact (hset hs).trans (wakeup1_stirs _)
  · exact hset hs
  · exact hnone hs

theorem Stirs.adopted (h : Stirs k k') : Stirs (k.adopted cur l) (k'.adopted cur l) where
  pid s := by rw [(adopted_fields s).1, (adopted_fields s).1, h.pid]
  parent s := by rw [adopted_parent, adopted_parent, h.parent, h.initproc]
  chan s := by rw [(adopted_fields s).2.1, (adopted_fields s).2.1, h.chan]
  killed s := by rw [(adopted_fields s).2.2.1, (adopted_fields s).2.2.1, h.killed]
  state s := by
    rw [(adopted_fields s).2.2.2, (adopted_fields s).2.2.2]
    exact h.state s
  kont := h.kont
  nextpid := h.nextpid
  initproc := h.initproc

theorem adopted_cons (k : Kernel) (cur s : Slot) (l : List Slot) :
    Stirs (k.adopted cur (s :: l)) ((k.adopted cur [s]).adopted cur l) := by
  refine ⟨fun t => ?_, fun t => ?_, fun t => ?_, fun t => ?_, fun t => .inl ?_, rfl, rfl, rfl⟩
  · simp only [(adopted_fields t).1]
  · rw [adopted_parent, adopted_parent, adopted_parent]
    simp only [List.mem_cons, List.not_mem_nil, or_false]
    change (if _ then some k.initproc else _) = _
    by_cases hc : (k.proc t).parent = some cur
    · by_cases hts : t = s
      · subst hts
        simp [hc]
      · simp [hts, hc]
    · simp [hc]
  · simp only [(adopted_fields t).2.1]
  · simp only [(adopted_fields t).2.2.1]
  · simp only [(adopted_fields t).2.2.2]

theorem foldl_adoptOne (k : Kernel) (cur : Slot) (l : List Slot) :
    Stirs (k.adopted cur l) (l.foldl (adoptOne cur) k) ∧
      ((∃ s ∈ l, (k.proc s).parent = some cur ∧ (k.proc s).state = ZOMBIE) →
        (l.foldl (adoptOne cur) k).Awake k.initproc) := by
  induction l generalizing k with
  | nil =>
    refine ⟨.of_eq (funext fun t => ?_) rfl rfl rfl, fun h => ?_⟩
    · simp [adopted]
    · obtain ⟨s, hs, -⟩ := h
      cases hs
  | cons s l ih =>
    have hone := adoptOne_stirs k cur s
    have hinit : (adoptOne cur k s).initproc = k.initproc := hone.initproc
    obtain ⟨hrest, hwake⟩ := ih (adoptOne cur k s)
    refine ⟨(adopted_cons k cur s l).trans (hone.adopted.trans hrest), ?_⟩
    rintro ⟨t, ht, hpar, hz⟩
    rw [List.foldl_cons]
    by_cases hts : t = s
    · -- this round wakes `initproc`, and nothing puts it to sleep again
      subst hts
      have hw : (adoptOne cur k t).Awake k.initproc := by
        simp only [adoptOne, hpar, hz, if_true]
        exact wakeup1_awake _ _
      have hw' : ((adoptOne cur k t).adopted cur l).Awake k.initproc := by
        intro hs
        rw [(adopted_fields _).2.2.2] at hs
        rw [(adopted_fields _).2.1]
        exact hw hs
      exact hrest.awake hw'
    · rw [← hinit]
      apply hwake
      refine ⟨t, by simpa [hts] using ht, ?_, ?_⟩
      · rw [hone.parent, adopted_parent, if_neg (by simp [hts]), hpar]
      · rcases hone.state t with he | ⟨he, -⟩
        · rw [he, (adopted_fields t).2.2.2, hz]
        · rw [(adopted_fields t).2.2.2, hz] at he
          cases he

theorem reparent_stirs (k : Kernel) (cur : Slot) : Stirs (k.adopted cur slots) (k.reparent cur) ∧
      ((∃ s, (k.proc s).parent = some cur ∧ (k.proc s).state = ZOMBIE) →
        (k.reparent cur).Awake k.initproc) := by
  obtain ⟨h1, h2⟩ := foldl_adoptOne k cur slots
  refine ⟨h1, ?_⟩
  rintro ⟨s, hs⟩
  exact h2 ⟨s, mem_slots s, hs⟩

end Kernel

namespace Family

variable {b : Build} {k k' : Kernel} {p q s np : Slot}

theorem shift (h : Family k) (hinit : k'.initproc = k.initproc)
    (hparent : ∀ s, (k'.proc s).parent = (k.proc s).parent)
    (hstate : ∀ s, (k'.proc s).state = (k.proc s).state ∨
      Active (k.proc s).state ∧ Active (k'.proc s).state) (hkont : ∀ p, k'.kont p = k.kont p ∨
      (k.kont p).child = none ∧ (k'.kont p).child = none ∧ Active (k.proc p).state)
    (hwaits : ∀ p, (k'.proc p).state = SLEEPING → k'.kont p = .wait →
      (k'.proc p).chan = some (.proc p) ∧
        ∀ s, (k.proc s).parent = some p → (k.proc s).state ≠ ZOMBIE)
    (hasleep : ∀ p q, (k'.proc p).state = SLEEPING → (k'.proc p).chan = some (.proc q) →
      k'.kont p = .wait) : Family k' := by
  have hactive : ∀ s, Active (k.proc s).state → Active (k'.proc s).state := fun s hs => by
    rcases hstate s with he | ⟨-, ha⟩
    · rwa [he]
    · exact ha
  have hother : ∀ s st, ¬ Active st → ((k'.proc s).state = st ↔ (k.proc s).state = st) := by
    intro s st hst
    rcases hstate s with he | ⟨ha, ha'⟩
    · rw [he]
    · constructor
      · rintro rfl
        exact absurd ha' hst
      · rintro rfl
        exact absurd ha hst
  have hchild : ∀ p, (k'.kont p).child = (k.kont p).child := fun p => by
    rcases hkont p with he | ⟨h1, h2, -⟩
    · rw [he]
    · rw [h1, h2]
  have hfork : ∀ p np, (k'.kont p).child = some np → k'.kont p = k.kont p := fun p np hp => by
    rcases hkont p with he | ⟨-, h2, -⟩
    · exact he
    · rw [h2] at hp
      cases hp
  refine ⟨fun p hp => ?_, fun p np hp => ?_, fun p q np hp hq => ?_, fun p np hp => ?_,
    fun p np hp => ?_, fun s hs => ?_, fun s q hs => ?_, ?_, fun s hs ha => ?_,
    fun p hp hw => ⟨(hwaits p hp hw).1, fun s hs => ?_⟩, hasleep⟩
  · rcases hkont p with he | ⟨-, -, ha⟩
    · exact hactive p (h.active p (he ▸ hp))
    · exact hactive p ha
  · rw [hchild] at hp
    exact (hother np EMBRYO (by simp [Active])).mpr (h.fork p np hp)
  · rw [hchild] at hp hq
    exact h.inj p q np hp hq
  · rw [hparent]
    have he := hfork p np (by rw [hp]; rfl)
    exact h.filled p np (he ▸ hp)
  · rw [hparent]
    have he := hfork p np (by rcases hp with hp | hp <;> rw [hp] <;> rfl)
    exact h.blank p np (he ▸ hp)
  · rw [hparent]
    exact h.unused s ((hother s UNUSED (by simp [Active])).mp hs)
  · rw [hparent] at hs
    exact ⟨(h.parent s q hs).1, hactive q (h.parent s q hs).2⟩
  · rw [hinit, hparent]
    exact ⟨h.init.1, hactive _ h.init.2⟩
  · rw [hparent]
    apply h.child s (hinit ▸ hs)
    rcases hstate s with he | ⟨ha', -⟩
    · rwa [← he]
    · exact .inl ha'
  · rw [hparent] at hs
    rw [Ne, hother s ZOMBIE (by simp [Active])]
    exact (hwaits p hp hw).2 s hs

theorem of_stirs (h : Family k) (hs : Stirs k k') : Family k' := by
  have hsleep : ∀ p, (k'.proc p).state = SLEEPING → (k.proc p).state = SLEEPING := fun p hp => by
    rcases hs.state p with he | ⟨-, he⟩
    · rw [← he, hp]
    · rw [hp] at he
      cases he
  apply h.shift hs.initproc hs.parent
  · intro s
    rcases hs.state s with he | ⟨h1, h2⟩
    · exact .inl he
    · exact .inr ⟨.inl h1, .inr (.inl h2)⟩
  · exact fun p => .inl (congrFun hs.kont p)
  · intro p hp hw
    rw [hs.kont] at hw
    rw [hs.chan]
    exact h.waits p (hsleep p hp) hw
  · intro p q hp hc
    rw [hs.kont]
    rw [hs.chan] at hc
    exact h.asleep p q (hsleep p hp) hc

variable {f : Proc → Proc}

theorem set (h : Family k) (hp : Active (k.proc p).state)
    (hf : Active (f (k.proc p)).state) (hparent : (f (k.proc p)).parent = (k.proc p).parent)
    (hsleep : (f (k.proc p)).state = SLEEPING → k.kont p ≠ .wait ∧
      ∀ q, (f (k.proc p)).chan ≠ some (.proc q)) : Family (k.setProc p f) := by
  refine h.shift rfl ?_ ?_ ?_ ?_ ?_
  · intro s
    rw [setProc_proc]
    split_ifs with hs
    · rw [hs, hparent]
    · rfl
  · intro s
    rw [setProc_proc]
    split_ifs with hs
    · rw [hs]
      exact .inr ⟨hp, hf⟩
    · exact .inl rfl
  · exact fun _ => .inl rfl
  · intro r hr hw
    rw [setProc_proc] at hr ⊢
    split_ifs at hr ⊢ with hs
    · rw [hs] at hw
      exact absurd hw (hsleep hr).1
    · exact h.waits r hr hw
  · intro r q hr hc
    rw [setProc_proc] at hr hc
    split_ifs at hr hc with hs
    · exact absurd hc ((hsleep hr).2 q)
    · exact h.asleep r q hr hc

theorem touch (h : Family k) (hstate : (f (k.proc s)).state = (k.proc s).state)
    (hparent : (f (k.proc s)).parent = (k.proc s).parent)
    (hchan : (f (k.proc s)).chan = (k.proc s).chan) : Family (k.setProc s f) := by
  have hsame : ∀ t, ((k.setProc s f).proc t).state = (k.proc t).state ∧
      ((k.setProc s f).proc t).parent = (k.proc t).parent ∧
      ((k.setProc s f).proc t).chan = (k.proc t).chan := fun t => by
    rw [setProc_proc]
    split_ifs with ht
    · rw [ht]
      exact ⟨hstate, hparent, hchan⟩
    · exact ⟨rfl, rfl, rfl⟩
  refine h.shift rfl (fun t => (hsame t).2.1) (fun t => .inl (hsame t).1) (fun _ => .inl rfl)
    (fun r hr hw => ?_) (fun r q hr hc => ?_)
  · rw [(hsame r).1] at hr
    rw [(hsame r).2.2]
    exact h.waits r hr hw
  · rw [(hsame r).1] at hr
    rw [(hsame r).2.2] at hc
    exact h.asleep r q hr hc

section

variable (h : Family k) (hp : (k.proc p).state = RUNNING)
include h hp

theorem of_sets (hs : Sets k k' p fun x => { x with state := RUNNABLE }) : Family k' := by
  obtain ⟨m, hm, hk⟩ := hs
  have hmp : Active (m.proc p).state := .inr (.inr (hm.running hp))
  have hset := (h.of_stirs hm).set (f := fun x => { x with state := RUNNABLE }) hmp (.inr (.inl rfl))
    rfl nofun
  exact hset.of_stirs hk

theorem setKont {c : Kont}
    (hk : (k.kont p).child = none) (hc : c.child = none) : Family (k.setKont p c) := by
  have hne : ∀ r, (k.proc r).state = SLEEPING → r ≠ p := by
    rintro r hr rfl
    rw [hp] at hr
    cases hr
  refine h.shift rfl (fun _ => rfl) (fun _ => .inl rfl) ?_ ?_ ?_
  · intro r
    rw [setKont_kont]
    split_ifs with hr
    · rw [hr]
      exact .inr ⟨hk, hc, .inr (.inr hp)⟩
    · exact .inl rfl
  · intro r hr hw
    rw [setKont_kont, if_neg (hne r hr)] at hw
    exact h.waits r hr hw
  · intro r q hr hq
    rw [setKont_kont, if_neg (hne r hr)]
    exact h.asleep r q hr hq

theorem slot (hs : ¬ Active (k.proc s).state) (hinit : k'.initproc = k.initproc)
    (hproc : ∀ t, t ≠ s → k'.proc t = k.proc t) (hkont : ∀ t, t ≠ p → k'.kont t = k.kont t)
    (hother : ∀ t, t ≠ p → (k.kont t).child ≠ some s) (hkp : k'.kont p = c)
    (hown : c.child = none ∨ c.child = some s ∧ (k'.proc s).state = EMBRYO)
    (hfill : c = .forkRun s → (k'.proc s).parent = some p)
    (hblank : c = .forkStack s ∨ c = .forkCopy s → (k'.proc s).parent = none)
    (hparent : (k'.proc s).parent = none ∨ (k'.proc s).parent = some p)
    (hstate : (k'.proc s).state = UNUSED ∧ (k'.proc s).parent = none ∨
      (k'.proc s).state = EMBRYO ∨ (k'.proc s).state = RUNNABLE ∧ (k'.proc s).parent = some p) :
    Family k' := by
  subst hkp
  have hactive : ∀ {t}, Active (k.proc t).state → t ≠ s := by
    rintro t ht rfl
    exact hs ht
  have hpa : Active (k.proc p).state := .inr (.inr hp)
  have hps : p ≠ s := hactive hpa
  have hsleep : ∀ t, (k'.proc t).state = SLEEPING → t ≠ s ∧ t ≠ p ∧ (k.proc t).state = SLEEPING := by
    intro t ht
    have hts : t ≠ s := by
      rintro rfl
      rw [ht] at hstate
      simp at hstate
    rw [hproc t hts] at ht
    refine ⟨hts, ?_, ht⟩
    rintro rfl
    rw [hp] at ht
    cases ht
  have hchild : ∀ t r, t ≠ p → (k'.kont t).child = some r → (k.kont t).child = some r ∧ r ≠ s := by
    intro t r ht hr
    rw [hkont t ht] at hr
    refine ⟨hr, ?_⟩
    rintro rfl
    exact hother t ht hr
  have hmine : ∀ r, (k'.kont p).child = some r → r = s ∧ (k'.proc s).state = EMBRYO := by
    intro r hr
    rcases hown with hn | ⟨hn, he⟩
    · rw [hn] at hr
      cases hr
    · rw [hn] at hr
      cases hr
      exact ⟨rfl, he⟩
  constructor
  case active =>
    intro t ht
    by_cases htp : t = p
    · rw [htp, hproc p hps]
      exact hpa
    · rw [hkont t htp] at ht
      have ha := h.active t ht
      rw [hproc t (hactive ha)]
      exact ha
  case fork =>
    intro t r hr
    by_cases htp : t = p
    · rw [htp] at hr
      obtain ⟨rfl, he⟩ := hmine r hr
      exact he
    · obtain ⟨hr', hrs⟩ := hchild t r htp hr
      rw [hproc r hrs]
      exact h.fork t r hr'
  case inj =>
    intro t t' r hr hr'
    by_cases htp : t = p <;> by_cases htp' : t' = p
    · rw [htp, htp']
    · rw [htp] at hr
      exact absurd (hmine r hr).1 (hchild t' r htp' hr').2
    · rw [htp'] at hr'
      exact absurd (hmine r hr').1 (hchild t r htp hr).2
    · exact h.inj t t' r (hchild t r htp hr).1 (hchild t' r htp' hr').1
  case filled =>
    intro t r hr
    have hr' : (k'.kont t).child = some r := by
      rw [hr]
      rfl
    by_cases htp : t = p
    · subst htp
      obtain ⟨rfl, -⟩ := hmine r hr'
      exact hfill hr
    · rw [hproc r (hchild t r htp hr').2]
      rw [hkont t htp] at hr
      exact h.filled t r hr
  case blank =>
    intro t r hr
    have hr' : (k'.kont t).child = some r := by
      rcases hr with hr | hr <;> rw [hr] <;> rfl
    by_cases htp : t = p
    · subst htp
      obtain ⟨rfl, -⟩ := hmine r hr'
      exact hblank hr
    · rw [hproc r (hchild t r htp hr').2]
      rw [hkont t htp] at hr
      exact h.blank t r hr
  case unused =>
    intro t ht
    by_cases hts : t = s
    · subst hts
      rw [ht] at hstate
      simpa using hstate
    · rw [hproc t hts] at ht ⊢
      exact h.unused t ht
  case parent =>
    intro t q ht
    by_cases hts : t = s
    · subst hts
      rw [ht] at hparent
      have hq : q = p := by simpa using hparent
      rw [hq, hproc p hps]
      exact ⟨hps, hpa⟩
    · rw [hproc t hts] at ht
      obtain ⟨hqt, ha⟩ := h.parent t q ht
      rw [hproc q (hactive ha)]
      exact ⟨hqt, ha⟩
  case init =>
    rw [hinit, hproc _ (hactive h.init.2)]
    exact h.init
  case child =>
    intro t ht ha
    by_cases hts : t = s
    · subst hts
      rcases hstate with ⟨he, -⟩ | he | ⟨-, he⟩
      · rw [he] at ha
        simp [Active] at ha
      · rw [he] at ha
        simp [Active] at ha
      · exact ⟨p, he⟩
    · rw [hproc t hts] at ha ⊢
      exact h.child t (hinit ▸ ht) ha
  case waits =>
    intro t ht hw
    obtain ⟨hts, htp, ht'⟩ := hsleep t ht
    rw [hkont t htp] at hw
    obtain ⟨hc, hz⟩ := h.waits t ht' hw
    rw [hproc t hts]
    refine ⟨hc, fun r hr => ?_⟩
    by_cases hrs : r = s
    · subst hrs
      rw [hr] at hparent
      exact absurd (by simpa using hparent) htp
    · rw [hproc r hrs] at hr ⊢
      exact hz r hr
  case asleep =>
    intro t q ht hc
    obtain ⟨hts, htp, ht'⟩ := hsleep t ht
    rw [hproc t hts] at hc
    rw [hkont t htp]
    exact h.asleep t q ht' hc

end

theorem setKont_of_ne (m : Kernel) {c : Kont} (t : Slot) (ht : t ≠ p) :
    (m.setKont p c).kont t = m.kont t := by
  rw [setKont_kont, if_neg ht]

theorem setKont_self (m : Kernel) {c : Kont} : (m.setKont p c).kont p = c := by
  rw [setKont_kont, if_pos rfl]

theorem alloc (h : Family k) (hp : (k.proc p).state = RUNNING) (hs : k.firstUnused = some s) :
    Family ((k.allocproc s).setKont p (.forkStack s)) := by
  have hun := firstUnused_state hs
  have hpar := h.unused s hun
  have hself : ((k.allocproc s).proc s).state = EMBRYO ∧ ((k.allocproc s).proc s).parent = none := by
    simp [allocproc, hpar]
  refine h.slot hp (by simp [hun, Active]) rfl (fun t ht => update_of_ne ht _ _)
    (setKont_of_ne _) (fun t _ ht => ?_) (setKont_self _) (.inr ⟨rfl, hself.1⟩)
    (fun hf => by cases hf) (fun _ => hself.2) (.inl hself.2) (.inr (.inl hself.1))
  rw [h.fork t s ht] at hun
  cases hun

theorem slot_fork (h : Family k) (hnp : (k.kont p).child = some np) :
    ¬ Active (k.proc np).state ∧ ∀ t, t ≠ p → (k.kont t).child ≠ some np := by
  constructor
  · rw [h.fork p np hnp]
    simp [Active]
  · intro t ht hc
    exact ht (h.inj t p np hc hnp)

section

variable (h : Family k) (hp : (k.proc p).state = RUNNING)
include h hp

theorem stack {page : ℕ} (hk : k.kont p = .forkStack np) :
    Family ((k.allocStack np page).setKont p (if page = 0 then .user else .forkCopy np)) := by
  have hnp : (k.kont p).child = some np := by
    rw [hk]
    rfl
  have hemb := h.fork p np hnp
  have hpar := h.blank p np (.inl hk)
  obtain ⟨hna, hother⟩ := h.slot_fork hnp
  have hpar' : ((k.allocStack np page).proc np).parent = none := by
    simp only [allocStack, setProc_self]
    split_ifs <;> exact hpar
  refine h.slot hp hna rfl (fun t ht => update_of_ne ht _ _) (setKont_of_ne _) hother
    (setKont_self _) ?_ ?_ (fun _ => hpar') (.inl hpar') ?_
  · by_cases h0 : page = 0
    · exact .inl (by simp [h0, Kont.child])
    · exact .inr (by simp [h0, Kont.child, allocStack, hemb])
  · split_ifs <;> exact fun h => by cases h
  · by_cases h0 : page = 0
    · exact .inl ⟨by simp [h0, allocStack], hpar'⟩
    · exact .inr (.inl (by simp [h0, allocStack, hemb]))

theorem copy {pgdir : ℕ} (hk : k.kont p = .forkCopy np) :
    Family ((k.forkCopy b p np pgdir).setKont p (if pgdir = 0 then .user else .forkRun np)) := by
  have hnp : (k.kont p).child = some np := by
    rw [hk]
    rfl
  have hemb := h.fork p np hnp
  have hpar := h.blank p np (.inr hk)
  obtain ⟨hna, hother⟩ := h.slot_fork hnp
  by_cases h0 : pgdir = 0
  · have hpar' : ((k.forkCopy b p np pgdir).proc np).parent = none := by
      simp [Kernel.forkCopy, h0, hpar]
    rw [if_pos h0]
    exact h.slot hp hna rfl (fun t ht => update_of_ne ht _ _) (setKont_of_ne _) hother
      (setKont_self _) (.inl rfl) (fun h => by cases h) (fun _ => hpar') (.inl hpar')
      (.inl ⟨by simp [Kernel.forkCopy, h0], hpar'⟩)
  · have hpar' : ((k.forkCopy b p np pgdir).proc np).parent = some p := by
      simp [Kernel.forkCopy, h0]
    have hemb' : ((k.forkCopy b p np pgdir).proc np).state = EMBRYO := by
      simp [Kernel.forkCopy, h0, hemb]
    rw [if_neg h0]
    exact h.slot hp hna rfl (fun t ht => update_of_ne ht _ _) (setKont_of_ne _) hother
      (setKont_self _) (.inr ⟨rfl, hemb'⟩) (fun _ => hpar') (by rintro (hc | hc) <;> cases hc)
      (.inr hpar') (.inr (.inl hemb'))

theorem run (hk : k.kont p = .forkRun np) :
    Family ((k.setProc np fun x => { x with state := RUNNABLE }).setKont p .user) := by
  have hnp : (k.kont p).child = some np := by
    rw [hk]
    rfl
  have hpar := h.filled p np hk
  obtain ⟨hna, hother⟩ := h.slot_fork hnp
  exact h.slot hp hna rfl (fun t ht => update_of_ne ht _ _) (setKont_of_ne _) hother
    (setKont_self _) (.inl rfl) (fun h => by cases h) (by rintro (hc | hc) <;> cases hc)
    (.inr (by simp [hpar])) (.inr (.inr (by simp [hpar])))

theorem reap (hz : (k.proc s).state = ZOMBIE) :
    Family ((k.setProc s Proc.reaped).setKont p .user) := by
  refine h.slot hp (by simp [hz, Active]) rfl (fun t ht => update_of_ne ht _ _)
    (setKont_of_ne _) (fun t _ ht => ?_) (setKont_self _) (.inl rfl) (fun h => by cases h)
    (by rintro (hc | hc) <;> cases hc) (.inl (by simp [Proc.reaped])) (.inl (by simp [Proc.reaped]))
  rw [h.fork t s ht] at hz
  cases hz

end

structure Abandons (k m : Kernel) (p : Slot) : Prop where
  pid : ∀ s, (m.proc s).pid = (k.proc s).pid
  killed : ∀ s, (m.proc s).killed = (k.proc s).killed
  nextpid : m.nextpid = k.nextpid
  state : ∀ s, (m.proc s).state = (k.proc s).state ∨
    (k.proc s).state = SLEEPING ∧ (m.proc s).state = RUNNABLE
  chan : ∀ s, (m.proc s).chan = (k.proc s).chan
  parent : ∀ s, (m.proc s).parent =
    if (k.proc s).parent = some p then some k.initproc else (k.proc s).parent
  kont : m.kont = k.kont
  initproc : m.initproc = k.initproc
  father : ∀ q, (k.proc p).parent = some q → m.Awake q
  adoptive : ∀ s, (k.proc s).parent = some p → (k.proc s).state = ZOMBIE → m.Awake k.initproc

theorem abandons (k : Kernel) (p : Slot) :
    Abandons k ((k.wakeup1 ((k.proc p).parent.map .proc)).reparent p) p := by
  set w := k.wakeup1 ((k.proc p).parent.map .proc)
  have hw : Stirs k w := wakeup1_stirs _
  obtain ⟨hr, hzomb⟩ := reparent_stirs w p
  have hstirs : Stirs (k.adopted p slots) (w.reparent p) := hw.adopted.trans hr
  refine ⟨fun s => ?_, fun s => ?_, hstirs.nextpid, fun s => ?_, fun s => ?_, fun s => ?_,
    hstirs.kont, hstirs.initproc, fun q hq => ?_, fun s hs hz => ?_⟩
  · rw [hstirs.pid, (adopted_fields s).1]
  · rw [hstirs.killed, (adopted_fields s).2.2.1]
  · have := hstirs.state s
    rwa [(adopted_fields s).2.2.2] at this
  · rw [hstirs.chan, (adopted_fields s).2.1]
  · rw [hstirs.parent, adopted_parent]
    simp [slots]
  · have hwq : w.Awake q := by
      simp only [w, hq, Option.map_some]
      exact wakeup1_awake k q
    apply hr.awake
    intro hs
    rw [(adopted_fields q).2.2.2] at hs
    rw [(adopted_fields q).2.1]
    exact hwq hs
  · apply hzomb
    refine ⟨s, by rw [hw.parent, hs], ?_⟩
    rcases hw.state s with he | ⟨he, -⟩
    · rw [he, hz]
    · rw [hz] at he
      cases he

theorem of_abandons {m : Kernel} (h : Family k) (hp : (k.proc p).state = RUNNING)
    (hi : p ≠ k.initproc) (hu : k.kont p = .user) (hm : Abandons k m p)
    (hf : ∀ x, (f x).state = ZOMBIE ∧ (f x).parent = x.parent) : Family (m.setProc p f) := by
  have hstate : ∀ t, t ≠ p → ((m.setProc p f).proc t).state = (k.proc t).state ∨
      (k.proc t).state = SLEEPING ∧ ((m.setProc p f).proc t).state = RUNNABLE := fun t ht => by
    rw [setProc_of_ne m p f ht]
    exact hm.state t
  have hself : ((m.setProc p f).proc p).state = ZOMBIE := by
    rw [setProc_self]
    exact (hf _).1
  have hactive : ∀ t, t ≠ p → Active (k.proc t).state → Active ((m.setProc p f).proc t).state := by
    intro t ht ha
    rcases hstate t ht with he | ⟨-, he⟩
    · rwa [he]
    · exact .inr (.inl he)
  have hsleep : ∀ t, ((m.setProc p f).proc t).state = SLEEPING → t ≠ p ∧
      (k.proc t).state = SLEEPING ∧ ((m.setProc p f).proc t).chan = (k.proc t).chan ∧
      (m.proc t).state = SLEEPING := by
    intro t ht
    have htp : t ≠ p := by
      rintro rfl
      rw [hself] at ht
      cases ht
    rw [setProc_of_ne m p f htp] at ht ⊢
    refine ⟨htp, ?_, hm.chan t, ht⟩
    rcases hm.state t with he | ⟨he, -⟩
    · rw [← he, ht]
    · exact he
  have hparent : ∀ t, ((m.setProc p f).proc t).parent =
      if (k.proc t).parent = some p then some k.initproc else (k.proc t).parent := fun t => by
    rw [← hm.parent]
    by_cases ht : t = p
    · rw [ht, setProc_self, (hf _).2]
    · rw [setProc_of_ne m p f ht]
  have hkont : (m.setProc p f).kont = k.kont := hm.kont
  have hinit : (m.setProc p f).initproc = k.initproc := hm.initproc
  have hinit_ne : k.initproc ≠ p := Ne.symm hi
  constructor
  case active =>
    intro t ht
    rw [hkont] at ht
    refine hactive t ?_ (h.active t ht)
    rintro rfl
    exact ht hu
  case fork =>
    intro t r hr
    rw [hkont] at hr
    have he := h.fork t r hr
    have hrp : r ≠ p := by
      rintro rfl
      rw [hp] at he
      cases he
    rcases hstate r hrp with hs | ⟨hs, -⟩
    · rw [hs, he]
    · rw [he] at hs
      cases hs
  case inj =>
    intro t t' r hr hr'
    rw [hkont] at hr hr'
    exact h.inj t t' r hr hr'
  case filled =>
    intro t r hr
    rw [hkont] at hr
    have htp : t ≠ p := by
      rintro rfl
      rw [hu] at hr
      cases hr
    rw [hparent, h.filled t r hr, if_neg (by simpa using htp)]
  case blank =>
    intro t r hr
    rw [hkont] at hr
    rw [hparent, h.blank t r hr, if_neg nofun]
  case unused =>
    intro t ht
    have htp : t ≠ p := by
      rintro rfl
      rw [hself] at ht
      cases ht
    have hun : (k.proc t).state = UNUSED := by
      rcases hstate t htp with he | ⟨-, he⟩
      · rw [← he, ht]
      · rw [ht] at he
        cases he
    rw [hparent, h.unused t hun, if_neg nofun]
  case parent =>
    intro t q ht
    rw [hparent] at ht
    split_ifs at ht with hc
    · cases ht
      refine ⟨?_, hactive _ hinit_ne h.init.2⟩
      rintro rfl
      rw [h.init.1] at hc
      cases hc
    · obtain ⟨hqt, ha⟩ := h.parent t q ht
      refine ⟨hqt, hactive q ?_ ha⟩
      rintro rfl
      exact hc ht
  case init =>
    rw [hinit, hparent, h.init.1, if_neg nofun]
    exact ⟨rfl, hactive _ hinit_ne h.init.2⟩
  case child =>
    intro t ht ha
    have ha' : Active (k.proc t).state ∨ (k.proc t).state = ZOMBIE := by
      by_cases htp : t = p
      · rw [htp]
        exact .inl (.inr (.inr hp))
      · rcases hstate t htp with he | ⟨he, -⟩
        · rwa [← he]
        · exact .inl (.inl he)
    obtain ⟨q, hq⟩ := h.child t (hinit ▸ ht) ha'
    rw [hparent]
    split_ifs
    · exact ⟨_, rfl⟩
    · exact ⟨q, hq⟩
  case waits =>
    intro t ht hw
    obtain ⟨htp, hks, hchan, hms⟩ := hsleep t ht
    rw [hkont] at hw
    obtain ⟨hc, hz⟩ := h.waits t hks hw
    have hmc : (m.proc t).chan = some (.proc t) := by rw [hm.chan, hc]
    refine ⟨by rw [hchan, hc], fun s hs hsz => ?_⟩
    rw [hparent] at hs
    by_cases hsp : s = p
    · -- the parent of `p` has been woken up
      subst hsp
      have hne : (k.proc s).parent ≠ some s := fun hss => (h.parent s s hss).1 rfl
      rw [if_neg hne] at hs
      exact hm.father t hs hms hmc
    · have hzk : (k.proc s).state = ZOMBIE := by
        rcases hstate s hsp with he | ⟨-, he⟩
        · rw [← he, hsz]
        · rw [hsz] at he
          cases he
      split_ifs at hs with hcp
      · cases hs
        exact hm.adoptive s hcp hzk hms hmc
      · exact hz s hs hzk
  case asleep =>
    intro t q ht hc
    obtain ⟨htp, hks, hchan, -⟩ := hsleep t ht
    rw [hchan] at hc
    rw [hkont]
    exact h.asleep t q hks hc

theorem exit (h : Family k) (hp : (k.proc p).state = RUNNING) (hi : p ≠ k.initproc)
    (hu : (k.kont p).child = none) : Family ((k.setKont p .user).exit b p) := by
  have huser : Family (k.setKont p .user) := h.setKont hp hu rfl
  have hk : (k.setKont p .user).kont p = .user := by
    rw [setKont_kont, if_pos rfl]
  have hz := huser.of_abandons (f := fun x => { x with state := ZOMBIE, etime := int32 k.ticks }) hp hi
    hk (abandons _ p) fun _ => ⟨rfl, rfl⟩
  exact hz.of_stirs (sched_stirs b p)

theorem no_zombie_of_scan {t : Slot → Proc} {cur : Slot} {hk : Bool}
    (h : scanChildren t cur slots false = (none, hk)) (s : Slot) (hs : (t s).parent = some cur) :
    (t s).state ≠ ZOMBIE := by
  rw [scanChildren_eq] at h
  injection h with hnone _
  have hz := List.find?_eq_none.mp hnone s (mem_slots s)
  simpa only [zombieChild, hs, beq_self_eq_true, Bool.true_and, beq_iff_eq] using hz

theorem waitScan (h : Family k) (hp : (k.proc p).state = RUNNING) (hu : (k.kont p).child = none) :
    Family (k.waitScan b p) := by
  simp only [Kernel.waitScan]
  split
  · rename_i s hk hscan
    exact h.reap hp (scanChildren_some (by rw [hscan])).2.2
  · rename_i hk hscan
    split_ifs
    · exact h.setKont hp hu rfl
    · have hz := no_zombie_of_scan hscan
      refine Family.of_stirs ?_ (sched_stirs b p)
      refine h.shift rfl (fun s => ?_) (fun s => ?_) (fun r => ?_) (fun r hr hw => ?_)
        (fun r q hr hc => ?_)
      · rw [setProc_proc]
        split_ifs with hs
        · rw [hs]
          rfl
        · rfl
      · rw [setProc_proc]
        split_ifs with hs
        · rw [hs]
          exact .inr ⟨.inr (.inr hp), .inl rfl⟩
        · exact .inl rfl
      · rw [setProc_kont, setKont_kont]
        split_ifs with hr
        · rw [hr]
          exact .inr ⟨hu, rfl, .inr (.inr hp)⟩
        · exact .inl rfl
      · rw [setProc_proc] at hr ⊢
        rw [setProc_kont, setKont_kont] at hw
        split_ifs at hr hw ⊢ with hrp
        · rw [hrp]
          exact ⟨rfl, hz⟩
        · exact h.waits r hr hw
      · rw [setProc_proc] at hr hc
        rw [setProc_kont, setKont_kont]
        split_ifs at hr hc ⊢ with hrp
        · rfl
        · exact h.asleep r q hr hc

theorem sleep {c : Chan} (h : Family k) (hp : (k.proc p).state = RUNNING)
    (hu : k.kont p = .user ∨ k.kont p = .exiting) (hc : ∀ q, c ≠ .proc q) :
    Family (k.sleep b p c) := by
  refine Family.of_stirs (h.set (.inr (.inr hp)) (.inl rfl) rfl fun _ => ⟨?_, fun q hq => ?_⟩)
    (sched_stirs b p)
  · rcases hu with hu | hu <;> rw [hu] <;> exact nofun
  · exact hc q (Option.some.inj hq)

theorem kill (h : Family k) (pid : ℤ) : Family (k.kill pid) := by
  simp only [Kernel.kill]
  split
  · rename_i s hs
    by_cases hsl : (k.proc s).state = SLEEPING
    · exact h.set (.inl hsl) (by simp [hsl, Active]) rfl (by simp [hsl])
    · exact h.touch (if_neg hsl) rfl rfl
  · exact h

theorem dispatch (h : Family k) (hp : (k.proc p).state = RUNNABLE) : Family (k.dispatch b p) := by
  have hset : Family (k.setProc p (Proc.dispatched b)) :=
    h.set (.inr (.inl hp)) (.inr (.inr rfl)) rfl nofun
  exact hset.of_stirs (.of_eq rfl rfl rfl rfl)

theorem acts {e : Event} (h : Family k) (hp : (k.proc p).state = RUNNING) (ha : Acts b k p e k') :
    Family k' := by
  cases ha with
  | stir hs => exact h.of_stirs hs
  | yield hs => exact h.of_sets hp hs
  | flee hu hs =>
    refine (h.of_stirs hs).setKont (hs.running hp) ?_ rfl
    rw [hs.kont, hu]
    rfl
  | alloc hu hs => exact h.alloc hp hs
  | stack hk => exact h.stack hp hk
  | copy hk => exact h.copy hp hk
  | run hk => exact h.run hp hk
  | exit hk hi => exact h.exit hp hi hk
  | wait hk => exact h.waitScan hp hk
  | sleep hk hc => exact h.sleep hp hk hc
  | kill => exact h.kill _

theorem smpStep {e : SmpEvent} (h : Family k) (he : Sched.smpStep b k e = some k') : Family k' := by
  have hon : ∀ p, Family (k.on p) := fun p => h.of_stirs (.of_eq rfl rfl rfl rfl)
  cases smpStep_cases he with
  | dispatch hp => exact h.dispatch hp
  | @act p e k' hp ha => exact (hon p).acts hp ha
  | preempt hp ha => exact h.acts hp ha
  | @fault p hp hu =>
    have hkilled := h.touch (s := p) (f := fun x => { x with killed := true }) rfl rfl rfl
    refine hkilled.setKont ?_ ?_ rfl
    · simpa using hp
    · rw [setProc_kont, hu]
      rfl
  | stir hs => exact h.of_stirs hs

end Family

end Xv6.Sched
