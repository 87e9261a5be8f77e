import Xv6.Sched.Family

/-!
# What becomes of a slot

`Fate` lists what one step can do to a slot: leave its pid and its `killed` flag, take it for a new
process, free it, or mark the process in it as killed.
-/

namespace Xv6.Sched
open Lib ProcState Kernel

section Fate

variable {b : Build} {k k' m : Kernel} {e : SmpEvent} {p s : Slot}

def Fresh (st : ProcState) : Prop := st = UNUSED ∨ st = EMBRYO

def Kernel.target (k : Kernel) (pid : ℤ) : Option Slot :=
  slots.find? fun s => (k.proc s).pid == pid

def Struck (k : Kernel) (e : SmpEvent) (s : Slot) : Prop :=
  (∃ p pid, e = .act p (.kill pid) ∧ k.target pid = some s) ∨ e = .fault s

inductive Fate (k k' : Kernel) (e : SmpEvent) (s : Slot) : Prop
  | kept (hpid : (k'.proc s).pid = (k.proc s).pid) (hkilled : (k'.proc s).killed = (k.proc s).killed)
      (hfresh : Fresh (k'.proc s).state → Fresh (k.proc s).state)
      (hlive : (k'.proc s).state ≠ UNUSED → (k.proc s).state ≠ UNUSED)
  | taken (p : Slot) (he : e = .act p .alloc) (hs : k.firstUnused = some s)
      (hnext : k'.nextpid = int32 (k.nextpid + 1)) (hpid : (k'.proc s).pid = k.nextpid)
      (hkilled : (k'.proc s).killed = (k.proc s).killed)
  | freed (hstate : (k'.proc s).state = UNUSED) (hpid : (k'.proc s).pid = 0)
      (hkilled : (k'.proc s).killed = false)
  | struck (he : Struck k e s) (hpid : (k'.proc s).pid = (k.proc s).pid)
      (hkilled : (k'.proc s).killed = true)
      (hfresh : Fresh (k'.proc s).state → Fresh (k.proc s).state)
      (hlive : (k'.proc s).state ≠ UNUSED → (k.proc s).state ≠ UNUSED)

theorem Fate.of_active (hpid : (k'.proc s).pid = (k.proc s).pid)
    (hkilled : (k'.proc s).killed = (k.proc s).killed)
    (hstate : (k'.proc s).state = (k.proc s).state ∨
      ¬ Fresh (k.proc s).state ∧ ¬ Fresh (k'.proc s).state) : Fate k k' e s := by
  refine .kept hpid hkilled (fun hf => ?_) (fun hl hu => ?_)
  · rcases hstate with he | ⟨-, hn⟩
    · rwa [← he]
    · exact absurd hf hn
  · rcases hstate with he | ⟨hn, -⟩
    · exact hl (he.trans hu)
    · exact hn (.inl hu)

theorem Fate.same (he : k'.proc s = k.proc s) : Fate k k' e s :=
  .of_active (by rw [he]) (by rw [he]) (.inl (by rw [he]))

theorem Kernel.Stirs.fate (h : Stirs k k') : Fate k k' e s := by
  refine .of_active (h.pid s) (h.killed s) ((h.state s).imp_right ?_)
  rintro ⟨h1, h2⟩
  rw [h1, h2]
  simp [Fresh]

theorem Fate.stirs (h : Fate k m e s) (hs : Stirs m k') : Fate k k' e s := by
  have hfresh : Fresh (k'.proc s).state → Fresh (m.proc s).state := fun hf => by
    rcases hs.state s with he | ⟨-, he⟩
    · rwa [← he]
    · rw [he] at hf
      simp [Fresh] at hf
  have hlive : (k'.proc s).state ≠ UNUSED → (m.proc s).state ≠ UNUSED := fun hl hu => by
    rcases hs.state s with he | ⟨he, -⟩
    · exact hl (he.trans hu)
    · rw [hu] at he
      cases he
  cases h with
  | kept hpid hkilled hf hl =>
    exact .kept ((hs.pid s).trans hpid) ((hs.killed s).trans hkilled) (hf ∘ hfresh) (hl ∘ hlive)
  | taken p he hun hnext hpid hkilled =>
    exact .taken p he hun (hs.nextpid.trans hnext) ((hs.pid s).trans hpid)
      ((hs.killed s).trans hkilled)
  | freed hstate hpid hkilled =>
    refine .freed ?_ ((hs.pid s).trans hpid) ((hs.killed s).trans hkilled)
    by_contra hne
    exact hlive hne hstate
  | struck he hpid hkilled hf hl =>
    exact .struck he ((hs.pid s).trans hpid) ((hs.killed s).trans hkilled) (hf ∘ hfresh) (hl ∘ hlive)

theorem Fate.setProc {r : Slot} {f : Proc → Proc} (hpid : (f (k.proc r)).pid = (k.proc r).pid)
    (hkilled : (f (k.proc r)).killed = (k.proc r).killed)
    (hfresh : Fresh (f (k.proc r)).state → Fresh (k.proc r).state)
    (hlive : (f (k.proc r)).state ≠ UNUSED → (k.proc r).state ≠ UNUSED) :
    Fate k (k.setProc r f) e s := by
  by_cases hs : s = r
  · subst hs
    exact .kept (by simpa using hpid) (by simpa using hkilled) (by simpa using hfresh)
      (by simpa using hlive)
  · exact .same (setProc_of_ne k r f hs)

theorem Fate.congr {n : Kernel} (h : Fate m n e s) (hproc : k.proc = m.proc)
    (hnext : k.nextpid = m.nextpid) (hproc' : k'.proc = n.proc) (hnext' : k'.nextpid = n.nextpid) :
    Fate k k' e s := by
  have htarget : k.target = m.target := by
    unfold Kernel.target
    rw [hproc]
  cases h with
  | kept hpid hkilled hf hl =>
    refine .kept ?_ ?_ ?_ ?_ <;> rw [hproc, hproc'] <;> assumption
  | taken p he hs hn hpid hkilled =>
    refine .taken p he ?_ ?_ ?_ ?_
    · unfold Kernel.firstUnused at hs ⊢
      rwa [hproc]
    · rw [hnext', hn, hnext]
    · rw [hproc', hpid, hnext]
    · rw [hproc, hproc', hkilled]
  | freed hstate hpid hkilled =>
    refine .freed ?_ ?_ ?_ <;> rw [hproc'] <;> assumption
  | struck he hpid hkilled hf hl =>
    refine .struck ?_ ?_ ?_ ?_ ?_
    · unfold Struck at he ⊢
      rwa [htarget]
    · rw [hproc, hproc', hpid]
    · rw [hproc', hkilled]
    · rw [hproc, hproc']
      exact hf
    · rw [hproc, hproc']
      exact hl

theorem Kernel.Sets.fate (h : Sets k k' p fun x => { x with state := RUNNABLE })
    (hp : (k.proc p).state = RUNNING) : Fate k k' e s := by
  obtain ⟨m, hm, hk⟩ := h
  refine Fate.stirs ?_ hk
  by_cases hs : s = p
  · subst hs
    refine .of_active ?_ ?_ (.inr ?_)
    · rw [setProc_self]
      exact hm.pid s
    · rw [setProc_self]
      exact hm.killed s
    · rw [setProc_self, hp]
      simp [Fresh]
  · have hf : Fate k m e s := hm.fate
    have he := setProc_of_ne m p (fun x => { x with state := RUNNABLE }) hs
    cases hf with
    | kept hpid hkilled hf hl => refine .kept ?_ ?_ ?_ ?_ <;> rw [he] <;> assumption
    | taken p he' hun hnext hpid hkilled =>
      refine .taken p he' hun hnext ?_ ?_ <;> rw [he] <;> assumption
    | freed hstate hpid hkilled => refine .freed ?_ ?_ ?_ <;> rw [he] <;> assumption
    | struck he' hpid hkilled hf hl => refine .struck he' ?_ ?_ ?_ ?_ <;> rw [he] <;> assumption

theorem kill_fate (p : Slot) (pid : ℤ) : Fate k (k.kill pid) (.act p (.kill pid)) s := by
  cases ht : k.target pid with
  | none =>
    have hk : k.kill pid = k := by
      unfold Kernel.target at ht
      simp only [Kernel.kill, ht]
    rw [hk]
    exact (Stirs.refl k).fate
  | some r =>
    have hk : k.kill pid = k.setProc r fun x => { x with
        killed := true
        state := if x.state = SLEEPING then RUNNABLE else x.state } := by
      unfold Kernel.target at ht
      simp only [Kernel.kill, ht]
    rw [hk]
    by_cases hs : s = r
    · subst hs
      refine .struck (.inl ⟨p, pid, rfl, ht⟩) (by simp) (by simp) ?_ ?_
      · rw [setProc_self]
        dsimp only
        split_ifs with hsl
        · simp [Fresh]
        · exact id
      · rw [setProc_self]
        dsimp only
        split_ifs with hsl
        · simp [hsl]
        · exact id
    · exact .same (setProc_of_ne k r _ hs)

theorem exit_fate (hp : (k.proc p).state = RUNNING) : Fate k (k.exit b p) e s := by
  have hm := Family.abandons k p
  refine Fate.stirs ?_ (sched_stirs b p)
  by_cases hs : s = p
  · subst hs
    refine .of_active ?_ ?_ (.inr ?_)
    · rw [setProc_self]
      dsimp only
      exact hm.pid s
    · rw [setProc_self]
      dsimp only
      exact hm.killed s
    · rw [setProc_self, hp]
      simp [Fresh]
  · refine .of_active ?_ ?_ ?_
    · rw [setProc_of_ne _ p _ hs]
      exact hm.pid s
    · rw [setProc_of_ne _ p _ hs]
      exact hm.killed s
    · rw [setProc_of_ne _ p _ hs]
      refine (hm.state s).imp_right ?_
      rintro ⟨h1, h2⟩
      rw [h1, h2]
      simp [Fresh]

theorem waitScan_fate (hp : (k.proc p).state = RUNNING) : Fate k (k.waitScan b p) e s := by
  simp only [Kernel.waitScan]
  split
  · rename_i r hk hscan
    refine Fate.congr (m := k) (n := k.setProc r Proc.reaped) ?_ rfl rfl rfl rfl
    by_cases hs : s = r
    · subst hs
      exact .freed (by simp [Proc.reaped]) (by simp [Proc.reaped]) (by simp [Proc.reaped])
    · exact .same (setProc_of_ne k r _ hs)
  · split_ifs
    · exact Fate.congr (Stirs.refl k).fate rfl rfl rfl rfl
    · refine Fate.stirs ?_ (sched_stirs b p)
      refine Fate.congr (m := k) (n := k.setProc p fun x => { x with
        chan := some (.proc p)
        state := SLEEPING }) ?_ rfl rfl rfl rfl
      exact .setProc rfl rfl (by simp [Fresh]) (by simp [hp])

theorem Acts.fate {e : Event} (h : Family k) (hp : (k.proc p).state = RUNNING)
    (ha : Acts b k p e k') : Fate k k' (.act p e) s := by
  cases ha with
  | stir hs => exact hs.fate
  | yield hs => exact hs.fate hp
  | flee hu hs => exact Fate.congr hs.fate rfl rfl rfl rfl
  | @alloc r hu hs =>
    refine Fate.congr (m := k) (n := k.allocproc r) ?_ rfl rfl rfl rfl
    by_cases hsr : s = r
    · subst hsr
      exact .taken p rfl hs rfl (by simp [allocproc]) (by simp [allocproc])
    · exact .same (Function.update_of_ne hsr _ _)
  | @stack np page hk =>
    have hemb := h.fork p np (by rw [hk]; rfl)
    refine Fate.congr (m := k) (n := k.allocStack np page) ?_ rfl rfl rfl rfl
    refine .setProc ?_ ?_ (fun _ => .inr hemb) (fun _ => by rw [hemb]; decide)
    · split_ifs <;> rfl
    · split_ifs <;> rfl
  | @copy np pgdir hk =>
    have hemb := h.fork p np (by rw [hk]; rfl)
    refine Fate.congr (m := k) (n := k.forkCopy b p np pgdir) ?_ rfl rfl rfl rfl
    refine .setProc ?_ ?_ (fun _ => .inr hemb) (fun _ => by rw [hemb]; decide)
    · split_ifs <;> rfl
    · split_ifs <;> rfl
  | @run np hk =>
    have hemb := h.fork p np (by rw [hk]; rfl)
    refine Fate.congr (m := k) (n := k.setProc np fun x => { x with state := RUNNABLE }) ?_ rfl rfl rfl rfl
    exact .setProc rfl rfl (fun _ => .inr hemb) (fun _ => by rw [hemb]; decide)
  | exit hk hi => exact Fate.congr (exit_fate (k := k.setKont p .user) hp) rfl rfl rfl rfl
  | wait hk => exact waitScan_fate hp
  | sleep hk hc =>
    exact Fate.stirs (.setProc rfl rfl (by simp [Fresh]) (by simp [hp])) (sched_stirs b p)
  | kill => exact kill_fate p _

theorem smpStep_fate (h : Family k) (he : smpStep b k e = some k') (s : Slot) : Fate k k' e s := by
  cases smpStep_cases he with
  | @dispatch p hp =>
    refine Fate.congr (m := k) (n := k.setProc p (Proc.dispatched b)) ?_ rfl rfl rfl rfl
    exact .setProc rfl rfl (by simp [Fresh, Proc.dispatched]) (by simp [hp])
  | @act p e k' hp ha =>
    have hon : Family (k.on p) := h.of_stirs (.of_eq rfl rfl rfl rfl)
    exact Fate.congr (ha.fate hon hp) rfl rfl rfl rfl
  | preempt hp ha =>
    cases ha with
    | stir hs => exact hs.fate
    | yield hs => exact hs.fate hp
    | flee hu hs => exact Fate.congr hs.fate rfl rfl rfl rfl
  | @fault p hp hu =>
    refine Fate.congr (m := k) (n := k.setProc p fun x => { x with killed := true }) ?_ rfl rfl rfl rfl
    by_cases hs : s = p
    · subst hs
      exact .struck (.inr rfl) (by simp) (by simp) (by simp) (by simp)
    · exact .same (setProc_of_ne k p _ hs)
  | stir hs => exact hs.fate

theorem exit_nextpid : (k.exit b p).nextpid = k.nextpid := by
  unfold Kernel.exit
  rw [(sched_stirs b p).nextpid, setProc_nextpid]
  exact (Family.abandons k p).nextpid

theorem Acts.nextpid {e : Event} (ha : Acts b k p e k') :
    k'.nextpid = k.nextpid ∨ e = .alloc ∧ k'.nextpid = int32 (k.nextpid + 1) := by
  cases ha with
  | stir hs => exact .inl hs.nextpid
  | yield hs =>
    obtain ⟨m, hm, hk⟩ := hs
    exact .inl (hk.nextpid.trans hm.nextpid)
  | flee hu hs => exact .inl hs.nextpid
  | alloc hu hs => exact .inr ⟨rfl, rfl⟩
  | exit hk hi => exact .inl exit_nextpid
  | wait hk =>
    left
    simp only [Kernel.waitScan]
    split
    · rfl
    · split_ifs
      · rfl
      · exact (sched_stirs b p).nextpid
  | sleep hk hc => exact .inl (sched_stirs b p).nextpid
  | kill =>
    left
    simp only [Kernel.kill]
    split <;> rfl
  | _ => exact .inl rfl

theorem smpStep_nextpid (he : smpStep b k e = some k') :
    k'.nextpid = k.nextpid ∨ (∃ p, e = .act p .alloc) ∧ k'.nextpid = int32 (k.nextpid + 1) := by
  cases smpStep_cases he with
  | dispatch hp => exact .inl rfl
  | @act p e k' hp ha => exact ha.nextpid.imp_right fun h => ⟨⟨p, by rw [h.1]⟩, h.2⟩
  | preempt hp ha =>
    rcases ha.nextpid with h | ⟨h, -⟩
    · exact .inl h
    · cases h
  | fault hp hu => exact .inl rfl
  | stir hs => exact .inl hs.nextpid

end Fate

structure Pids (k : Kernel) : Prop where
  pos : ∀ s, (k.proc s).state ≠ UNUSED → 0 < (k.proc s).pid
  range : ∀ s, 0 ≤ (k.proc s).pid ∧ (k.proc s).pid < k.nextpid
  inj : ∀ s t, (k.proc s).pid = (k.proc t).pid → (k.proc s).pid ≠ 0 → s = t

def SmpPidRoom (k : Kernel) : SmpEvent → Prop
  | .act _ e => PidRoom k e
  | _ => True

instance (k : Kernel) (e : SmpEvent) : Decidable (SmpPidRoom k e) := by
  unfold SmpPidRoom PidRoom
  split <;> infer_instance

theorem Pids.smpStep {b : Build} {k k' : Kernel} {e : SmpEvent} (h : Pids k) (hf : Family k)
    (hroom : SmpPidRoom k e) (he : Sched.smpStep b k e = some k') : Pids k' := by
  have hpos : 0 < k.nextpid := by
    have := h.range 0
    omega
  have hroom' : ∀ p, e = .act p .alloc → int32 (k.nextpid + 1) = k.nextpid + 1 := by
    rintro p rfl
    have hlt : k.nextpid < 2 ^ 31 - 1 := hroom rfl
    unfold int32
    rw [Int.bmod_eq_of_le] <;> omega
  have hnext : k.nextpid ≤ k'.nextpid := by
    rcases smpStep_nextpid he with hn | ⟨⟨p, hp⟩, hn⟩
    · omega
    · rw [hn, hroom' p hp]
      omega
  -- the slot that is taken gets `nextpid`, and the others keep their pids or lose them
  have hpid : ∀ s, ((k'.proc s).pid = (k.proc s).pid ∧
        ((k'.proc s).state ≠ UNUSED → (k.proc s).state ≠ UNUSED)) ∨
      ((k'.proc s).pid = 0 ∧ (k'.proc s).state = UNUSED) ∨
      (k.firstUnused = some s ∧ (k'.proc s).pid = k.nextpid ∧ k'.nextpid = k.nextpid + 1) := by
    intro s
    cases smpStep_fate hf he s with
    | kept hp hk hfr hl => exact .inl ⟨hp, hl⟩
    | struck hs hp hk hfr hl => exact .inl ⟨hp, hl⟩
    | freed hu hp hk => exact .inr (.inl ⟨hp, hu⟩)
    | taken p he' hs hn hp hk => exact .inr (.inr ⟨hs, hp, hn.trans (hroom' p he')⟩)
  refine ⟨fun s hs => ?_, fun s => ?_, fun s t hst hne => ?_⟩
  · rcases hpid s with ⟨hp, hl⟩ | ⟨-, hu⟩ | ⟨-, hp, -⟩
    · rw [hp]
      exact h.pos s (hl hs)
    · exact absurd hu hs
    · rwa [hp]
  · have hr := h.range s
    rcases hpid s with ⟨hp, -⟩ | ⟨hp, -⟩ | ⟨-, hp, hn⟩ <;> rw [hp] <;> omega
  · have hrs := h.range s
    have hrt := h.range t
    rcases hpid s with ⟨hps, -⟩ | ⟨hps, -⟩ | ⟨hs, hps, -⟩
    · rcases hpid t with ⟨hpt, -⟩ | ⟨hpt, -⟩ | ⟨-, hpt, -⟩
      · rw [hps, hpt] at hst
        exact h.inj s t hst (hps ▸ hne)
      · exact absurd (hst.trans hpt) hne
      · omega
    · exact absurd hps hne
    · rcases hpid t with ⟨hpt, -⟩ | ⟨hpt, -⟩ | ⟨ht, -, -⟩
      · omega
      · exact absurd (hst.trans hpt) hne
      · rw [hs] at ht
        exact Option.some.inj ht

theorem boot_family (kstack pgdir : ℕ) : Family (boot kstack pgdir) := by
  have hinit : ((boot kstack pgdir).proc 0).state = RUNNABLE ∧
      ((boot kstack pgdir).proc 0).parent = none := by
    have hstate := (boot_init kstack pgdir).1
    refine ⟨hstate, ?_⟩
    simp only [boot, setProc_self, allocStack]
    split_ifs <;> rfl
  have hother : ∀ s, s ≠ 0 → ((boot kstack pgdir).proc s).state = UNUSED := by
    intro s hs
    rw [boot_proc kstack pgdir hs]
    rfl
  have hparent : ∀ s, ((boot kstack pgdir).proc s).parent = none := by
    intro s
    by_cases hs : s = 0
    · rw [hs]
      exact hinit.2
    · rw [boot_proc kstack pgdir hs]
      rfl
  have hsleep : ∀ s, ((boot kstack pgdir).proc s).state ≠ SLEEPING := by
    intro s
    by_cases hs : s = 0
    · rw [hs, hinit.1]
      decide
    · rw [hother s hs]
      decide
  exact
    { active := fun p hp => absurd rfl hp
      fork := fun p np h => by cases h
      inj := fun p q np h => by cases h
      filled := fun p np h => by cases h
      blank := fun p np _ => hparent np
      unused := fun s _ => hparent s
      parent := fun s q h => by
        rw [hparent] at h
        cases h
      init := ⟨hparent _, .inr (.inl hinit.1)⟩
      child := fun s hs ha => by
        rw [hother s hs] at ha
        simp [Active] at ha
      waits := fun p hp => absurd hp (hsleep p)
      asleep := fun p q hp => absurd hp (hsleep p) }

theorem boot_pids (kstack pgdir : ℕ) : Pids (boot kstack pgdir) := by
  have hq := boot_queued kstack pgdir
  exact ⟨hq.pos, hq.range, hq.inj⟩

variable {b : Build} {kstack pgdir : ℕ} {es : List SmpEvent} {k : Kernel}

theorem family_run (hrun : Runs.exec (smpStep b) (boot kstack pgdir) es = some k) : Family k :=
  Runs.exec_invariant (smpStep b) (fun _ _ _ h he => h.smpStep he) (boot_family kstack pgdir) hrun

theorem pids_run (hroom : Runs.Meets (smpStep b) SmpPidRoom (boot kstack pgdir) es)
    (hrun : Runs.exec (smpStep b) (boot kstack pgdir) es = some k) : Pids k := by
  have hinv : Family k ∧ Pids k :=
    Runs.exec_preserves (smpStep b) (I := fun k => Family k ∧ Pids k)
      (fun _ _ _ h hC he => ⟨h.1.smpStep he, h.2.smpStep h.1 hC he⟩)
      ⟨boot_family kstack pgdir, boot_pids kstack pgdir⟩ hroom hrun
  exact hinv.2

/-- Every process but the first has a live parent, and no ZOMBIE waits for one that sleeps. -/
theorem process_tree (b : Build) (kstack pgdir : ℕ) (es : List SmpEvent) (k : Kernel)
    (hrun : Runs.exec (smpStep b) (boot kstack pgdir) es = some k) :
    (Runs.Meets (smpStep b) SmpPidRoom (boot kstack pgdir) es →
      ∀ s t, (k.proc s).state ≠ UNUSED → (k.proc t).state ≠ UNUSED →
        (k.proc s).pid = (k.proc t).pid → s = t) ∧
    (∀ s, s ≠ k.initproc → (k.proc s).state ≠ UNUSED → (k.proc s).state ≠ EMBRYO →
      ∃ q, (k.proc s).parent = some q ∧ (k.proc q).state ≠ UNUSED ∧ (k.proc q).state ≠ ZOMBIE) ∧
    (∀ s, (k.proc s).state = UNUSED → (k.proc s).parent = none) ∧
    ∀ p, (k.proc p).state = SLEEPING → (k.proc p).chan = some (.proc p) →
      ∀ s, (k.proc s).parent = some p → (k.proc s).state ≠ ZOMBIE := by
  have hf := family_run hrun
  refine ⟨fun hroom s t hs _ hpid => ?_, fun s hs hu he => ?_, hf.unused, fun p hp hc => ?_⟩
  · have hp := pids_run hroom hrun
    exact hp.inj s t hpid (hp.pos s hs).ne'
  · have ha : Active (k.proc s).state ∨ (k.proc s).state = ZOMBIE := by
      unfold Active
      cases hst : (k.proc s).state <;> simp_all
    obtain ⟨q, hq⟩ := hf.child s hs ha
    have hqa := (hf.parent s q hq).2
    refine ⟨q, hq, ?_, ?_⟩
    · rintro hqu
      rw [hqu] at hqa
      simp [Active] at hqa
    · rintro hqz
      rw [hqz] at hqa
      simp [Active] at hqa
  · exact (hf.waits p hp (hf.asleep p p hp hc)).2

def familyRun : List SmpEvent :=
  [.dispatch 0, .act 0 .alloc, .act 0 (.stack 1), .act 0 (.copy 1), .act 0 .run, .act 0 .wait,
    .dispatch 1, .act 1 .exit]

theorem process_tree_familyRun : ∃ k, Runs.exec (smpStep .DEFAULT) (boot 1 1) familyRun = some k ∧
    (k.proc 1).state = ZOMBIE ∧ (k.proc 1).parent = some 0 ∧
    ((k.proc 0).state = SLEEPING → (k.proc 0).chan = some (.proc 0) → False) ∧
    (k.proc 0).pid ≠ (k.proc 1).pid := by
  obtain ⟨k, hk, hz, hpar, hu⟩ : ∃ k ∈ Runs.exec (smpStep .DEFAULT) (boot 1 1) familyRun,
      (k.proc 1).state = ZOMBIE ∧ (k.proc 1).parent = some 0 ∧ (k.proc 0).state ≠ UNUSED := by
    decide +kernel
  have hroom : Runs.Meets (smpStep .DEFAULT) SmpPidRoom (boot 1 1) familyRun := by decide +kernel
  obtain ⟨hpid, -, -, hwait⟩ := process_tree .DEFAULT 1 1 familyRun k hk
  refine ⟨k, hk, hz, hpar, fun hs hc => hwait 0 hs hc 1 hpar hz, fun hp => ?_⟩
  have h01 := hpid hroom 0 1 hu (by rw [hz]; exact nofun) hp
  exact absurd h01 (by decide)

end Xv6.Sched
