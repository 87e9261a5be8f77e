import Xv6.Exec.Load
import Xv6.Exec.Stack

/-!
# What `exec` leaves behind

`exec` builds the new image beside the old one and changes the process at the end only.
-/

namespace Xv6.Exec

open Lib Lib.Prog Vm
open Fs (ISlot Path)

variable {K : Image} {g : Fs.Geometry} {E : Fault → Prop} {s : State} {m m' m₀ : Kmem}
  {ρ ρ' ρ₀ : Roles} {o : Owner} {c d : Frame} {sz : ℕ} {args : List (List Byte)} {t : Fs.Tables}
  {ip : ISlot} {p : Fs.Pid} {path : Path}

theorem kernelPte_above (K : Image) {v : ℕ} (hlo : 2 ^ 19 ≤ v) (hhi : v < 2 ^ 20)
    (hgap : ¬InGap (v * PGSIZE)) : kernelPte K v ≠ none := by
  intro hnone
  have hout : ∀ k ∈ kmap K, ¬(k.virt / PGSIZE ≤ v ∧ v < (k.virt + k.size) / PGSIZE) := fun k hk hin => by
    have hentry := List.findSome?_eq_none_iff.mp hnone k hk
    rw [Kmap.entry, if_pos hin] at hentry
    cases hentry
  have h1 := K.data_before
  have h2 := K.booted
  have h3 := K.text_before
  have h4 := K.data_aligned
  simp only [kmap, List.forall_mem_cons, Kmap.size, InGap, KERNLINK, KERNBASE, EXTMEM, PHYSTOP, DEVSPACE,
    PGSIZE] at *
  omega

structure Placed (m m' : Kmem) (d : Frame) (sz sz' sp : ℕ) (args : List (List Byte)) : Prop where
  lt : sz < KERNBASE
  size : sz' = pgroundup sz + 2 * PGSIZE
  le : sz' ≤ KERNBASE
  stack : ∃ ptrs, ArgStack m' d sz' sp args ptrs
  program : ∀ v, v * PGSIZE < sz → m'.mapped d v = m.mapped d v
  guard : ∃ w, m'.mapped d (pgroundup sz / PGSIZE) = some (w, fun _ => 0) ∧ w &&& PTE_U = 0

theorem Pages.pgroundup (hp : Pages K m d sz) (hsz : sz ≤ KERNBASE) : Pages K m d (pgroundup sz) where
  mapped v hv := hp.mapped v ((lt_pgroundup_iff hsz).mp hv)
  unmapped v hv hge := hp.unmapped v hv ((le_pgroundup hsz).trans hge)
  kernel := hp.kernel

theorem page_lt {u n : ℕ} (h : u < n) : u * PGSIZE < n * PGSIZE :=
  Nat.mul_lt_mul_of_pos_right h (by decide)

theorem wu_pushArgs {Q : Option (ℕ × ℕ) → Kmem → Prop} {EV : Vm.Panic → Prop} (h₀ : Books K m₀ ρ₀)
    (hno : NoSpace ρ₀ .image) (hb : Building K m₀ ρ₀ d m ρ) (hp : Pages K m d sz) (hsz : sz < KERNBASE)
    (hstr : ∀ a ∈ args, a.length < KERNBASE)
    (hland : (∀ n m₁, run (Vm.perform K)
        (allocuvm d (pgroundup sz) ((pgroundup sz + 2 * PGSIZE) % 2 ^ 32)) m = .ok (n, m₁) → n ≠ 0 →
        Lands (pgroundup sz + PGSIZE) PGSIZE (args.take MAXARG)) ∨
      ∀ m' ρ', Keeps .image m₀ ρ₀ m' ρ' → NullRefused m' c)
    (hfail : ∀ m' ρ', Building K m₀ ρ₀ d m' ρ' →
      KERNBASE ≤ (pgroundup sz + 2 * PGSIZE) % 2 ^ 32 ∨ Exhausted K .image d (pagesFrom
        (pgroundup (pgroundup sz)) ((pgroundup sz + 2 * PGSIZE) % 2 ^ 32)) m ρ ∨
        ¬(Fit args ∧ args.length ≤ MAXARG) → Q none m')
    (hok : ∀ sz' sp m' ρ', Building K m₀ ρ₀ d m' ρ' → Placed m m' d sz sz' sp args →
      Q (some (sz', sp)) m') : WU K m₀.freelist EV (pushArgs c d sz args) Q m := by
  have hup : pgroundup sz ≤ KERNBASE := by
    rw [pgroundup_eq hsz.le]
    simp only [PGSIZE, KERNBASE] at *
    omega
  have hal := pgroundup_aligned sz
  have hge := le_pgroundup hsz.le
  have hp' := hp.pgroundup hsz.le
  -- The guard page is the first page above the program.
  obtain ⟨v, hv⟩ : ∃ v, v * PGSIZE = pgroundup sz := ⟨pgroundup sz / PGSIZE, Nat.div_mul_cancel
    (Nat.dvd_of_mod_eq_zero hal)⟩
  rw [pushArgs, ← hv]
  rw [← hv] at hup hp' hland hfail
  have hnew : (v * PGSIZE + 2 * PGSIZE) % 2 ^ 32 = (v + 1 + 1) * PGSIZE := by
    simp only [PGSIZE, KERNBASE] at *
    omega
  have hclear : ((v + 1 + 1) * PGSIZE + 2 ^ 32 - 2 * PGSIZE) % 2 ^ 32 = v * PGSIZE := by
    simp only [PGSIZE, KERNBASE] at *
    omega
  simp only [hnew] at hland hfail ⊢
  have halloc : WU K m₀.freelist EV (allocuvm d (v * PGSIZE) ((v + 1 + 1) * PGSIZE)) (fun n m₁ => ∃ ρ₁,
      At K m₁ ρ₁ .image d none ∧ Keeps .image m ρ m₁ ρ₁ ∧
        (n = 0 ∧ (KERNBASE ≤ (v + 1 + 1) * PGSIZE ∨ Exhausted K .image d
          (pagesFrom (pgroundup (v * PGSIZE)) ((v + 1 + 1) * PGSIZE)) m ρ) ∨
        n = (v + 1 + 1) * PGSIZE ∧ (v + 1 + 1) * PGSIZE < KERNBASE ∧ Pages K m₁ d ((v + 1 + 1) * PGSIZE) ∧
          (∀ u < 2 ^ 19, u * PGSIZE < v * PGSIZE → m₁.mapped d u = m.mapped d u) ∧
          ∃ w, m₁.mapped d v = some (w, fun _ => 0))) m := by
    refine wu_allocuvm hb.toAt hp' hup (fun m₁ ρ₁ ha₁ hk₁ hwhy => ⟨ρ₁, ha₁, hk₁, .inl ⟨rfl, hwhy⟩⟩)
      (fun hlt _ => ?_) fun m₁ ρ₁ _ hlt ha₁ hk₁ hp₁ hkept hzero =>
        ⟨ρ₁, ha₁, hk₁, .inr ⟨rfl, hlt, hp₁, hkept, hzero v le_rfl (page_lt (by omega))⟩⟩
    simp only [PGSIZE] at hlt
    omega
  refine meets_bind (halloc.with_run.mono ?_)
  rintro n m₁ ⟨hrun, ρ₁, ha₁, hk₁, ⟨rfl, hwhy⟩ | ⟨rfl, hlt, hp₁, hkept, w₀, hw₀⟩⟩
  · exact meets_pure (hfail m₁ ρ₁ (hb.trans ha₁ hk₁) (hwhy.imp id .inl))
  have hb₁ := hb.trans ha₁ hk₁
  have hlt19 : v + 1 < 2 ^ 19 := by
    simp only [PGSIZE, KERNBASE] at hlt
    omega
  obtain ⟨f, hman, hw⟩ := hp₁.mapped v (page_lt (by omega))
  obtain ⟨f', hman', hw'⟩ := hp₁.mapped (v + 1) (page_lt (by omega))
  rw [if_neg (by simp only [PGSIZE]; omega), hclear]
  refine meets_bind (wu_of_w (w_clearpteu ha₁ (by omega) hw
    fun m₂ ha₂ halt₂ hguard hpage => ?_))
  have hb₂ := hb₁.trans ha₂ halt₂.toKeeps
  have hpte₂ : ∀ u < 2 ^ 20, u ≠ v → m₂.pte d u = m₁.pte d u := fun u hu hne => halt₂.pte u hu hne
  have hnoU : pteOf f (PTE_W ||| PTE_U ||| PTE_P) &&& ~~~PTE_U &&& PTE_U = 0 := by
    rw [BitVec.and_assoc]
    exact BitVec.and_zero
  have hs : StackAt K m₀.freelist m₂ ρ₁ .image d (v + 1) (pteOf f' (PTE_W ||| PTE_U ||| PTE_P)) :=
    { ha₂ with
      owned := hb₂.owned h₀ hno
      lt := hlt19
      pos := Nat.succ_pos v
      stack := (hpte₂ (v + 1) (by omega) (by omega)).trans hw'
      user := pteOf_user f'
      guard := fun ⟨x, hx, hU⟩ => by
        rw [Nat.add_sub_cancel, hguard] at hx
        cases hx
        exact hU hnoU
      below := fun u hu => by
        by_cases huv : u = v
        · rw [huv, hguard]
          simp
        · obtain ⟨fu, -, hwu⟩ := hp₁.mapped u (page_lt (by omega))
          rw [hpte₂ u (by omega) huv, hwu]
          simp
      above := fun u hlo hhi hgap => by
        rw [hpte₂ u hhi (by omega), hp₁.kernel u hlo hhi]
        exact kernelPte_above K hlo hhi hgap }
  have hsz' : (v + 1 + 1) * PGSIZE ≤ KERNBASE := hlt.le
  have hland' : Lands ((v + 1) * PGSIZE) PGSIZE (args.take MAXARG) ∨
      ∀ m', Keeps .image m₂ ρ₁ m' ρ₁ → NullRefused m' c := by
    refine hland.imp (fun hl => ?_) fun hnull m' hk' => hnull m' ρ₁ (hb₂.keeps.trans hk')
    rw [Nat.add_mul, Nat.one_mul]
    exact hl _ m₁ hrun (by simp only [PGSIZE]; omega)
  refine meets_bind (hs.pushStack hstr hland' (fun hnot m' ha' hk' => ?_) fun X esp ptrs hstack => ?_)
  · exact meets_pure (hfail m' ρ₁ (hb₂.trans ha' hk') (.inr (.inr hnot)))
  · obtain ⟨ha', halt'⟩ := ha₂.writeUser (S := {v + 1}) hs.lt hs.stack rfl X
    refine meets_pure (hok _ esp _ ρ₁ (hb₂.trans ha' halt'.toKeeps) ⟨hsz, ?_, hsz', ⟨ptrs, hstack⟩,
      fun u hu => ?_, ?_⟩)
    · rw [← hv]
      exact Nat.add_mul v 2 PGSIZE
    · have hlow : u * PGSIZE < v * PGSIZE := hu.trans_le (hge.trans hv.ge)
      have huv : u < v := Nat.lt_of_mul_lt_mul_right hlow
      calc _ = m₂.mapped d u := halt'.mapped (by omega) (show u ≠ v + 1 by omega)
        _ = m₁.mapped d u := halt₂.mapped (by omega) (show u ≠ v by omega)
        _ = m.mapped d u := hkept u (by omega) hlow
    · have haddr : pteAddr (pteOf f (PTE_W ||| PTE_U ||| PTE_P) &&& ~~~PTE_U) =
          pteAddr (pteOf f (PTE_W ||| PTE_U ||| PTE_P)) := pteAddr_and_not (by decide)
      have hpage₁ : m₁.page (pteAddr (pteOf f (PTE_W ||| PTE_U ||| PTE_P))) = fun _ => 0 := by
        rw [Kmem.mapped, hw, Option.map_some] at hw₀
        exact congrArg Prod.snd (Option.some.inj hw₀)
      refine ⟨_, ?_, hnoU⟩
      rw [← hv, Nat.mul_div_cancel v (by decide),
        halt'.mapped (by omega) (show v ≠ v + 1 by omega), Kmem.mapped, hguard, Option.map_some, haddr,
        hpage, hpage₁]

def FsLeft (t : Fs.Tables) : Option ISlot → Fs.SysState → Prop
  | none => FsAt t 0 ∅ false
  | some ip => FsAt t (ip ::ₘ 0) (insert ip ∅) true

variable {free : List Frame}

theorem me_openPath {Q : Option ISlot → State → Prop} (hE : ∀ f, E (.fs f))
    (hfs : FsAt t 0 ∅ false s.sys) (hnone : ∀ k, FsAt t 0 ∅ false k → Q none { s with sys := k })
    (hsome : ∀ ip k, FsLeft t (some ip) k → Q (some ip) { s with sys := k }) :
    ME K g free E (openPath p path) Q s := by
  refine meets_bind (me_beginOp hfs fun k₁ h₁ => meets_bind (me_namei hE h₁ (fun k₂ h₂ => ?_)
    fun ip k₂ h₂ => ?_))
  · exact meets_bind (me_endOp h₂ fun k₃ h₃ => meets_pure (hnone k₃ h₃))
  · exact meets_bind (me_ilock hE h₂ fun k₃ h₃ => meets_pure (hsome ip k₃ h₃))

def LoadEnds (K : Image) (m₀ : Kmem) (ρ₀ : Roles) (t : Fs.Tables) (ip : ISlot) (x : Proc) :
    Loaded → State → Prop
  | .failed r, s => Holds K m₀ ρ₀ s.mem r ∧ FsLeft t (some ip) s.sys ∧ s.proc = x
  | .ok d sz _, s => Loading K m₀ ρ₀ t ip x d sz s

def LoadLands (K : Image) (g : Fs.Geometry) (ip : ISlot) (args : List (List Byte)) (s : State) : Prop :=
  ∀ d sz entry s₁ n m, run (perform K g) (load K ip) s = .ok (.ok d sz entry, s₁) →
    run (Vm.perform K) (allocuvm d (pgroundup sz) ((pgroundup sz + 2 * PGSIZE) % 2 ^ 32)) s₁.mem =
      .ok (n, m) → n ≠ 0 → Lands (pgroundup sz + PGSIZE) PGSIZE (args.take MAXARG)

theorem me_build {Q : Outcome → State → Prop} (h₀ : Books K m₀ ρ₀) (hno : NoSpace ρ₀ .image)
    (hE : ∀ f, E (.fs f)) (hstr : ∀ a ∈ args, a.length < KERNBASE) (hland : LoadLands K g ip args s ∨
      ∀ m' ρ', Keeps .image m₀ ρ₀ m' ρ' → NullRefused m' c) (hm : s.mem = m₀)
    (hfs : FsLeft t (some ip) s.sys)
    (hbad : ∀ r ip' s', Holds K m₀ ρ₀ s'.mem r → FsLeft t ip' s'.sys → s'.proc = s.proc →
      Q (.bad r ip') s') (hdone : ∀ d sz sp entry s' ρ, Building K m₀ ρ₀ d s'.mem ρ →
      FsAt t 0 ∅ false s'.sys → s'.proc = s.proc →
      (∃ sz₁ s₁, run (perform K g) (load K ip) s = .ok (.ok d sz₁ entry, s₁) ∧
        Placed s₁.mem s'.mem d sz₁ sz sp args) → Q (.done d sz sp entry) s') :
    ME K g m₀.freelist E (build K c ip args) Q s := by
  have hload : ME K g m₀.freelist E (load K ip) (LoadEnds K m₀ ρ₀ t ip s.proc) s :=
    me_load h₀ hno hE hm hfs (fun r s' h1 h2 h3 => ⟨h1, h2, h3⟩) fun d sz entry s' hl => hl
  refine meets_bind (hload.with_run.mono fun r s₁ ⟨hrun, hend⟩ => ?_)
  cases r with
  | failed r => exact meets_pure (hbad r (some ip) s₁ hend.1 hend.2.1 hend.2.2)
  | ok d sz entry =>
    have hl : Loading K m₀ ρ₀ t ip s.proc d sz s₁ := hend
    obtain ⟨ρ, hb⟩ := hl.image
    refine meets_bind (me_iunlockput hE hl.fs fun k₂ h₂ => meets_bind (me_endOp h₂ fun k₃ h₃ => ?_))
    refine meets_bind (me_mem (wu_pushArgs h₀ hno hb hl.pages hl.lt hstr
      (hland.imp_left fun h n m₁ => h d sz entry s₁ n m₁ hrun) (fun m' ρ' hb' _ => ?_)
      fun sz' sp m' ρ' hb' hplaced => ?_))
    · exact meets_pure (hbad (some d) none _ ⟨ρ', hb'⟩ h₃ hl.proc)
    · exact meets_pure (hdone d sz' sp entry _ ρ' hb' h₃ hl.proc ⟨sz, s₁, hrun, hplaced⟩)

theorem me_bad {Q : ℤ → State → Prop} {r : Option Frame} {ip' : Option ISlot}
    (hE : ∀ f, E (.fs f)) (hr : Holds K m₀ ρ₀ s.mem r) (hfs : FsLeft t ip' s.sys)
    (hQ : ∀ s', Holds K m₀ ρ₀ s'.mem none → FsAt t 0 ∅ false s'.sys → s'.proc = s.proc → Q (-1) s') :
    ME K g free E (bad r ip') Q s := by
  have hclose : ∀ s', Holds K m₀ ρ₀ s'.mem none → FsLeft t ip' s'.sys → s'.proc = s.proc →
      ME K g free E (match ip' with
        | none => .pure (-1)
        | some ip => do
          fs (Fs.iunlockput ip)
          endOp
          .pure (-1)) Q s' := by
    intro s' hmem hfs' hproc
    cases ip' with
    | none => exact meets_pure (hQ s' hmem hfs' hproc)
    | some ip =>
      exact meets_bind (me_iunlockput hE hfs' fun k h => meets_bind (me_endOp h fun k' h' =>
        meets_pure (hQ _ hmem h' hproc)))
  unfold bad
  cases r with
  | none => exact hclose s hr hfs rfl
  | some d =>
    obtain ⟨ρ, hb⟩ := hr
    exact meets_bind (me_mem (wu_of_w (w_freevm hb.toAt fun m' ρ' hb' hno' hk' =>
      hclose _ ⟨ρ', hb', hno', hb.keeps.trans hk'⟩ hfs rfl)))

theorem me_commit {Q : ℤ → State → Prop} {sz sp entry : ℕ}
    (hb : Building K m₀ ρ₀ d s.mem ρ) (hs : Space m₀ ρ₀ o c none) (ho : o ≠ .image)
    (hQ : ∀ s', s'.proc = ⟨d, sz, entry, sp, (lastElem (path.takeWhile (· != 0))
        (path.takeWhile (· != 0))).take (NAMESIZE - 1)⟩ → s'.sys = s.sys →
      (∀ v < 2 ^ 20, s'.mem.pte d v = s.mem.pte d v) →
      (∀ v < 2 ^ 19, s'.mem.mapped d v = s.mem.mapped d v) → Q 0 s') :
    ME K g free E (commit path c d sz sp entry) Q s := by
  have hold : At K s.mem ρ o c none := ⟨hs.of_keeps hb.keeps ho, hb.books⟩
  refine meets_bind (meets_call trivial rfl ?_)
  refine meets_bind (me_mem (wu_of_w (w_freevm hold fun m' ρ' _ _ hk' => ?_)))
  exact meets_pure (hQ _ rfl rfl (fun v hv => hb.toSpace.pte_keeps hk' ho.symm hv)
    fun v hv => hb.toSpace.mapped_keeps hk' ho.symm hv)

structure Undone (K : Image) (s s' : State) : Prop where
  proc : s'.proc = s.proc
  free : s'.mem.freelist.Perm s.mem.freelist
  memory : ∀ f, K.Managed f → f ∉ s.mem.freelist → s'.mem.page f = s.mem.page f
  tables : s'.sys.kernel.tables = s.sys.kernel.tables
  refs : ∀ ip, (s'.sys.kernel.cache ip).ref = (s.sys.kernel.cache ip).ref
  locks : ∀ ip, (s'.sys.kernel.cache ip).locked = (s.sys.kernel.cache ip).locked
  inOp : s'.sys.inOp = s.sys.inOp

theorem undone {s' : State} (h₀ : Books K s.mem ρ₀) (hno : NoSpace ρ₀ .image)
    (hfs : FsAt t 0 ∅ false s.sys) (hmem : Holds K s.mem ρ₀ s'.mem none)
    (hfs' : FsAt t 0 ∅ false s'.sys) (hproc : s'.proc = s.proc) : Undone K s s' := by
  obtain ⟨ρ, hb, hno', hk⟩ := hmem
  refine ⟨hproc, hk.freelist_perm h₀ hb hno hno', fun f hman hf => ?_, hfs'.tables.trans hfs.tables.symm,
    fun ip => ?_, fun ip => ?_, hfs'.inOp.trans hfs.inOp.symm⟩
  · rw [h₀.mem_iff] at hf
    cases hr : ρ₀ f with
    | none => exact absurd hr ((h₀.managed_iff f).mp hman)
    | some r =>
      exact hk.page f r hr (fun heq => hf (hr.trans (congrArg some heq))) (hno.not_of hr)
  · rw [hfs'.balanced.ref, hfs.balanced.ref, hfs'.tables, hfs.tables]
  · have h1 := hfs'.balanced.lock ip
    have h2 := hfs.balanced.lock ip
    simp only [Finset.notMem_empty, iff_false, Bool.not_eq_true] at h1 h2
    rw [h1, h2]

def Replaced (K : Image) (g : Fs.Geometry) (p : Fs.Pid) (path : Path) (args : List (List Byte))
    (s s' : State) : Prop :=
  ∃ ip s₁ sz s₂, run (perform K g) (openPath p path) s = .ok (some ip, s₁) ∧
    run (perform K g) (load K ip) s₁ = .ok (.ok s'.proc.pgdir sz s'.proc.eip, s₂) ∧
    Placed s₂.mem s'.mem s'.proc.pgdir sz s'.proc.sz s'.proc.esp args

theorem Placed.congr {m'' : Kmem} {sz' sp : ℕ} (h : Placed m m' d sz sz' sp args)
    (hm : ∀ v < 2 ^ 19, m''.mapped d v = m'.mapped d v) : Placed m m'' d sz sz' sp args := by
  have hpage : ∀ v, v * PGSIZE < sz' → v < 2 ^ 19 := by
    intro v hv
    have hle := h.le
    simp only [PGSIZE, KERNBASE] at hv hle
    omega
  obtain ⟨ptrs, hstack⟩ := h.stack
  refine ⟨h.lt, h.size, h.le, ⟨ptrs, hstack.congr h.le hm⟩, fun v hv => ?_, ?_⟩
  · rw [hm v (hpage v ?_), h.program v hv]
    rw [h.size]
    have := le_pgroundup h.lt.le
    omega
  · rw [hm _ (hpage _ ?_)]
    · exact h.guard
    · rw [h.size, Nat.div_mul_cancel (Nat.dvd_of_mod_eq_zero (pgroundup_aligned sz))]
      simp only [PGSIZE]
      omega

def ExecLands (K : Image) (g : Fs.Geometry) (p : Fs.Pid) (path : Path) (args : List (List Byte))
    (s : State) : Prop :=
  ∀ ip s₁, run (perform K g) (openPath p path) s = .ok (some ip, s₁) → LoadLands K g ip args s₁

theorem nullRefused_keeps (h₀ : Books K m ρ) (hs : Space m ρ o c none) (ho : o ≠ .image)
    (hk : Keeps .image m ρ m' ρ') (h : NullRefused m c) : NullRefused m' c := by
  obtain ⟨w, hw, hx⟩ := h
  have ha : At K m ρ o c none := ⟨hs, h₀⟩
  have hpage : m'.page (pteAddr w) = m.page (pteAddr w) :=
    hk.page _ _ (ha.role_user (by decide) hw) (by simp) (by simpa [Role.Of] using ho)
  refine ⟨w, (hs.pte_keeps hk ho (by decide)).trans hw, ?_⟩
  rw [Kmem.word_congr hpage]
  exact hx

theorem lands_opened {s₁ : State} (h₀ : Books K s.mem ρ₀) (hs : Space s.mem ρ₀ o s.proc.pgdir none)
    (ho : o ≠ .image) (hland : ExecLands K g p path args s ∨ NullRefused s.mem s.proc.pgdir)
    (hrun : run (perform K g) (openPath p path) s = .ok (some ip, s₁)) :
    LoadLands K g ip args s₁ ∨
      ∀ m' ρ', Keeps .image s.mem ρ₀ m' ρ' → NullRefused m' s.proc.pgdir :=
  hland.imp (fun h => h ip s₁ hrun) fun h _ _ hk => nullRefused_keeps h₀ hs ho hk h

theorem me_exec (h₀ : Books K s.mem ρ₀) (hno : NoSpace ρ₀ .image)
    (hs : Space s.mem ρ₀ o s.proc.pgdir none) (ho : o ≠ .image) (hE : ∀ f, E (.fs f))
    (hstr : ∀ a ∈ args, a.length < KERNBASE)
    (hland : ExecLands K g p path args s ∨ NullRefused s.mem s.proc.pgdir)
    (hfs : FsAt t 0 ∅ false s.sys) :
    ME K g s.mem.freelist E (exec K p path args) (fun r s' => r = -1 ∧ Undone K s s' ∨
      r = 0 ∧ Replaced K g p path args s s') s := by
  have hopen : ME K g s.mem.freelist E (openPath p path) (fun r s₁ => s₁.mem = s.mem ∧ s₁.proc = s.proc ∧
      match r with
      | none => FsAt t 0 ∅ false s₁.sys
      | some ip => FsLeft t (some ip) s₁.sys) s :=
    me_openPath hE hfs (fun _ h => ⟨rfl, rfl, h⟩) fun _ _ h => ⟨rfl, rfl, h⟩
  refine meets_bind (meets_call trivial rfl ?_)
  refine meets_bind (hopen.with_run.mono fun r s₁ ⟨hrun, hm, hproc, hfs₁⟩ => ?_)
  cases r with
  | none =>
    exact meets_pure (.inl ⟨rfl, undone h₀ hno hfs ⟨ρ₀, hm ▸ h₀, hno, hm ▸ .refl _ _ _⟩ hfs₁ hproc⟩)
  | some ip =>
    refine meets_bind (me_build h₀ hno hE hstr (lands_opened h₀ hs ho hland hrun) hm hfs₁ (fun r ip' s₂ hmem hfs₂ hproc₂ => ?_)
      fun d sz sp entry s₂ ρ hb _ hproc₂ hplaced => ?_)
    · exact me_bad hE hmem hfs₂ fun s' hmem' hfs' hproc' =>
        .inl ⟨rfl, undone h₀ hno hfs hmem' hfs' (hproc'.trans (hproc₂.trans hproc))⟩
    · refine me_commit hb hs ho fun s' hproc' _ _ hmapped => .inr ⟨rfl, ?_⟩
      obtain ⟨sz₁, s₃, hload, hpl⟩ := hplaced
      refine ⟨ip, s₁, sz₁, s₃, hrun, ?_, ?_⟩
      · rw [hproc']
        exact hload
      · rw [hproc']
        exact hpl.congr hmapped

def FsIdle (p : Fs.Pid) (k : Fs.SysState) : Prop :=
  FsAt k.kernel.tables 0 ∅ false k ∧ (k.kernel.tables.cwd p).isSome

end Xv6.Exec
