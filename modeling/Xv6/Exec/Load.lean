import Xv6.Exec.Model
import Xv6.Fs.Brackets
import Xv6.Vm.UserCopy

/-!
# Loading the program

The fields of the program headers are arbitrary 32-bit numbers.
-/

namespace Xv6.Exec

open Lib Lib.Prog Vm
open Fs (ISlot Path le)

variable {K : Image} {g : Fs.Geometry} {E : Fault → Prop} {free : List Frame} {s : State}
  {m m' m₀ : Kmem} {ρ ρ' ρ₀ : Roles} {o : Owner} {d : Frame} {sz newsz : ℕ} {α : Type}

theorem embeds_mem : Embeds (Vm.perform K) (perform K g) (fun _ o => .mem o) .mem State.mem
    fun m s => { s with mem := m } where
  op β o s := by
    rw [perform]
    cases Vm.perform K β o s.mem <;> rfl
  get_put _ _ := rfl
  put_put _ _ _ := rfl
  put_get _ := rfl

theorem embeds_sys : Embeds (Fs.performS g) (perform K g) (fun _ o => .sys o) .fs State.sys
    fun k s => { s with sys := k } where
  op β o s := by
    rw [perform]
    cases Fs.performS g β o s.sys <;> rfl
  get_put _ _ := rfl
  put_put _ _ _ := rfl
  put_get _ := rfl

def Rule (free : List Frame) : ∀ β, Op β → State → Prop
  | _, .mem o, s => UserWrite free _ o s.mem
  | _, .sys _, _ => True
  | _, .proc _, _ => True

abbrev ME (K : Image) (g : Fs.Geometry) (free : List Frame) (E : Fault → Prop) (p : ExecProg α)
    (Q : α → State → Prop) (s : State) : Prop := Meets (perform K g) (Rule free) E p Q s

theorem me_mem {p : VmProg α} {Q : α → State → Prop}
    (hp : WU K free (fun q => E (.mem q)) p (fun a m => Q a { s with mem := m }) s.mem) :
    ME K g free E (mem p) Q s :=
  embeds_mem.meets (fun _ _ _ hR => hR) hp

theorem me_sys {p : Fs.SysProg α} {Q : α → State → Prop}
    (hp : WP (Fs.performS g) (fun f => E (.fs f)) p (fun a k => Q a { s with sys := k }) s.sys) :
    ME K g free E (sys p) Q s :=
  embeds_sys.meets (R := fun _ _ _ => True) (fun _ _ _ _ => trivial)
    ⟨hp, ((only_true p).safe (I := fun _ => True) (fun _ _ _ _ _ => ⟨trivial, fun _ _ _ => trivial⟩) trivial)⟩

structure FsAt (t : Fs.Tables) (held : Multiset ISlot) (locks : Finset ISlot) (b : Bool)
    (k : Fs.SysState) : Prop where
  balanced : Fs.Balanced t.cwd held locks k.kernel
  tables : k.kernel.tables = t
  inOp : k.inOp = b

section FileSystem

variable {t : Fs.Tables} {held held' : Multiset ISlot} {locks locks' : Finset ISlot} {b : Bool}
  {ip : ISlot} {p : Fs.Pid} {path : Path}

theorem me_fs {c : Fs.FsProg α} {Q : α → State → Prop} {R : α → Fs.BState → Prop} (hE : ∀ f, E (.fs f))
    (hs : FsAt t held locks b s.sys) (hc : Fs.Transactions.Kept g t c)
    (hp : Fs.Acts g (Fs.Balanced t.cwd held locks) c R)
    (hQ : ∀ a k, R a k → k.tables = t → Q a { s with sys := { s.sys with kernel := k } }) :
    ME K g free E (fs c) Q s := by
  refine me_sys ?_
  simp only [WP, Fs.run_fs]
  cases hrun : run (Fs.performB g) c s.sys.kernel with
  | error f => exact hE f
  | ok r =>
    have hkept := wp_ok (hc _ hs.tables) hrun
    exact hQ _ _ (wp_ok (hp _ hs.balanced) hrun) hkept

theorem me_op {β : Type} {o : Fs.Op β} {Q : β → State → Prop} (hE : ∀ f, E (.fs f))
    (hs : FsAt t held locks b s.sys) (ho : Fs.Keeps β o)
    (hp : Fs.Acts g (Fs.Balanced t.cwd held locks) (.call o) fun _ => Fs.Balanced t.cwd held' locks')
    (hQ : ∀ r k, FsAt t held' locks' b k → Q r { s with sys := k }) : ME K g free E (fs (.call o)) Q s :=
  me_fs hE hs (Fs.acts_call fun _ _ _ hk hok => (Fs.Transactions.performB_tables ho hok).trans hk) hp
    fun r _ hb ht => hQ r _ ⟨hb, ht, hs.inOp⟩

variable {Q : Unit → State → Prop}

theorem me_beginOp (hs : FsAt t held locks b s.sys)
    (hQ : ∀ k, FsAt t held locks true k → Q () { s with sys := k }) :
    ME K g free E beginOp Q s :=
  me_sys (hQ { s.sys with inOp := true } ⟨hs.balanced, hs.tables, rfl⟩)

theorem me_endOp (hs : FsAt t held locks b s.sys)
    (hQ : ∀ k, FsAt t held locks false k → Q () { s with sys := k }) :
    ME K g free E endOp Q s :=
  me_sys (hQ { s.sys with inOp := false } ⟨hs.balanced, hs.tables, rfl⟩)

theorem me_namei {Q : Option ISlot → State → Prop} (hE : ∀ f, E (.fs f)) (hs : FsAt t 0 ∅ b s.sys)
    (hnone : ∀ k, FsAt t 0 ∅ b k → Q none { s with sys := k })
    (hsome : ∀ ip k, FsAt t (ip ::ₘ 0) ∅ b k → Q (some ip) { s with sys := k }) :
    ME K g free E (fs (Fs.namei p path)) Q s := by
  refine me_fs hE hs Fs.Transactions.keeps_namei (Fs.balanced g t.cwd).namei fun r k hb ht => ?_
  cases r with
  | none => exact hnone _ ⟨hb, ht, hs.inOp⟩
  | some ip => exact hsome ip _ ⟨hb, ht, hs.inOp⟩

theorem me_ilock (hE : ∀ f, E (.fs f)) (hs : FsAt t held locks b s.sys)
    (hQ : ∀ k, FsAt t held (insert ip locks) b k → Q () { s with sys := k }) :
    ME K g free E (fs (Fs.ilock ip)) Q s :=
  me_op hE hs trivial (Fs.balanced g t.cwd).ilock fun _ => hQ

theorem me_readi {Q : Option (List Byte) → State → Prop} {off n : ℕ} (hE : ∀ f, E (.fs f))
    (hs : FsAt t held locks b s.sys) (hQ : ∀ r k, FsAt t held locks b k → Q r { s with sys := k }) :
    ME K g free E (fs (Fs.readi ip off n)) Q s :=
  me_op hE hs trivial ((Fs.balanced g t.cwd).quiet rfl) hQ

theorem me_iunlockput (hE : ∀ f, E (.fs f)) (hs : FsAt t (ip ::ₘ 0) (insert ip ∅) b s.sys)
    (hQ : ∀ k, FsAt t 0 ∅ b k → Q () { s with sys := k }) :
    ME K g free E (fs (Fs.iunlockput ip)) Q s :=
  me_fs hE hs Fs.Transactions.keeps_iunlockput ((Fs.balanced g t.cwd).put_only subset_rfl)
    fun _ _ hb ht => hQ _ ⟨hb, ht, hs.inOp⟩

end FileSystem

structure Building (K : Image) (m₀ : Kmem) (ρ₀ : Roles) (d : Frame) (m : Kmem) (ρ : Roles) : Prop
    extends At K m ρ .image d none where
  keeps : Keeps .image m₀ ρ₀ m ρ

theorem Building.trans (hb : Building K m₀ ρ₀ d m ρ) (ha : At K m' ρ' .image d none)
    (hk : Keeps .image m ρ m' ρ') : Building K m₀ ρ₀ d m' ρ' :=
  ⟨ha, hb.keeps.trans hk⟩

theorem Building.owned (hb : Building K m₀ ρ₀ d m ρ) (h₀ : Books K m₀ ρ₀) (hno : NoSpace ρ₀ .image)
    (f : Frame) (q : Place) (hf : ρ f = some (.space .image q)) : f ∈ m₀.freelist :=
  hb.keeps.was_free h₀ hb.books hno hf

structure Pages (K : Image) (m : Kmem) (d : Frame) (sz : ℕ) : Prop where
  mapped : ∀ v, v * PGSIZE < sz → ∃ f, K.Managed f ∧ m.pte d v = some (pteOf f (PTE_W ||| PTE_U ||| PTE_P))
  unmapped : ∀ v < 2 ^ 19, sz ≤ v * PGSIZE → m.pte d v = none
  kernel : ∀ v, 2 ^ 19 ≤ v → v < 2 ^ 20 → m.pte d v = kernelPte K v

theorem pteOf_user (f : Frame) : pteOf f (PTE_W ||| PTE_U ||| PTE_P) &&& PTE_U ≠ 0 := by
  rw [pteOf_and (by decide)]
  decide

theorem Pages.congr (hp : Pages K m d sz) (h : ∀ v < 2 ^ 20, m'.pte d v = m.pte d v)
    (hsz : sz ≤ KERNBASE) : Pages K m' d sz where
  mapped v hv := by
    rw [h v (by simp only [PGSIZE, KERNBASE] at *; omega)]
    exact hp.mapped v hv
  unmapped v hv hge := (h v (by omega)).trans (hp.unmapped v hv hge)
  kernel v hlo hhi := (h v hhi).trans (hp.kernel v hlo hhi)

theorem wu_allocuvm {Q : ℕ → Kmem → Prop} {EV : Vm.Panic → Prop} (ha : At K m ρ o d none)
    (hp : Pages K m d sz) (hsz : sz ≤ KERNBASE)
    (hfail : ∀ m' ρ', At K m' ρ' o d none → Keeps o m ρ m' ρ' →
      KERNBASE ≤ newsz ∨ Exhausted K o d (pagesFrom (pgroundup sz) newsz) m ρ → Q 0 m')
    (hstay : newsz < sz → newsz < KERNBASE → Q sz m)
    (hok : ∀ m' ρ', sz ≤ newsz → newsz < KERNBASE → At K m' ρ' o d none → Keeps o m ρ m' ρ' →
      Pages K m' d newsz → (∀ v < 2 ^ 19, v * PGSIZE < sz → m'.mapped d v = m.mapped d v) →
      (∀ v, sz ≤ v * PGSIZE → v * PGSIZE < newsz → ∃ w, m'.mapped d v = some (w, fun _ => 0)) →
      Q newsz m') : WU K free EV (allocuvm d sz newsz) Q m := by
  refine wu_of_w ?_
  by_cases hbig : KERNBASE ≤ newsz
  · rw [allocuvm, if_pos hbig]
    exact hfail m ρ ha (.refl o m ρ) (.inl hbig)
  by_cases hsmall : newsz < sz
  · rw [allocuvm, if_neg hbig, if_pos hsmall]
    exact hstay hsmall (by omega)
  have hnew : newsz < KERNBASE := by omega
  have hmem : ∀ v, v ∈ pagesFrom (pgroundup sz) newsz ↔ sz ≤ v * PGSIZE ∧ v * PGSIZE < newsz :=
    fun _ => mem_pagesFrom_pgroundup hsz
  refine w_allocuvm ha hnew (by omega) (fun v hv => ?_) (fun m' ρ' ha' halt hall => ?_)
    fun m' ρ' ha' halt _ hex => hfail m' ρ' ha' halt.toKeeps (.inr hex)
  · exact hp.unmapped v (pagesFrom_lt hnew.le hv) ((hmem v).mp hv).1
  · have hout : ∀ v < 2 ^ 20, ¬ (sz ≤ v * PGSIZE ∧ v * PGSIZE < newsz) → m'.pte d v = m.pte d v :=
      fun v hv hno => halt.pte v hv fun hin => hno ((hmem v).mp hin)
    have h20 : ∀ v, v * PGSIZE < newsz → v < 2 ^ 19 := by
      intro v hv
      simp only [PGSIZE, KERNBASE] at *
      omega
    refine hok m' ρ' (by omega) hnew ha' halt.toKeeps ⟨fun v hv => ?_, fun v hv hge => ?_,
      fun v hlo hhi => ?_⟩ (fun v hv hlt => ?_) fun v hge hlt => ?_
    · by_cases hlow : v * PGSIZE < sz
      · rw [hout v (by have := h20 v hv; omega) (by omega)]
        exact hp.mapped v hlow
      · obtain ⟨f, hman, hw, -⟩ := hall v ((hmem v).mpr ⟨by omega, hv⟩)
        exact ⟨f, hman, hw⟩
    · rw [hout v (by omega) (by omega)]
      exact hp.unmapped v hv (by omega)
    · rw [hout v hhi (by simp only [PGSIZE, KERNBASE] at *; omega)]
      exact hp.kernel v hlo hhi
    · exact halt.mapped hv fun hin => absurd ((hmem v).mp hin).1 (by omega)
    · obtain ⟨f, hman, hw, hzero⟩ := hall v ((hmem v).mpr ⟨hge, hlt⟩)
      have hf : pteAddr (pteOf f (PTE_W ||| PTE_U ||| PTE_P)) = f := pteAddr_pteOf hman.lt (by decide)
      exact ⟨_, by rw [Kmem.mapped, hw, Option.map_some, hf, hzero]⟩

theorem le_lt (bs : List Byte) (off n : ℕ) : le bs off n < 256 ^ n := by
  induction n generalizing off with
  | zero => exact Nat.one_pos
  | succ n ih =>
    have hb := (bs.getD off 0).isLt
    have hrest := ih (off + 1)
    rw [le, Nat.pow_succ]
    omega

/-- While the file is open: the new image is being built, and the process is still `x`. -/
structure Holding (K : Image) (m₀ : Kmem) (ρ₀ : Roles) (t : Fs.Tables) (ip : ISlot) (x : Proc)
    (d : Frame) (s : State) : Prop where
  image : ∃ ρ, Building K m₀ ρ₀ d s.mem ρ
  fs : FsAt t (ip ::ₘ 0) (insert ip ∅) true s.sys
  proc : s.proc = x

structure Loading (K : Image) (m₀ : Kmem) (ρ₀ : Roles) (t : Fs.Tables) (ip : ISlot) (x : Proc)
    (d : Frame) (sz : ℕ) (s : State) : Prop extends Holding K m₀ ρ₀ t ip x d s where
  pages : Pages K s.mem d sz
  lt : sz < KERNBASE

section Segments

variable {t : Fs.Tables} {ip : ISlot} {x : Proc} {addr offset n i off : ℕ}

theorem Loading.withSys {k : Fs.SysState} (hl : Loading K m₀ ρ₀ t ip x d sz s)
    (hk : FsAt t (ip ::ₘ 0) (insert ip ∅) true k) :
    Loading K m₀ ρ₀ t ip x d sz { s with sys := k } :=
  ⟨⟨hl.image, hk, hl.proc⟩, hl.pages, hl.lt⟩

theorem Loading.write {v len : ℕ} {w : Word} (hl : Loading K m₀ ρ₀ t ip x d sz s) (h₀ : Books K m₀ ρ₀)
    (hno : NoSpace ρ₀ .image) (hv : v < 2 ^ 19) (hw : s.mem.pte d v = some w) (hU : w &&& PTE_U ≠ 0)
    (hlen : len ≤ PGSIZE) (src : ℕ → Byte) :
    K.Managed (pteAddr w) ∧ UserWrite m₀.freelist Unit (.write (pteAddr w) 0 len src) s.mem ∧
      Loading K m₀ ρ₀ t ip x d sz
        { s with mem := s.mem.setPage (pteAddr w) ((s.mem.page (pteAddr w)).blit 0 len src) } := by
  obtain ⟨ρ, hb⟩ := hl.image
  have hrole := hb.role_user hv hw
  obtain ⟨ha, halt⟩ := hb.toAt.writeUser (S := {v}) hv hw rfl ((s.mem.page (pteAddr w)).blit 0 len src)
  have hpte : ∀ u < 2 ^ 20, (s.mem.setPage (pteAddr w)
      ((s.mem.page (pteAddr w)).blit 0 len src)).pte d u = s.mem.pte d u := fun u hu =>
    hb.pte_frame (page_frame hrole (by simp) (by simp) fun g hg => Kmem.setPage_page_of_ne _ hg) hu
  refine ⟨hb.books.managed_of_role hrole, ⟨hb.owned h₀ hno _ _ hrole, by omega, d, hb.owned h₀ hno _ _ hb.role_dir, v, hv, w, hw, hU, rfl⟩,
    ⟨⟨ρ, hb.trans ha halt.toKeeps⟩, hl.fs, hl.proc⟩, hl.pages.congr hpte hl.lt.le, hl.lt⟩

theorem me_loadLoop {Q : Bool → State → Prop} (h₀ : Books K m₀ ρ₀) (hno : NoSpace ρ₀ .image)
    (hE : ∀ f, E (.fs f)) (hl : Loading K m₀ ρ₀ t ip x d sz s) (haddr : addr % PGSIZE = 0)
    (hi : i % PGSIZE = 0) (hend : addr + n ≤ sz)
    (hQ : ∀ b s', Loading K m₀ ρ₀ t ip x d sz s' → Q b s') :
    ME K g m₀.freelist E (loadLoop d addr ip offset n i) Q s := by
  induction hk : n - i using Nat.strong_induction_on generalizing i s with
  | _ k ih =>
    rw [loadLoop]
    by_cases hlt : i < n
    swap
    · rw [dif_neg hlt]
      exact meets_pure (hQ _ s hl)
    have hsz := hl.lt
    have hpage : (addr + i) / PGSIZE * PGSIZE = addr + i :=
      Nat.div_mul_cancel ((Nat.dvd_of_mod_eq_zero haddr).add (Nat.dvd_of_mod_eq_zero hi))
    have hv : (addr + i) / PGSIZE < 2 ^ 19 := by
      simp only [PGSIZE, KERNBASE] at *
      omega
    obtain ⟨f, hman, hw⟩ := hl.pages.mapped ((addr + i) / PGSIZE) (by omega)
    obtain ⟨pgtab, htab, hword, -⟩ := Kmem.pte_eq_some.mp hw
    have hf : pteAddr (pteOf f (PTE_W ||| PTE_U ||| PTE_P)) = f := pteAddr_pteOf hman.lt (by decide)
    rw [dif_pos hlt]
    refine meets_bind (me_mem (wu_of_w ?_))
    rw [w_walkpgdir_false, ptx_eq, pdx_eq (by simp only [KERNBASE] at hsz; omega), htab]
    refine meets_bind (me_mem (wu_of_w ?_))
    rw [w_load, hword]
    refine meets_bind (me_readi hE hl.fs fun r k hk => ?_)
    have hl₁ := hl.withSys hk
    cases r with
    | none => exact meets_pure (hQ _ _ hl₁)
    | some bytes =>
      have hlen : min bytes.length (if n - i < PGSIZE then n - i else PGSIZE) ≤ PGSIZE := by
        split_ifs <;> omega
      obtain ⟨hman', hrule, hl₂⟩ := hl₁.write h₀ hno hv hw (pteOf_user f) hlen fun k => bytes.getD k 0
      refine meets_bind (me_mem (meets_call hrule (if_pos hman') ?_))
      by_cases hshort : bytes.length ≠ if n - i < PGSIZE then n - i else PGSIZE
      · rw [if_pos hshort]
        exact meets_pure (hQ _ _ hl₂)
      · rw [if_neg hshort]
        exact ih (n - (i + PGSIZE)) (by simp only [PGSIZE]; omega) hl₂ (by rw [Nat.add_mod_right, hi]) rfl

theorem me_loadSegments {Q : Option ℕ → State → Prop} (h₀ : Books K m₀ ρ₀) (hno : NoSpace ρ₀ .image)
    (hE : ∀ f, E (.fs f)) (hl : Loading K m₀ ρ₀ t ip x d sz s)
    (hfail : ∀ s', Holding K m₀ ρ₀ t ip x d s' → Q none s')
    (hok : ∀ sz' s', Loading K m₀ ρ₀ t ip x d sz' s' → Q (some sz') s') :
    ME K g m₀.freelist E (loadSegments d ip n off sz) Q s := by
  induction n generalizing s off sz with
  | zero => exact meets_pure (hok sz s hl)
  | succ n ih =>
    rw [loadSegments]
    refine meets_bind (me_readi hE hl.fs fun r k hk => ?_)
    have hl₁ := hl.withSys hk
    have hbad : ME K g m₀.freelist E (.pure none) Q { s with sys := k } :=
      meets_pure (hfail _ hl₁.toHolding)
    cases r with
    | none => exact hbad
    | some ph =>
      dsimp only
      by_cases hlen : ph.length ≠ PROGHDR
      · rw [if_pos hlen]
        exact hbad
      rw [if_neg hlen]
      by_cases htype : le ph 0 4 ≠ ELF_PROG_LOAD
      · rw [if_pos htype]
        exact ih hl₁
      rw [if_neg htype]
      by_cases hmemsz : le ph 20 4 < le ph 16 4
      · rw [if_pos hmemsz]
        exact hbad
      rw [if_neg hmemsz]
      by_cases hwrap : (le ph 8 4 + le ph 20 4) % 2 ^ 32 < le ph 8 4
      · rw [if_pos hwrap]
        exact hbad
      rw [if_neg hwrap]
      -- Without a wrap the sum is that of the fields.
      have hsum : (le ph 8 4 + le ph 20 4) % 2 ^ 32 = le ph 8 4 + le ph 20 4 := by
        have h1 := le_lt ph 8 4
        have h2 := le_lt ph 20 4
        omega
      rw [hsum]
      have hrest : ∀ sz' s', le ph 8 4 + le ph 16 4 ≤ sz' → Loading K m₀ ρ₀ t ip x d sz' s' →
          ME K g m₀.freelist E (if sz' = 0 then .pure none else if le ph 8 4 % PGSIZE ≠ 0 then .pure none
            else do
              if ← loaduvm d (le ph 8 4) ip (le ph 4 4) (le ph 16 4) then
                loadSegments d ip n ((off + PROGHDR) % 2 ^ 32) sz'
              else .pure none) Q s' := by
        intro sz' s' hend hl'
        by_cases hzero : sz' = 0
        · rw [if_pos hzero]
          exact meets_pure (hfail s' hl'.toHolding)
        rw [if_neg hzero]
        by_cases halign : le ph 8 4 % PGSIZE ≠ 0
        · rw [if_pos halign]
          exact meets_pure (hfail s' hl'.toHolding)
        rw [if_neg halign, loaduvm, if_neg halign]
        refine meets_bind (me_loadLoop h₀ hno hE hl' (not_not.mp halign) rfl hend fun b s'' hl'' => ?_)
        cases b with
        | false => exact meets_pure (hfail s'' hl''.toHolding)
        | true => exact ih hl''
      obtain ⟨ρ, hb⟩ := hl₁.image
      refine meets_bind (me_mem (wu_allocuvm hb.toAt hl₁.pages hl₁.lt.le (fun m' ρ' ha' hk' _ => ?_)
        (fun hlt hnew => ?_) fun m' ρ' hle hnew ha' hk' hpages _ _ => ?_))
      · exact meets_pure (hfail _ ⟨⟨ρ', hb.trans ha' hk'⟩, hl₁.fs, hl₁.proc⟩)
      · exact hrest sz _ (by omega) hl₁
      · exact hrest _ _ (by omega) ⟨⟨⟨ρ', hb.trans ha' hk'⟩, hl₁.fs, hl₁.proc⟩, hpages, hnew⟩

/-- What is left for the code at `bad`: nothing, or the directory of the new image. -/
def Holds (K : Image) (m₀ : Kmem) (ρ₀ : Roles) (m : Kmem) : Option Frame → Prop
  | none => ∃ ρ, Books K m ρ ∧ NoSpace ρ .image ∧ Keeps .image m₀ ρ₀ m ρ
  | some d => ∃ ρ, Building K m₀ ρ₀ d m ρ

theorem me_load {Q : Loaded → State → Prop} (h₀ : Books K m₀ ρ₀) (hno : NoSpace ρ₀ .image)
    (hE : ∀ f, E (.fs f)) (hm : s.mem = m₀) (hfs : FsAt t (ip ::ₘ 0) (insert ip ∅) true s.sys)
    (hfail : ∀ r s', Holds K m₀ ρ₀ s'.mem r → FsAt t (ip ::ₘ 0) (insert ip ∅) true s'.sys →
      s'.proc = s.proc → Q (.failed r) s')
    (hok : ∀ d sz entry s', Loading K m₀ ρ₀ t ip s.proc d sz s' → Q (.ok d sz entry) s') :
    ME K g m₀.freelist E (load K ip) Q s := by
  have hnone : ∀ k, FsAt t (ip ::ₘ 0) (insert ip ∅) true k →
      ME K g m₀.freelist E (.pure (.failed none)) Q { s with sys := k } := fun k hk =>
    meets_pure (hfail none _ ⟨ρ₀, hm ▸ h₀, hno, hm ▸ .refl .image m₀ ρ₀⟩ hk rfl)
  rw [load]
  refine meets_bind (me_readi hE hfs fun r k hk => ?_)
  cases r with
  | none => exact hnone k hk
  | some elf =>
    dsimp only
    by_cases hlen : elf.length ≠ ELFHDR
    · rw [if_pos hlen]
      exact hnone k hk
    rw [if_neg hlen]
    by_cases hmagic : le elf 0 4 ≠ ELF_MAGIC
    · rw [if_pos hmagic]
      exact hnone k hk
    rw [if_neg hmagic]
    subst hm
    refine meets_bind (me_mem (wu_of_w (w_setupkvm h₀ hno
      (fun m' ρ' hb' hno' hk' _ => ?_) fun d m' ρ' ha' hk' hpte _ => ?_)))
    · exact meets_pure (hfail none _ ⟨ρ', hb', hno', hk'⟩ hk rfl)
    · have hpages : Pages K m' d 0 := by
        refine ⟨fun v hv => absurd hv (Nat.not_lt_zero _), fun v hv _ => ?_, fun v _ hhi => hpte v hhi⟩
        rw [hpte v (by omega), kernelPte_user K hv]
      refine meets_bind (me_loadSegments h₀ hno hE
        ⟨⟨⟨ρ', ha', hk'⟩, hk, rfl⟩, hpages, by decide⟩ (fun s' hs' => ?_) fun sz s' hs' => ?_)
      · exact meets_pure (hfail (some d) s' hs'.image hs'.fs hs'.proc)
      · exact meets_pure (hok d sz _ s' hs')

end Segments

end Xv6.Exec
