import Xv6.Vm.Spaces

/-!
# What the functions of `vm.c` do to an address space

Rules for the functions that map and unmap pages, over the single steps and by induction over the
loops.
-/

namespace Xv6.Vm

open Lib VmProg

variable {K : Image} {E : Panic → Prop} {m m' m'' : Kmem} {ρ ρ' ρ'' : Roles} {o : Owner}
  {d f t : Frame} {h : Option Frame} {i n v a va oldsz newsz : ℕ} {w perm : Word} {α β : Type}
  {S : Set ℕ}

def Op.Writes {β : Type} : Op β → Prop
  | .write .. => True
  | _ => False

/-- A handler that may differ from `perform` when bytes are written to a page. -/
class Acts (H : Prog.Handler Op Panic Kmem) (K : outParam Image) : Prop where
  eq : ∀ {β} (o : Op β) (m : Kmem), ¬ o.Writes → H β o m = perform K β o m

instance : Acts (perform K) K := ⟨fun _ _ _ => rfl⟩

abbrev W (H : Prog.Handler Op Panic Kmem) (E : Panic → Prop) (p : VmProg α) (Q : α → Kmem → Prop)
    (m : Kmem) : Prop := Prog.WP H E p Q m

variable {H : Prog.Handler Op Panic Kmem} {Q : Unit → Kmem → Prop}

section Rules

theorem w_bind {p : VmProg α} {k : α → VmProg β} {Q : β → Kmem → Prop} :
    W H E (p >>= k) Q m ↔ W H E p (fun a m' => W H E (k a) Q m') m := Prog.wp_bind p k Q

theorem w_call [Acts H K] {op : Op β} {Q : β → Kmem → Prop} {b : β} (ho : ¬ op.Writes)
    (hok : perform K β op m = .ok (b, m')) : W H E (.call op) Q m ↔ Q b m' := by
  rw [W, Prog.wp_call, Acts.eq (H := H) op m ho, hok]

theorem w_load [Acts H K] {Q : Word → Kmem → Prop} :
    W H E (load f i) Q m ↔ Q (m.word f i) m := w_call id rfl

theorem w_store [Acts H K] : W H E (store f i w) Q m ↔ Q () (m.setWord f i w) := w_call id rfl

theorem w_memset [Acts H K] {b : Byte} :
    W H E (memset f b) Q m ↔ Q () (m.setPage f fun _ => b) := w_call id rfl

theorem w_memmove [Acts H K] :
    W H E (memmove d f) Q m ↔ Q () (m.setPage d (m.page f)) := w_call id rfl

theorem w_write {off len : ℕ} {src : ℕ → Byte} : W (perform K) E (write f off len src) Q m ↔
      if K.Managed f then Q () (m.setPage f ((m.page f).blit off len src)) else E .trap := by
  rw [write, W, Prog.wp_call, perform]
  split_ifs <;> rfl

theorem w_kalloc [Acts H K] {Q : Option Frame → Kmem → Prop} (hnone : m.freelist = [] → Q none m)
    (hsome : ∀ f fs, m.freelist = f :: fs → Q (some f) { m with freelist := fs }) :
    W H E VmProg.kalloc Q m := by
  cases hfree : m.freelist with
  | nil => exact (w_call id (by rw [perform, Vm.kalloc, hfree])).mpr (hnone hfree)
  | cons f fs => exact (w_call id (by rw [perform, Vm.kalloc, hfree])).mpr (hsome f fs hfree)

theorem w_kfree [Acts H K] (hf : K.Managed f) : W H E (VmProg.kfree f) Q m ↔ Q () (m.freed f) := by
  have hperform : perform K Unit (.kfree f) m = .ok ((), m.freed f) := by
    rw [perform, kfree_of_managed hf]
    rfl
  exact w_call id hperform

end Rules

theorem pdx_eq (hva : va < 2 ^ 32) : pdx va = va / PGSIZE / NPTENTRIES := by
  simp only [pdx, NPDENTRIES, NPTENTRIES, PGSIZE]
  omega

theorem ptx_eq (va : ℕ) : ptx va = va / PGSIZE % NPTENTRIES := by
  simp only [ptx, NPTENTRIES, PGSIZE]
  omega

theorem w_walkpgdir_false [Acts H K] {Q : Option (Frame × ℕ) → Kmem → Prop} :
    W H E (walkpgdir d va false) Q m ↔ Q ((m.table d (pdx va)).map fun t => (t, ptx va)) m := by
  rw [walkpgdir, w_bind, w_load, Kmem.table]
  by_cases hp : m.word d (pdx va) &&& PTE_P ≠ 0
  · rw [if_pos hp, if_pos hp]
    rfl
  · rw [if_neg hp, if_neg hp, if_pos rfl]
    rfl

def visitPages (pgdir : Frame) : ℕ → ℕ → VmProg Unit
  | 0, _ => pure ()
  | n + 1, a => do
    match ← walkpgdir pgdir a false with
    | none => visitPages pgdir n (a + PGSIZE)
    | some (pgtab, i) => do
      let pte ← load pgtab i
      if pte &&& PTE_P ≠ 0 then
        if pteAddr pte = 0 then panic .kfree
        else do
          VmProg.kfree (pteAddr pte)
          store pgtab i 0
          visitPages pgdir n (a + PGSIZE)
      else visitPages pgdir n (a + PGSIZE)

theorem w_visitPages_skip [Acts H K] {k : ℕ} (h : ∀ j < k, m.table d (pdx (a + j * PGSIZE)) = none) :
    W H E (visitPages d (k + n) a) Q m = W H E (visitPages d n (a + k * PGSIZE)) Q m := by
  induction k generalizing a with
  | zero => rw [Nat.zero_add, Nat.zero_mul, Nat.add_zero]
  | succ k ih =>
    have h0 := h 0 (Nat.succ_pos k)
    rw [Nat.zero_mul, Nat.add_zero] at h0
    rw [Nat.add_right_comm, visitPages, w_bind, w_walkpgdir_false, h0]
    refine (ih fun j hj => ?_).trans ?_
    · rw [← h (j + 1) (Nat.succ_lt_succ hj), Nat.add_assoc, Nat.succ_mul, Nat.add_comm PGSIZE]
    · rw [Nat.add_assoc, Nat.succ_mul, Nat.add_comm PGSIZE]

def pageCount (oldsz a : ℕ) : ℕ := (oldsz - a + (PGSIZE - 1)) / PGSIZE

theorem pdx_skip {j : ℕ} (hal : a % PGSIZE = 0)
    (hj : j < pageCount oldsz a - pageCount oldsz ((a / 2 ^ 22 + 1) * 2 ^ 22)) :
    pdx (a + j * PGSIZE) = pdx a := by
  simp only [pdx, pageCount, PGSIZE] at *
  congr 1
  omega

theorem skip_end (hal : a % PGSIZE = 0) (hend : (a / 2 ^ 22 + 1) * 2 ^ 22 < oldsz) :
    a + (pageCount oldsz a - pageCount oldsz ((a / 2 ^ 22 + 1) * 2 ^ 22)) * PGSIZE =
      (a / 2 ^ 22 + 1) * 2 ^ 22 := by
  simp only [pageCount, PGSIZE] at *
  omega

theorem w_deallocLoop_visits [Acts H K] (hal : a % PGSIZE = 0) :
    W H E (deallocLoop d oldsz a) Q m = W H E (visitPages d (pageCount oldsz a) a) Q m := by
  induction hk : oldsz - a using Nat.strong_induction_on generalizing a m with
  | _ k ih =>
    rw [deallocLoop]
    by_cases hlt : a < oldsz
    · have hnext : (a + PGSIZE) % PGSIZE = 0 := by rw [Nat.add_mod_right, hal]
      have hcount : pageCount oldsz a = pageCount oldsz (a + PGSIZE) + 1 := by
        simp only [pageCount, PGSIZE] at *
        omega
      have hrest : ∀ m', W H E (deallocLoop d oldsz (a + PGSIZE)) Q m' =
          W H E (visitPages d (pageCount oldsz (a + PGSIZE)) (a + PGSIZE)) Q m' :=
        fun m' => ih _ (by simp only [PGSIZE]; omega) hnext rfl
      rw [dif_pos hlt, w_bind, w_walkpgdir_false]
      cases htab : m.table d (pdx a) with
      | none =>
        -- the pages up to the next table, or to the end, are all passed over
        set b := (a / 2 ^ 22 + 1) * 2 ^ 22 with hb
        have hskip := w_visitPages_skip (H := H) (E := E) (Q := Q) (m := m) (d := d) (a := a)
          (k := pageCount oldsz a - pageCount oldsz b) (n := pageCount oldsz b) fun j hj => by
            rw [pdx_skip hal hj, htab]
        rw [Nat.sub_add_cancel (by simp only [pageCount, PGSIZE]; omega)] at hskip
        simp only [Option.map_none]
        rw [hskip, ih (oldsz - b) (by omega) (by simp only [PGSIZE]; omega) rfl]
        by_cases hend : b < oldsz
        · rw [skip_end hal hend]
        · have hzero : pageCount oldsz b = 0 := by
            simp only [pageCount, PGSIZE] at *
            omega
          rw [hzero]
          rfl
      | some t =>
        rw [hcount, visitPages, w_bind, w_walkpgdir_false, htab]
        simp only [Option.map_some, w_bind, w_load]
        split_ifs
        · rfl
        · simp only [w_bind, hrest]
        · exact hrest m
    · have hzero : pageCount oldsz a = 0 := by
        simp only [pageCount, PGSIZE] at *
        omega
      rw [dif_neg hlt, hzero]
      rfl

variable [Acts H K]

theorem w_walkpgdir_true {Q : Option (Frame × ℕ) → Kmem → Prop} (ha : At K m ρ o d h)
    (hva : va < 2 ^ 32) (hS : va / PGSIZE ∈ S)
    (hnone : m.freelist = [] → m.table d (va / PGSIZE / NPTENTRIES) = none → Q none m)
    (hsome : ∀ m' ρ' t, At K m' ρ' o d h → Alters o d S m ρ m' ρ' →
      (∀ v < 2 ^ 20, m'.pte d v = m.pte d v) → (∀ f, h = some f → m'.page f = m.page f) →
      m'.table d (va / PGSIZE / NPTENTRIES) = some t → Q (some (t, va / PGSIZE % NPTENTRIES)) m') :
    W H E (walkpgdir d va true) Q m := by
  have hi : va / PGSIZE / NPTENTRIES < 1024 := by
    simp only [PGSIZE, NPTENTRIES]
    omega
  rw [walkpgdir, w_bind, w_load, ptx_eq, pdx_eq hva]
  by_cases hp : m.word d (va / PGSIZE / NPTENTRIES) &&& PTE_P ≠ 0
  · rw [if_pos hp]
    exact hsome m ρ _ ha (.refl o d S m ρ) (fun _ _ => rfl) (fun _ _ => rfl)
      (Kmem.table_eq_some.mpr ⟨hp, rfl⟩)
  · have htable : m.table d (va / PGSIZE / NPTENTRIES) = none := if_neg hp
    rw [if_neg hp, if_neg (by decide), w_bind]
    refine w_kalloc (hnone · htable) fun f fs hfree => ?_
    obtain ⟨ρ', ha', halt, ht, hpte⟩ := ha.addTable hfree hi htable ⟨_, hS, rfl⟩
    refine w_bind.mpr (w_memset.mpr (w_bind.mpr (w_store.mpr ?_)))
    refine hsome _ ρ' f ha' halt hpte (fun g hg => ?_) ht
    subst hg
    have hf : ρ f = some .free := (ha.books.mem_iff f).mp (hfree ▸ List.mem_cons_self)
    exact Kmem.addTable_page_of_ne (ne_of_role hf ha.role_hand (by simp))
      (ne_of_role ha.role_dir ha.role_hand (by simp))

theorem or_pteP_and_pteP (w : Word) : (w ||| PTE_P) &&& PTE_P ≠ 0 := by
  have hself : (w ||| PTE_P) &&& PTE_P = PTE_P := by
    apply BitVec.eq_of_getLsbD_eq
    intro i _
    simp only [BitVec.getLsbD_and, BitVec.getLsbD_or]
    cases PTE_P.getLsbD i <;> simp
  rw [hself]
  decide

theorem or_pteP_lt (hperm : perm.toNat < 2 ^ 12) : (perm ||| PTE_P).toNat < 2 ^ 12 := by
  rw [BitVec.toNat_or]
  exact Nat.or_lt_two_pow hperm (by decide)

theorem pteOf_present (f : ℕ) (perm : Word) : pteOf f (perm ||| PTE_P) &&& PTE_P ≠ 0 := by
  rw [pteOf_and (by decide)]
  exact or_pteP_and_pteP perm

theorem w_mapPage_user {Q : Bool → Kmem → Prop} (ha : At K m ρ o d (some f)) (hva : a < KERNBASE)
    (hperm : perm.toNat < 2 ^ 12) (hnone : m.pte d (a / PGSIZE) = none) (hS : a / PGSIZE ∈ S)
    (hfail : m.freelist = [] → m.table d (a / PGSIZE / NPTENTRIES) = none → Q false m)
    (hok : ∀ m' ρ', At K m' ρ' o d none → Alters o d S m ρ m' ρ' →
      m'.pte d (a / PGSIZE) = some (pteOf f (perm ||| PTE_P)) → m'.page f = m.page f →
      (∀ u < 2 ^ 20, u ≠ a / PGSIZE → m'.pte d u = m.pte d u) → Q true m') :
    W H E (mapPage d perm a f) Q m := by
  have hv : a / PGSIZE < 2 ^ 19 := by
    simp only [PGSIZE, KERNBASE] at *
    omega
  rw [mapPage, w_bind]
  refine w_walkpgdir_true ha (by simp only [KERNBASE] at hva; omega) hS hfail
    fun m' ρ' t ha' halt hpte hhand ht => ?_
  rw [w_bind, w_load]
  have hnone' : m'.pte d (a / PGSIZE) = none := by rw [hpte _ (by omega), hnone]
  have hp : ¬ m'.word t (a / PGSIZE % NPTENTRIES) &&& PTE_P ≠ 0 := by
    intro hp
    rw [Kmem.pte_eq_of_table ht, if_pos hp] at hnone'
    cases hnone'
  rw [if_neg hp, w_bind, w_store]
  have hlt := (ha.books.managed_of_role ha.role_hand).lt
  obtain ⟨ρ'', ha'', halt'⟩ := ha'.mapUser hv ht hnone' (pteOf_present f perm)
    (pteAddr_pteOf hlt (or_pteP_lt hperm)) hS
  refine hok _ ρ'' ha'' (halt.trans halt') ?_ ?_ fun u hu hne => ?_
  · rw [ha'.pte_setWord (by omega) ht (by omega), if_pos rfl, if_pos (pteOf_present f perm)]
  · refine Eq.trans (Kmem.setWord_page_of_ne ?_) (hhand f rfl)
    exact ne_of_role (ha'.role_table (by simp only [NPTENTRIES]; omega) ht) ha'.role_hand (by simp)
  · rw [ha'.pte_setWord (by omega) ht hu, if_neg hne, hpte u hu]

theorem mappages_one (hal : a % PGSIZE = 0) (hlt : a < KERNBASE) :
    mappages d a PGSIZE f perm = mapPage d perm a f := by
  simp only [KERNBASE] at hlt
  have hdown : pgrounddown a = a := Nat.div_mul_cancel (Nat.dvd_of_mod_eq_zero hal)
  have hend : (a + PGSIZE + 2 ^ 32 - 1) % 2 ^ 32 = a + (PGSIZE - 1) := by
    simp only [PGSIZE]
    omega
  have hlast : pgrounddown (a + (PGSIZE - 1)) = a := by
    simp only [pgrounddown, PGSIZE] at hal ⊢
    omega
  have hcount : (a + 2 ^ 32 - a) % 2 ^ 32 / PGSIZE = 0 := by
    have hmod : (a + 2 ^ 32 - a) % 2 ^ 32 = 0 := by omega
    rw [hmod, Nat.zero_div]
  simp only [mappages, hdown, hend, hlast, hcount]
  rfl

def pagesFrom (a sz : ℕ) : Set ℕ := {v | a / PGSIZE ≤ v ∧ v * PGSIZE < sz}

theorem mem_pagesFrom {sz : ℕ} : v ∈ pagesFrom a sz ↔ a / PGSIZE ≤ v ∧ v * PGSIZE < sz := Iff.rfl

theorem pagesFrom_mono {b sz : ℕ} (hab : a ≤ b) : pagesFrom b sz ⊆ pagesFrom a sz :=
  fun _ hv => ⟨(Nat.div_le_div_right hab).trans hv.1, hv.2⟩

theorem pagesFrom_lt {sz : ℕ} (hsz : sz ≤ KERNBASE) (hv : v ∈ pagesFrom a sz) : v < 2 ^ 19 := by
  have := hv.2
  simp only [PGSIZE, KERNBASE] at *
  omega

theorem self_mem_pagesFrom {sz : ℕ} (hal : a % PGSIZE = 0) (hlt : a < sz) :
    a / PGSIZE ∈ pagesFrom a sz := by
  refine ⟨le_rfl, ?_⟩
  rwa [Nat.div_mul_cancel (Nat.dvd_of_mod_eq_zero hal)]

theorem notMem_pagesFrom {sz : ℕ} (hal : a % PGSIZE = 0) (hle : ¬ a < sz) : v ∉ pagesFrom a sz := by
  intro hv
  have h1 := hv.1
  have h2 := hv.2
  simp only [PGSIZE] at *
  omega

theorem mem_pagesFrom_next {sz : ℕ} :
    v ∈ pagesFrom (a + PGSIZE) sz ↔ v ∈ pagesFrom a sz ∧ v ≠ a / PGSIZE := by
  simp only [mem_pagesFrom, PGSIZE]
  omega

theorem w_deallocLoop (ha : At K m ρ o d h) (hsz : oldsz ≤ KERNBASE) (hal : a % PGSIZE = 0)
    (hQ : ∀ m' ρ', At K m' ρ' o d h → Alters o d (pagesFrom a oldsz) m ρ m' ρ' →
      (∀ v ∈ pagesFrom a oldsz, m'.pte d v = none) → (∀ i, m'.table d i = m.table d i) → Q () m') :
    W H E (deallocLoop d oldsz a) Q m := by
  induction hk : oldsz - a using Nat.strong_induction_on generalizing a m ρ with
  | _ k ih =>
    rw [deallocLoop]
    by_cases hlt : a < oldsz
    · have hlt32 : a < 2 ^ 32 := by
        simp only [KERNBASE] at hsz
        omega
      have hv : a / PGSIZE < 2 ^ 19 := by
        simp only [PGSIZE, KERNBASE] at *
        omega
      have hself := self_mem_pagesFrom hal hlt
      -- The rest of the loop, from a later address, when the pages before it are not mapped.
      have hrest : ∀ {b : ℕ} {m₁ : Kmem} {ρ₁ : Roles}, a < b → b % PGSIZE = 0 → At K m₁ ρ₁ o d h →
          Alters o d (pagesFrom a oldsz) m ρ m₁ ρ₁ → (∀ i, m₁.table d i = m.table d i) →
          (∀ v ∈ pagesFrom a oldsz, v < b / PGSIZE → m₁.pte d v = none) →
          W H E (deallocLoop d oldsz b) Q m₁ := by
        intro b m₁ ρ₁ hab hbal ha₁ halt htab hnone
        refine ih (oldsz - b) (by omega) ha₁ hbal (fun m' ρ' ha' halt' hdone htab' => ?_) rfl
        refine hQ m' ρ' ha' (halt.trans (halt'.mono (pagesFrom_mono hab.le))) (fun v hvS => ?_)
          fun i => (htab' i).trans (htab i)
        by_cases hvb : b / PGSIZE ≤ v
        · exact hdone v ⟨hvb, hvS.2⟩
        · have hout : v ∉ pagesFrom b oldsz := fun hin => hvb hin.1
          rw [halt'.pte v (by have := pagesFrom_lt hsz hvS; omega) hout]
          exact hnone v hvS (by omega)
      rw [dif_pos hlt, w_bind, w_walkpgdir_false, ptx_eq, pdx_eq hlt32]
      cases htab : m.table d (a / PGSIZE / NPTENTRIES) with
      | none =>
        refine hrest ?_ ?_ ha (.refl o d _ m ρ) (fun _ => rfl) fun v hvS hvb => ?_
        · omega
        · simp only [PGSIZE]
          omega
        · apply Kmem.pte_eq_none_of_table
          have hdir : v / NPTENTRIES = a / PGSIZE / NPTENTRIES := by
            have := hvS.1
            simp only [PGSIZE, NPTENTRIES] at *
            omega
          rw [hdir, htab]
      | some t =>
        have hnext : (a + PGSIZE) % PGSIZE = 0 := by rw [Nat.add_mod_right, hal]
        have hstep : ∀ v ∈ pagesFrom a oldsz, v < (a + PGSIZE) / PGSIZE → v = a / PGSIZE := by
          intro v hvS hvb
          have := hvS.1
          simp only [PGSIZE] at *
          omega
        simp only [Option.map_some]
        rw [w_bind, w_load]
        by_cases hp : m.word t (a / PGSIZE % NPTENTRIES) &&& PTE_P ≠ 0
        · have hw : m.pte d (a / PGSIZE) = some (m.word t (a / PGSIZE % NPTENTRIES)) := by
            rw [Kmem.pte_eq_of_table htab, if_pos hp]
          have hman := ha.books.managed_of_role (ha.role_user hv hw)
          rw [if_pos hp, if_neg hman.ne_zero, w_bind, w_kfree hman, w_bind, w_store]
          obtain ⟨ρ₁, ha₁, halt, hpte⟩ := ha.unmap hv htab hw hself
          refine hrest (by simp only [PGSIZE]; omega) hnext ha₁ halt (fun i => ?_) fun v hvS hvb => ?_
          · have hdir : d ≠ t := (ha.table_ne_dir (by simp only [PGSIZE, NPTENTRIES]; omega) htab).symm
            have hdir' : d ≠ pteAddr (m.word t (a / PGSIZE % NPTENTRIES)) :=
              ne_of_role (ha.role_user hv hw) ha.role_dir (by simp)
            exact Kmem.table_congr ((Kmem.setWord_page_of_ne hdir).trans
              (Kmem.freed_page_of_ne hdir')) i
          · rw [hpte v (by have := pagesFrom_lt hsz hvS; omega), if_pos (hstep v hvS hvb)]
        · rw [if_neg hp]
          refine hrest (by simp only [PGSIZE]; omega) hnext ha (.refl o d _ m ρ) (fun _ => rfl)
            fun v hvS hvb => ?_
          rw [hstep v hvS hvb, Kmem.pte_eq_of_table htab, if_neg hp]
    · rw [dif_neg hlt]
      exact hQ m ρ ha (.refl o d _ m ρ) (fun v hvS => absurd hvS (notMem_pagesFrom hal hlt)) fun _ => rfl

theorem pgroundup_eq (hsz : newsz ≤ KERNBASE) :
    pgroundup newsz = (newsz + (PGSIZE - 1)) / PGSIZE * PGSIZE := by
  simp only [pgroundup, PGSIZE, KERNBASE] at *
  omega

theorem pgroundup_aligned (sz : ℕ) : pgroundup sz % PGSIZE = 0 := Nat.mul_mod_left _ _

theorem le_pgroundup (hsz : newsz ≤ KERNBASE) : newsz ≤ pgroundup newsz := by
  rw [pgroundup_eq hsz]
  simp only [PGSIZE]
  omega

theorem w_deallocuvm {Q : ℕ → Kmem → Prop} (ha : At K m ρ o d h) (hsz : oldsz ≤ KERNBASE)
    (hlt : newsz < oldsz)
    (hQ : ∀ m' ρ', At K m' ρ' o d h → Alters o d (pagesFrom (pgroundup newsz) oldsz) m ρ m' ρ' →
      (∀ v ∈ pagesFrom (pgroundup newsz) oldsz, m'.pte d v = none) →
      (∀ i, m'.table d i = m.table d i) → Q newsz m') : W H E (deallocuvm d oldsz newsz) Q m := by
  rw [deallocuvm, if_neg (Nat.not_le.mpr hlt), w_bind]
  exact w_deallocLoop ha hsz (pgroundup_aligned newsz) hQ

theorem Keeps.length_le (hk : Keeps o m ρ m' ρ') (hb : Books K m ρ) (ha : At K m' ρ' o d h)
    (P : Set Place) (hP : ∀ p, ∀ f ∈ m.freelist, view m' d h p = some f → p ∈ P) :
    m.freelist.length ≤ m'.freelist.length + P.ncard := by
  rw [← List.toFinset_card_of_nodup hb.nodup, ← List.toFinset_card_of_nodup ha.books.nodup,
    ← Set.ncard_coe_finset, ← Set.ncard_coe_finset]
  have hsub : (m.freelist.toFinset : Set Frame) ⊆
      m'.freelist.toFinset ∪ (fun p => (view m' d h p).getD 0) '' P := by
    intro f hmem
    rw [Finset.mem_coe, List.mem_toFinset] at hmem
    have hf := (hb.mem_iff f).mp hmem
    rw [Set.mem_union, Finset.mem_coe, List.mem_toFinset, ha.books.mem_iff]
    cases hf' : ρ' f with
    | none => exact absurd hf' ((ha.books.managed_iff f).mp (hb.managed_of_role hf))
    | some r =>
      by_cases hr : r = .free
      · exact .inl (congrArg some hr)
      by_cases hof : r.Of o
      · obtain ⟨p, rfl⟩ := Role.Of.place hof
        have hview := (ha.shows p f).mp hf'
        exact .inr ⟨p, hP p f hmem hview, by simp only [hview, Option.getD_some]⟩
      · rw [(hk.role f r hr hof).mp hf'] at hf
        exact absurd (Option.some.inj hf) hr
  calc _ ≤ _ := Set.ncard_le_ncard hsub (Set.toFinite _)
    _ ≤ _ := Set.ncard_union_le _ _
    _ ≤ _ := Nat.add_le_add_left (Set.ncard_image_le (Set.toFinite P)) _

theorem Keeps.length_lt {P : Set Place} {p q : Place} (hk : Keeps o m ρ m' ρ') (hb : Books K m ρ)
    (ha : At K m' ρ' o d h) (hempty : m'.freelist = [])
    (hP : ∀ q, ∀ f ∈ m.freelist, view m' d h q = some f → q = .hand ∨ q ∈ P)
    (hp : p ∈ P) (hnone : view m' d h p = none)
    (hh : h = none ∨ q ∈ P ∧ q ≠ p ∧ view m' d h q = none) : m.freelist.length < P.ncard := by
  have hne : ∀ {q q' f}, view m' d h q = some f → view m' d h q' = none → q ≠ q' := by
    rintro q q' f hq hq' rfl
    rw [hq] at hq'
    cases hq'
  have h1 := Set.ncard_sdiff_singleton_add_one hp (Set.toFinite P)
  rcases hh with rfl | ⟨hp', hpp', hnone'⟩
  · have hle := hk.length_le hb ha (P \ {p}) fun q f hf hq =>
      ⟨(hP q f hf hq).resolve_left (hne hq rfl), hne hq hnone⟩
    rw [hempty, List.length_nil] at hle
    omega
  · have hle := hk.length_le hb ha (insert .hand ((P \ {p}) \ {q})) fun q f hf hq =>
      (hP q f hf hq).imp id fun hq' => ⟨⟨hq', hne hq hnone⟩, hne hq hnone'⟩
    have h2 := Set.ncard_sdiff_singleton_add_one (s := P \ {p}) ⟨hp', hpp'⟩ (Set.toFinite _)
    have h3 := Set.ncard_insert_le Place.hand ((P \ {p}) \ {q})
    rw [hempty, List.length_nil] at hle
    omega

def placesIn (S T : Set ℕ) : Set Place
  | .user v => v.val ∈ S
  | .table i => i.val ∈ T
  | .dir | .hand => False

theorem ncard_placesIn_le {T : Set ℕ} (hS : S.Finite) (hT : T.Finite) :
    (placesIn S T).ncard ≤ S.ncard + T.ncard := by
  have hsub : placesIn S T ⊆ Place.user '' {v | v.val ∈ S} ∪ Place.table '' {i | i.val ∈ T} := by
    intro p hp
    cases p with
    | user v => exact .inl ⟨v, hp, rfl⟩
    | table i => exact .inr ⟨i, hp, rfl⟩
    | dir | hand => cases hp
  calc _ ≤ _ := Set.ncard_le_ncard hsub (Set.toFinite _)
    _ ≤ _ := Set.ncard_union_le _ _
    _ ≤ _ := Nat.add_le_add (Set.ncard_image_le (Set.toFinite _)) (Set.ncard_image_le (Set.toFinite _))
    _ ≤ _ := Nat.add_le_add
      (Set.ncard_le_ncard_of_injOn Fin.val (fun _ hv => hv) Fin.val_injective.injOn hS)
      (Set.ncard_le_ncard_of_injOn Fin.val (fun _ hi => hi) Fin.val_injective.injOn hT)

def Exhausted (K : Image) (o : Owner) (d : Frame) (S : Set ℕ) (m : Kmem) (ρ : Roles) : Prop :=
  ∃ m₁ ρ₁ h₁, At K m₁ ρ₁ o d h₁ ∧ Alters o d S m ρ m₁ ρ₁ ∧ m₁.freelist = [] ∧
    ∃ v ∈ S, m₁.pte d v = none ∧ (h₁ = none ∨ m₁.table d (v / NPTENTRIES) = none)

noncomputable def framesFor (m : Kmem) (d : Frame) (S : Set ℕ) : ℕ :=
  S.ncard + {i | m.table d i = none ∧ ∃ v ∈ S, v / NPTENTRIES = i}.ncard

theorem finite_pages {sz : ℕ} (hsz : sz ≤ KERNBASE) : {v | v * PGSIZE < sz}.Finite :=
  (Set.finite_Iio (2 ^ 19)).subset fun _ hv => pagesFrom_lt (a := 0) hsz ⟨Nat.zero_le _, hv⟩

theorem Exhausted.length_lt {sz : ℕ} (hsz : sz ≤ KERNBASE)
    (he : Exhausted K o d (pagesFrom a sz) m ρ) (ha : At K m ρ o d none) :
    m.freelist.length < framesFor m d (pagesFrom a sz) := by
  obtain ⟨m₁, ρ₁, h₁, ha₁, halt, hempty, v, hvS, hpte, hh⟩ := he
  have hfin : (pagesFrom a sz).Finite := (finite_pages hsz).subset fun _ hv => hv.2
  have hv := pagesFrom_lt hsz hvS
  have hi : v / NPTENTRIES < 1024 := by
    simp only [NPTENTRIES]
    omega
  have hfree : ∀ {p f}, f ∈ m.freelist → view m d none p ≠ some f := fun hf hp => by
    have := (ha.books.mem_iff _).mp hf
    rw [(ha.shows _ _).mpr hp] at this
    cases this
  refine (halt.toKeeps.length_lt ha.books ha₁ hempty
    (P := placesIn (pagesFrom a sz) {i | m.table d i = none ∧ ∃ v ∈ pagesFrom a sz, v / NPTENTRIES = i})
    (p := .user ⟨v, hv⟩) (q := .table ⟨v / NPTENTRIES, hi⟩) (fun q f hf hq => ?_) hvS
    (by simp only [view, hpte, Option.map_none]) (hh.imp id fun ht => ⟨⟨?_, v, hvS, rfl⟩, by simp, ht⟩)).trans_le
    (ncard_placesIn_le hfin ((hfin.image (· / NPTENTRIES)).subset fun i hi => hi.2))
  · cases q with
    | hand => exact .inl rfl
    | dir => exact absurd hq (hfree (p := .dir) hf)
    | user u =>
      refine .inr (by_contra fun hu => hfree (p := .user u) hf ?_)
      rw [← hq, view, view, halt.pte u (by omega) hu]
    | table i =>
      have ht : m.table d i = none := by
        by_contra hne
        obtain ⟨t, ht⟩ := Option.ne_none_iff_exists'.mp hne
        have hq' := (halt.tables i i.isLt t ht).symm.trans hq
        exact hfree (p := .table i) hf (ht.trans hq')
      refine .inr ⟨ht, by_contra fun hno => ?_⟩
      have hq' := (halt.noTable i.isLt ht fun v hv heq => hno ⟨v, hv, heq⟩).symm.trans hq
      cases hq'
  · by_contra hne
    obtain ⟨t, ht'⟩ := Option.ne_none_iff_exists'.mp hne
    have ht'' := (halt.tables _ hi t ht').symm.trans ht
    cases ht''

theorem w_allocLoop {Q : ℕ → Kmem → Prop} (ha : At K m ρ o d none) (hnew : newsz < KERNBASE)
    (hold : pgroundup oldsz ≤ a) (hle : oldsz ≤ pgroundup oldsz) (hal : a % PGSIZE = 0)
    (hnone : ∀ v ∈ pagesFrom a newsz, m.pte d v = none)
    (hok : ∀ m' ρ', At K m' ρ' o d none → Alters o d (pagesFrom a newsz) m ρ m' ρ' →
      (∀ v ∈ pagesFrom a newsz, ∃ f, K.Managed f ∧
        m'.pte d v = some (pteOf f (PTE_W ||| PTE_U ||| PTE_P)) ∧ m'.page f = fun _ => 0) →
      Q newsz m') (hfail : ∀ m' ρ', At K m' ρ' o d none →
      Alters o d (pagesFrom (pgroundup oldsz) newsz) m ρ m' ρ' →
      (∀ v ∈ pagesFrom (pgroundup oldsz) newsz, m'.pte d v = none) →
      Exhausted K o d (pagesFrom (pgroundup oldsz) newsz) m ρ → Q 0 m') :
    W H E (allocLoop d oldsz newsz a) Q m := by
  induction hk : newsz - a using Nat.strong_induction_on generalizing a m ρ with
  | _ k ih =>
    rw [allocLoop]
    by_cases hlt : a < newsz
    · have hself := self_mem_pagesFrom hal hlt
      have hself' := pagesFrom_mono hold hself
      have hv := pagesFrom_lt hnew.le hself
      rw [if_pos hlt, w_bind]
      refine w_kalloc (fun hempty => ?_) fun f fs hfree => ?_
      · rw [w_bind]
        exact w_deallocuvm ha hnew.le (by omega) fun m' ρ' ha' halt hdone _ =>
          hfail m' ρ' ha' halt hdone ⟨m, ρ, none, ha, .refl o d _ m ρ, hempty, _, hself' , hnone _ hself, .inl rfl⟩
      · rw [w_bind, w_memset, w_bind, mappages_one hal (by omega)]
        obtain ⟨ρ₁, ha₁, halt₁⟩ := ha.take hfree (fun _ => 0) (pagesFrom a newsz)
        set m₁ := Kmem.setPage { m with freelist := fs } f fun _ => 0 with hm₁
        have hpte₁ : ∀ u < 2 ^ 20, m₁.pte d u = m.pte d u := by
          obtain ⟨_, _, halt⟩ := ha.take hfree (fun _ => 0) ∅
          exact fun u hu => halt.pte u hu (Set.notMem_empty u)
        refine w_mapPage_user ha₁ (by omega) (by decide)
          ((hpte₁ _ (by omega)).trans (hnone _ hself)) hself (fun hempty htable => ?_)
          fun m₂ ρ₂ ha₂ halt₂ hmapped hzero hother => ?_
        · simp only [Bool.false_eq_true, if_false]
          rw [w_bind]
          refine w_deallocuvm ha₁ hnew.le (by omega) fun m₂ ρ₂ ha₂ halt₂ hdone _ => ?_
          obtain ⟨ρ₃, ha₃, halt₃⟩ := ha₂.drop (pagesFrom (pgroundup oldsz) newsz)
          rw [w_bind, w_kfree (ha₂.books.managed_of_role ha₂.role_hand)]
          refine hfail _ ρ₃ ha₃ (((halt₁.mono (pagesFrom_mono hold)).trans halt₂).trans halt₃) ?_
            ⟨m₁, ρ₁, some f, ha₁, halt₁.mono (pagesFrom_mono hold), hempty, _, hself',
              (hpte₁ _ (by omega)).trans (hnone _ hself), .inr htable⟩
          intro v hvS
          obtain ⟨_, _, halt⟩ := ha₂.drop ∅
          rw [halt.pte v (by have := pagesFrom_lt hnew.le hvS; omega) (Set.notMem_empty v)]
          exact hdone v hvS
        · simp only [if_true]
          have hsub : pagesFrom (a + PGSIZE) newsz ⊆ pagesFrom a newsz := pagesFrom_mono (by omega)
          have hnot : a / PGSIZE ∉ pagesFrom (a + PGSIZE) newsz :=
            fun hin => (mem_pagesFrom_next.mp hin).2 rfl
          have hman := ha₁.books.managed_of_role ha₁.role_hand
          have hf : pteAddr (pteOf f (PTE_W ||| PTE_U ||| PTE_P)) = f :=
            pteAddr_pteOf hman.lt (by decide)
          refine ih (newsz - (a + PGSIZE)) (by simp only [PGSIZE]; omega) ha₂ (by omega)
            (by rw [Nat.add_mod_right, hal]) (fun v hvS => ?_) (fun m' ρ' ha' halt' hall => ?_)
            (fun m' ρ' ha' halt' hdone ⟨m₃, ρ₃, h₃, ha₃, halt₃, hempty⟩ => ?_) rfl
          · have hne : v ≠ a / PGSIZE := fun heq => hnot (heq ▸ hvS)
            have hlt20 : v < 2 ^ 20 := by have := pagesFrom_lt hnew.le hvS; omega
            rw [hother v hlt20 hne, hpte₁ v hlt20]
            exact hnone v (hsub hvS)
          · refine hok m' ρ' ha' ((halt₁.trans halt₂).trans (halt'.mono hsub)) fun v hvS => ?_
            by_cases hva : v = a / PGSIZE
            · subst hva
              refine ⟨f, hman, (halt'.pte _ (by omega) hnot).trans hmapped, ?_⟩
              have hpage := halt'.contents _ hv hnot _ hmapped
              rw [hf] at hpage
              rw [hpage, hzero, hm₁, Kmem.setPage_page_self]
            · exact hall v (mem_pagesFrom_next.mpr ⟨hvS, hva⟩)
          · have halt := (halt₁.trans halt₂).mono (pagesFrom_mono hold)
            exact hfail m' ρ' ha' (halt.trans halt') hdone ⟨m₃, ρ₃, h₃, ha₃, halt.trans halt₃, hempty⟩
    · rw [if_neg hlt]
      exact hok m ρ ha (.refl o d _ m ρ) fun v hvS => absurd hvS (notMem_pagesFrom hal hlt)

theorem w_allocuvm {Q : ℕ → Kmem → Prop} (ha : At K m ρ o d none) (hnew : newsz < KERNBASE)
    (hle : oldsz ≤ newsz) (hnone : ∀ v ∈ pagesFrom (pgroundup oldsz) newsz, m.pte d v = none)
    (hok : ∀ m' ρ', At K m' ρ' o d none → Alters o d (pagesFrom (pgroundup oldsz) newsz) m ρ m' ρ' →
      (∀ v ∈ pagesFrom (pgroundup oldsz) newsz, ∃ f, K.Managed f ∧
        m'.pte d v = some (pteOf f (PTE_W ||| PTE_U ||| PTE_P)) ∧ m'.page f = fun _ => 0) →
      Q newsz m') (hfail : ∀ m' ρ', At K m' ρ' o d none →
      Alters o d (pagesFrom (pgroundup oldsz) newsz) m ρ m' ρ' →
      (∀ v ∈ pagesFrom (pgroundup oldsz) newsz, m'.pte d v = none) →
      Exhausted K o d (pagesFrom (pgroundup oldsz) newsz) m ρ → Q 0 m') :
    W H E (allocuvm d oldsz newsz) Q m := by
  rw [allocuvm, if_neg (Nat.not_le.mpr hnew), if_neg (Nat.not_lt.mpr hle)]
  exact w_allocLoop ha hnew le_rfl (le_pgroundup (hle.trans hnew.le)) (pgroundup_aligned oldsz)
    hnone hok hfail

section

variable (halt : Alters o d S m ρ m' ρ') (ha : At K m ρ o d h) (ha' : At K m' ρ' o d h)
include halt ha ha'

theorem Alters.freelist_of_unmapped (hS : ∀ v ∈ S, m'.pte d v = none) (hlt : ∀ v ∈ S, v < 2 ^ 19)
    (htab : ∀ i, m'.table d i = m.table d i) :
    f ∈ m'.freelist ↔ f ∈ m.freelist ∨ ∃ v ∈ S, (m.pte d v).map pteAddr = some f := by
  have hplace : ∀ p, ρ' f = some (.space o p) ↔
      ρ f = some (.space o p) ∧ ∀ v, p = .user v → v.val ∉ S := by
    intro p
    rw [ha'.shows p f, ha.shows p f]
    cases p with
    | dir | hand => simp [view]
    | table i => simp [view, htab]
    | user v =>
      by_cases hv : v.val ∈ S
      · simp [view, hS _ hv, hv]
      · simp [view, halt.pte v (by omega) hv, hv]
  rw [ha'.books.mem_iff, ha.books.mem_iff]
  constructor
  · intro hf'
    cases hf : ρ f with
    | none => exact absurd hf ((ha.books.managed_iff f).mp (ha'.books.managed_of_role hf'))
    | some r =>
      by_cases hr : r = .free
      · exact .inl (congrArg some hr)
      by_cases ho : r.Of o
      · obtain ⟨p, rfl⟩ := ho.place
        by_contra hno
        have hkept := (hplace p).mpr ⟨hf, ?_⟩
        · rw [hf'] at hkept
          cases hkept
        · rintro v rfl hv
          exact hno (.inr ⟨v, hv, (ha.shows (.user v) f).mp hf⟩)
      · rw [(halt.role f r hr ho).mpr hf] at hf'
        exact absurd (Option.some.inj hf') hr
  · intro hf
    have hrole : ρ f = some .free ∨
        ∃ v : Fin (2 ^ 19), v.val ∈ S ∧ ρ f = some (.space o (.user v)) := by
      rcases hf with hf | ⟨v, hv, hw⟩
      · exact .inl hf
      · exact .inr ⟨⟨v, hlt v hv⟩, hv, (ha.shows (.user ⟨v, hlt v hv⟩) f).mpr hw⟩
    have hman : K.Managed f := by
      rcases hrole with hf | ⟨v, -, hf⟩ <;> exact ha.books.managed_of_role hf
    cases hf' : ρ' f with
    | none => exact absurd hf' ((ha'.books.managed_iff f).mp hman)
    | some r =>
      by_contra hne
      have hr : r ≠ .free := fun heq => hne (congrArg some heq)
      have hkept : ρ f = some r ∧ ∀ v : Fin (2 ^ 19), r = .space o (.user v) → v.val ∉ S := by
        by_cases ho : r.Of o
        · obtain ⟨p, rfl⟩ := ho.place
          obtain ⟨hf, hp⟩ := (hplace p).mp hf'
          exact ⟨hf, fun v heq => hp v (space_injective o heq)⟩
        · refine ⟨(halt.role f r hr ho).mp hf', fun v heq => ?_⟩
          subst heq
          exact absurd rfl ho
      rcases hrole with hf | ⟨v, hv, hf⟩ <;> rw [hkept.1] at hf
      · exact hr (Option.some.inj hf)
      · exact hkept.2 v (Option.some.inj hf) hv

end

def deallocPages (pgdir : Frame) (oldsz newsz : ℕ) : VmProg ℕ :=
  if oldsz ≤ newsz then pure oldsz
  else do
    visitPages pgdir (pageCount oldsz (pgroundup newsz)) (pgroundup newsz)
    pure newsz

theorem deallocuvm_skips (hold : oldsz ≤ KERNBASE) (hnew : newsz ≤ KERNBASE) :
    (deallocuvm d oldsz newsz).run (perform K) m = (deallocPages d oldsz newsz).run (perform K) m ∧
    (At K m ρ o d h → ∃ m', (deallocuvm d oldsz newsz).run (perform K) m =
        .ok (if oldsz ≤ newsz then oldsz else newsz, m') ∧
      (∀ v ∈ pagesFrom (pgroundup newsz) oldsz, m'.pte d v = none) ∧
      (∀ v < 2 ^ 20, v ∉ pagesFrom (pgroundup newsz) oldsz → m'.pte d v = m.pte d v) ∧
      (∀ v < 2 ^ 19, v ∉ pagesFrom (pgroundup newsz) oldsz → m'.mapped d v = m.mapped d v) ∧
      (∀ i, m'.table d i = m.table d i) ∧ m'.freelist.Nodup ∧
      ∀ f, f ∈ m'.freelist ↔ f ∈ m.freelist ∨
        ∃ v ∈ pagesFrom (pgroundup newsz) oldsz, (m.pte d v).map pteAddr = some f) := by
  constructor
  · rw [deallocuvm, deallocPages]
    split_ifs
    · rfl
    · rw [Prog.run_bind, Prog.run_bind,
        Prog.run_eq_of_wp fun E Q => w_deallocLoop_visits (pgroundup_aligned newsz)]
  · intro ha
    by_cases hle : oldsz ≤ newsz
    · have hout : ∀ v, v ∉ pagesFrom (pgroundup newsz) oldsz := fun v hv =>
        notMem_pagesFrom (pgroundup_aligned newsz) (by have := le_pgroundup hnew; omega) hv
      rw [deallocuvm, if_pos hle, if_pos hle]
      refine ⟨m, rfl, fun v hv => absurd hv (hout v), fun _ _ _ => rfl, fun _ _ _ => rfl, fun _ => rfl,
        ha.books.nodup, fun f => ⟨.inl, ?_⟩⟩
      rintro (hf | ⟨v, hv, -⟩)
      · exact hf
      · exact absurd hv (hout v)
    · have hw : W (perform K) (fun _ => False) (deallocuvm d oldsz newsz) (fun r m' => r = newsz ∧
          ∃ ρ', At K m' ρ' o d h ∧ Alters o d (pagesFrom (pgroundup newsz) oldsz) m ρ m' ρ' ∧
          (∀ v ∈ pagesFrom (pgroundup newsz) oldsz, m'.pte d v = none) ∧
          ∀ i, m'.table d i = m.table d i) m :=
        w_deallocuvm ha hold (Nat.not_le.mp hle) fun m' ρ' ha' halt hdone htab =>
          ⟨rfl, ρ', ha', halt, hdone, htab⟩
      obtain ⟨r, m', hrun, rfl, ρ', ha', halt, hdone, htab⟩ := Prog.wp_returns hw
      rw [if_neg hle]
      exact ⟨m', hrun, hdone, halt.pte, fun v hv hvS => halt.mapped hv hvS, htab, ha'.books.nodup,
        fun f => halt.freelist_of_unmapped ha ha' hdone (fun v => pagesFrom_lt hold) htab⟩

end Xv6.Vm
