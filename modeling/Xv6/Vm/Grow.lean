import Xv6.Vm.Functions

/-!
# Growing and shrinking a process

`allocuvm` maps new pages or leaves all translations as they were; the only frames it keeps when it
fails are page tables.
-/

namespace Xv6.Vm

open Lib

variable {K : Image} {m m' : Kmem} {ρ ρ' : Roles} {o : Owner} {d f : Frame} {v oldsz newsz sz : ℕ}
  {w : Word} {r : Role} {S : Set ℕ}

section

variable (halt : Alters o d S m ρ m' ρ') (ha : At K m ρ o d none) (ha' : At K m' ρ' o d none)
include halt ha ha'

theorem Alters.role_kept (hS : ∀ v < 2 ^ 19, v ∈ S → m.pte d v = none)
    (hf : ρ f = some r) (hr : r ≠ .free) : ρ' f = some r := by
  by_cases ho : r.Of o
  · obtain ⟨p, rfl⟩ := ho.place
    have hshow := (ha.shows p f).mp hf
    cases p with
    | dir =>
      cases hshow
      exact ha'.role_dir
    | table i => exact ha'.role_table i.isLt (halt.tables i i.isLt f hshow)
    | hand => cases hshow
    | user v =>
      obtain ⟨w, hw, rfl⟩ := Option.map_eq_some_iff.mp hshow
      have hvS : v.val ∉ S := by
        intro hin
        rw [hS v v.isLt hin] at hw
        cases hw
      exact ha'.role_user v.isLt ((halt.pte v (by omega) hvS).trans hw)
  · exact (halt.role f r hr ho).mpr hf

theorem Alters.fresh (hS : ∀ v < 2 ^ 19, v ∈ S → m.pte d v = none) (hv : v < 2 ^ 19)
    (hvS : v ∈ S) (hw : m'.pte d v = some w) : pteAddr w ∈ m.freelist := by
  have hrole := ha'.role_user hv hw
  rw [ha.books.mem_iff]
  cases hf : ρ (pteAddr w) with
  | none =>
    exact absurd hf ((ha.books.managed_iff _).mp (ha'.books.managed_of_role hrole))
  | some r =>
    by_contra hne
    have hkept := halt.role_kept ha ha' hS hf fun hfree => hne (congrArg some hfree)
    rw [hrole] at hkept
    cases hkept
    obtain ⟨w', hw', -⟩ := Option.map_eq_some_iff.mp ((ha.shows (.user ⟨v, hv⟩) _).mp hf)
    rw [hS v hv hvS] at hw'
    cases hw'

theorem Alters.tables_only (hpte : ∀ v < 2 ^ 19, m'.pte d v = m.pte d v) (hf : f ∈ m.freelist) :
    f ∈ m'.freelist ∨ ∃ i < 1024, m.table d i = none ∧ m'.table d i = some f := by
  have hfree := (ha.books.mem_iff f).mp hf
  have hno : ∀ p, ρ f ≠ some (.space o p) := by
    intro p heq
    rw [hfree] at heq
    cases heq
  rw [ha'.books.mem_iff]
  cases hf' : ρ' f with
  | none => exact absurd hf' ((ha'.books.managed_iff f).mp (ha.books.managed_of_role hfree))
  | some r =>
    by_cases hr : r = .free
    · exact .inl (congrArg some hr)
    · by_cases ho : r.Of o
      · obtain ⟨p, rfl⟩ := ho.place
        have hshow := (ha'.shows p f).mp hf'
        cases p with
        | dir =>
          cases hshow
          exact absurd ha.role_dir (hno _)
        | hand => cases hshow
        | user v =>
          have hv := hpte v v.isLt
          simp only [view, hv] at hshow
          exact absurd ((ha.shows (.user v) f).mpr hshow) (hno _)
        | table i =>
          refine .inr ⟨i, i.isLt, ?_, hshow⟩
          cases ht : m.table d i with
          | none => rfl
          | some t =>
            have hkept := halt.tables i i.isLt t ht
            rw [show m'.table d i = some f from hshow] at hkept
            cases hkept
            exact absurd (ha.role_table i.isLt ht) (hno _)
      · rw [(halt.role f r hr ho).mp hf'] at hfree
        exact absurd (Option.some.inj hfree) hr

theorem Alters.freelist_subset (hS : ∀ v < 2 ^ 19, v ∈ S → m.pte d v = none)
    (hf : f ∈ m'.freelist) : f ∈ m.freelist := by
  have hfree := (ha'.books.mem_iff f).mp hf
  rw [ha.books.mem_iff]
  cases hf' : ρ f with
  | none => exact absurd hf' ((ha.books.managed_iff f).mp (ha'.books.managed_of_role hfree))
  | some r =>
    by_contra hne
    have hkept := halt.role_kept ha ha' hS hf' fun heq => hne (congrArg some heq)
    rw [hfree] at hkept
    exact hne hkept.symm

end

theorem allocuvm_exact (ha : At K m ρ o d none) (hle : oldsz ≤ newsz) (hnew : newsz < KERNBASE)
    (hnone : ∀ v ∈ pagesFrom (pgroundup oldsz) newsz, m.pte d v = none) :
    ∃ r m', (allocuvm d oldsz newsz).run (perform K) m = .ok (r, m') ∧
      (∃ ρ', At K m' ρ' o d none ∧ Keeps o m ρ m' ρ') ∧
      (∀ v < 2 ^ 20, v ∉ pagesFrom (pgroundup oldsz) newsz → m'.pte d v = m.pte d v) ∧
      (r = newsz ∧
          (∀ v ∈ pagesFrom (pgroundup oldsz) newsz, ∃ f ∈ m.freelist,
            m'.pte d v = some (pteOf f (PTE_W ||| PTE_U ||| PTE_P)) ∧
            f ∉ m'.freelist ∧ m'.page f = fun _ => 0) ∧
          (∀ u ∈ pagesFrom (pgroundup oldsz) newsz, ∀ v ∈ pagesFrom (pgroundup oldsz) newsz,
            m'.pte d u = m'.pte d v → u = v) ∨
        r = 0 ∧ m.freelist.length < framesFor m d (pagesFrom (pgroundup oldsz) newsz) ∧
          (∀ v < 2 ^ 20, m'.pte d v = m.pte d v) ∧
          m'.freelist.Nodup ∧ m'.freelist ⊆ m.freelist ∧
          ∀ f ∈ m.freelist, f ∈ m'.freelist ∨
            ∃ i < 1024, m.table d i = none ∧ m'.table d i = some f) := by
  have hlt : ∀ v ∈ pagesFrom (pgroundup oldsz) newsz, v < 2 ^ 19 := fun v => pagesFrom_lt hnew.le
  apply Prog.wp_returns
  refine w_allocuvm ha hnew hle hnone (fun m' ρ' ha' halt hall => ?_) fun m' ρ' ha' halt hdone hex => ?_
  · refine ⟨⟨ρ', ha', halt.toKeeps⟩, halt.pte, .inl ⟨rfl, fun v hv => ?_, fun u hu v hv huv => ?_⟩⟩
    · obtain ⟨f, hman, hw, hzero⟩ := hall v hv
      have hf : pteAddr (pteOf f (PTE_W ||| PTE_U ||| PTE_P)) = f := pteAddr_pteOf hman.lt (by decide)
      have hfresh := halt.fresh ha ha' (fun v _ => hnone v) (hlt v hv) hv hw
      have hrole := ha'.role_user (hlt v hv) hw
      rw [hf] at hfresh hrole
      refine ⟨f, hfresh, hw, fun hmem => ?_, hzero⟩
      rw [(ha'.books.mem_iff f).mp hmem] at hrole
      cases hrole
    · obtain ⟨f, -, hf, -⟩ := hall v hv
      have hrole := ha'.role_user (hlt u hu) (huv.trans hf)
      rw [ha'.role_user (hlt v hv) hf] at hrole
      simpa using hrole.symm
  · have hpte : ∀ v < 2 ^ 20, m'.pte d v = m.pte d v := by
      intro v hv
      by_cases hvS : v ∈ pagesFrom (pgroundup oldsz) newsz
      · rw [hdone v hvS, hnone v hvS]
      · exact halt.pte v hv hvS
    refine ⟨⟨ρ', ha', halt.toKeeps⟩, halt.pte, .inr ⟨rfl, hex.length_lt hnew.le ha, hpte,
      ha'.books.nodup, fun f hf => ?_, fun f hf => ?_⟩⟩
    · exact halt.freelist_subset ha ha' (fun v _ => hnone v) hf
    · exact halt.tables_only ha ha' (fun v hv => hpte v (by omega)) hf

def growproc (pgdir : Frame) (sz : ℕ) (n : Word) : VmProg (Option ℕ) :=
  if 0 < n.toInt then do
    let sz ← allocuvm pgdir sz ((sz + n.toNat) % 2 ^ 32)
    if sz = 0 then pure none else pure (some sz)
  else if n.toInt < 0 then do
    let sz ← deallocuvm pgdir sz ((sz + n.toNat) % 2 ^ 32)
    if sz = 0 then pure none else pure (some sz)
  else pure (some sz)

def Fills (m : Kmem) (d : Frame) (sz : ℕ) : Prop :=
  ∀ v < 2 ^ 19, m.pte d v ≠ none ↔ v * PGSIZE < pgroundup sz

def Grown (m m' : Kmem) (d : Frame) (sz : ℕ) (n : Word) : Option ℕ → Prop
  | some sz' =>
    (sz' : ℤ) = sz + n.toInt ∧ sz' < KERNBASE ∧ Fills m' d sz' ∧
      (∀ v, v * PGSIZE < pgroundup sz → v * PGSIZE < pgroundup sz' → m'.mapped d v = m.mapped d v) ∧
      ∀ v, pgroundup sz ≤ v * PGSIZE → v * PGSIZE < pgroundup sz' →
        ∃ w, m'.mapped d v = some (w, fun _ => 0)
  | none => ∀ v < 2 ^ 19, m'.mapped d v = m.mapped d v

theorem lt_pgroundup_iff (hsz : sz ≤ KERNBASE) : v * PGSIZE < pgroundup sz ↔ v * PGSIZE < sz := by
  rw [pgroundup_eq hsz]
  simp only [PGSIZE]
  omega

theorem mem_pagesFrom_pgroundup (hsz : oldsz ≤ KERNBASE) :
    v ∈ pagesFrom (pgroundup oldsz) newsz ↔ oldsz ≤ v * PGSIZE ∧ v * PGSIZE < newsz := by
  rw [mem_pagesFrom, pgroundup_eq hsz]
  simp only [PGSIZE]
  omega

theorem Kmem.mapped_congr_none (h : m.pte d v = none) (h' : m'.pte d v = none) :
    m'.mapped d v = m.mapped d v := by
  rw [Kmem.mapped, Kmem.mapped, h, h']
  rfl

theorem Fills.unmapped {x : ℕ} (hfill : Fills m d sz) (hsz : sz ≤ KERNBASE) (hx : x ≤ KERNBASE)
    (hv : v ∈ pagesFrom (pgroundup sz) x) : m.pte d v = none := by
  by_contra hne
  have h1 := (lt_pgroundup_iff hsz).mp ((hfill v (pagesFrom_lt hx hv)).mp hne)
  have h2 := ((mem_pagesFrom_pgroundup hsz).mp hv).1
  omega

section

variable (hfill : Fills m d sz) (hsz : sz < KERNBASE)
include hfill hsz

theorem Grown.of_alloc {n : Word} (hnew : newsz < KERNBASE)
    (hsum : (newsz : ℤ) = sz + n.toInt) (hle : sz ≤ newsz)
    (halt : Alters o d (pagesFrom (pgroundup sz) newsz) m ρ m' ρ')
    (hall : ∀ v ∈ pagesFrom (pgroundup sz) newsz, ∃ f, K.Managed f ∧
      m'.pte d v = some (pteOf f (PTE_W ||| PTE_U ||| PTE_P)) ∧ m'.page f = fun _ => 0) :
    Grown m m' d sz n (some newsz) := by
  refine ⟨hsum, hnew, fun v hv => ?_, fun v h1 _ => ?_, fun v h1 h2 => ?_⟩
  · rw [lt_pgroundup_iff hnew.le]
    by_cases hvS : v ∈ pagesFrom (pgroundup sz) newsz
    · obtain ⟨f, -, hw, -⟩ := hall v hvS
      exact iff_of_true (by rw [hw]; simp) hvS.2
    · rw [halt.pte v (by omega) hvS, hfill v hv, lt_pgroundup_iff hsz.le]
      rw [mem_pagesFrom_pgroundup hsz.le] at hvS
      omega
  · have hlt := (lt_pgroundup_iff hsz.le).mp h1
    refine halt.mapped (by simp only [PGSIZE, KERNBASE] at *; omega) ?_
    rw [mem_pagesFrom_pgroundup hsz.le]
    omega
  · rw [lt_pgroundup_iff hnew.le] at h2
    have hge := (le_pgroundup hsz.le).trans h1
    obtain ⟨f, hman, hw, hzero⟩ := hall v ((mem_pagesFrom_pgroundup hsz.le).mpr ⟨hge, h2⟩)
    have hf : pteAddr (pteOf f (PTE_W ||| PTE_U ||| PTE_P)) = f := pteAddr_pteOf hman.lt (by decide)
    exact ⟨_, by rw [Kmem.mapped, hw, Option.map_some, hf, hzero]⟩

theorem Grown.of_failed {n : Word}
    (hnew : newsz < KERNBASE) (halt : Alters o d (pagesFrom (pgroundup sz) newsz) m ρ m' ρ')
    (hdone : ∀ v ∈ pagesFrom (pgroundup sz) newsz, m'.pte d v = none) : Grown m m' d sz n none := by
  intro v hv
  by_cases hvS : v ∈ pagesFrom (pgroundup sz) newsz
  · exact Kmem.mapped_congr_none (hfill.unmapped hsz.le hnew.le hvS) (hdone v hvS)
  · exact halt.mapped hv hvS

theorem Grown.of_dealloc {n : Word} (hlt : newsz < sz) (hsum : (newsz : ℤ) = sz + n.toInt)
    (halt : Alters o d (pagesFrom (pgroundup newsz) sz) m ρ m' ρ')
    (hdone : ∀ v ∈ pagesFrom (pgroundup newsz) sz, m'.pte d v = none) :
    Grown m m' d sz n (some newsz) := by
  have hnew : newsz < KERNBASE := hlt.trans hsz
  refine ⟨hsum, hnew, fun v hv => ?_, fun v _ h2 => ?_, fun v h1 h2 => ?_⟩
  · rw [lt_pgroundup_iff hnew.le]
    by_cases hvS : v ∈ pagesFrom (pgroundup newsz) sz
    · have := ((mem_pagesFrom_pgroundup hnew.le).mp hvS).1
      exact iff_of_false (fun h => h (hdone v hvS)) (by omega)
    · rw [halt.pte v (by omega) hvS, hfill v hv, lt_pgroundup_iff hsz.le]
      rw [mem_pagesFrom_pgroundup hnew.le] at hvS
      omega
  · have hlt' := (lt_pgroundup_iff hnew.le).mp h2
    refine halt.mapped (by simp only [PGSIZE, KERNBASE] at *; omega) ?_
    rw [mem_pagesFrom_pgroundup hnew.le]
    omega
  · rw [lt_pgroundup_iff hnew.le] at h2
    have := (le_pgroundup hsz.le).trans h1
    omega

end

theorem grown_size {n : Word} (hsz : sz < KERNBASE) : ((sz + n.toNat) % 2 ^ 32 : ℕ) =
    (sz : ℤ) + n.toInt + if sz + n.toInt < 0 then 2 ^ 32 else 0 := by
  have := n.isLt
  rw [BitVec.toInt_eq_toNat_cond]
  simp only [KERNBASE] at hsz
  split_ifs <;> omega

/-- Below zero the new size wraps, and `deallocuvm` takes it for no change. -/
theorem w_growproc {E : Panic → Prop} {Q : Option ℕ → Kmem → Prop} {n : Word}
    (ha : At K m ρ o d none) (hsz : sz < KERNBASE) (hfill : Fills m d sz)
    (hgrown : 0 ≤ n.toInt ∨ 0 < sz + n.toInt ∨ sz = 0 → ∀ r m' ρ', At K m' ρ' o d none →
      Keeps o m ρ m' ρ' → Grown m m' d sz n r → Q r m')
    (hgone : 0 < sz → sz + n.toInt = 0 → ∀ m' ρ', At K m' ρ' o d none → Keeps o m ρ m' ρ' →
      m'.pte d 0 = none → Q none m')
    (hwrap : 0 < sz → sz + n.toInt < 0 → Q (some sz) m) :
    W (perform K) E (growproc d sz n) Q m := by
  have hsum := grown_size (n := n) hsz
  rw [growproc]
  set newsz := (sz + n.toNat) % 2 ^ 32
  by_cases hpos : 0 < n.toInt
  · have hgrown := hgrown (.inl hpos.le)
    rw [if_neg (by omega), add_zero] at hsum
    rw [if_pos hpos, w_bind]
    by_cases hbig : KERNBASE ≤ newsz
    · rw [allocuvm, if_pos hbig]
      exact hgrown none m ρ ha (.refl o m ρ) fun v _ => rfl
    · have hnew : newsz < KERNBASE := by omega
      refine w_allocuvm ha hnew (by omega) (fun v hv => hfill.unmapped hsz.le hnew.le hv)
        (fun m' ρ' ha' halt hall => ?_) fun m' ρ' ha' halt hdone _ => ?_
      · rw [if_neg (show newsz ≠ 0 by omega)]
        exact hgrown _ m' ρ' ha' halt.toKeeps (.of_alloc hfill hsz hnew hsum (by omega) halt hall)
      · exact hgrown none m' ρ' ha' halt.toKeeps (.of_failed hfill hsz hnew halt hdone)
  · rw [if_neg hpos]
    by_cases hneg : n.toInt < 0
    · rw [if_pos hneg, w_bind]
      by_cases hlow : (sz : ℤ) + n.toInt < 0
      · rw [if_pos hlow] at hsum
        have hle : sz ≤ newsz := by
          have := n.isLt
          have := BitVec.toInt_eq_toNat_cond n
          simp only [KERNBASE] at hsz
          split_ifs at this <;> omega
        rw [deallocuvm, if_pos hle]
        by_cases h0 : sz = 0
        · subst h0
          exact hgrown (.inr (.inr rfl)) none m ρ ha (.refl o m ρ) fun v _ => rfl
        · rw [W, Prog.wp_pure, if_neg h0]
          exact hwrap (by omega) hlow
      · rw [if_neg hlow, add_zero] at hsum
        refine w_deallocuvm ha hsz.le (by omega) fun m' ρ' ha' halt hdone _ => ?_
        by_cases h0 : newsz = 0
        · rw [if_pos h0]
          refine hgone (by omega) (by omega) m' ρ' ha' halt.toKeeps (hdone 0 ?_)
          rw [h0, mem_pagesFrom, Nat.zero_mul]
          exact ⟨by decide, by omega⟩
        · rw [if_neg h0]
          exact hgrown (.inr (.inl (by omega))) _ m' ρ' ha' halt.toKeeps
            (.of_dealloc hfill hsz (by omega) hsum halt hdone)
    · rw [if_neg hneg]
      exact hgrown (.inl (by omega)) _ m ρ ha (.refl o m ρ)
        ⟨by omega, hsz, hfill, fun _ _ _ => rfl, fun v h1 h2 => absurd h2 (by omega)⟩

theorem growproc_in_step (ha : At K m ρ o d none) (hsz : sz < KERNBASE) (hfill : Fills m d sz)
    (n : Word) :
    ∃ r m', (growproc d sz n).run (perform K) m = .ok (r, m') ∧
      (Grown m m' d sz n r ↔ 0 ≤ n.toInt ∨ 0 < sz + n.toInt ∨ sz = 0) ∧
      ∃ ρ', At K m' ρ' o d none ∧ Keeps o m ρ m' ρ' := by
  apply Prog.wp_returns
  refine w_growproc ha hsz hfill (fun hn r m' ρ' ha' hk hgrown => ?_)
    (fun hpos hzero m' ρ' ha' hk hnone => ?_) fun hpos hneg => ?_
  · exact ⟨iff_of_true hgrown hn, ρ', ha', hk⟩
  · -- page 0 was mapped and is not any more
    refine ⟨iff_of_false (fun hgrown => ?_) (by omega), ρ', ha', hk⟩
    have hmapped := (hfill 0 (by decide)).mpr ((lt_pgroundup_iff hsz.le).mpr (by omega))
    have hsame := hgrown 0 (by decide)
    rw [Kmem.mapped, Kmem.mapped, hnone] at hsame
    exact hmapped (Option.map_eq_none_iff.mp hsame.symm)
  · refine ⟨iff_of_false (fun hgrown => ?_) (by omega), ρ, ha, .refl o m ρ⟩
    have := hgrown.1
    omega

def smallImage : Image where
  data := KERNBASE + 0x101000
  kend := KERNBASE + 0x200000
  data_aligned := by decide
  text_before := by decide
  data_before := by decide
  booted := by decide

def framesFrom (n : ℕ) : List Frame := List.range' (512 + n) (56832 - n)

theorem managed_smallImage : smallImage.Managed f ↔ f ∈ framesFrom 0 := by
  simp only [Image.Managed, smallImage, framesFrom, List.mem_range'_1, PGSIZE, KERNBASE, PHYSTOP]
  omega

theorem framesFrom_cons {n : ℕ} (hn : n < 56832) : framesFrom n = (512 + n) :: framesFrom (n + 1) := by
  have hlen : 56832 - n = (56832 - (n + 1)) + 1 := by omega
  rw [framesFrom, hlen, List.range'_succ, framesFrom, Nat.add_assoc]

/-- Frame 512 is the directory, 513 the page table, and 514 the page at address 0. -/
def onePage : Kmem :=
  let m : Kmem := ⟨framesFrom 0, fun _ _ => 0⟩
  let m := Kmem.setPage { m with freelist := framesFrom 1 } 512 fun _ => 0
  let m := m.addTable (framesFrom 2) 513 512 0
  let m := Kmem.setPage { m with freelist := framesFrom 3 } 514 fun _ => 0
  m.setWord 513 0 (pteOf 514 (PTE_W ||| PTE_U ||| PTE_P))

theorem onePage_at :
    (∃ ρ, At smallImage onePage ρ (.proc 0) 512 none ∧ ∀ o ≠ .proc 0, NoSpace ρ o) ∧
    ∀ v < 2 ^ 20, onePage.pte 512 v =
      if v = 0 then some (pteOf 514 (PTE_W ||| PTE_U ||| PTE_P)) else none := by
  have hbooks : Books smallImage ⟨framesFrom 0, fun _ _ => 0⟩
      fun f => if f ∈ framesFrom 0 then some .free else none := by
    refine ⟨List.nodup_range', fun f => ?_, fun f => ?_⟩
    · by_cases hf : f ∈ framesFrom 0 <;> simp [hf]
    · rw [managed_smallImage]
      by_cases hf : f ∈ framesFrom 0 <;> simp [hf]
  have hno : ∀ o, NoSpace (fun f => if f ∈ framesFrom 0 then some Role.free else none) o := by
    intro o f p
    by_cases hf : f ∈ framesFrom 0 <;> simp [hf]
  obtain ⟨ρ₁, ha₁, hk₁, htable⟩ := hbooks.newDir (framesFrom_cons (by decide)) (hno (.proc 0))
  have hpte₁ := fun v (hv : v < 2 ^ 20) => Kmem.pte_eq_none_of_table (v := v)
    (htable _ (by simp only [NPTENTRIES]; omega))
  obtain ⟨ρ₂, ha₂, halt₂, ht₂, hpte₂⟩ := ha₁.addTable (i := 0) (framesFrom_cons (by decide)) (by decide)
    (htable 0 (by decide)) (S := {0}) ⟨0, rfl, rfl⟩
  obtain ⟨ρ₃, ha₃, halt₃⟩ := ha₂.take (framesFrom_cons (by decide)) (fun _ => 0) ∅
  have hpte₃ := fun v hv => halt₃.pte v hv (Set.notMem_empty v)
  have ht₃ := halt₃.tables 0 (by decide) _ ht₂
  obtain ⟨ρ₄, ha₄, halt₄⟩ := ha₃.mapUser (v := 0) (w := pteOf 514 (PTE_W ||| PTE_U ||| PTE_P)) (S := {0})
    (by decide) ht₃ ((hpte₃ 0 (by decide)).trans ((hpte₂ 0 (by decide)).trans (hpte₁ 0 (by decide))))
    (by decide) (by decide) rfl
  have hk := ((hk₁.trans halt₂.toKeeps).trans halt₃.toKeeps).trans halt₄.toKeeps
  refine ⟨⟨ρ₄, ha₄, fun o ho f p hf => hno o f p
    ((hk.role f (.space o p) (by simp) ho).mp hf)⟩, fun v hv => ?_⟩
  refine (ha₃.pte_setWord (v := 0) (by decide) ht₃ hv).trans ?_
  rw [if_pos (show pteOf 514 (PTE_W ||| PTE_U ||| PTE_P) &&& PTE_P ≠ 0 by decide)]
  split_ifs with h0
  · rfl
  · rw [hpte₃ v hv, hpte₂ v hv, hpte₁ v hv]

theorem onePage_fills : Fills onePage 512 PGSIZE := by
  intro v hv
  rw [onePage_at.2 v (by omega), lt_pgroundup_iff (by decide)]
  split_ifs with h0
  · simp [h0]
  · exact iff_of_false (fun hne => hne rfl) (by simp only [PGSIZE]; omega)

theorem onePage_length : onePage.freelist.length = 56829 := by
  change (framesFrom 3).length = 56829
  rw [framesFrom, List.length_range']

theorem allocuvm_exact_onePage :
    ∃ m', (allocuvm 512 PGSIZE (3 * PGSIZE)).run (perform smallImage) onePage = .ok (3 * PGSIZE, m') ∧
      ∀ v ∈ pagesFrom (pgroundup PGSIZE) (3 * PGSIZE), ∃ f ∈ onePage.freelist,
        m'.pte 512 v = some (pteOf f (PTE_W ||| PTE_U ||| PTE_P)) ∧
        f ∉ m'.freelist ∧ m'.page f = fun _ => 0 := by
  obtain ⟨⟨ρ, ha, -⟩, hpte⟩ := onePage_at
  have hpages : ∀ v ∈ pagesFrom (pgroundup PGSIZE) (3 * PGSIZE), v ∈ Finset.range 3 ∧ v ≠ 0 := by
    intro v hv
    have := (mem_pagesFrom_pgroundup (by decide)).mp hv
    simp only [PGSIZE] at this
    exact ⟨Finset.mem_range.mpr (by omega), by omega⟩
  obtain ⟨r, m', hrun, -, -, ⟨rfl, hall, -⟩ | ⟨-, hlt, -⟩⟩ := allocuvm_exact ha
    (show PGSIZE ≤ 3 * PGSIZE by decide) (by decide) fun v hv => by
      have := hpages v hv
      rw [hpte v (by have := Finset.mem_range.mp this.1; omega), if_neg this.2]
  · exact ⟨m', hrun, hall⟩
  · have h1 := Set.ncard_le_ncard (t := Finset.range 3) fun v hv => (hpages v hv).1
    have h2 : {i | onePage.table 512 i = none ∧
        ∃ v ∈ pagesFrom (pgroundup PGSIZE) (3 * PGSIZE), v / NPTENTRIES = i}.ncard ≤ 1 := by
      refine (Set.ncard_le_ncard (t := ({0} : Finset ℕ)) ?_).trans (Set.ncard_coe_finset _).le
      rintro i ⟨-, v, hv, rfl⟩
      have := Finset.mem_range.mp (hpages v hv).1
      simp only [NPTENTRIES, Finset.coe_singleton, Set.mem_singleton_iff]
      omega
    rw [Set.ncard_coe_finset, Finset.card_range] at h1
    rw [framesFor, onePage_length] at hlt
    omega

theorem deallocuvm_skips_onePage :
    (deallocuvm 512 PGSIZE 0).run (perform smallImage) onePage =
        (deallocPages 512 PGSIZE 0).run (perform smallImage) onePage ∧
      ∃ m', (deallocuvm 512 PGSIZE 0).run (perform smallImage) onePage = .ok (0, m') ∧
        m'.pte 512 0 = none ∧ 514 ∈ m'.freelist ∧ m'.freelist.Nodup := by
  obtain ⟨⟨ρ, ha, -⟩, hpte⟩ := onePage_at
  obtain ⟨hsame, hrun⟩ := deallocuvm_skips (K := smallImage) (m := onePage) (d := 512) (ρ := ρ)
    (o := .proc 0) (h := none) (show PGSIZE ≤ KERNBASE by decide) (show 0 ≤ KERNBASE by decide)
  obtain ⟨m', hrun, hdone, -, -, -, hnodup, hfree⟩ := hrun ha
  have h0 : 0 ∈ pagesFrom (pgroundup 0) PGSIZE := ⟨by decide, by decide⟩
  refine ⟨hsame, m', hrun, hdone 0 h0, (hfree 514).mpr (.inr ⟨0, h0, ?_⟩), hnodup⟩
  rw [hpte 0 (by decide)]
  decide

theorem growproc_in_step_onePage :
    ∃ r m', (growproc 512 PGSIZE 5000).run (perform smallImage) onePage = .ok (r, m') ∧
      Grown onePage m' 512 PGSIZE 5000 r := by
  obtain ⟨⟨ρ, ha, -⟩, -⟩ := onePage_at
  obtain ⟨r, m', hrun, hgrown, -⟩ := growproc_in_step ha (by decide) onePage_fills 5000
  exact ⟨r, m', hrun, hgrown.mpr (.inl (by decide))⟩

theorem growproc_out_of_step :
    (∃ ρ, At smallImage onePage ρ (.proc 0) 512 none) ∧ Fills onePage 512 PGSIZE ∧
      (∃ m', (growproc 512 PGSIZE (-4096)).run (perform smallImage) onePage = .ok (none, m') ∧
        onePage.mapped 512 0 ≠ none ∧ m'.mapped 512 0 = none) ∧
      (growproc 512 PGSIZE (-8192)).run (perform smallImage) onePage = .ok (some PGSIZE, onePage) := by
  obtain ⟨⟨ρ, ha, -⟩, hpte⟩ := onePage_at
  refine ⟨⟨ρ, ha⟩, onePage_fills, ?_, ?_⟩
  · have hrun : W (perform smallImage) (fun _ => False) (growproc 512 PGSIZE (-4096))
        (fun r m' => r = none ∧ m'.mapped 512 0 = none) onePage := by
      rw [growproc, if_neg (by decide), if_pos (by decide), w_bind]
      refine w_deallocuvm ha (by decide) (by decide) fun m' ρ' _ _ hdone _ => ⟨rfl, ?_⟩
      rw [Kmem.mapped, hdone 0 ⟨by decide, by decide⟩]
      rfl
    obtain ⟨r, m', hr, rfl, hnone⟩ := Prog.wp_returns hrun
    refine ⟨m', hr, ?_, hnone⟩
    rw [Kmem.mapped, hpte 0 (by decide)]
    simp
  · rw [growproc, if_neg (by decide), if_pos (by decide), deallocuvm, if_pos (by decide)]
    rfl

end Xv6.Vm
