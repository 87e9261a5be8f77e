import Xv6.Vm.Grow

/-!
# Building, copying and freeing address spaces

`setupkvm` maps the same kernel part into every address space, `freevm` gives all frames of one
back, and `copyuvm` copies the user part of one into a new one.
-/

namespace Xv6.Vm

open Lib Function

variable {K : Image} {H : Prog.Handler Op Panic Kmem} [Acts H K] {E : Panic → Prop} {m m' : Kmem} {ρ ρ' : Roles} {o o' : Owner} {d f s t : Frame}
  {h : Option Frame} {a i len n v pa sz va : ℕ} {w perm : Word} {r : Role} {S : Set ℕ} {k : Kmap}

theorem pteOf_kernel (hperm : perm &&& PTE_U = 0) (f : Frame) :
    pteOf f (perm ||| PTE_P) &&& PTE_U = 0 := by
  rw [pteOf_and (by decide), BitVec.and_comm, BitVec.and_or_distrib_left, BitVec.and_comm, hperm]
  decide

variable {Q : Bool → Kmem → Prop}

theorem w_mapPage_kernel (ha : At K m ρ o d h)
    (hlo : 2 ^ 19 ≤ a / PGSIZE) (hva : a < 2 ^ 32) (hperm : perm &&& PTE_U = 0)
    (hnone : m.pte d (a / PGSIZE) = none) (hS : a / PGSIZE ∈ S)
    (hfail : m.freelist = [] → m.table d (a / PGSIZE / NPTENTRIES) = none → Q false m)
    (hok : ∀ m' ρ', At K m' ρ' o d h → Alters o d S m ρ m' ρ' →
      m'.pte d (a / PGSIZE) = some (pteOf pa (perm ||| PTE_P)) →
      (∀ u < 2 ^ 20, u ≠ a / PGSIZE → m'.pte d u = m.pte d u) → Q true m') :
    W H E (mapPage d perm a pa) Q m := by
  have hv : a / PGSIZE < 2 ^ 20 := by
    simp only [PGSIZE]
    omega
  rw [mapPage, w_bind]
  refine w_walkpgdir_true ha hva hS hfail fun m' ρ' t ha' halt hpte _ ht => ?_
  rw [w_bind, w_load]
  have hnone' : m'.pte d (a / PGSIZE) = none := by rw [hpte _ hv, hnone]
  have hp : ¬ m'.word t (a / PGSIZE % NPTENTRIES) &&& PTE_P ≠ 0 := by
    intro hp
    rw [Kmem.pte_eq_of_table ht, if_pos hp] at hnone'
    cases hnone'
  rw [if_neg hp, w_bind, w_store]
  obtain ⟨ha'', halt'⟩ := ha'.mapKernel hlo hv ht (pteOf_kernel hperm pa) hS
  refine hok _ ρ' ha'' (halt.trans halt') ?_ fun u hu hne => ?_
  · rw [ha'.pte_setWord hv ht hv, if_pos rfl, if_pos (pteOf_present pa perm)]
  · rw [ha'.pte_setWord hv ht hu, if_neg hne, hpte u hu]

theorem w_mapLoop_kernel (ha : At K m ρ o d h)
    (hal : a % PGSIZE = 0) (hlo : 2 ^ 19 ≤ a / PGSIZE) (hend : a / PGSIZE + n < 2 ^ 20)
    (hpa : pa + n < 2 ^ 20) (hperm : perm &&& PTE_U = 0)
    (hnone : ∀ k ≤ n, m.pte d (a / PGSIZE + k) = none) (hS : ∀ k ≤ n, a / PGSIZE + k ∈ S)
    (hfail : ∀ m' ρ', At K m' ρ' o d h → Alters o d S m ρ m' ρ' → m'.freelist = [] →
      (∃ v ∈ S, m'.table d (v / NPTENTRIES) = none) → Q false m')
    (hok : ∀ m' ρ', At K m' ρ' o d h → Alters o d S m ρ m' ρ' → (∀ u < 2 ^ 20, m'.pte d u =
        if a / PGSIZE ≤ u ∧ u ≤ a / PGSIZE + n then
          some (pteOf (pa + (u - a / PGSIZE)) (perm ||| PTE_P)) else m.pte d u) → Q true m') :
    W H E (mapLoop d perm n a pa) Q m := by
  have hva : a < 2 ^ 32 := by
    simp only [PGSIZE] at hend
    omega
  have h0 := hnone 0 (Nat.zero_le _)
  have hS0 := hS 0 (Nat.zero_le _)
  rw [Nat.add_zero] at h0 hS0
  induction n generalizing a pa m ρ with
  | zero =>
    refine w_mapPage_kernel ha hlo hva hperm h0 hS0 (hfail m ρ ha (.refl o d S m ρ) · ⟨_, hS0, ·⟩)
      fun m' ρ' ha' halt hmap hother => hok m' ρ' ha' halt fun u hu => ?_
    by_cases hua : u = a / PGSIZE
    · rw [hua, hmap, if_pos ⟨le_rfl, by omega⟩, Nat.sub_self, Nat.add_zero]
    · rw [hother u hu hua, if_neg (by omega)]
  | succ n ih =>
    rw [mapLoop, w_bind]
    refine w_mapPage_kernel ha hlo hva hperm h0 hS0 (hfail m ρ ha (.refl o d S m ρ) · ⟨_, hS0, ·⟩)
      fun m₁ ρ₁ ha₁ halt₁ hmap hother => ?_
    have hnext : (a + PGSIZE) % 2 ^ 32 = a + PGSIZE := by
      simp only [PGSIZE] at *
      omega
    have hdiv : (a + PGSIZE) / PGSIZE = a / PGSIZE + 1 := Nat.add_div_right a (by decide)
    have hpa' : (pa + 1) % 2 ^ 20 = pa + 1 := Nat.mod_eq_of_lt (by omega)
    simp only [if_true, hnext, hpa']
    have hnone₁ : ∀ k ≤ n, m₁.pte d ((a + PGSIZE) / PGSIZE + k) = none := by
      intro k hk
      rw [hdiv, hother _ (by omega) (by omega), Nat.add_assoc, Nat.add_comm 1 k]
      exact hnone (k + 1) (by omega)
    have hS₁ : ∀ k ≤ n, (a + PGSIZE) / PGSIZE + k ∈ S := by
      intro k hk
      rw [hdiv, Nat.add_assoc, Nat.add_comm 1 k]
      exact hS (k + 1) (by omega)
    refine ih ha₁ (by rw [Nat.add_mod_right, hal]) (by omega) (by omega) (by omega) hnone₁ hS₁
      (fun m' ρ' ha' halt' => hfail m' ρ' ha' (halt₁.trans halt')) (fun m' ρ' ha' halt' hall => ?_)
      (by simp only [PGSIZE] at *; omega) ?_ ?_
    · refine hok m' ρ' ha' (halt₁.trans halt') fun u hu => ?_
      rw [hall u hu, hdiv]
      by_cases hua : u = a / PGSIZE
      · rw [hua, if_neg (by omega), hmap, if_pos (by omega), Nat.sub_self, Nat.add_zero]
      · rw [hother u hu hua]
        by_cases hin : a / PGSIZE + 1 ≤ u ∧ u ≤ a / PGSIZE + 1 + n
        · have hidx : pa + 1 + (u - (a / PGSIZE + 1)) = pa + (u - a / PGSIZE) := by omega
          rw [if_pos hin, if_pos (by omega), hidx]
        · rw [if_neg hin, if_neg (by omega)]
    · simpa using hnone₁ 0 (Nat.zero_le _)
    · simpa using hS₁ 0 (Nat.zero_le _)

theorem mappages_range (hal : va % PGSIZE = 0) (hlen : len % PGSIZE = 0) (hpos : 0 < len)
    (hend : va + len ≤ 2 ^ 32) :
    mappages d va len pa perm = mapLoop d perm (len / PGSIZE - 1) va pa := by
  have hdown : pgrounddown va = va := Nat.div_mul_cancel (Nat.dvd_of_mod_eq_zero hal)
  have hlast : (va + len + 2 ^ 32 - 1) % 2 ^ 32 = va + len - 1 := by omega
  have hcount : (pgrounddown (va + len - 1) + 2 ^ 32 - va) % 2 ^ 32 / PGSIZE = len / PGSIZE - 1 := by
    simp only [pgrounddown, PGSIZE] at *
    omega
  simp only [mappages, hdown, hlast, hcount]

def Kmap.size (k : Kmap) : ℕ := (k.physEnd + 2 ^ 32 - k.physStart) % 2 ^ 32

def Kmap.entry (k : Kmap) (v : ℕ) : Option Word :=
  if k.virt / PGSIZE ≤ v ∧ v < (k.virt + k.size) / PGSIZE then
    some (pteOf (k.physStart / PGSIZE + (v - k.virt / PGSIZE)) (k.perm ||| PTE_P))
  else none

def kernelPte (K : Image) (v : ℕ) : Option Word := (kmap K).findSome? fun k => k.entry v

structure Kmap.Ok (k : Kmap) : Prop where
  virt : k.virt % PGSIZE = 0
  size : k.size % PGSIZE = 0
  pos : 0 < k.size
  kernel : KERNBASE ≤ k.virt
  virtEnd : k.virt + k.size ≤ 2 ^ 32
  physEnd : k.physStart + k.size ≤ 2 ^ 32
  perm : k.perm &&& PTE_U = 0

theorem Kmap.Ok.lt_of_entry (hk : k.Ok) (hv : k.entry v ≠ none) : v < 2 ^ 20 := by
  have hin : k.virt / PGSIZE ≤ v ∧ v < (k.virt + k.size) / PGSIZE := by
    by_contra hout
    exact hv (if_neg hout)
  have := hk.virtEnd
  simp only [PGSIZE] at *
  omega

theorem kmap_ok (K : Image) : ∀ k ∈ kmap K, k.Ok := by
  have h1 := K.data_aligned
  have h2 := K.text_before
  have h3 := K.data_before
  have h4 := K.booted
  simp only [KERNLINK, KERNBASE, EXTMEM, PGSIZE] at h1 h2 h4
  intro k hk
  simp only [kmap, List.mem_cons, List.not_mem_nil, or_false] at hk
  rcases hk with rfl | rfl | rfl | rfl
  all_goals
    constructor <;>
      simp only [Kmap.size, KERNLINK, KERNBASE, EXTMEM, PHYSTOP, DEVSPACE, PGSIZE] <;>
        first | omega | decide

theorem kernelPte_lt (hv : kernelPte K v ≠ none) : v < 2 ^ 20 := by
  obtain ⟨w, hw⟩ := Option.ne_none_iff_exists'.mp hv
  obtain ⟨k, hk, hw⟩ := List.exists_of_findSome?_eq_some hw
  exact (kmap_ok K k hk).lt_of_entry (by rw [hw]; simp)

theorem kmap_sorted (K : Image) : (kmap K).Pairwise fun k k' => k.virt + k.size ≤ k'.virt := by
  have h2 := K.text_before
  have h3 := K.data_before
  have h4 := K.booted
  simp only [KERNLINK, KERNBASE, EXTMEM] at h2 h4
  simp only [kmap, List.pairwise_cons, List.mem_cons, List.not_mem_nil, or_false, forall_eq_or_imp,
    forall_eq, Kmap.size, KERNLINK, KERNBASE, EXTMEM, PHYSTOP, DEVSPACE, IsEmpty.forall_iff,
    implies_true, List.Pairwise.nil, and_true]
  omega

theorem w_mappages_kernel (ha : At K m ρ o d h) (hk : k.Ok)
    (hnone : ∀ v, k.entry v ≠ none → m.pte d v = none) (hS : ∀ v, k.entry v ≠ none → v ∈ S)
    (hfail : ∀ m' ρ', At K m' ρ' o d h → Alters o d S m ρ m' ρ' → m'.freelist = [] →
      (∃ v ∈ S, m'.table d (v / NPTENTRIES) = none) → Q false m')
    (hok : ∀ m' ρ', At K m' ρ' o d h → Alters o d S m ρ m' ρ' →
      (∀ u < 2 ^ 20, m'.pte d u = (k.entry u).or (m.pte d u)) → Q true m') :
    W H E (mappages d k.virt k.size (k.physStart / PGSIZE) k.perm) Q m := by
  obtain ⟨h1, h2, h3, h4, h5, h6, h7⟩ := hk
  have hentry : ∀ u, k.entry u =
      if k.virt / PGSIZE ≤ u ∧ u ≤ k.virt / PGSIZE + (k.size / PGSIZE - 1) then
        some (pteOf (k.physStart / PGSIZE + (u - k.virt / PGSIZE)) (k.perm ||| PTE_P))
      else none := by
    intro u
    rw [Kmap.entry]
    congr 1
    simp only [PGSIZE, eq_iff_iff] at *
    omega
  simp only [PGSIZE, KERNBASE] at h1 h2 h4
  rw [mappages_range (by simp only [PGSIZE]; omega) (by simp only [PGSIZE]; omega) h3 h5]
  refine w_mapLoop_kernel ha (by simp only [PGSIZE]; omega) (by simp only [PGSIZE]; omega)
    (by simp only [PGSIZE]; omega) (by simp only [PGSIZE]; omega) h7 (fun j hj => hnone _ ?_)
    (fun j hj => hS _ ?_) hfail fun m' ρ' ha' halt hall => hok m' ρ' ha' halt fun u hu => ?_
  · rw [hentry, if_pos ⟨by omega, by omega⟩]
    simp
  · rw [hentry, if_pos ⟨by omega, by omega⟩]
    simp
  · rw [hall u hu, hentry]
    split_ifs <;> rfl

theorem w_kmapLoop {ks : List Kmap} (ha : At K m ρ o d h)
    (hks : ∀ k ∈ ks, k.Ok) (hsorted : ks.Pairwise fun k k' => k.virt + k.size ≤ k'.virt)
    (hnone : ∀ k ∈ ks, ∀ v, k.entry v ≠ none → m.pte d v = none)
    (hS : ∀ k ∈ ks, ∀ v, k.entry v ≠ none → v ∈ S)
    (hfail : ∀ m' ρ', At K m' ρ' o d h → Alters o d S m ρ m' ρ' → m'.freelist = [] →
      (∃ v ∈ S, m'.table d (v / NPTENTRIES) = none) → Q false m')
    (hok : ∀ m' ρ', At K m' ρ' o d h → Alters o d S m ρ m' ρ' →
      (∀ u < 2 ^ 20, m'.pte d u = (ks.findSome? fun k => k.entry u).or (m.pte d u)) → Q true m') :
    W H E (kmapLoop d ks) Q m := by
  induction ks generalizing m ρ with
  | nil => exact hok m ρ ha (.refl o d _ m ρ) fun u _ => by simp
  | cons k ks ih =>
    obtain ⟨hk, hks⟩ := List.forall_mem_cons.mp hks
    obtain ⟨hfirst, hrest⟩ := List.pairwise_cons.mp hsorted
    rw [kmapLoop, w_bind]
    refine w_mappages_kernel ha hk (hnone k List.mem_cons_self) (hS k List.mem_cons_self) hfail
      fun m₁ ρ₁ ha₁ halt₁ hmap => ?_
    simp only [if_true]
    refine ih ha₁ hks hrest (fun k' hk' v hv => ?_) (fun k' hk' => hS k' (List.mem_cons_of_mem _ hk'))
      (fun m' ρ' ha' halt' => hfail m' ρ' ha' (halt₁.trans halt')) fun m' ρ' ha' halt' hall => ?_
    · -- A later entry starts where this one has ended.
      have hsep := hfirst k' hk'
      have hend := (hks k' hk').virtEnd
      have hin : k'.virt / PGSIZE ≤ v ∧ v < (k'.virt + k'.size) / PGSIZE := by
        by_contra hout
        exact hv (if_neg hout)
      have hlt : v < 2 ^ 20 := by
        simp only [PGSIZE] at *
        omega
      have hout : k.entry v = none := by
        refine if_neg fun hk'' => ?_
        have h1 := hk.virt
        have h2 := hk.size
        simp only [PGSIZE] at *
        omega
      rw [hmap v hlt, hout, Option.none_or]
      exact hnone k' (List.mem_cons_of_mem _ hk') v hv
    · refine hok m' ρ' ha' (halt₁.trans halt') fun u hu => ?_
      rw [hall u hu, hmap u hu, List.findSome?_cons]
      cases hku : k.entry u with
      | none => rfl
      | some x =>
        cases hrest' : ks.findSome? fun k => k.entry u with
        | none => rfl
        | some y =>
          -- Two entries for one page do not occur.
          obtain ⟨k', hk', hy⟩ := List.exists_of_findSome?_eq_some hrest'
          have hsep := hfirst k' hk'
          have h1 : k'.virt / PGSIZE ≤ u ∧ u < (k'.virt + k'.size) / PGSIZE := by
            by_contra hout
            rw [Kmap.entry, if_neg hout] at hy
            cases hy
          have h2 : k.virt / PGSIZE ≤ u ∧ u < (k.virt + k.size) / PGSIZE := by
            by_contra hout
            rw [Kmap.entry, if_neg hout] at hku
            cases hku
          simp only [PGSIZE] at *
          omega

def viewTables (m : Kmem) (d : Frame) (is : List ℕ) : Place → Option Frame
  | .dir => some d
  | .table i => if i.val ∈ is then m.table d i else none
  | .user _ => none
  | .hand => none

theorem w_freeTables {Q : Unit → Kmem → Prop} {is : List ℕ} (hb : Books K m ρ)
    (hshow : Shows ρ (Role.space o) (viewTables m d is)) (hlt : ∀ i ∈ is, i < 1024)
    (hnodup : is.Nodup)
    (hQ : ∀ m' ρ', Books K m' ρ' → Shows ρ' (Role.space o) (viewTables m' d []) →
      Keeps o m ρ m' ρ' → Q () m') : W H E (freeTables d is) Q m := by
  induction is generalizing m ρ with
  | nil => exact hQ m ρ hb hshow (.refl o m ρ)
  | cons i is ih =>
    obtain ⟨hi, hlt'⟩ := List.forall_mem_cons.mp hlt
    obtain ⟨hnot, hnodup'⟩ := List.nodup_cons.mp hnodup
    have hdir : ρ d = some (.space o .dir) := (hshow .dir d).mpr rfl
    rw [freeTables, w_bind, w_load]
    by_cases hp : m.word d i &&& PTE_P ≠ 0
    · have htab : m.table d i = some (pteAddr (m.word d i)) := if_pos hp
      have hview : viewTables m d (i :: is) (.table ⟨i, hi⟩) = some (pteAddr (m.word d i)) := by
        rw [viewTables, if_pos List.mem_cons_self, htab]
      have hrole := (hshow _ _).mpr hview
      rw [if_pos hp, w_bind, w_kfree (hb.managed_of_role hrole)]
      set t := pteAddr (m.word d i)
      have hne : d ≠ t := ne_of_role hrole hdir (by simp)
      have hsame : ∀ j, (m.freed t).table d j = m.table d j :=
        Kmem.table_congr (Kmem.freed_page_of_ne hne)
      have hk : Keeps o m ρ (m.freed t) (update ρ t (some .free)) := by
        refine Keeps.update ⟨_, hrole, .inr rfl⟩ (.inl rfl) fun g r hg _ ho => ?_
        refine Kmem.freed_page_of_ne (ne_of_role hrole hg ?_)
        rintro rfl
        exact ho rfl
      have hnext : viewTables (m.freed t) d is =
          update (viewTables m d (i :: is)) (.table ⟨i, hi⟩) none := by
        funext p
        cases p with
        | dir => rfl
        | user v => rfl
        | hand => rfl
        | table j =>
          by_cases hj : j = ⟨i, hi⟩
          · subst hj
            rw [update_self, viewTables, if_neg hnot]
          · have hji : j.val ≠ i := fun heq => hj (Fin.ext heq)
            rw [update_of_ne (by simpa using hj)]
            simp only [viewTables, hsame, List.mem_cons, hji, false_or]
      refine ih (hb.give hrole (by simp)) ?_ hlt' hnodup' fun m' ρ' hb' hshow' hk' =>
        hQ m' ρ' hb' hshow' (hk.trans hk')
      rw [hnext]
      exact hshow.leave (space_injective o) hview (by simp)
    · rw [if_neg hp]
      have htab : m.table d i = none := if_neg hp
      have hview : viewTables m d (i :: is) = viewTables m d is := by
        funext p
        cases p with
        | dir => rfl
        | user v => rfl
        | hand => rfl
        | table j =>
          by_cases hj : j.val = i
          · simp only [viewTables, hj, htab, ite_self]
          · simp only [viewTables, List.mem_cons, hj, false_or]
      exact ih hb (hview ▸ hshow) hlt' hnodup' hQ

theorem w_freevm {Q : Unit → Kmem → Prop} (ha : At K m ρ o d none)
    (hQ : ∀ m' ρ', Books K m' ρ' → NoSpace ρ' o → Keeps o m ρ m' ρ' → Q () m') :
    W H E (freevm d) Q m := by
  rw [freevm, w_bind]
  refine w_deallocuvm ha (Nat.le_refl KERNBASE) (by decide) fun m₁ ρ₁ ha₁ halt₁ hdone _ => ?_
  have hnone : ∀ v < 2 ^ 19, m₁.pte d v = none := fun v hv =>
    hdone v ((mem_pagesFrom_pgroundup (by decide)).mpr ⟨Nat.zero_le _, by
      simp only [PGSIZE, KERNBASE]
      omega⟩)
  have hview : view m₁ d none = viewTables m₁ d (List.range NPDENTRIES) := by
    funext p
    cases p with
    | dir => rfl
    | hand => rfl
    | table i => rw [viewTables, if_pos (List.mem_range.mpr i.isLt)]; rfl
    | user v => simp only [view, viewTables, hnone v v.isLt, Option.map_none]
  have hshow := ha₁.shows
  have hlt : ∀ i ∈ List.range NPDENTRIES, i < 1024 := fun i hi => List.mem_range.mp hi
  have hnodup : (List.range NPDENTRIES).Nodup := List.nodup_range
  rw [hview] at hshow
  rw [w_bind]
  clear hview
  generalize List.range NPDENTRIES = is at hshow hlt hnodup ⊢
  refine w_freeTables ha₁.books hshow hlt hnodup fun m₂ ρ₂ hb₂ hshow₂ hk₂ => ?_
  have hdir : ρ₂ d = some (.space o .dir) := (hshow₂ .dir d).mpr rfl
  rw [w_kfree (hb₂.managed_of_role hdir)]
  refine hQ _ (update ρ₂ d (some .free)) (hb₂.give hdir (by simp)) (fun f p hf => ?_)
    ((halt₁.toKeeps.trans hk₂).trans ?_)
  · have hleft := hshow₂.leave (p := .dir) (r := .free) (space_injective o) rfl (by simp)
    have hp := (hleft p f).mp hf
    cases p <;> simp [viewTables] at hp
  · refine Keeps.update ⟨_, hdir, .inr rfl⟩ (.inl rfl) fun g r hg _ ho => ?_
    refine Kmem.freed_page_of_ne (ne_of_role hdir hg ?_)
    rintro rfl
    exact ho rfl

theorem NoSpace.not_of (ho : NoSpace ρ o) (hf : ρ f = some r) : ¬ r.Of o := by
  intro hr
  obtain ⟨p, rfl⟩ := hr.place
  exact ho f p hf

theorem ncard_Iio (n : ℕ) : (Set.Iio n).ncard = n := by
  rw [← Finset.coe_range, Set.ncard_coe_finset, Finset.card_range]

def spaceTables (K : Image) (S : Set ℕ) : Set ℕ :=
  {i | ∃ v < 2 ^ 20, (v ∈ S ∨ kernelPte K v ≠ none) ∧ v / NPTENTRIES = i}

/-- The frames of an address space with the user pages in `S`, with its directory. -/
noncomputable def spaceFrames (K : Image) (S : Set ℕ) : ℕ := 1 + S.ncard + (spaceTables K S).ncard

theorem spaceTables_subset (K : Image) (S : Set ℕ) : spaceTables K S ⊆ Set.Iio 1024 := by
  rintro i ⟨v, hv, -, rfl⟩
  simp only [NPTENTRIES, Set.mem_Iio]
  omega

theorem finite_spaceTables (K : Image) (S : Set ℕ) : (spaceTables K S).Finite :=
  (Set.finite_Iio 1024).subset (spaceTables_subset K S)

theorem spaceFrames_le (K : Image) (S : Set ℕ) : spaceFrames K S ≤ S.ncard + 1025 := by
  have h := Set.ncard_le_ncard (spaceTables_subset K S) (Set.finite_Iio 1024)
  rw [ncard_Iio] at h
  rw [spaceFrames]
  omega

theorem spaceFrames_mono (K : Image) {T : Set ℕ} (hT : T.Finite) (hST : S ⊆ T) :
    spaceFrames K S ≤ spaceFrames K T := by
  refine Nat.add_le_add (Nat.add_le_add_left (Set.ncard_le_ncard hST hT) 1)
    (Set.ncard_le_ncard ?_ (finite_spaceTables K T))
  rintro i ⟨v, hv, h, hi⟩
  exact ⟨v, hv, h.imp_left fun h => hST h, hi⟩

section

variable (hk : Keeps o m ρ m' ρ') (hb : Books K m ρ)
include hk hb

theorem Keeps.was_free {p : Place} (hb' : Books K m' ρ')
    (ho : NoSpace ρ o) (hf : ρ' f = some (.space o p)) : f ∈ m.freelist := by
  rw [hb.mem_iff]
  cases hf' : ρ f with
  | none => exact absurd hf' ((hb.managed_iff f).mp (hb'.managed_of_role hf))
  | some r =>
    by_contra hfree
    rw [(hk.role f r (fun heq => hfree (congrArg some heq)) (ho.not_of hf')).mpr hf'] at hf
    exact ho.not_of hf' (Option.some.inj hf ▸ rfl)

theorem Keeps.freelist_perm (hb' : Books K m' ρ')
    (ho : NoSpace ρ o) (ho' : NoSpace ρ' o) : m'.freelist.Perm m.freelist := by
  refine (List.perm_ext_iff_of_nodup hb'.nodup hb.nodup).mpr fun f => ?_
  rw [hb'.mem_iff, hb.mem_iff]
  constructor
  · intro hf'
    cases hf : ρ f with
    | none => exact absurd hf ((hb.managed_iff f).mp (hb'.managed_of_role hf'))
    | some r =>
      by_contra hne
      have hr : r ≠ .free := fun heq => hne (congrArg some heq)
      rw [(hk.role f r hr (ho.not_of hf)).mpr hf] at hf'
      exact hr (Option.some.inj hf')
  · intro hf
    cases hf' : ρ' f with
    | none => exact absurd hf' ((hb'.managed_iff f).mp (hb.managed_of_role hf))
    | some r =>
      by_contra hne
      have hr : r ≠ .free := fun heq => hne (congrArg some heq)
      rw [(hk.role f r hr (ho'.not_of hf')).mp hf'] at hf
      exact hr (Option.some.inj hf)

theorem Keeps.length_le_pages {n : ℕ}
    (ha : At K m' ρ' o d h) (hpte : ∀ v < 2 ^ 19, n ≤ v → m'.pte d v = none) :
    m.freelist.length ≤ m'.freelist.length + (n + 1026) := by
  refine (hk.length_le hb ha (insert .dir (insert .hand (placesIn (Set.Iio n) (Set.Iio 1024))))
    fun p f _ hp => ?_).trans (Nat.add_le_add_left ?_ _)
  · cases p with
    | dir => exact .inl rfl
    | hand => exact .inr (.inl rfl)
    | table i => exact .inr (.inr i.isLt)
    | user v =>
      refine .inr (.inr (show v.val < n from by_contra fun hge => ?_))
      simp only [view, hpte v v.isLt (Nat.le_of_not_lt hge), Option.map_none] at hp
      cases hp
  · have h1 := Set.ncard_insert_le Place.dir (insert .hand (placesIn (Set.Iio n) (Set.Iio 1024)))
    have h2 := Set.ncard_insert_le Place.hand (placesIn (Set.Iio n) (Set.Iio 1024))
    have h3 := ncard_placesIn_le (Set.finite_Iio n) (Set.finite_Iio 1024)
    rw [ncard_Iio, ncard_Iio] at h3
    omega

theorem Keeps.length_lt_spaceFrames {p q : Place} (ha : At K m' ρ' o d h)
    (hempty : m'.freelist = []) (hS : S.Finite) (hpte : ∀ v < 2 ^ 19, v ∉ S → m'.pte d v = none)
    (htab : ∀ i < 1024, (∀ v, v ∈ S ∨ kernelPte K v ≠ none → v / NPTENTRIES ≠ i) →
      m'.table d i = none)
    (hp : p ∈ placesIn S (spaceTables K S))
    (hnone : view m' d h p = none)
    (hh : h = none ∨ q ∈ placesIn S (spaceTables K S) ∧ q ≠ p ∧ view m' d h q = none) :
    m.freelist.length < spaceFrames K S := by
  have h1 := ncard_placesIn_le hS (finite_spaceTables K S)
  have h2 := Set.ncard_insert_le Place.dir (placesIn S (spaceTables K S))
  have hlt := hk.length_lt hb ha hempty (fun q f _ hq => ?_) (Set.mem_insert_of_mem .dir hp) hnone
    (hh.imp id fun hp' => ⟨Set.mem_insert_of_mem .dir hp'.1, hp'.2⟩)
  · rw [spaceFrames]
    omega
  · cases q with
    | hand => exact .inl rfl
    | dir => exact .inr (.inl rfl)
    | user v =>
      refine .inr (.inr (show v.val ∈ S from by_contra fun hv => ?_))
      simp only [view, hpte v v.isLt hv, Option.map_none] at hq
      cases hq
    | table i =>
      refine .inr (.inr (by_contra fun hno => ?_))
      have hq' := (htab i i.isLt fun v hv hi => hno ⟨v, ?_, hv, hi⟩).symm.trans hq
      · cases hq'
      · have := i.isLt
        simp only [NPTENTRIES] at hi
        omega

end

theorem kernelPte_user (K : Image) (hv : v < 2 ^ 19) : kernelPte K v = none := by
  refine List.findSome?_eq_none_iff.mpr fun k hk => if_neg ?_
  have := (kmap_ok K k hk).kernel
  simp only [PGSIZE, KERNBASE] at *
  omega

theorem w_setupkvm {Q : Option Frame → Kmem → Prop} (hb : Books K m ρ) (ho : NoSpace ρ o)
    (hnone : ∀ m' ρ', Books K m' ρ' → NoSpace ρ' o → Keeps o m ρ m' ρ' →
      m.freelist.length < spaceFrames K ∅ → Q none m')
    (hsome : ∀ d m' ρ', At K m' ρ' o d none → Keeps o m ρ m' ρ' →
      (∀ v < 2 ^ 20, m'.pte d v = kernelPte K v) →
      (∀ i < 1024, (∀ v, kernelPte K v ≠ none → v / NPTENTRIES ≠ i) → m'.table d i = none) →
      Q (some d) m') : W H E (setupkvm K) Q m := by
  rw [setupkvm, w_bind]
  refine w_kalloc (fun hempty => hnone m ρ hb ho (.refl o m ρ)
    (by rw [hempty, spaceFrames, List.length_nil]; omega))
    fun d fs hfree => ?_
  obtain ⟨ρ₁, ha₁, hk₁, htable⟩ := hb.newDir hfree ho
  have hpte := fun v (hv : v < 2 ^ 20) => Kmem.pte_eq_none_of_table (v := v)
    (htable _ (by simp only [NPTENTRIES]; omega))
  rw [w_bind, w_memset, if_neg (by decide), w_bind]
  refine w_kmapLoop (S := {v | kernelPte K v ≠ none}) ha₁ (kmap_ok K) (kmap_sorted K)
    (fun k hk v hv => hpte v ((kmap_ok K k hk).lt_of_entry hv)) (fun k hk v hv => ?_) (fun m' ρ' ha' halt hempty hshort => ?_)
    fun m' ρ' ha' halt hall => ?_
  · exact fun hnone => hv (List.findSome?_eq_none_iff.mp hnone k hk)
  · simp only [Bool.false_eq_true, if_false]
    rw [w_bind]
    refine w_freevm ha' fun m'' ρ'' hb'' ho'' hk'' =>
      hnone m'' ρ'' hb'' ho'' ((hk₁.trans halt.toKeeps).trans hk'') ?_
    obtain ⟨v, hv, ht⟩ := hshort
    have hv20 := kernelPte_lt hv
    refine (hk₁.trans halt.toKeeps).length_lt_spaceFrames hb (p := .table ⟨v / NPTENTRIES, ?_⟩) (q := .dir)
      ha' hempty Set.finite_empty (fun v hv _ => ?_) (fun i hi hno => ?_) ⟨v, hv20, .inr hv, rfl⟩ ht (.inl rfl)
    · simp only [NPTENTRIES]
      omega
    · have hout : v ∉ {v | kernelPte K v ≠ none} := fun hin => hin (kernelPte_user K hv)
      rw [halt.pte v (by omega) hout, hpte v (by omega)]
    · exact halt.noTable hi (htable i hi) fun v hv => hno v (.inr hv)
  · simp only [if_true]
    refine hsome d m' ρ' ha' (hk₁.trans halt.toKeeps) (fun v hv => ?_) fun i hi hno =>
      halt.noTable hi (htable i hi) hno
    rw [hall v hv, hpte v hv, Option.or_none]
    rfl

theorem pteFlags_lt (w : Word) : (pteFlags w).toNat < 2 ^ 12 := by
  rw [pteFlags, BitVec.toNat_and]
  exact lt_of_le_of_lt Nat.and_le_right (by decide)

theorem pteFlags_pteOf (f : Frame) (hp : w &&& PTE_P ≠ 0) :
    pteFlags (pteOf f (pteFlags w ||| PTE_P)) = pteFlags w := by
  have hbit : w.getLsbD 0 = true := by
    by_contra hbit
    apply hp
    apply BitVec.eq_of_getLsbD_eq
    intro i _
    rw [BitVec.getLsbD_and]
    by_cases hi : i = 0
    · subst hi
      simp only [Bool.not_eq_true] at hbit
      rw [hbit, Bool.false_and]
      rfl
    · have hP : PTE_P.getLsbD i = false := by
        simp [hi]
      rw [hP, Bool.and_false]
      simp
  have hflags : pteFlags w ||| PTE_P = pteFlags w := by
    apply BitVec.eq_of_getLsbD_eq
    intro i _
    by_cases hi : i = 0
    · subst hi
      simp [pteFlags, hbit]
    · have hP : PTE_P.getLsbD i = false := by
        simp [hi]
      rw [BitVec.getLsbD_or, hP, Bool.or_false]
  rw [hflags, pteFlags, pteOf_and (by decide), pteFlags, BitVec.and_assoc, BitVec.and_self]

theorem Space.pte_keeps (hs : Space m ρ o s h) (hk : Keeps o' m ρ m' ρ') (hne : o ≠ o')
    (hv : v < 2 ^ 20) : m'.pte s v = m.pte s v := by
  refine hs.pte_frame (fun g hg => ?_) hv
  rcases hg with hg | ⟨j, hg⟩
  · exact hk.page g _ hg (by simp) hne
  · exact hk.page g _ hg (by simp) hne

theorem w_copyLoop (ha : At K m ρ o' d none) (hs : Space m ρ o s none)
    (hne : o ≠ o') (hsz : sz ≤ KERNBASE) (hi : i % PGSIZE = 0)
    (hsrc : ∀ v, v * PGSIZE < sz → m.pte s v ≠ none)
    (hnone : ∀ v ∈ pagesFrom i sz, m.pte d v = none)
    (hok : ∀ m' ρ', At K m' ρ' o' d none → Alters o' d (pagesFrom i sz) m ρ m' ρ' →
      (∀ v ∈ pagesFrom i sz, ∀ w, m.pte s v = some w → ∃ f, K.Managed f ∧
        m'.pte d v = some (pteOf f (pteFlags w ||| PTE_P)) ∧ m'.page f = m.page (pteAddr w)) →
      Q true m') (hfail : ∀ m' ρ', At K m' ρ' o' d none → Keeps o' m ρ m' ρ' →
      Exhausted K o' d (pagesFrom i sz) m ρ → Q false m') :
    W H E (copyLoop s d sz i) Q m := by
  induction hk : sz - i using Nat.strong_induction_on generalizing i m ρ with
  | _ k ih =>
    rw [copyLoop]
    by_cases hlt : i < sz
    · have hself := self_mem_pagesFrom hi hlt
      have hv := pagesFrom_lt hsz hself
      obtain ⟨w, hw⟩ := Option.ne_none_iff_exists'.mp (hsrc _ hself.2)
      obtain ⟨t, ht, hword, hp⟩ := Kmem.pte_eq_some.mp hw
      have hwrole := hs.role_user hv hw
      rw [if_pos hlt, w_bind, w_walkpgdir_false, ptx_eq, pdx_eq (by simp only [KERNBASE] at hsz; omega),
        ht]
      simp only [Option.map_some]
      rw [w_bind, w_load, hword, if_neg hp, w_bind]
      refine w_kalloc (fun hempty => hfail m ρ ha (.refl o' m ρ) ⟨m, ρ, none, ha, .refl o' d _ m ρ,
        hempty, _, hself, hnone _ hself, .inl rfl⟩) fun f fs hfree => ?_
      have hsrcpage : (Kmem.page { m with freelist := fs } (pteAddr w)) = m.page (pteAddr w) := rfl
      rw [w_bind, w_memmove, hsrcpage, w_bind, mappages_one hi (by omega)]
      obtain ⟨ρ₁, ha₁, halt₁⟩ := ha.take hfree (m.page (pteAddr w)) (pagesFrom i sz)
      set m₁ := Kmem.setPage { m with freelist := fs } f (m.page (pteAddr w)) with hm₁
      have hpte₁ : ∀ u < 2 ^ 20, m₁.pte d u = m.pte d u := by
        obtain ⟨_, _, halt⟩ := ha.take hfree (m.page (pteAddr w)) ∅
        exact fun u hu => halt.pte u hu (Set.notMem_empty u)
      have hman := ha₁.books.managed_of_role ha₁.role_hand
      refine w_mapPage_user ha₁ (by omega) (pteFlags_lt w)
        ((hpte₁ _ (by omega)).trans (hnone _ hself)) hself (fun hempty htable => ?_)
        fun m₂ ρ₂ ha₂ halt₂ hmapped hpage hother => ?_
      · simp only [Bool.false_eq_true, if_false]
        rw [w_bind, w_kfree hman]
        obtain ⟨ρ₂, ha₂, halt₂⟩ := ha₁.drop ∅
        exact hfail _ ρ₂ ha₂ (halt₁.toKeeps.trans halt₂.toKeeps) ⟨m₁, ρ₁, some f, ha₁, halt₁, hempty, _,
          hself, (hpte₁ _ (by omega)).trans (hnone _ hself), .inr htable⟩
      · simp only [if_true]
        have hk₂ : Keeps o' m ρ m₂ ρ₂ := halt₁.toKeeps.trans halt₂.toKeeps
        have hs₂ : Space m₂ ρ₂ o s none := hs.of_keeps hk₂ hne
        -- The source is not written to.
        have hspte : ∀ u < 2 ^ 20, m₂.pte s u = m.pte s u := fun u hu => hs.pte_keeps hk₂ hne hu
        have hnot : i / PGSIZE ∉ pagesFrom (i + PGSIZE) sz :=
          fun hin => (mem_pagesFrom_next.mp hin).2 rfl
        have hsub : pagesFrom (i + PGSIZE) sz ⊆ pagesFrom i sz := pagesFrom_mono (by omega)
        have hlt20 : ∀ v, v * PGSIZE < sz → v < 2 ^ 20 := by
          intro v hvs
          simp only [PGSIZE, KERNBASE] at *
          omega
        refine ih (sz - (i + PGSIZE)) (by simp only [PGSIZE]; omega) ha₂ hs₂
          (by rw [Nat.add_mod_right, hi]) (fun v hvs => ?_) (fun v hvS => ?_)
          (fun m' ρ' ha' halt' hall => ?_) (fun m' ρ' ha' hk' hex => ?_) rfl
        · rw [hspte v (hlt20 v hvs)]
          exact hsrc v hvs
        · have hne' : v ≠ i / PGSIZE := fun heq => hnot (heq ▸ hvS)
          rw [hother v (hlt20 v hvS.2) hne', hpte₁ v (hlt20 v hvS.2)]
          exact hnone v (hsub hvS)
        · refine hok m' ρ' ha' ((halt₁.trans halt₂).trans (halt'.mono hsub)) fun v hvS x hx => ?_
          by_cases hvi : v = i / PGSIZE
          · subst hvi
            rw [hw] at hx
            cases hx
            have haddr : pteAddr (pteOf f (pteFlags w ||| PTE_P)) = f :=
              pteAddr_pteOf hman.lt (or_pteP_lt (pteFlags_lt w))
            refine ⟨f, hman, (halt'.pte _ (by omega) hnot).trans hmapped, ?_⟩
            have hkeep := halt'.contents _ hv hnot _ hmapped
            rw [haddr] at hkeep
            rw [hkeep, hpage, hm₁, Kmem.setPage_page_self]
          · have hx₂ : m₂.pte s v = some x := (hspte v (hlt20 v hvS.2)).trans hx
            obtain ⟨f', hman', hf', hpage'⟩ := hall v (mem_pagesFrom_next.mpr ⟨hvS, hvi⟩) x hx₂
            refine ⟨f', hman', hf', hpage'.trans ?_⟩
            exact hk₂.page _ _ (hs.role_user (pagesFrom_lt hsz hvS) hx) (by simp) hne
        · obtain ⟨m₃, ρ₃, h₃, ha₃, halt₃, hempty, v, hv, hshort⟩ := hex
          exact hfail m' ρ' ha' (hk₂.trans hk') ⟨m₃, ρ₃, h₃, ha₃,
            (halt₁.trans halt₂).trans (halt₃.mono hsub), hempty, v, hsub hv, hshort⟩
    · rw [if_neg hlt]
      exact hok m ρ ha (.refl o' d _ m ρ) fun v hvS => absurd hvS (notMem_pagesFrom hi hlt)

theorem Space.mapped_keeps (hs : Space m ρ o s h) (hk : Keeps o' m ρ m' ρ') (hne : o ≠ o')
    (hv : v < 2 ^ 19) : m'.mapped s v = m.mapped s v := by
  rw [Kmem.mapped, Kmem.mapped, hs.pte_keeps hk hne (by omega)]
  cases hw : m.pte s v with
  | none => rfl
  | some w =>
    simp only [Option.map_some, hk.page _ _ (hs.role_user hv hw) (by simp) hne]

theorem Space.mapped_setPage (hs : Space m ρ o s none) (hd : Space m ρ o' d none) (hne : o ≠ o')
    (hv : v < 2 ^ 19) (hw : m.pte d v = some w) (x : Page) {u : ℕ} (hu : u < 2 ^ 19) :
    (m.setPage (pteAddr w) x).mapped s u = m.mapped s u := by
  have hk : Keeps o' m ρ (m.setPage (pteAddr w) x) ρ := by
    refine ⟨fun _ _ _ _ => Iff.rfl, fun g r hg _ ho => ?_⟩
    refine Kmem.setPage_page_of_ne _ (ne_of_role (hd.role_user hv hw) hg ?_)
    rintro rfl
    exact ho rfl
  exact hs.mapped_keeps hk hne hu

structure Copied (K : Image) (free : List Frame) (m : Kmem) (s d : Frame) (sz : ℕ) : Prop where
  page : ∀ v, v * PGSIZE < sz → ∃ w w', m.pte s v = some w ∧ m.pte d v = some w' ∧
    pteFlags w' = pteFlags w ∧ pteAddr w' ∈ free ∧ m.page (pteAddr w') = m.page (pteAddr w)
  rest : ∀ v < 2 ^ 19, sz ≤ v * PGSIZE → m.pte d v = none
  kernel : ∀ v, 2 ^ 19 ≤ v → v < 2 ^ 20 → m.pte d v = kernelPte K v
  once : ∀ u < 2 ^ 19, ∀ v < 2 ^ 19, ∀ w w', m.pte d u = some w → m.pte d v = some w' →
    pteAddr w = pteAddr w' → u = v
  apart : ∀ u < 2 ^ 19, ∀ v < 2 ^ 19, ∀ w w', m.pte s u = some w → m.pte d v = some w' →
    pteAddr w ≠ pteAddr w'
  childWrites : ∀ u < 2 ^ 19, ∀ v < 2 ^ 19, ∀ w x, m.pte d v = some w →
    (m.setPage (pteAddr w) x).mapped s u = m.mapped s u
  parentWrites : ∀ u < 2 ^ 19, ∀ v < 2 ^ 19, ∀ w x, m.pte s v = some w →
    (m.setPage (pteAddr w) x).mapped d u = m.mapped d u

theorem w_copyuvm {Q : Option Frame → Kmem → Prop} (hb : Books K m ρ) (hs : Space m ρ o s none)
    (ho : NoSpace ρ o') (hne : o ≠ o') (hsz : sz ≤ KERNBASE)
    (hsrc : ∀ v, v * PGSIZE < sz → m.pte s v ≠ none)
    (hnone : ∀ m' ρ', Books K m' ρ' → NoSpace ρ' o' → Keeps o' m ρ m' ρ' →
      m.freelist.length < spaceFrames K {v | v * PGSIZE < sz} → Q none m')
    (hsome : ∀ d m' ρ', At K m' ρ' o' d none → Keeps o' m ρ m' ρ' →
      (∀ v, v * PGSIZE < sz → ∀ w, m.pte s v = some w → ∃ f, K.Managed f ∧
        m'.pte d v = some (pteOf f (pteFlags w ||| PTE_P)) ∧ m'.page f = m.page (pteAddr w)) →
      (∀ v < 2 ^ 20, sz ≤ v * PGSIZE → m'.pte d v = kernelPte K v) → Q (some d) m') :
    W H E (copyuvm K s sz) Q m := by
  have hlt : ∀ v, v * PGSIZE < sz → v < 2 ^ 19 := by
    intro v hv
    simp only [PGSIZE, KERNBASE] at *
    omega
  rw [copyuvm, w_bind]
  refine w_setupkvm hb ho (fun m' ρ' hb' ho' hk hlt => hnone m' ρ' hb' ho' hk
      (hlt.trans_le (spaceFrames_mono K (finite_pages hsz) (Set.empty_subset _))))
    fun d m₁ ρ₁ ha₁ hk₁ hpte₁ htab₁ => ?_
  have hs₁ := hs.of_keeps hk₁ hne
  have hspte : ∀ v, v * PGSIZE < sz → m₁.pte s v = m.pte s v := fun v hv =>
    hs.pte_keeps hk₁ hne (by have := hlt v hv; omega)
  rw [w_bind]
  refine w_copyLoop ha₁ hs₁ hne hsz rfl (fun v hv => ?_) (fun v hv => ?_)
    (fun m' ρ' ha' halt hall => ?_) fun m' ρ' ha' hk' hex => ?_
  · rw [hspte v hv]
    exact hsrc v hv
  · have hv19 := pagesFrom_lt hsz hv
    rw [hpte₁ v (by omega), kernelPte_user K hv19]
  · simp only [if_true]
    refine hsome d m' ρ' ha' (hk₁.trans halt.toKeeps) (fun v hv w hw => ?_) fun v hv hge => ?_
    · obtain ⟨f, hman, hf, hpage⟩ := hall v ⟨Nat.zero_le v, hv⟩ w ((hspte v hv).trans hw)
      exact ⟨f, hman, hf, hpage.trans (hk₁.page _ _ (hs.role_user (hlt v hv) hw) (by simp) hne)⟩
    · rw [halt.pte v hv fun hin => absurd hin.2 (by omega), hpte₁ v hv]
  · simp only [Bool.false_eq_true, if_false]
    rw [w_bind]
    refine w_freevm ha' fun m'' ρ'' hb'' ho'' hk'' =>
      hnone m'' ρ'' hb'' ho'' ((hk₁.trans hk').trans hk'') ?_
    obtain ⟨m₂, ρ₂, h₂, ha₂, halt₂, hempty, v, hvS, hpte, hh⟩ := hex
    have hv := pagesFrom_lt hsz hvS
    refine (hk₁.trans halt₂.toKeeps).length_lt_spaceFrames hb (p := .user ⟨v, hv⟩)
      (q := .table ⟨v / NPTENTRIES, by simp only [NPTENTRIES]; omega⟩) ha₂ hempty (finite_pages hsz)
      (fun u hu hout => ?_) (fun i hi hno => ?_) hvS.2 (by simp only [view, hpte, Option.map_none])
      (hh.imp id fun ht => ⟨⟨v, by omega, .inl hvS.2, rfl⟩, by simp, ht⟩)
    · rw [halt₂.pte u (by omega) fun hin => hout hin.2, hpte₁ u (by omega), kernelPte_user K hu]
    · exact halt₂.noTable hi (htab₁ i hi fun v hv => hno v (.inr hv)) fun v hv => hno v (.inl hv.2)

theorem copyuvm_independent (hb : Books K m ρ) (hs : Space m ρ o s none) (ho : NoSpace ρ o')
    (hne : o ≠ o') (hsz : sz ≤ KERNBASE) (hsrc : ∀ v, v * PGSIZE < sz → m.pte s v ≠ none) :
    ∃ r m', (copyuvm K s sz).run (perform K) m = .ok (r, m') ∧
      (∀ v < 2 ^ 20, m'.pte s v = m.pte s v) ∧ (∀ v < 2 ^ 19, m'.mapped s v = m.mapped s v) ∧
      match r with
      | some d => Copied K m.freelist m' s d sz ∧
          ∃ ρ', Books K m' ρ' ∧ Space m' ρ' o s none ∧ Space m' ρ' o' d none
      | none => m.freelist.length < spaceFrames K {v | v * PGSIZE < sz} ∧
          m'.freelist.Perm m.freelist := by
  apply Prog.wp_returns
  refine w_copyuvm hb hs ho hne hsz hsrc (fun m' ρ' hb' ho' hk hlt => ?_)
    fun d m' ρ' ha' hk hall hrest => ?_
  · exact ⟨fun v hv => hs.pte_keeps hk hne hv, fun v hv => hs.mapped_keeps hk hne hv,
      hlt, hk.freelist_perm hb hb' ho ho'⟩
  · have hs' := hs.of_keeps hk hne
    have hpte : ∀ v < 2 ^ 20, m'.pte s v = m.pte s v := fun v hv => hs.pte_keeps hk hne hv
    refine ⟨hpte, fun v hv => hs.mapped_keeps hk hne hv, ?_, ρ', ha'.books, hs', ha'.toSpace⟩
    constructor
    case page =>
      intro v hv
      have hv19 : v < 2 ^ 19 := by
        simp only [PGSIZE, KERNBASE] at *
        omega
      obtain ⟨w, hw⟩ := Option.ne_none_iff_exists'.mp (hsrc v hv)
      obtain ⟨f, hman, hf, hpage⟩ := hall v hv w hw
      have haddr : pteAddr (pteOf f (pteFlags w ||| PTE_P)) = f :=
        pteAddr_pteOf hman.lt (or_pteP_lt (pteFlags_lt w))
      obtain ⟨-, -, -, hp⟩ := Kmem.pte_eq_some.mp hw
      refine ⟨w, _, (hpte v (by omega)).trans hw, hf, pteFlags_pteOf f hp, ?_, ?_⟩
      · have hrole := ha'.role_user hv19 hf
        rw [haddr] at hrole ⊢
        exact hk.was_free hb ha'.books ho hrole
      · rw [haddr, hpage]
        exact (hk.page _ _ (hs.role_user hv19 hw) (by simp) hne).symm
    case rest =>
      intro v hv hge
      rw [hrest v (by omega) hge, kernelPte_user K hv]
    case kernel =>
      intro v hlo hhi
      exact hrest v hhi (by simp only [PGSIZE, KERNBASE] at *; omega)
    case once =>
      intro u hu v hv w w' hw hw' heq
      have hrole := ha'.role_user hu hw
      rw [heq, ha'.role_user hv hw'] at hrole
      simpa using hrole.symm
    case apart =>
      intro u hu v hv w w' hw hw'
      refine ne_of_role (ha'.role_user hv hw') (hs'.role_user hu hw) ?_
      simp [hne]
    case childWrites =>
      exact fun u hu v hv w x hw => hs'.mapped_setPage ha'.toSpace hne hv hw x hu
    case parentWrites =>
      exact fun u hu v hv w x hw => ha'.toSpace.mapped_setPage hs' hne.symm hv hw x hu

theorem copyuvm_independent_onePage :
    ∃ d m', (copyuvm smallImage 512 PGSIZE).run (perform smallImage) onePage = .ok (some d, m') ∧
      Copied smallImage onePage.freelist m' 512 d PGSIZE := by
  obtain ⟨⟨ρ, ha, hno⟩, hpte⟩ := onePage_at
  have h0 : ∀ v, v * PGSIZE < PGSIZE → v = 0 := by
    intro v hv
    simp only [PGSIZE] at hv
    omega
  obtain ⟨r, m', hrun, -, -, hr⟩ := copyuvm_independent ha.books ha.toSpace (hno (.proc 1) (by decide))
    (show Owner.proc 0 ≠ .proc 1 by decide) (show PGSIZE ≤ KERNBASE by decide) fun v hv => by
      rw [h0 v hv, hpte 0 (by decide)]
      simp
  cases r with
  | some d => exact ⟨d, m', hrun, hr.1⟩
  | none =>
    have hle := spaceFrames_le smallImage {v | v * PGSIZE < PGSIZE}
    have hone := Set.ncard_le_ncard (show {v | v * PGSIZE < PGSIZE} ⊆ Set.Iio 1 from fun v hv =>
      Nat.lt_one_iff.mpr (h0 v hv)) (Set.finite_Iio 1)
    rw [ncard_Iio] at hone
    have hlt := hr.1
    rw [onePage_length] at hlt
    omega

end Xv6.Vm
