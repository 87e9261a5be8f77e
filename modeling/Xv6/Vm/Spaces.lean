import Xv6.Vm.Frames

/-!
# Single steps on an address space

A page is taken, becomes a table, is mapped, is written to, is unmapped and freed: each step keeps
the books of the allocator and leaves the address space in order, with the frames of every other
owner as they were.
-/

namespace Xv6.Vm

open Lib
open Function (update update_self update_of_ne update_apply update_eq_self)

variable {K : Image} {m m' m'' : Kmem} {ρ ρ' ρ'' : Roles} {o : Owner} {d f t : Frame}
  {h : Option Frame} {i v : ℕ} {w : Word}

abbrev Books (K : Image) (m : Kmem) (ρ : Roles) : Prop :=
  Ledger Role.free K.Managed m.freelist ρ

structure At (K : Image) (m : Kmem) (ρ : Roles) (o : Owner) (d : Frame) (h : Option Frame) :
    Prop extends Space m ρ o d h where
  books : Books K m ρ

theorem Image.Managed.lt {f : ℕ} (hf : K.Managed f) : f < 2 ^ 20 := by
  have hhi : f * PGSIZE < PHYSTOP := hf.2
  simp only [PGSIZE, PHYSTOP] at hhi
  omega

theorem Image.Managed.ne_zero (hf : K.Managed f) : f ≠ 0 := by
  rintro rfl
  have h1 := hf.1
  have h2 := K.text_before
  have h3 := K.data_before
  simp only [KERNLINK, KERNBASE, EXTMEM, Nat.zero_mul] at h1 h2
  omega

structure Alters (o : Owner) (d : Frame) (S : Set ℕ) (m : Kmem) (ρ : Roles) (m' : Kmem)
    (ρ' : Roles) : Prop extends Keeps o m ρ m' ρ' where
  table : ∀ i < 1024, m'.table d i = m.table d i ∨
    m.table d i = none ∧ ∃ v ∈ S, v / NPTENTRIES = i
  pte : ∀ v < 2 ^ 20, v ∉ S → m'.pte d v = m.pte d v
  contents : ∀ v < 2 ^ 19, v ∉ S → ∀ w, m.pte d v = some w →
    m'.page (pteAddr w) = m.page (pteAddr w)

section Alters

variable {S T : Set ℕ}

theorem Alters.refl (o : Owner) (d : Frame) (S : Set ℕ) (m : Kmem) (ρ : Roles) :
    Alters o d S m ρ m ρ :=
  ⟨.refl o m ρ, fun _ _ => .inl rfl, fun _ _ _ => rfl, fun _ _ _ _ _ => rfl⟩

theorem Alters.tables (h : Alters o d S m ρ m' ρ') (i : ℕ) (hi : i < 1024) (t : Frame)
    (ht : m.table d i = some t) : m'.table d i = some t := by
  rcases h.table i hi with heq | ⟨hnone, -⟩
  · exact heq.trans ht
  · rw [hnone] at ht
    cases ht

theorem Alters.noTable (h : Alters o d S m ρ m' ρ') (hi : i < 1024) (hnone : m.table d i = none)
    (hS : ∀ v ∈ S, v / NPTENTRIES ≠ i) : m'.table d i = none := by
  rcases h.table i hi with heq | ⟨-, v, hv, hvi⟩
  · exact heq.trans hnone
  · exact absurd hvi (hS v hv)

theorem Alters.trans (h : Alters o d S m ρ m' ρ') (h' : Alters o d S m' ρ' m'' ρ'') :
    Alters o d S m ρ m'' ρ'' where
  toKeeps := h.toKeeps.trans h'.toKeeps
  table i hi := by
    rcases h.table i hi with heq | hnew
    · rw [← heq]
      exact h'.table i hi
    · exact .inr hnew
  pte v hv hS := (h'.pte v hv hS).trans (h.pte v hv hS)
  contents v hv hS w hw :=
    (h'.contents v hv hS w ((h.pte v (by omega) hS).trans hw)).trans (h.contents v hv hS w hw)

def Kmem.mapped (m : Kmem) (d : Frame) (v : ℕ) : Option (Word × Page) :=
  (m.pte d v).map fun w => (w, m.page (pteAddr w))

theorem Alters.mapped (h : Alters o d S m ρ m' ρ') (hv : v < 2 ^ 19) (hS : v ∉ S) :
    m'.mapped d v = m.mapped d v := by
  rw [Kmem.mapped, Kmem.mapped, h.pte v (by omega) hS]
  cases hw : m.pte d v with
  | none => rfl
  | some w => simp only [Option.map_some, h.contents v hv hS w hw]

theorem Alters.mono (h : Alters o d S m ρ m' ρ') (hST : S ⊆ T) : Alters o d T m ρ m' ρ' where
  toKeeps := h.toKeeps
  table i hi := (h.table i hi).imp_right fun ⟨hnone, v, hv, hvi⟩ => ⟨hnone, v, hST hv, hvi⟩
  pte v hv hT := h.pte v hv fun hS => hT (hST hS)
  contents v hv hT := h.contents v hv fun hS => hT (hST hS)

theorem Space.alters (hs : Space m ρ o d h) (hk : Keeps o m ρ m' ρ')
    (htable : ∀ i < 1024, m'.table d i = m.table d i ∨
      m.table d i = none ∧ ∃ v ∈ S, v / NPTENTRIES = i)
    (hpte : ∀ v < 2 ^ 20, v ∉ S → m'.pte d v = m.pte d v)
    (hpage : ∀ f v, (hv : v < 2 ^ 19) → v ∉ S → ρ f = some (.space o (.user ⟨v, hv⟩)) →
      m'.page f = m.page f) : Alters o d S m ρ m' ρ' :=
  ⟨hk, htable, hpte, fun v hv hS _ hw => hpage _ v hv hS (hs.role_user hv hw)⟩

end Alters

variable {fs : List Frame}

theorem Books.newDir (hb : Books K m ρ) (hfree : m.freelist = f :: fs) (ho : NoSpace ρ o) :
    ∃ ρ', At K (Kmem.setPage { m with freelist := fs } f fun _ => 0) ρ' o f none ∧
      Keeps o m ρ (Kmem.setPage { m with freelist := fs } f fun _ => 0) ρ' ∧
      ∀ i < 1024, (Kmem.setPage { m with freelist := fs } f fun _ => 0).table f i = none := by
  set m' := Kmem.setPage { m with freelist := fs } f fun _ => 0 with hm'
  have hb' : Ledger Role.free K.Managed (f :: fs) ρ := hfree ▸ hb
  have hf : ρ f = some .free := (hb'.mem_iff f).mp List.mem_cons_self
  have htable : ∀ i < 1024, m'.table f i = none := by
    intro i hi
    rw [Kmem.table, if_neg]
    rw [hm', Kmem.word_setPage_const 0 hi]
    decide
  have hpte : ∀ v < 2 ^ 20, m'.pte f v = none := fun v hv =>
    Kmem.pte_eq_none_of_table (htable _ (by simp only [NPTENTRIES]; omega))
  refine ⟨update ρ f (some (.space o .dir)), ⟨⟨?_, ?_⟩, hb'.take (by simp)⟩, ?_, htable⟩
  · have hview : view m' f none = update (fun _ => none) .dir (some f) := by
      funext p
      cases p with
      | dir => rfl
      | hand => rfl
      | table i => exact htable i i.isLt
      | user v => simp only [view, hpte v (by omega)]; rfl
    rw [hview]
    refine Shows.put (fun p u => ?_) (space_injective o) rfl fun p => by rw [hf]; simp
    exact ⟨fun hu => absurd hu (ho u p), fun h => by cases h⟩
  · intro v w _ hhi hw
    rw [hpte v hhi] at hw
    cases hw
  · refine Keeps.update ⟨_, hf, .inl rfl⟩ (.inr rfl) fun g r hg hr _ => ?_
    refine Kmem.setPage_page_of_ne _ ?_
    rintro rfl
    rw [hf] at hg
    exact hr (Option.some.inj hg).symm

theorem ne_of_role {g : Frame} {r r' : Role} (hf : ρ f = some r) (hg : ρ g = some r') (hr : r' ≠ r) :
    g ≠ f := by
  rintro rfl
  exact hr (Option.some.inj (hg.symm.trans hf))

theorem page_frame {r : Role} (hf : ρ f = some r)
    (hdir : r ≠ .space o .dir) (htable : ∀ i, r ≠ .space o (.table i))
    (hpage : ∀ g, g ≠ f → m'.page g = m.page g) :
    ∀ g, (ρ g = some (.space o .dir) ∨ ∃ i, ρ g = some (.space o (.table i))) →
      m'.page g = m.page g := by
  rintro g (hg | ⟨i, hg⟩)
  · exact hpage g (ne_of_role hf hg hdir.symm)
  · exact hpage g (ne_of_role hf hg (htable i).symm)

namespace At

theorem alters_page {r : Role} {S : Set ℕ} (ha : At K m ρ o d h) (hk : Keeps o m ρ m' ρ')
    (hf : ρ f = some r) (hdir : r ≠ .space o .dir) (htable : ∀ i, r ≠ .space o (.table i))
    (hS : ∀ v, r = .space o (.user v) → v.val ∈ S)
    (hpage : ∀ g, g ≠ f → m'.page g = m.page g) : Alters o d S m ρ m' ρ' := by
  have hsame := page_frame hf hdir htable hpage
  refine ha.toSpace.alters hk (fun i _ => .inl ?_) (fun v hv _ => ha.pte_frame hsame hv)
    fun g v hv hvS hg => hpage g (ne_of_role hf hg ?_)
  · exact Kmem.table_congr (hsame d (.inl ha.role_dir)) i
  · exact fun heq => hvS (hS _ heq.symm)

theorem take (ha : At K m ρ o d none) (hfree : m.freelist = f :: fs) (x : Page) (S : Set ℕ) :
    ∃ ρ', At K (Kmem.setPage { m with freelist := fs } f x) ρ' o d (some f) ∧
      Alters o d S m ρ (Kmem.setPage { m with freelist := fs } f x) ρ' := by
  set m' := Kmem.setPage { m with freelist := fs } f x with hm'
  have hb : Ledger Role.free K.Managed (f :: fs) ρ := hfree ▸ ha.books
  have hf : ρ f = some .free := (hb.mem_iff f).mp List.mem_cons_self
  have hpage : ∀ g, g ≠ f → m'.page g = m.page g := fun g hg => Kmem.setPage_page_of_ne _ hg
  have hsame := page_frame (o := o) hf (by simp) (by simp) hpage
  refine ⟨update ρ f (some (.space o .hand)), ⟨⟨?_, ?_⟩, hb.take (by simp)⟩,
    ha.alters_page ?_ hf (by simp) (by simp) (by simp) hpage⟩
  · have hview : view m' d (some f) = update (view m d none) .hand (some f) := by
      rw [← ha.view_frame hsame]
      funext p
      cases p <;> rfl
    rw [hview]
    exact ha.shows.put (space_injective o) rfl fun p => by rw [hf]; simp
  · intro v w hlo hhi hw
    rw [ha.pte_frame hsame hhi] at hw
    exact ha.kernel v w hlo hhi hw
  · exact Keeps.update ⟨_, hf, .inl rfl⟩ (.inr rfl) fun g r hg hr _ =>
      hpage g (ne_of_role hf hg hr)

theorem drop (ha : At K m ρ o d (some f)) (S : Set ℕ) :
    ∃ ρ', At K (m.freed f) ρ' o d none ∧ Alters o d S m ρ (m.freed f) ρ' := by
  have hf := ha.role_hand
  have hpage : ∀ g, g ≠ f → (m.freed f).page g = m.page g := fun g hg => Kmem.freed_page_of_ne hg
  have hsame := page_frame (o := o) hf (by simp) (by simp) hpage
  refine ⟨update ρ f (some .free), ⟨⟨?_, ?_⟩, ha.books.give hf (by simp)⟩,
    ha.alters_page ?_ hf (by simp) (by simp) (by simp) hpage⟩
  · have hview : view (m.freed f) d none = update (view m d (some f)) .hand none := by
      rw [← ha.view_frame hsame]
      funext p
      cases p <;> rfl
    rw [hview]
    exact ha.shows.leave (space_injective o) rfl (by simp)
  · intro v w hlo hhi hw
    rw [ha.pte_frame hsame hhi] at hw
    exact ha.kernel v w hlo hhi hw
  · refine Keeps.update ⟨_, hf, .inr rfl⟩ (.inl rfl) fun g r hg _ ho => hpage g (ne_of_role hf hg ?_)
    rintro rfl
    exact ho rfl

theorem writeUser {S : Set ℕ} (ha : At K m ρ o d h) (hv : v < 2 ^ 19) (hw : m.pte d v = some w)
    (hS : v ∈ S) (x : Page) :
    At K (m.setPage (pteAddr w) x) ρ o d h ∧ Alters o d S m ρ (m.setPage (pteAddr w) x) ρ := by
  have hf := ha.role_user hv hw
  have hpage : ∀ g, g ≠ pteAddr w → (m.setPage (pteAddr w) x).page g = m.page g := fun g hg =>
    Kmem.setPage_page_of_ne _ hg
  have hsame := page_frame (o := o) hf (by simp) (by simp) hpage
  refine ⟨⟨ha.toSpace.frame (fun _ _ => Iff.rfl) hsame, ha.books⟩,
    ha.alters_page ?_ hf (by simp) (by simp) (fun u hu => ?_) hpage⟩
  · refine ⟨fun _ _ _ _ => Iff.rfl, fun g r hg _ ho => hpage g (ne_of_role hf hg ?_)⟩
    rintro rfl
    exact ho rfl
  · cases hu
    exact hS

theorem addTable (ha : At K m ρ o d h) (hfree : m.freelist = f :: fs)
    (hi : i < 1024) (hnone : m.table d i = none) {S : Set ℕ} (hS : ∃ v ∈ S, v / NPTENTRIES = i) :
    ∃ ρ', At K (m.addTable fs f d i) ρ' o d h ∧ Alters o d S m ρ (m.addTable fs f d i) ρ' ∧
      (m.addTable fs f d i).table d i = some f ∧ ∀ v < 2 ^ 20,
        (m.addTable fs f d i).pte d v = m.pte d v := by
  have hb : Ledger Role.free K.Managed (f :: fs) ρ := hfree ▸ ha.books
  have hf : ρ f = some .free := (hb.mem_iff f).mp List.mem_cons_self
  have hlt := (hb.managed_of_role hf).lt
  have hne : ∀ {g r}, ρ g = some r → r ≠ .free → g ≠ f := fun hg hr => ne_of_role hf hg hr
  have hfd : f ≠ d := (hne ha.role_dir (by simp)).symm
  have htab := fun j hj => Kmem.table_addTable (m := m) (j := j) fs hlt hfd hi hj
  have hpte := fun v hv => Kmem.pte_addTable (v := v) fs hlt hfd hi hnone
    (fun t j hj ht => ⟨hne (ha.role_table hj ht) (by simp), ha.table_ne_dir hj ht⟩) hv
  refine ⟨update ρ f (some (.space o (.table ⟨i, hi⟩))), ⟨⟨?_, ?_⟩, hb.take (by simp)⟩,
    ha.toSpace.alters ?_ (fun j hj => ?_) (fun v hv _ => hpte v hv) ?_, ?_, hpte⟩
  · have hview : view (m.addTable fs f d i) d h =
        update (view m d h) (.table ⟨i, hi⟩) (some f) := by
      funext p
      cases p with
      | dir => rfl
      | hand => rfl
      | user v =>
        simp only [view, hpte v (by omega)]
        rfl
      | table j =>
        by_cases hji : j = ⟨i, hi⟩
        · rw [hji, update_self]
          exact (htab i hi).trans (if_pos rfl)
        · rw [update_of_ne (by simpa using hji)]
          exact (htab j j.isLt).trans (if_neg fun heq => hji (Fin.ext heq))
    rw [hview]
    exact ha.shows.put (space_injective o) hnone fun p => by rw [hf]; simp
  · intro v w hlo hhi hw
    rw [hpte v hhi] at hw
    exact ha.kernel v w hlo hhi hw
  · refine Keeps.update ⟨_, hf, .inl rfl⟩ (.inr rfl) fun g r hg hr ho => ?_
    refine Kmem.addTable_page_of_ne (hne hg hr) (ne_of_role ha.role_dir hg ?_)
    rintro rfl
    exact ho rfl
  · by_cases hji : j = i
    · subst hji
      exact .inr ⟨hnone, hS⟩
    · exact .inl ((htab j hj).trans (if_neg hji))
  · intro g v hv _ hg
    exact Kmem.addTable_page_of_ne (hne hg (by simp)) (ne_of_role ha.role_dir hg (by simp))
  · exact (htab i hi).trans (if_pos rfl)

theorem setWord_page (ha : At K m ρ o d h) (hv : v < 2 ^ 20)
    (ht : m.table d (v / NPTENTRIES) = some t) (j : ℕ) (g : Frame) (r : Role) (hg : ρ g = some r)
    (hr : ∀ i, r ≠ .space o (.table i)) : (m.setWord t j w).page g = m.page g :=
  Kmem.setWord_page_of_ne
    (ne_of_role (ha.role_table (by simp only [NPTENTRIES]; omega) ht) hg (hr _))

theorem alters_setWord {S : Set ℕ} (ha : At K m ρ o d h) (hv : v < 2 ^ 20)
    (ht : m.table d (v / NPTENTRIES) = some t) (hS : v ∈ S)
    (hrole : ∀ f r, r ≠ .free → ¬ r.Of o → (ρ' f = some r ↔ ρ f = some r)) :
    Alters o d S m ρ (m.setWord t (v % NPTENTRIES) w) ρ' := by
  refine ha.toSpace.alters ⟨hrole, fun g r hg _ ho => ?_⟩ (fun i _ => .inl ?_) (fun u hu huS => ?_)
    fun g u hu huS hg => ha.setWord_page hv ht _ g _ hg (by simp)
  · refine ha.setWord_page hv ht _ g r hg ?_
    rintro i rfl
    exact ho rfl
  · exact ha.table_setWord hv ht i _
  · rw [ha.pte_setWord hv ht hu, if_neg]
    rintro rfl
    exact huS hS

theorem mapUser {S : Set ℕ} (ha : At K m ρ o d (some f)) (hv : v < 2 ^ 19)
    (ht : m.table d (v / NPTENTRIES) = some t) (hnone : m.pte d v = none) (hp : w &&& PTE_P ≠ 0)
    (hw : pteAddr w = f) (hS : v ∈ S) : ∃ ρ', At K (m.setWord t (v % NPTENTRIES) w) ρ' o d none ∧
      Alters o d S m ρ (m.setWord t (v % NPTENTRIES) w) ρ' := by
  have hf := ha.role_hand
  have hv' : v < 2 ^ 20 := by omega
  refine ⟨update ρ f (some (.space o (.user ⟨v, hv⟩))), ⟨⟨?_, ?_⟩, ?_⟩,
    ha.alters_setWord hv' ht hS ?_⟩
  · have hview : view (m.setWord t (v % NPTENTRIES) w) d none =
        update (update (view m d (some f)) .hand none) (.user ⟨v, hv⟩) (some f) := by
      have hset := ha.view_setWord (w := w) hv ht
      rw [if_pos hp, hw] at hset
      funext p
      have hp' := congrFun hset p
      cases p with
      | dir => rfl
      | hand => rfl
      | table i => exact hp'
      | user u =>
        refine Eq.trans hp' ?_
        simp only [update_apply, reduceCtorEq, if_false]
    rw [hview]
    exact ha.shows.move (r := .free) (space_injective o) rfl (by simp only [view, hnone]; rfl) (by simp)
  · exact ha.kernel_setWord hv' ht fun hlo => absurd hv (by omega)
  · exact ha.books.assign hf (by simp) (by simp)
  · have hk : Keeps o m ρ m (update ρ f (some (.space o (.user ⟨v, hv⟩)))) :=
      Keeps.update ⟨_, hf, .inr rfl⟩ (.inr rfl) fun _ _ _ _ _ => rfl
    exact hk.role

theorem mapKernel {S : Set ℕ} (ha : At K m ρ o d h) (hlo : 2 ^ 19 ≤ v) (hv : v < 2 ^ 20)
    (ht : m.table d (v / NPTENTRIES) = some t) (hw : w &&& PTE_U = 0) (hS : v ∈ S) :
    At K (m.setWord t (v % NPTENTRIES) w) ρ o d h ∧
      Alters o d S m ρ (m.setWord t (v % NPTENTRIES) w) ρ := by
  refine ⟨⟨⟨?_, ha.kernel_setWord hv ht fun _ => hw⟩, ha.books⟩,
    ha.alters_setWord hv ht hS fun _ _ _ _ => Iff.rfl⟩
  have hview : view (m.setWord t (v % NPTENTRIES) w) d h = view m d h := by
    funext p
    cases p with
    | dir => rfl
    | hand => rfl
    | table i => exact ha.table_setWord hv ht i _
    | user u =>
      have hne : u.val ≠ v := by omega
      simp only [view, ha.pte_setWord (w := w) (u := u) hv ht (by omega), if_neg hne]
  rw [hview]
  exact ha.shows

theorem changeFlags {S : Set ℕ} (ha : At K m ρ o d h) (hv : v < 2 ^ 19)
    (ht : m.table d (v / NPTENTRIES) = some t) {w' : Word} (hw : m.pte d v = some w')
    (hp : w &&& PTE_P ≠ 0) (haddr : pteAddr w = pteAddr w') (hS : v ∈ S) :
    At K (m.setWord t (v % NPTENTRIES) w) ρ o d h ∧
      Alters o d S m ρ (m.setWord t (v % NPTENTRIES) w) ρ := by
  have hv' : v < 2 ^ 20 := by omega
  refine ⟨⟨⟨?_, ha.kernel_setWord hv' ht fun hlo => absurd hv (by omega)⟩, ha.books⟩,
    ha.alters_setWord hv' ht hS fun _ _ _ _ => Iff.rfl⟩
  have hold : view m d h (.user ⟨v, hv⟩) = some (pteAddr w) := by
    simp only [view, hw, Option.map_some, haddr]
  rw [ha.view_setWord hv ht, if_pos hp, ← hold, update_eq_self]
  exact ha.shows

theorem unmap {S : Set ℕ} (ha : At K m ρ o d h) (hv : v < 2 ^ 19)
    (ht : m.table d (v / NPTENTRIES) = some t) (hw : m.pte d v = some w) (hS : v ∈ S) :
    ∃ ρ', At K ((m.freed (pteAddr w)).setWord t (v % NPTENTRIES) 0) ρ' o d h ∧
      Alters o d S m ρ ((m.freed (pteAddr w)).setWord t (v % NPTENTRIES) 0) ρ' ∧
      ∀ u < 2 ^ 20, ((m.freed (pteAddr w)).setWord t (v % NPTENTRIES) 0).pte d u =
        if u = v then none else m.pte d u := by
  have hf := ha.role_user hv hw
  have hv' : v < 2 ^ 20 := by omega
  have hpage : ∀ g, g ≠ pteAddr w → (m.freed (pteAddr w)).page g = m.page g := fun g hg =>
    Kmem.freed_page_of_ne hg
  have hsame := page_frame (o := o) hf (by simp) (by simp) hpage
  have htrole := ha.role_table (by simp only [NPTENTRIES]; omega) ht
  -- The entry still shows the freed frame until it is cleared.
  have hs : Space (m.freed (pteAddr w)) ρ o d h := ha.toSpace.frame (fun _ _ => Iff.rfl) hsame
  have ht' : ∀ i t, m.table d i = some t → (m.freed (pteAddr w)).table d i = some t := fun i t ht =>
    (Kmem.table_congr (hsame d (.inl ha.role_dir)) _).trans ht
  have hw' : (m.freed (pteAddr w)).pte d v = some w := (ha.pte_frame hsame hv').trans hw
  have hpte : ∀ u < 2 ^ 20, ((m.freed (pteAddr w)).setWord t (v % NPTENTRIES) 0).pte d u =
      if u = v then none else m.pte d u := by
    intro u hu
    rw [hs.pte_setWord hv' (ht' _ _ ht) hu, if_neg (show ¬ (0 : Word) &&& PTE_P ≠ 0 by decide),
      ha.pte_frame hsame hu]
  refine ⟨update ρ (pteAddr w) (some .free), ⟨⟨?_, ?_⟩, ?_⟩,
    ha.toSpace.alters ?_ (fun i _ => .inl ?_) (fun u hu huS => ?_) fun g u hu huS hg => ?_, hpte⟩
  · rw [hs.view_setWord hv (ht' _ _ ht), if_neg (by decide)]
    exact hs.shows.leave (space_injective o) (by simp only [view, hw', Option.map_some]) (by simp)
  · exact hs.kernel_setWord hv' (ht' _ _ ht) fun hlo => absurd hv (by omega)
  · exact ha.books.give hf (by simp)
  · refine Keeps.update ⟨_, hf, .inr rfl⟩ (.inl rfl) fun g r hg _ ho => ?_
    refine (Kmem.setWord_page_of_ne (ne_of_role htrole hg ?_)).trans (hpage g (ne_of_role hf hg ?_))
    · rintro rfl
      exact ho rfl
    · rintro rfl
      exact ho rfl
  · exact (hs.table_setWord hv' (ht' _ _ ht) i _).trans
      (Kmem.table_congr (hsame d (.inl ha.role_dir)) i)
  · rw [hpte u hu, if_neg]
    rintro rfl
    exact huS hS
  · refine (Kmem.setWord_page_of_ne (ne_of_role htrole hg (by simp))).trans
      (hpage g (ne_of_role hf hg ?_))
    intro heq
    cases heq
    exact huS hS

end At
end Xv6.Vm
