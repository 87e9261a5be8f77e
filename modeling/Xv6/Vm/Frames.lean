import Xv6.Lib.Ledger
import Xv6.Params
import Xv6.Vm.PageTable

/-!
# Who owns a frame

Every frame between `end` and `PHYSTOP` has one role: it is free, or it is the page directory, a
page-table page or a user page of an address space, a kernel stack, or a pipe page.
-/

namespace Xv6.Vm

open Lib
open Function (update_of_ne update_self)

private theorem div_pgsize (n : ℕ) : n / PGSIZE = n >>> 12 := (Nat.shiftRight_eq_div_pow n 12).symm

private theorem getLsbD_of_lt {c : Word} (hc : c.toNat < 2 ^ 12) {i : ℕ} (hi : 12 ≤ i) :
    c.getLsbD i = false := by
  rw [BitVec.getLsbD]
  apply Nat.testBit_lt_two_pow
  exact lt_of_lt_of_le hc (Nat.pow_le_pow_right (by decide) hi)

theorem pteAddr_pteOf {f : ℕ} {flags : Word} (hf : f < 2 ^ 20) (hflags : flags.toNat < 2 ^ 12) :
    pteAddr (pteOf f flags) = f := by
  have hlt : f * PGSIZE < 2 ^ 32 := by
    simp only [PGSIZE]
    omega
  rw [pteAddr, pteOf, BitVec.toNat_or, BitVec.toNat_ofNat, Nat.mod_eq_of_lt hlt, div_pgsize,
    Nat.shiftRight_or_distrib, ← div_pgsize, ← div_pgsize, Nat.div_eq_of_lt (b := PGSIZE) hflags, Nat.or_zero,
    Nat.mul_div_cancel _ (by decide)]

theorem pteOf_and {f : ℕ} {flags c : Word} (hc : c.toNat < 2 ^ 12) :
    pteOf f flags &&& c = flags &&& c := by
  apply BitVec.eq_of_getLsbD_eq
  intro i _
  rw [pteOf, BitVec.getLsbD_and, BitVec.getLsbD_and, BitVec.getLsbD_or, Bool.and_or_distrib_right]
  by_cases hi : i < 12
  · have hbit : (BitVec.ofNat 32 (f * PGSIZE)).getLsbD i = false := by
      rw [BitVec.getLsbD_ofNat, show f * PGSIZE = f * 2 ^ 12 from rfl, Nat.testBit_mul_two_pow]
      simp [hi]
    rw [hbit, Bool.false_and, Bool.false_or]
  · rw [getLsbD_of_lt hc (by omega), Bool.and_false, Bool.and_false, Bool.or_false]

theorem pteAddr_and_not {w c : Word} (hc : c.toNat < 2 ^ 12) :
    pteAddr (w &&& ~~~c) = pteAddr w := by
  rw [pteAddr, pteAddr, div_pgsize, div_pgsize, ← BitVec.toNat_ushiftRight,
    ← BitVec.toNat_ushiftRight]
  congr 1
  apply BitVec.eq_of_getLsbD_eq
  intro i hi
  rw [BitVec.getLsbD_ushiftRight, BitVec.getLsbD_ushiftRight, BitVec.getLsbD_and,
    BitVec.getLsbD_not, getLsbD_of_lt hc (by omega)]
  by_cases h : 12 + i < 32
  · simp [h]
  · simp [h, BitVec.getLsbD_of_ge w (12 + i) (by omega)]

variable {K : Image} {m m' m'' : Kmem} {f g d t : Frame} {i j v : ℕ} {w : Word}

def Kmem.table (m : Kmem) (d : Frame) (i : ℕ) : Option Frame :=
  if m.word d i &&& PTE_P ≠ 0 then some (pteAddr (m.word d i)) else none

def Kmem.pte (m : Kmem) (d : Frame) (v : ℕ) : Option Word :=
  (m.table d (v / NPTENTRIES)).bind fun t =>
    if m.word t (v % NPTENTRIES) &&& PTE_P ≠ 0 then some (m.word t (v % NPTENTRIES)) else none

@[simp] theorem Kmem.setPage_page_self (x : Page) : (m.setPage f x).page f = x :=
  update_self _ _ _

theorem Kmem.setPage_page_of_ne (x : Page) (h : g ≠ f) : (m.setPage f x).page g = m.page g :=
  update_of_ne h _ _

theorem Kmem.word_congr (h : m'.page f = m.page f) (i : ℕ) : m'.word f i = m.word f i := by
  rw [Kmem.word, Kmem.word, h]

theorem Kmem.table_congr (h : m'.page d = m.page d) (i : ℕ) : m'.table d i = m.table d i := by
  rw [Kmem.table, Kmem.table, Kmem.word_congr h]

theorem Kmem.pte_congr (hd : m'.page d = m.page d)
    (ht : ∀ t, m.table d (v / NPTENTRIES) = some t → m'.page t = m.page t) :
    m'.pte d v = m.pte d v := by
  rw [Kmem.pte, Kmem.pte, Kmem.table_congr hd]
  cases htab : m.table d (v / NPTENTRIES) with
  | none => rfl
  | some t => simp only [Option.bind_some, Kmem.word_congr (ht t htab)]

theorem Kmem.table_eq_some :
    m.table d i = some t ↔ m.word d i &&& PTE_P ≠ 0 ∧ pteAddr (m.word d i) = t := by
  rw [Kmem.table]
  split_ifs with h
  · rw [Option.some.injEq]
    exact ⟨fun e => ⟨h, e⟩, And.right⟩
  · exact ⟨(nomatch ·), fun hp => absurd hp.1 h⟩

theorem Kmem.pte_eq_some : m.pte d v = some w ↔ ∃ t, m.table d (v / NPTENTRIES) = some t ∧
      m.word t (v % NPTENTRIES) = w ∧ w &&& PTE_P ≠ 0 := by
  rw [Kmem.pte, Option.bind_eq_some_iff]
  constructor
  · rintro ⟨t, ht, hw⟩
    split_ifs at hw with hp
    cases hw
    exact ⟨t, ht, rfl, hp⟩
  · rintro ⟨t, ht, rfl, hp⟩
    exact ⟨t, ht, if_pos hp⟩

theorem Kmem.pte_eq_of_table (ht : m.table d (v / NPTENTRIES) = some t) :
    m.pte d v = if m.word t (v % NPTENTRIES) &&& PTE_P ≠ 0 then
      some (m.word t (v % NPTENTRIES)) else none := by
  rw [Kmem.pte, ht, Option.bind_some]

theorem Kmem.pte_eq_none_of_table (ht : m.table d (v / NPTENTRIES) = none) : m.pte d v = none := by
  rw [Kmem.pte, ht, Option.bind_none]

def Kmem.setWord (m : Kmem) (f : Frame) (i : ℕ) (w : Word) : Kmem :=
  m.setPage f ((m.page f).setWord (4 * i) w)

theorem Kmem.word_setWord (hi : i < 1024) (hj : j < 1024) :
    (m.setWord f i w).word g j = if g = f ∧ j = i then w else m.word g j := by
  by_cases hg : g = f
  · subst hg
    rw [Kmem.word, Kmem.setWord, Kmem.setPage_page_self]
    by_cases hji : j = i
    · subst hji
      rw [Bytes.word_setWord _ _ (by simp only [PGSIZE]; omega), if_pos ⟨rfl, rfl⟩]
    · rw [Bytes.word_setWord_of_disjoint _ _ (by omega), if_neg fun h => hji h.2]
      rfl
  · rw [Kmem.word, Kmem.setWord, Kmem.setPage_page_of_ne _ hg, if_neg fun h => hg h.1]
    rfl

theorem Kmem.setWord_page_of_ne (h : g ≠ f) : (m.setWord f i w).page g = m.page g :=
  Kmem.setPage_page_of_ne _ h

theorem Kmem.word_setPage_const (b : Byte) (hi : i < 1024) :
    (m.setPage f fun _ => b).word f i = b ++ b ++ b ++ b := by
  have hget : ∀ k < 4, Bytes.get (fun _ => b : Page) (4 * i + k) = b := by
    intro k hk
    rw [Bytes.get, dif_pos (by simp only [PGSIZE]; omega)]
  have h0 := hget 0 (by omega)
  rw [Nat.add_zero] at h0
  rw [Kmem.word, Kmem.setPage_page_self, Bytes.word, hget 3 (by omega), hget 2 (by omega),
    hget 1 (by omega), h0]

theorem Kmem.freed_page_of_ne (h : g ≠ f) : (m.freed f).page g = m.page g :=
  update_of_ne h _ _

def Kmem.addTable (m : Kmem) (fs : List Frame) (f d : Frame) (i : ℕ) : Kmem :=
  (Kmem.setPage { m with freelist := fs } f fun _ => 0).setWord d i
    (pteOf f (PTE_P ||| PTE_W ||| PTE_U))

section AddTable

variable {fs : List Frame}

theorem Kmem.addTable_page_of_ne (hf : g ≠ f) (hd : g ≠ d) :
    (m.addTable fs f d i).page g = m.page g := by
  rw [Kmem.addTable, Kmem.setWord_page_of_ne hd, Kmem.setPage_page_of_ne _ hf]

theorem Kmem.table_addTable (fs : List Frame) (hlt : f < 2 ^ 20) (hfd : f ≠ d) (hi : i < 1024) (hj : j < 1024) :
    (m.addTable fs f d i).table d j = if j = i then some f else m.table d j := by
  have hword : (m.addTable fs f d i).word d j =
      if j = i then pteOf f (PTE_P ||| PTE_W ||| PTE_U) else m.word d j := by
    rw [Kmem.addTable, Kmem.word_setWord hi hj]
    have hold : (Kmem.setPage { m with freelist := fs } f fun _ => 0).word d j = m.word d j :=
      Kmem.word_congr (Kmem.setPage_page_of_ne _ hfd.symm) j
    simp only [true_and, hold]
  rw [Kmem.table, hword]
  by_cases hji : j = i
  · simp only [if_pos hji]
    have hp : pteOf f (PTE_P ||| PTE_W ||| PTE_U) &&& PTE_P ≠ 0 := by
      rw [pteOf_and (by decide)]
      decide
    rw [if_pos hp, pteAddr_pteOf hlt (by decide)]
  · simp only [if_neg hji]
    rfl

theorem Kmem.pte_addTable (fs : List Frame) (hlt : f < 2 ^ 20) (hfd : f ≠ d) (hi : i < 1024)
    (hnone : m.table d i = none) (hother : ∀ t j, j < 1024 → m.table d j = some t → t ≠ f ∧ t ≠ d)
    (hv : v < 2 ^ 20) : (m.addTable fs f d i).pte d v = m.pte d v := by
  have hdiv : v / NPTENTRIES < 1024 := by
    simp only [NPTENTRIES]
    omega
  have hmod : v % NPTENTRIES < 1024 := Nat.mod_lt _ (by decide)
  have htab := Kmem.table_addTable (m := m) fs hlt hfd hi hdiv
  by_cases hvi : v / NPTENTRIES = i
  · rw [if_pos hvi] at htab
    have hnone' : m.table d (v / NPTENTRIES) = none := by rw [hvi, hnone]
    have hword : (m.addTable fs f d i).word f (v % NPTENTRIES) = 0 := by
      rw [Kmem.addTable, Kmem.word_setWord hi hmod, if_neg fun hc => hfd hc.1,
        Kmem.word_setPage_const 0 hmod]
      rfl
    rw [Kmem.pte_eq_none_of_table hnone', Kmem.pte_eq_of_table htab, hword]
    rfl
  · rw [if_neg hvi] at htab
    cases htv : m.table d (v / NPTENTRIES) with
    | none => rw [Kmem.pte_eq_none_of_table htv, Kmem.pte_eq_none_of_table (htab.trans htv)]
    | some t =>
      obtain ⟨htf, htd⟩ := hother t _ hdiv htv
      rw [Kmem.pte_eq_of_table htv, Kmem.pte_eq_of_table (htab.trans htv),
        Kmem.word_congr (Kmem.addTable_page_of_ne htf htd)]

end AddTable

/-- The kernel's own address space, that of a process, or the one `exec` is building. -/
inductive Owner
  | kernel
  | proc (p : Fin NPROC)
  | image
deriving DecidableEq

inductive Place
  | dir
  | table (i : Fin 1024)
  | user (v : Fin (2 ^ 19))
  | hand
deriving DecidableEq, Fintype

inductive Role
  | free
  | space (o : Owner) (p : Place)
  | stack (p : Fin NPROC)
  | cpuStack (c : ℕ)
  | pipe
deriving DecidableEq

abbrev Roles := Frame → Option Role

def Role.Of (o : Owner) : Role → Prop
  | .space o' _ => o' = o
  | _ => False

theorem Role.Of.place {o : Owner} {r : Role} (h : r.Of o) : ∃ p, r = .space o p := by
  cases r with
  | space o' p =>
    obtain rfl : o' = o := h
    exact ⟨p, rfl⟩
  | free | stack p | cpuStack c | pipe => cases h

theorem space_injective (o : Owner) : Function.Injective (Role.space o) :=
  fun _ _ h => (Role.space.inj h).2

variable {ρ ρ' ρ'' : Roles} {o o' : Owner} {h : Option Frame} {r : Role}

def view (m : Kmem) (d : Frame) (h : Option Frame) : Place → Option Frame
  | .dir => some d
  | .table i => m.table d i
  | .user v => (m.pte d v).map pteAddr
  | .hand => h

structure Space (m : Kmem) (ρ : Roles) (o : Owner) (d : Frame) (h : Option Frame) : Prop where
  shows : Shows ρ (Role.space o) (view m d h)
  kernel : ∀ v w, 2 ^ 19 ≤ v → v < 2 ^ 20 → m.pte d v = some w → w &&& PTE_U = 0

def NoSpace (ρ : Roles) (o : Owner) : Prop := ∀ f p, ρ f ≠ some (.space o p)

/-- Only roles of `o` and free frames change, and only their pages are written to. -/
structure Keeps (o : Owner) (m : Kmem) (ρ : Roles) (m' : Kmem) (ρ' : Roles) : Prop where
  role : ∀ f r, r ≠ .free → ¬ r.Of o → (ρ' f = some r ↔ ρ f = some r)
  page : ∀ f r, ρ f = some r → r ≠ .free → ¬ r.Of o → m'.page f = m.page f

namespace Keeps

theorem refl (o : Owner) (m : Kmem) (ρ : Roles) : Keeps o m ρ m ρ :=
  ⟨fun _ _ _ _ => Iff.rfl, fun _ _ _ _ _ => rfl⟩

theorem trans (h : Keeps o m ρ m' ρ') (h' : Keeps o m' ρ' m'' ρ'') : Keeps o m ρ m'' ρ'' where
  role f r hr ho := (h'.role f r hr ho).trans (h.role f r hr ho)
  page f r hf hr ho := (h'.page f r ((h.role f r hr ho).mpr hf) hr ho).trans (h.page f r hf hr ho)

theorem update (hρ : ∃ r, ρ f = some r ∧ (r = .free ∨ r.Of o)) (hr : r = .free ∨ r.Of o)
    (hpage : ∀ g r, ρ g = some r → r ≠ .free → ¬ r.Of o → m'.page g = m.page g) :
    Keeps o m ρ m' (Function.update ρ f (some r)) := by
  obtain ⟨r₀, hf, hr₀⟩ := hρ
  refine ⟨fun g r' hr' ho => ?_, hpage⟩
  by_cases hg : g = f
  · subst hg
    rw [update_self, hf, Option.some.injEq, Option.some.injEq]
    constructor
    · rintro rfl
      exact absurd hr (not_or.mpr ⟨hr', ho⟩)
    · rintro rfl
      exact absurd hr₀ (not_or.mpr ⟨hr', ho⟩)
  · rw [update_of_ne hg]

end Keeps

namespace Space

theorem role_dir (hs : Space m ρ o d h) : ρ d = some (.space o .dir) := (hs.shows .dir d).mpr rfl

theorem role_table (hs : Space m ρ o d h) (hi : i < 1024) (ht : m.table d i = some t) :
    ρ t = some (.space o (.table ⟨i, hi⟩)) := (hs.shows (.table ⟨i, hi⟩) t).mpr ht

theorem role_user (hs : Space m ρ o d h) (hv : v < 2 ^ 19) (hw : m.pte d v = some w) :
    ρ (pteAddr w) = some (.space o (.user ⟨v, hv⟩)) :=
  (hs.shows (.user ⟨v, hv⟩) _).mpr (by simp only [view, hw, Option.map_some])

theorem role_hand (hs : Space m ρ o d (some f)) : ρ f = some (.space o .hand) :=
  (hs.shows .hand f).mpr rfl

section

variable (hs : Space m ρ o d h)
include hs

theorem table_ne_dir (hi : i < 1024) (ht : m.table d i = some t) : t ≠ d := by
  rintro rfl
  have htable := hs.role_table hi ht
  rw [hs.role_dir] at htable
  cases htable

theorem table_inj (hi : i < 1024) (hj : j < 1024)
    (ht : m.table d i = some t) (ht' : m.table d j = some t) : i = j := by
  have htable := hs.role_table hi ht
  rw [hs.role_table hj ht'] at htable
  cases htable
  rfl

theorem pte_frame
    (hpage : ∀ f, (ρ f = some (.space o .dir) ∨ ∃ i, ρ f = some (.space o (.table i))) →
      m'.page f = m.page f) (hv : v < 2 ^ 20) : m'.pte d v = m.pte d v := by
  refine Kmem.pte_congr (hpage d (.inl hs.role_dir)) fun t ht => ?_
  exact hpage t (.inr ⟨_, hs.role_table (by simp only [NPTENTRIES]; omega) ht⟩)

theorem view_frame
    (hpage : ∀ f, (ρ f = some (.space o .dir) ∨ ∃ i, ρ f = some (.space o (.table i))) →
      m'.page f = m.page f) : view m' d h = view m d h := by
  funext p
  cases p with
  | dir => rfl
  | table i => exact Kmem.table_congr (hpage d (.inl hs.role_dir)) i
  | user v => simp only [view, hs.pte_frame hpage (show v.val < 2 ^ 20 by omega)]
  | hand => rfl

theorem frame (hrole : ∀ f p, ρ' f = some (.space o p) ↔ ρ f = some (.space o p))
    (hpage : ∀ f, (ρ f = some (.space o .dir) ∨ ∃ i, ρ f = some (.space o (.table i))) →
      m'.page f = m.page f) : Space m' ρ' o d h := by
  refine ⟨?_, fun v w hlo hhi hw => ?_⟩
  · rw [hs.view_frame hpage]
    exact hs.shows.congr hrole
  · rw [hs.pte_frame hpage hhi] at hw
    exact hs.kernel v w hlo hhi hw

end

theorem of_keeps (hs : Space m ρ o' d h) (hk : Keeps o m ρ m' ρ') (hne : o' ≠ o) :
    Space m' ρ' o' d h := by
  refine hs.frame (fun f p => hk.role f _ (by simp) hne) fun f hf => ?_
  rcases hf with hf | ⟨i, hf⟩
  · exact hk.page f _ hf (by simp) hne
  · exact hk.page f _ hf (by simp) hne

theorem pte_setWord (hs : Space m ρ o d h) (hv : v < 2 ^ 20)
    (ht : m.table d (v / NPTENTRIES) = some t) {u : ℕ} (hu : u < 2 ^ 20) :
    (m.setWord t (v % NPTENTRIES) w).pte d u =
      if u = v then (if w &&& PTE_P ≠ 0 then some w else none) else m.pte d u := by
  have hdiv : ∀ {x : ℕ}, x < 2 ^ 20 → x / NPTENTRIES < 1024 := fun hx => by
    simp only [NPTENTRIES]
    omega
  have hne : t ≠ d := hs.table_ne_dir (hdiv hv) ht
  have htab : ∀ i, (m.setWord t (v % NPTENTRIES) w).table d i = m.table d i :=
    Kmem.table_congr (Kmem.setWord_page_of_ne hne.symm)
  have hword := fun g => Kmem.word_setWord (m := m) (f := t) (g := g) (w := w)
    (Nat.mod_lt v (show 0 < NPTENTRIES by decide)) (Nat.mod_lt u (show 0 < NPTENTRIES by decide))
  by_cases huv : u = v
  · subst huv
    rw [if_pos rfl, Kmem.pte_eq_of_table ((htab _).trans ht), hword t]
    simp only [and_self, if_true]
  · rw [if_neg huv]
    cases htu : m.table d (u / NPTENTRIES) with
    | none => rw [Kmem.pte_eq_none_of_table htu, Kmem.pte_eq_none_of_table ((htab _).trans htu)]
    | some t' =>
      have hother : ¬ (t' = t ∧ u % NPTENTRIES = v % NPTENTRIES) := by
        rintro ⟨rfl, hmod⟩
        have hdir := hs.table_inj (hdiv hu) (hdiv hv) htu ht
        apply huv
        simp only [NPTENTRIES] at hdir hmod
        omega
      rw [Kmem.pte_eq_of_table htu, Kmem.pte_eq_of_table ((htab _).trans htu), hword t']
      simp only [hother, if_false]

theorem table_setWord (hs : Space m ρ o d h) (hv : v < 2 ^ 20)
    (ht : m.table d (v / NPTENTRIES) = some t) (i j : ℕ) :
    (m.setWord t j w).table d i = m.table d i := by
  have hne : t ≠ d := hs.table_ne_dir (by simp only [NPTENTRIES]; omega) ht
  exact Kmem.table_congr (Kmem.setWord_page_of_ne hne.symm) i

theorem view_setWord (hs : Space m ρ o d h) (hv : v < 2 ^ 19)
    (ht : m.table d (v / NPTENTRIES) = some t) : view (m.setWord t (v % NPTENTRIES) w) d h =
      Function.update (view m d h) (.user ⟨v, hv⟩)
        (if w &&& PTE_P ≠ 0 then some (pteAddr w) else none) := by
  funext p
  cases p with
  | dir => rfl
  | hand => rfl
  | table i => exact hs.table_setWord (by omega) ht i _
  | user u =>
    have hpte := hs.pte_setWord (w := w) (u := u) (show v < 2 ^ 20 by omega) ht (by omega)
    by_cases huv : u = ⟨v, hv⟩
    · subst huv
      simp only [view, hpte, update_self, if_true]
      split_ifs <;> rfl
    · have hne : u.val ≠ v := fun heq => huv (Fin.ext heq)
      rw [update_of_ne (by simpa using huv)]
      simp only [view, hpte, if_neg hne]

theorem kernel_setWord (hs : Space m ρ o d h) (hv : v < 2 ^ 20)
    (ht : m.table d (v / NPTENTRIES) = some t) (hw : 2 ^ 19 ≤ v → w &&& PTE_U = 0) :
    ∀ u x, 2 ^ 19 ≤ u → u < 2 ^ 20 → (m.setWord t (v % NPTENTRIES) w).pte d u = some x →
      x &&& PTE_U = 0 := by
  intro u x hlo hhi hx
  rw [hs.pte_setWord hv ht hhi] at hx
  split_ifs at hx with huv hp
  · cases hx
    exact hw (huv ▸ hlo)
  · exact hs.kernel u x hlo hhi hx

end Space
end Xv6.Vm
