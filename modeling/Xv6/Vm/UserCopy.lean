import Xv6.Lib.Safety
import Xv6.Vm.Copy

/-!
# Writing to user pages

The bytes of a user page are only written by `loaduvm` and `copyout`.
-/

namespace Xv6.Vm

open Lib Lib.Prog

variable {K : Image} {H : Handler Op Panic Kmem} {E : Panic → Prop} {m m' : Kmem} {ρ ρ' : Roles} {o : Owner} {c d f : Frame}
  {h : Option Frame} {a i len n off v va oldsz newsz sz : ℕ} {w perm : Word} {free : List Frame}

/-- `perform` without writes of bytes to pages. -/
def performQuiet (K : Image) : Handler Op Panic Kmem
  | _, .write .., _ => .error .trap
  | _, o, m => perform K _ o m

instance : Acts (performQuiet K) K := ⟨fun o _ ho => by
  cases o with
  | write => exact absurd trivial ho
  | _ => rfl⟩

def UserWrite (free : List Frame) : ∀ β, Op β → Kmem → Prop
  | _, .write f off len _, m => f ∈ free ∧ off + len ≤ PGSIZE ∧
      ∃ d ∈ free, ∃ v < 2 ^ 19, ∃ w, m.pte d v = some w ∧ w &&& PTE_U ≠ 0 ∧ pteAddr w = f
  | _, _, _ => True

abbrev WU (K : Image) (free : List Frame) (E : Panic → Prop) {α : Type} (p : VmProg α)
    (Q : α → Kmem → Prop) (m : Kmem) : Prop := Meets (perform K) (UserWrite free) E p Q m

theorem wu_of_w {α : Type} {p : VmProg α} {Q : α → Kmem → Prop}
    (hw : W (performQuiet K) (fun _ => False) p Q m) : WU K free E p Q m := by
  induction p generalizing m with
  | pure a => exact meets_pure hw
  | fault f => exact hw.elim
  | op o k ih =>
    have hrule : UserWrite free _ o m ∧ performQuiet K _ o m = perform K _ o m := by
      cases o with
      | write => exact hw.elim
      | _ => exact ⟨trivial, rfl⟩
    simp only [W, WP, run, hrule.2] at hw
    cases hok : perform K _ o m with
    | error f =>
      rw [hok] at hw
      exact hw.elim
    | ok r =>
      rw [hok] at hw
      exact meets_bind (k := k) (meets_call hrule.1 hok (ih r.1 hw))

def Kmem.userByte (m : Kmem) (d : Frame) (a : ℕ) : Option Byte :=
  (m.pte d (a / PGSIZE)).map fun w => (m.page (pteAddr w)).get (a % PGSIZE)

def Kmem.userWord (m : Kmem) (d : Frame) (a : ℕ) : Option Word :=
  (m.pte d (a / PGSIZE)).map fun w => (m.page (pteAddr w)).word (a % PGSIZE)

theorem Kmem.userByte_eq (m : Kmem) (d : Frame) (a : ℕ) :
    m.userByte d a = (m.mapped d (a / PGSIZE)).map fun x => x.2.get (a % PGSIZE) := by
  rw [Kmem.userByte, Kmem.mapped, Option.map_map]
  rfl

theorem Kmem.userWord_eq (m : Kmem) (d : Frame) (a : ℕ) :
    m.userWord d a = (m.mapped d (a / PGSIZE)).map fun x => x.2.word (a % PGSIZE) := by
  rw [Kmem.userWord, Kmem.mapped, Option.map_map]
  rfl

theorem Kmem.setPage_page (m : Kmem) (f : Frame) : m.setPage f (m.page f) = m := by
  rw [Kmem.setPage, Function.update_eq_self]

theorem Kmem.setPage_setPage (m : Kmem) (f : Frame) (X Y : Page) :
    (m.setPage f X).setPage f Y = m.setPage f Y := by
  rw [Kmem.setPage, Kmem.setPage, Kmem.setPage, Function.update_idem]

def Kmem.filled (m : Kmem) (ρ : ℕ → Option Role) (o : Owner) (X : ℕ → Page) : Kmem where
  freelist := m.freelist
  page f := match ρ f with
    | some (.space o' (.user u)) => if o' = o then X u else m.page f
    | _ => m.page f

theorem At.fill (ha : At K m ρ o d h) (X : ℕ → Page) :
    ∃ m', At K m' ρ o d h ∧ m'.freelist = m.freelist ∧ (∀ u < 2 ^ 20, m'.pte d u = m.pte d u) ∧
      ∀ u < 2 ^ 19, ∀ x, m.pte d u = some x → m'.page (pteAddr x) = X u := by
  have hpage : ∀ f, (ρ f = some (.space o .dir) ∨ ∃ i, ρ f = some (.space o (.table i))) →
      (m.filled ρ o X).page f = m.page f := by
    intro f hf
    rcases hf with hf | ⟨i, hf⟩
    · simp only [Kmem.filled, hf]
    · simp only [Kmem.filled, hf]
  refine ⟨m.filled ρ o X, ⟨ha.frame (fun _ _ => Iff.rfl) hpage, ha.books⟩, rfl,
    fun u hu => ha.pte_frame hpage hu, fun u hu x hx => ?_⟩
  simp only [Kmem.filled, ha.role_user hu hx, if_true]

theorem At.setUser (ha : At K m ρ o d h) (hv : v < 2 ^ 19) (hw : m.pte d v = some w) (X : Page) :
    At K (m.setPage (pteAddr w) X) ρ o d h ∧ Keeps o m ρ (m.setPage (pteAddr w) X) ρ ∧
      (∀ i, (m.setPage (pteAddr w) X).table d i = m.table d i) ∧
      ∀ u < 2 ^ 20, (m.setPage (pteAddr w) X).pte d u = m.pte d u := by
  obtain ⟨ha₁, halt⟩ := ha.writeUser (S := {v}) hv hw rfl X
  have hsame : ∀ g, (ρ g = some (.space o .dir) ∨ ∃ i, ρ g = some (.space o (.table i))) →
      (m.setPage (pteAddr w) X).page g = m.page g :=
    page_frame (ha.role_user hv hw) (by simp) (by simp) fun g hg => Kmem.setPage_page_of_ne _ hg
  exact ⟨ha₁, halt.toKeeps, Kmem.table_congr (hsame d (.inl ha.role_dir)),
    fun u hu => ha.pte_frame hsame hu⟩

def Accessible (m : Kmem) (d : Frame) (v : ℕ) : Prop := ∃ w, m.pte d v = some w ∧ w &&& PTE_U ≠ 0

theorem Space.accessible_lt (hs : Space m ρ o d h) (hv : v < 2 ^ 20) (hw : m.pte d v = some w)
    (hU : w &&& PTE_U ≠ 0) : v < 2 ^ 19 := by
  by_contra hge
  exact hU (hs.kernel v w (by omega) hv hw)

theorem w_uva2ka [Acts H K] {Q : Option Frame → Kmem → Prop} (hv : v < 2 ^ 20)
    (htable : m.table d (v / NPTENTRIES) ≠ none) (hbad : ¬ Accessible m d v → Q none m)
    (hok : ∀ w, m.pte d v = some w → w &&& PTE_U ≠ 0 → Q (some (pteAddr w)) m) :
    W H E (uva2ka c d (v * PGSIZE)) Q m := by
  have hlt : v * PGSIZE < 2 ^ 32 := by
    simp only [PGSIZE]
    omega
  rw [uva2ka, w_bind, w_walkpgdir_false, ptx_eq, pdx_eq hlt, Nat.mul_div_cancel v (by decide)]
  cases ht : m.table d (v / NPTENTRIES) with
  | none => exact absurd ht htable
  | some t =>
    simp only [Option.map_some]
    rw [w_bind, w_load]
    by_cases hp : m.word t (v % NPTENTRIES) &&& PTE_P = 0
    · have hnone : m.pte d v = none := by
        rw [Kmem.pte_eq_of_table ht, if_neg (not_not.mpr hp)]
      rw [if_pos hp]
      refine hbad fun ⟨w, hw, _⟩ => ?_
      rw [hnone] at hw
      cases hw
    · have hw : m.pte d v = some (m.word t (v % NPTENTRIES)) := by
        rw [Kmem.pte_eq_of_table ht, if_pos hp]
      rw [if_neg hp]
      by_cases hU : m.word t (v % NPTENTRIES) &&& PTE_U = 0
      · rw [if_pos hU]
        refine hbad fun ⟨w, hw', hU'⟩ => hU' ?_
        rw [hw] at hw'
        cases hw'
        exact hU
      · rw [if_neg hU]
        exact hok _ hw hU

theorem w_uva2ka_null [Acts H K] {Q : Option Frame → Kmem → Prop} {x : Word} (hv : v < 2 ^ 20)
    (htable : m.table d (v / NPTENTRIES) = none) (hw : m.pte c 0 = some w)
    (hx : m.word (pteAddr w) 0 = x)
    (hQ : Q (if x &&& PTE_P = 0 then none else if x &&& PTE_U = 0 then none else some (pteAddr x)) m) :
    W H E (uva2ka c d (v * PGSIZE)) Q m := by
  have hlt : v * PGSIZE < 2 ^ 32 := by
    simp only [PGSIZE]
    omega
  obtain ⟨t, ht, hword, hp⟩ := Kmem.pte_eq_some.mp hw
  rw [uva2ka, w_bind, w_walkpgdir_false, ptx_eq, pdx_eq hlt, Nat.mul_div_cancel v (by decide), htable,
    Option.map_none, w_bind, readNull, w_bind, w_walkpgdir_false, ptx_eq, pdx_eq (by decide)]
  change m.table c (0 / PGSIZE / NPTENTRIES) = some t at ht
  rw [ht, Option.map_some, w_bind, w_load]
  change m.word t (0 / PGSIZE % NPTENTRIES) = w at hword
  rw [hword, if_neg hp, w_load, hx]
  beta_reduce
  split_ifs at hQ ⊢ <;> exact hQ

theorem w_clearpteu [Acts H K] {Q : Unit → Kmem → Prop} (ha : At K m ρ o d h) (hv : v < 2 ^ 19)
    (hw : m.pte d v = some w) (hQ : ∀ m', At K m' ρ o d h → Alters o d {v} m ρ m' ρ →
      m'.pte d v = some (w &&& ~~~PTE_U) → m'.page (pteAddr w) = m.page (pteAddr w) → Q () m') :
    W H E (clearpteu d (v * PGSIZE)) Q m := by
  have hlt : v * PGSIZE < 2 ^ 32 := by
    simp only [PGSIZE]
    omega
  obtain ⟨t, ht, hword, hp⟩ := Kmem.pte_eq_some.mp hw
  have hp' : w &&& ~~~PTE_U &&& PTE_P ≠ 0 := by
    have hand : w &&& ~~~PTE_U &&& PTE_P = w &&& PTE_P := by
      rw [BitVec.and_assoc]
      rfl
    rw [hand]
    exact hp
  rw [clearpteu, w_bind, w_walkpgdir_false, ptx_eq, pdx_eq hlt, Nat.mul_div_cancel v (by decide), ht]
  simp only [Option.map_some]
  rw [w_bind, w_load, hword, w_store]
  obtain ⟨ha', halt⟩ := ha.changeFlags (S := {v}) hv ht hw hp' (pteAddr_and_not (by decide)) rfl
  refine hQ _ ha' halt ?_ ?_
  · rw [ha.pte_setWord (by omega) ht (by omega), if_pos rfl, if_pos hp']
  · exact ha.setWord_page (by omega) ht _ _ _ (ha.role_user hv hw) (by simp)

section Copyout

variable {p : ℕ → Byte}
variable {Q : Bool → Kmem → Prop}

theorem wu_copyout_step (hva : va < 2 ^ 32) (hlen : 0 < len)
    (htable : m.table d (va / PGSIZE / NPTENTRIES) ≠ none)
    (hbad : ¬ Accessible m d (va / PGSIZE) → Q false m)
    (hok : ∀ w, m.pte d (va / PGSIZE) = some w → w &&& PTE_U ≠ 0 → K.Managed (pteAddr w) ∧
      UserWrite free Unit (.write (pteAddr w) (va % PGSIZE) (min (PGSIZE - va % PGSIZE) len) p) m ∧
      WU K free E (copyout c d ((va / PGSIZE + 1) % 2 ^ 20 * PGSIZE)
        (fun i => p (min (PGSIZE - va % PGSIZE) len + i)) (len - min (PGSIZE - va % PGSIZE) len)) Q
        (m.setPage (pteAddr w) ((m.page (pteAddr w)).blit (va % PGSIZE)
          (min (PGSIZE - va % PGSIZE) len) p))) : WU K free E (copyout c d va p len) Q m := by
  have hdown : pgrounddown va = va / PGSIZE * PGSIZE := rfl
  have hoff : va - va / PGSIZE * PGSIZE = va % PGSIZE := by
    simp only [PGSIZE]
    omega
  have hnext : (va / PGSIZE * PGSIZE + PGSIZE) % 2 ^ 32 = (va / PGSIZE + 1) % 2 ^ 20 * PGSIZE := by
    simp only [PGSIZE]
    omega
  have hpage : va / PGSIZE < 2 ^ 20 := by
    simp only [PGSIZE]
    omega
  rw [copyout, dif_pos hlen]
  simp only [hdown, hoff, hnext]
  refine meets_bind (wu_of_w (w_uva2ka hpage htable (fun hacc => ?_) fun w hw hU => ?_))
  · exact meets_pure (hbad hacc)
  · obtain ⟨hman, hwrite, hrest⟩ := hok w hw hU
    exact meets_bind (meets_call hwrite (if_pos hman) hrest)

theorem wu_copyout_nil (hlen : len = 0) (hQ : Q true m) :
    WU K free E (copyout c d va p len) Q m := by
  rw [copyout, dif_neg (by omega)]
  exact meets_pure hQ

theorem wu_copyout_page (hs : At K m ρ o d h)
    (hfree : ∀ f q, ρ f = some (.space o q) → f ∈ free) (hv : v < 2 ^ 20) (hw : m.pte d v = some w)
    (hU : w &&& PTE_U ≠ 0) (hlen : 0 < len) (hoff : off + len ≤ PGSIZE)
    (hQ : Q true (m.setPage (pteAddr w) ((m.page (pteAddr w)).blit off len p))) :
    WU K free E (copyout c d (v * PGSIZE + off) p len) Q m := by
  have hdiv : (v * PGSIZE + off) / PGSIZE = v := by
    simp only [PGSIZE] at *
    omega
  have hmod : (v * PGSIZE + off) % PGSIZE = off := by
    simp only [PGSIZE] at *
    omega
  have hmin : min (PGSIZE - off) len = len := Nat.min_eq_right (by omega)
  have hlt := hs.accessible_lt hv hw hU
  refine wu_copyout_step (by simp only [PGSIZE] at *; omega) hlen (fun hnone => ?_) (fun hacc => ?_)
    fun w' hw' _ => ?_
  · rw [hdiv] at hnone
    rw [Kmem.pte_eq_none_of_table hnone] at hw
    cases hw
  · rw [hdiv] at hacc
    exact absurd ⟨w, hw, hU⟩ hacc
  · rw [hdiv, hw] at hw'
    cases hw'
    rw [hmod, hmin, Nat.sub_self]
    exact ⟨hs.books.managed_of_role (hs.role_user hlt hw), ⟨hfree _ _ (hs.role_user hlt hw), hoff, d, hfree _ _ hs.role_dir, v, hlt, w, hw, hU, rfl⟩,
      wu_copyout_nil rfl hQ⟩

theorem copyout_left (va len j : ℕ) :
    j * PGSIZE < len - min (PGSIZE - va % PGSIZE) len ↔ (j + 1) * PGSIZE < va % PGSIZE + len := by
  simp only [PGSIZE]
  omega

theorem wu_copyout (ha : At K m ρ o d none)
    (hfree : ∀ f q, ρ f = some (.space o q) → f ∈ free) (hva : va < 2 ^ 32) (hlen : 0 < len)
    (htable : ∀ k, k * PGSIZE < va % PGSIZE + len →
      (∀ j < k, Accessible m d ((va / PGSIZE + j) % 2 ^ 20)) →
      m.table d ((va / PGSIZE + k) % 2 ^ 20 / NPTENTRIES) ≠ none)
    (hQ : ∀ b m', At K m' ρ o d none → Keeps o m ρ m' ρ → (b = true →
      ∀ k, k * PGSIZE < va % PGSIZE + len → Accessible m d ((va / PGSIZE + k) % 2 ^ 20)) → Q b m') :
    WU K free E (copyout c d va p len) Q m := by
  induction hk : len using Nat.strong_induction_on generalizing va p len m with
  | _ k ih =>
    subst hk
    have hpage : (va / PGSIZE + 0) % 2 ^ 20 = va / PGSIZE := by
      simp only [PGSIZE]
      omega
    have hn : 0 < min (PGSIZE - va % PGSIZE) len := by
      simp only [PGSIZE]
      omega
    refine wu_copyout_step hva hlen ?_ (fun hacc => ?_) fun w hw hU => ?_
    · have hfirst := htable 0 (by rw [Nat.zero_mul]; exact Nat.lt_of_lt_of_le hlen (Nat.le_add_left _ _))
        fun j hj => absurd hj (Nat.not_lt_zero j)
      rw [hpage] at hfirst
      exact hfirst
    · refine hQ false m ha (.refl o m ρ) (nomatch ·)
    · have hv := ha.accessible_lt (by simp only [PGSIZE]; omega) hw hU
      have hacc : Accessible m d (va / PGSIZE) := ⟨w, hw, hU⟩
      refine ⟨ha.books.managed_of_role (ha.role_user hv hw), ⟨hfree _ _ (ha.role_user hv hw), ?_, d,
        hfree _ _ ha.role_dir, _, hv, w, hw, hU, rfl⟩, ?_⟩
      · simp only [PGSIZE]
        omega
      obtain ⟨ha₁, hkeep₁, htab, hpte⟩ := ha.setUser hv hw
        ((m.page (pteAddr w)).blit (va % PGSIZE) (min (PGSIZE - va % PGSIZE) len) p)
      set m₁ := m.setPage (pteAddr w) ((m.page (pteAddr w)).blit (va % PGSIZE)
        (min (PGSIZE - va % PGSIZE) len) p)
      have hacc' : ∀ u, Accessible m₁ d (u % 2 ^ 20) ↔ Accessible m d (u % 2 ^ 20) := fun u => by
        simp only [Accessible, hpte _ (Nat.mod_lt u (by decide))]
      -- The page with index `j` of the rest is the one with index `j + 1`.
      have hidx : ∀ j, ((va / PGSIZE + 1) % 2 ^ 20 * PGSIZE / PGSIZE + j) % 2 ^ 20 =
          (va / PGSIZE + (j + 1)) % 2 ^ 20 := by
        intro j
        rw [Nat.mul_div_cancel _ (by decide), Nat.mod_add_mod]
        congr 1
        omega
      by_cases hend : len - min (PGSIZE - va % PGSIZE) len = 0
      · refine wu_copyout_nil hend (hQ true m₁ ha₁ hkeep₁ fun _ j hj => ?_)
        have hj0 : j = 0 := by
          simp only [PGSIZE] at *
          omega
        rw [hj0, hpage]
        exact hacc
      · have hreach : ∀ j, j * PGSIZE < (va / PGSIZE + 1) % 2 ^ 20 * PGSIZE % PGSIZE +
            (len - min (PGSIZE - va % PGSIZE) len) ↔ (j + 1) * PGSIZE < va % PGSIZE + len := by
          intro j
          rw [Nat.mul_mod_left, Nat.zero_add, copyout_left]
        refine ih _ (by omega) ha₁ ?_ (by omega) (fun j hj hacc₁ => ?_)
          (fun b m' ha' hkeep hb => ?_) rfl
        · have := Nat.mod_lt (va / PGSIZE + 1) (show 0 < 2 ^ 20 by decide)
          simp only [PGSIZE] at *
          omega
        · rw [hidx, htab]
          refine htable (j + 1) ((hreach j).mp hj) fun i hi => ?_
          cases i with
          | zero =>
            rw [hpage]
            exact hacc
          | succ i =>
            have hi' := hacc₁ i (by omega)
            rw [hidx, hacc'] at hi'
            exact hi'
        · refine hQ b m' ha' (hkeep₁.trans hkeep) fun htrue j hj => ?_
          cases j with
          | zero =>
            rw [hpage]
            exact hacc
          | succ j =>
            have hj' := hb htrue j ((hreach j).mpr hj)
            rw [hidx, hacc'] at hj'
            exact hj'

theorem w_copyout_null {x : Word} (hv : v < 2 ^ 20)
    (htable : m.table d (v / NPTENTRIES) = none) (hw : m.pte c 0 = some w)
    (hx : m.word (pteAddr w) 0 = x) (hlen : PGSIZE ≤ len) (hbad : x &&& PTE_U = 0 → Q false m)
    (hok : x &&& PTE_U ≠ 0 → x &&& PTE_P ≠ 0 ∧ if K.Managed (pteAddr x) then
      W (perform K) E (copyout c d ((v + 1) % 2 ^ 20 * PGSIZE) (fun i => p (PGSIZE + i)) (len - PGSIZE)) Q
        (m.setPage (pteAddr x) ((m.page (pteAddr x)).blit 0 PGSIZE p)) else E .trap) :
    W (perform K) E (copyout c d (v * PGSIZE) p len) Q m := by
  have hdown : pgrounddown (v * PGSIZE) = v * PGSIZE := by
    rw [pgrounddown, Nat.mul_div_cancel v (by decide)]
  have hnext : (v * PGSIZE + PGSIZE) % 2 ^ 32 = (v + 1) % 2 ^ 20 * PGSIZE := by
    simp only [PGSIZE]
    omega
  have hmin : min (PGSIZE - 0) len = PGSIZE := Nat.min_eq_left hlen
  rw [copyout, dif_pos (Nat.lt_of_lt_of_le (by decide) hlen)]
  simp only [hdown, Nat.sub_self, hmin, hnext]
  rw [w_bind]
  refine w_uva2ka_null hv htable hw hx ?_
  by_cases hU : x &&& PTE_U = 0
  · rw [if_pos hU, ite_self]
    exact hbad hU
  · obtain ⟨hP, hwrite⟩ := hok hU
    rw [if_neg hP, if_neg hU, w_bind, w_write]
    exact hwrite

/-- `m'` is `m` with `n` bytes of `p` in accessible pages, from the address `va` on. -/
structure CopiedOut (m m' : Kmem) (d : Frame) (va n : ℕ) (p : ℕ → Byte) : Prop where
  freelist : m'.freelist = m.freelist
  accessible : ∀ a, va ≤ a → a < va + n → Accessible m d (a / PGSIZE)
  bytes : ∀ a < KERNBASE, m'.userByte d a =
    if va ≤ a ∧ a < va + n then some (p (a - va)) else m.userByte d a
  rest : ∀ f, (∀ a w, va ≤ a → a < va + n → m.pte d (a / PGSIZE) = some w → pteAddr w ≠ f) →
    m'.page f = m.page f

theorem CopiedOut.nil : CopiedOut m m d va 0 p :=
  ⟨rfl, fun a _ _ => by omega, fun a _ => by rw [if_neg (by omega)], fun _ _ => rfl⟩

theorem CopiedOut.trans {m₁ : Kmem} {n₁ n₂ : ℕ} (h₁ : CopiedOut m m₁ d va n₁ p)
    (h₂ : CopiedOut m₁ m' d (va + n₁) n₂ fun i => p (n₁ + i))
    (hpte : ∀ u < 2 ^ 20, m₁.pte d u = m.pte d u) (hlt : va + (n₁ + n₂) ≤ 2 ^ 32) :
    CopiedOut m m' d va (n₁ + n₂) p := by
  have hpage : ∀ a < va + (n₁ + n₂), a / PGSIZE < 2 ^ 20 := fun a ha => by
    simp only [PGSIZE]
    omega
  refine ⟨h₂.freelist.trans h₁.freelist, fun a hlo hhi => ?_, fun a ha => ?_, fun f hf => ?_⟩
  · by_cases hfirst : a < va + n₁
    · exact h₁.accessible a hlo hfirst
    · have hacc := h₂.accessible a (by omega) (by omega)
      rwa [Accessible, hpte _ (hpage a hhi)] at hacc
  · rw [h₂.bytes a ha, h₁.bytes a ha]
    by_cases hfirst : a < va + n₁
    · rw [if_neg (by omega)]
      split_ifs <;> first | rfl | omega
    · by_cases hsecond : va + n₁ ≤ a ∧ a < va + n₁ + n₂
      · rw [if_pos hsecond, if_pos (by omega), show n₁ + (a - (va + n₁)) = a - va by omega]
      · rw [if_neg hsecond, if_neg (by omega), if_neg (by omega)]
  · rw [h₂.rest f fun a w hlo hhi hw => ?_, h₁.rest f fun a w hlo hhi => hf a w hlo (by omega)]
    rw [hpte _ (hpage a (by omega))] at hw
    exact hf a w (by omega) (by omega) hw

theorem At.copiedOut (ha : At K m ρ o d none) (hw : m.pte d (va / PGSIZE) = some w)
    (hU : w &&& PTE_U ≠ 0) (hva : va < 2 ^ 32) (hpos : 0 < n) (hn : va % PGSIZE + n ≤ PGSIZE) :
    CopiedOut m (m.setPage (pteAddr w) ((m.page (pteAddr w)).blit (va % PGSIZE) n p)) d va n p := by
  have hlt := ha.accessible_lt (by simp only [PGSIZE]; omega) hw hU
  have hsame : ∀ a, va ≤ a → a < va + n → a / PGSIZE = va / PGSIZE := fun a hlo hhi => by
    simp only [PGSIZE] at *
    omega
  refine ⟨rfl, fun a hlo hhi => ⟨w, by rw [hsame a hlo hhi, hw], hU⟩, fun a hk => ?_, fun f hf => ?_⟩
  · have hpage : a / PGSIZE < 2 ^ 19 := by
      simp only [PGSIZE, KERNBASE] at *
      omega
    have hpte := (ha.setUser hlt hw ((m.page (pteAddr w)).blit (va % PGSIZE) n p)).2.2.2
      (a / PGSIZE) (by omega)
    rw [Kmem.userByte, Kmem.userByte, hpte]
    by_cases heq : a / PGSIZE = va / PGSIZE
    · rw [heq, hw, Option.map_some, Option.map_some, Kmem.setPage_page_self,
        Bytes.get_blit _ _ _ _ _ hn]
      have hiff : va % PGSIZE ≤ a % PGSIZE ∧ a % PGSIZE < va % PGSIZE + n ↔ va ≤ a ∧ a < va + n := by
        simp only [PGSIZE] at *
        omega
      simp only [hiff]
      split_ifs with hin
      · rw [show a % PGSIZE - va % PGSIZE = a - va by simp only [PGSIZE] at *; omega]
      · rfl
    · rw [if_neg fun hin => heq (hsame a hin.1 hin.2)]
      cases hx : m.pte d (a / PGSIZE) with
      | none => rfl
      | some x =>
        have hne : pteAddr x ≠ pteAddr w := by
          refine ne_of_role (ha.role_user hlt hw) (ha.role_user hpage hx) ?_
          simpa using heq
        simp only [Option.map_some, Kmem.setPage_page_of_ne _ hne]
  · exact Kmem.setPage_page_of_ne _ fun heq => hf va w le_rfl (by omega) hw heq.symm

/-- `copyout` gets from `va` to the page of `a`: those before it are accessible. -/
def Reaches (m : Kmem) (d : Frame) (va a : ℕ) : Prop :=
  va ≤ a ∧ ∀ b, va ≤ b → b / PGSIZE < a / PGSIZE → Accessible m d (b / PGSIZE)

theorem Reaches.of_first (hn : va % PGSIZE + n ≤ PGSIZE) (hfirst : Accessible m d (va / PGSIZE))
    (hpte : ∀ u < 2 ^ 20, m'.pte d u = m.pte d u) (ha : a < 2 ^ 32) (hr : Reaches m' d (va + n) a) :
    Reaches m d va a := by
  refine ⟨by have := hr.1; omega, fun b hlo hhi => ?_⟩
  by_cases hb : b < va + n
  · have hsame : b / PGSIZE = va / PGSIZE := by
      simp only [PGSIZE] at *
      omega
    rwa [hsame]
  · have hacc := hr.2 b (by omega) hhi
    rwa [Accessible, hpte _ (by simp only [PGSIZE] at *; omega)] at hacc

theorem wu_copyout_bytes (ha : At K m ρ o d none)
    (hfree : ∀ f q, ρ f = some (.space o q) → f ∈ free) (hva : va + len ≤ 2 ^ 32)
    (htable : ∀ a < va + len, Reaches m d va a → m.table d (a / PGSIZE / NPTENTRIES) ≠ none) :
    WU K free E (copyout c d va p len) (fun b m' => ∃ n ≤ len, CopiedOut m m' d va n p ∧
      (b = true → n = len) ∧
      (b = false → ∃ a, va ≤ a ∧ a < va + len ∧ ¬ Accessible m d (a / PGSIZE))) m := by
  induction hk : len using Nat.strong_induction_on generalizing va p len m with
  | _ k ih =>
    subst hk
    rcases Nat.eq_zero_or_pos len with rfl | hlen
    · exact wu_copyout_nil rfl ⟨0, le_rfl, .nil, fun _ => rfl, nofun⟩
    refine wu_copyout_step (by omega) hlen (htable va (by omega) ⟨le_rfl, fun b hlo hhi =>
        absurd hhi (Nat.div_le_div_right hlo).not_gt⟩)
      (fun hacc => ⟨0, Nat.zero_le _, .nil, nofun, fun _ => ⟨va, le_rfl, by omega, hacc⟩⟩)
      fun w hw hU => ?_
    have hpos : 0 < min (PGSIZE - va % PGSIZE) len := by
      simp only [PGSIZE]
      omega
    have hn : va % PGSIZE + min (PGSIZE - va % PGSIZE) len ≤ PGSIZE := by
      simp only [PGSIZE]
      omega
    have hv := ha.accessible_lt (by simp only [PGSIZE]; omega) hw hU
    refine ⟨ha.books.managed_of_role (ha.role_user hv hw), ⟨hfree _ _ (ha.role_user hv hw), hn, d,
      hfree _ _ ha.role_dir, _, hv, w, hw, hU, rfl⟩, ?_⟩
    have hfirst := ha.copiedOut (p := p) hw hU (by omega) hpos hn
    obtain ⟨ha₁, -, htab, hpte⟩ := ha.setUser hv hw
      ((m.page (pteAddr w)).blit (va % PGSIZE) (min (PGSIZE - va % PGSIZE) len) p)
    set m₁ := m.setPage (pteAddr w) ((m.page (pteAddr w)).blit (va % PGSIZE)
      (min (PGSIZE - va % PGSIZE) len) p)
    by_cases hend : len - min (PGSIZE - va % PGSIZE) len = 0
    · refine wu_copyout_nil hend ⟨len, le_rfl, ?_, fun _ => rfl, nofun⟩
      rwa [show min (PGSIZE - va % PGSIZE) len = len by omega] at hfirst
    · have hnext : (va / PGSIZE + 1) % 2 ^ 20 * PGSIZE = va + min (PGSIZE - va % PGSIZE) len := by
        simp only [PGSIZE] at *
        omega
      rw [hnext]
      refine (ih _ (by omega) ha₁ (by omega) (fun a hhi hr => ?_) rfl).mono ?_
      · rw [htab]
        exact htable a (by omega) (hr.of_first hn ⟨w, hw, hU⟩ hpte (by omega))
      · rintro b m' ⟨n, hle, hcopy, htrue, hfalse⟩
        refine ⟨_, ?_, hfirst.trans hcopy hpte (by omega), fun hb => ?_, fun hb => ?_⟩
        · omega
        · have := htrue hb
          omega
        · obtain ⟨a, hlo, hhi, hacc⟩ := hfalse hb
          rw [Accessible, hpte _ (by simp only [PGSIZE]; omega)] at hacc
          exact ⟨a, by omega, by omega, hacc⟩

theorem w_uva2ka_trap [Acts H K] {Q : Option Frame → Kmem → Prop} (hE : E .trap) (hv : v < 2 ^ 20)
    (htable : m.table d (v / NPTENTRIES) = none) (hc : m.pte c 0 = none) :
    W H E (uva2ka c d (v * PGSIZE)) Q m := by
  have hlt : v * PGSIZE < 2 ^ 32 := by
    simp only [PGSIZE]
    omega
  rw [uva2ka, w_bind, w_walkpgdir_false, ptx_eq, pdx_eq hlt, Nat.mul_div_cancel v (by decide), htable,
    Option.map_none, w_bind, readNull, w_bind, w_walkpgdir_false, ptx_eq, pdx_eq (by decide)]
  cases ht : m.table c (0 / PGSIZE / NPTENTRIES) with
  | none => exact hE
  | some t =>
    have hp : m.word t (0 / PGSIZE % NPTENTRIES) &&& PTE_P = 0 := by
      by_contra hp
      have hsome := (if_pos hp).symm.trans ((Kmem.pte_eq_of_table (v := 0) ht).symm.trans hc)
      cases hsome
    rw [Option.map_some, w_bind, w_load, if_pos hp]
    exact hE

theorem w_copyout_trap {o' : Owner} {h' : Option Frame} (ha : At K m ρ o d none)
    (hs : Space m ρ o' c h') (hc : m.pte c 0 = none) (hva : va + len ≤ 2 ^ 32)
    (hlt : a < va + len) (hr : Reaches m d va a) (hnone : m.table d (a / PGSIZE / NPTENTRIES) = none) :
    W (perform K) (· = .trap) (copyout c d va p len) (fun _ _ => False) m := by
  induction hk : len using Nat.strong_induction_on generalizing va p len m with
  | _ k ih =>
    subst hk
    have hle := hr.1
    have hdown : pgrounddown va = va / PGSIZE * PGSIZE := rfl
    have hpage : va / PGSIZE < 2 ^ 20 := by
      simp only [PGSIZE]
      omega
    rw [copyout, dif_pos (by omega), w_bind, hdown]
    by_cases hfirst : va / PGSIZE < a / PGSIZE
    · obtain ⟨w, hw, hU⟩ := hr.2 va le_rfl hfirst
      have hv := ha.accessible_lt hpage hw hU
      have htab : m.table d (va / PGSIZE / NPTENTRIES) ≠ none := fun hnone => by
        rw [Kmem.pte_eq_none_of_table hnone] at hw
        cases hw
      refine w_uva2ka hpage htab (fun hno => absurd ⟨w, hw, hU⟩ hno) fun w' hw' _ => ?_
      obtain rfl : w = w' := Option.some.inj (hw.symm.trans hw')
      rw [w_bind, w_write, if_pos (ha.books.managed_of_role (ha.role_user hv hw))]
      set n := min (PGSIZE - (va - va / PGSIZE * PGSIZE)) len with hn
      have hnext : (va / PGSIZE * PGSIZE + PGSIZE) % 2 ^ 32 = va + n := by
        simp only [PGSIZE] at *
        omega
      rw [hnext]
      obtain ⟨ha₁, -, htab₁, hpte⟩ := ha.setUser hv hw
        ((m.page (pteAddr w)).blit (va - va / PGSIZE * PGSIZE) n p)
      have hsame := page_frame (m := m) (o := o') (ha.role_user hv hw) (by simp) (by simp) fun g hg =>
        Kmem.setPage_page_of_ne ((m.page (pteAddr w)).blit (va - va / PGSIZE * PGSIZE) n p) hg
      refine ih _ (by simp only [PGSIZE] at *; omega) ha₁ (hs.frame (fun _ _ => Iff.rfl) hsame) ?_
        (by simp only [PGSIZE] at *; omega) (by simp only [PGSIZE] at *; omega)
        ⟨by simp only [PGSIZE] at *; omega, fun b hlo hhi => ?_⟩ ((htab₁ _).trans hnone) rfl
      · rw [hs.pte_frame hsame (by decide), hc]
      · have hacc := hr.2 b (by omega) hhi
        rwa [Accessible, hpte _ (by simp only [PGSIZE] at *; omega)]
    · have hsame : a / PGSIZE = va / PGSIZE := le_antisymm (Nat.not_lt.mp hfirst) (Nat.div_le_div_right hle)
      rw [hsame] at hnone
      exact w_uva2ka_trap rfl hpage hnone hc

theorem copyout_user_pages (ha : At K m ρ o d none) (hva : va + len ≤ 2 ^ 32) :
    ((∀ a < va + len, Reaches m d va a → m.table d (a / PGSIZE / NPTENTRIES) ≠ none) →
      ∃ b m' n, (copyout c d va p len).run (perform K) m = .ok (b, m') ∧
        (b = true ↔ ∀ a, va ≤ a → a < va + len → Accessible m d (a / PGSIZE)) ∧
        n ≤ len ∧ (b = true → n = len) ∧ CopiedOut m m' d va n p) ∧
    ∀ a < va + len, Reaches m d va a → m.table d (a / PGSIZE / NPTENTRIES) = none →
      ∀ o' h', Space m ρ o' c h' → m.pte c 0 = none →
        (copyout c d va p len).run (perform K) m = .error .trap := by
  constructor
  · intro htable
    have hall : ∀ f q, ρ f = some (.space o q) → f ∈ List.range (2 ^ 20) := fun f q hf =>
      List.mem_range.mpr (ha.books.managed_of_role hf).lt
    obtain ⟨b, m', hrun, n, hle, hcopy, htrue, hfalse⟩ :=
      wp_returns (wu_copyout_bytes (E := fun _ => False) (c := c) (p := p) ha hall hva htable).wp
    refine ⟨b, m', n, hrun, ⟨fun hb => ?_, fun hacc => ?_⟩, hle, htrue, hcopy⟩
    · rw [htrue hb] at hcopy
      exact hcopy.accessible
    · by_contra hb
      obtain ⟨a, hlo, hhi, hno⟩ := hfalse (by simpa using hb)
      exact hno (hacc a hlo hhi)
  · intro a hlt hr hnone o' h' hs hc
    obtain ⟨q, hq, rfl⟩ := wp_faults (w_copyout_trap (p := p) ha hs hc hva hlt hr hnone)
    exact hq

theorem copyout_user_pages_onePage :
    ∃ b m' n, (copyout 512 512 10 (fun _ => 65) 5).run (perform smallImage) onePage = .ok (b, m') ∧
      b = true ∧ CopiedOut onePage m' 512 10 n fun _ => 65 := by
  obtain ⟨⟨ρ, ha, -⟩, hpte⟩ := onePage_at
  have hpage : ∀ a, 10 ≤ a → a < 10 + 5 → a / PGSIZE = 0 := fun a _ _ => by
    simp only [PGSIZE]
    omega
  obtain ⟨b, m', n, hrun, hb, -, -, hcopy⟩ := (copyout_user_pages (c := 512) (p := fun _ => 65) ha
    (show 10 + 5 ≤ 2 ^ 32 by decide)).1 fun a hhi hr hnone => by
      have h0 := hpte 0 (by decide)
      rw [hpage a hr.1 hhi] at hnone
      rw [Kmem.pte_eq_none_of_table hnone] at h0
      cases h0
  refine ⟨b, m', n, hrun, hb.mpr fun a hlo hhi => ?_, hcopy⟩
  rw [hpage a hlo hhi]
  exact ⟨_, hpte 0 (by decide), by decide⟩

/-- The word at address 0 is taken for the entry of a page whose page table is missing. -/
theorem copyout_writes_unmapped :
    ∃ m ρ, At smallImage m ρ (.proc 0) 512 none ∧ m.pte 512 1024 = none ∧
      ∃ m', (copyout 512 512 (1024 * PGSIZE) (fun _ => 65) PGSIZE).run (perform smallImage) m =
          .ok (true, m') ∧
        m.userByte 512 0 = some 7 ∧ m'.userByte 512 0 = some 65 := by
  obtain ⟨⟨ρ, ha, -⟩, hpte⟩ := onePage_at
  obtain ⟨hs, -, -, hsame⟩ := ha.setUser (by decide) (hpte 0 (by decide))
    (Bytes.setWord (fun _ => 0) 0 (pteOf 514 (PTE_W ||| PTE_U ||| PTE_P)))
  set m := onePage.setPage (pteAddr (pteOf 514 (PTE_W ||| PTE_U ||| PTE_P)))
    (Bytes.setWord (fun _ => 0) 0 (pteOf 514 (PTE_W ||| PTE_U ||| PTE_P)))
  have hfirst : m.pte 512 0 = some (pteOf 514 (PTE_W ||| PTE_U ||| PTE_P)) :=
    (hsame 0 (by decide)).trans (hpte 0 (by decide))
  have hrun : W (perform smallImage) (fun _ => False)
      (copyout 512 512 (1024 * PGSIZE) (fun _ => 65) PGSIZE)
      (fun b m' => b = true ∧ m'.userByte 512 0 = some 65) m := by
    have hword : m.word (pteAddr (pteOf 514 (PTE_W ||| PTE_U ||| PTE_P))) 0 =
        pteOf 514 (PTE_W ||| PTE_U ||| PTE_P) := by
      decide +kernel
    refine w_copyout_null (by decide) (by decide +kernel) hfirst hword le_rfl
      (fun hU => absurd hU (by decide)) fun _ => ⟨by decide, ?_⟩
    rw [if_pos (by decide), copyout, dif_neg (by decide)]
    have hkept := (hs.setUser (by decide) hfirst ((m.page (pteAddr (pteOf 514
      (PTE_W ||| PTE_U ||| PTE_P)))).blit 0 PGSIZE fun _ => 65)).2.2.2 0 (by decide)
    refine ⟨rfl, ?_⟩
    rw [Kmem.userByte, Nat.zero_div, hkept, hfirst, Option.map_some, Kmem.setPage_page_self]
    exact congrArg some (Bytes.get_blit_of_mem _ _ le_rfl (show 0 < PGSIZE by decide))
  obtain ⟨b, m', hok, rfl, hbyte⟩ := wp_returns hrun
  refine ⟨m, ρ, hs, ?_, m', hok, ?_, hbyte⟩
  · rw [hsame 1024 (by decide), hpte 1024 (by decide), if_neg (by decide)]
  · rw [Kmem.userByte, Nat.zero_div, hfirst]
    decide +kernel

end Copyout

end Xv6.Vm
