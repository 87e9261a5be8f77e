import Xv6.Exec.Model
import Xv6.Vm.UserCopy

/-!
# The stack of a new program

The stack is one page with a guard page below it, and the only test for the end of the page is that
of `copyout`.
-/

namespace Xv6.Exec

open Lib Lib.Prog Vm

variable {K : Image} {E : Vm.Panic → Prop} {free : List Frame} {m m' : Kmem} {ρ : Roles} {o : Owner}
  {c d : Frame} {w : Word} {v va len off : ℕ} {p : ℕ → Byte} {args : List (List Byte)}

/-- No address space has a page table between the physical memory and the devices. -/
def InGap (a : ℕ) : Prop := KERNBASE + PHYSTOP ≤ a ∧ a < DEVSPACE

/-- `uva2ka` reads an entry at address 0 when there is no page table, and does not accept it. -/
def NullRefused (m : Kmem) (c : Frame) : Prop :=
  ∃ w, m.pte c 0 = some w ∧ (m.word (pteAddr w) 0 &&& PTE_P = 0 ∨ m.word (pteAddr w) 0 &&& PTE_U = 0)

/-- The page `v` is the stack, with the entry `w`, and the page below it the guard page. -/
structure StackAt (K : Image) (free : List Frame) (m : Kmem) (ρ : Roles) (o : Owner) (d : Frame)
    (v : ℕ) (w : Word) : Prop extends At K m ρ o d none where
  owned : ∀ f q, ρ f = some (.space o q) → f ∈ free
  lt : v < 2 ^ 19
  pos : 0 < v
  stack : m.pte d v = some w
  user : w &&& PTE_U ≠ 0
  guard : ¬ Accessible m d (v - 1)
  below : ∀ u < v, m.pte d u ≠ none
  above : ∀ u, 2 ^ 19 ≤ u → u < 2 ^ 20 → ¬InGap (u * PGSIZE) → m.pte d u ≠ none

namespace StackAt

theorem setPage (hs : StackAt K free m ρ o d v w) (X : Page) :
    StackAt K free (m.setPage (pteAddr w) X) ρ o d v w := by
  have hrole := hs.role_user hs.lt hs.stack
  obtain ⟨ha, -⟩ := hs.toAt.writeUser (S := {v}) hs.lt hs.stack rfl X
  have hpte : ∀ u < 2 ^ 20, (m.setPage (pteAddr w) X).pte d u = m.pte d u := fun u hu =>
    hs.pte_frame (page_frame hrole (by simp) (by simp) fun g hg => Kmem.setPage_page_of_ne _ hg) hu
  have hlt := hs.lt
  exact
    { ha with
      owned := hs.owned
      lt := hs.lt
      pos := hs.pos
      stack := (hpte v (by omega)).trans hs.stack
      user := hs.user
      guard := fun ⟨x, hx, hU⟩ => hs.guard ⟨x, (hpte (v - 1) (by omega)).symm.trans hx, hU⟩
      below := fun u hu => by rw [hpte u (by omega)]; exact hs.below u hu
      above := fun u hlo hhi hgap => by rw [hpte u hhi]; exact hs.above u hlo hhi hgap }

theorem keeps_setPage (hs : StackAt K free m ρ o d v w) (X : Page) :
    Keeps o m ρ (m.setPage (pteAddr w) X) ρ :=
  (hs.toAt.writeUser (S := {v}) hs.lt hs.stack rfl X).2.toKeeps

theorem table_ne_none {u : ℕ} (hu : m.pte d u ≠ none) : m.table d (u / NPTENTRIES) ≠ none :=
  fun hnone => hu (Kmem.pte_eq_none_of_table hnone)

variable {Q : Bool → Kmem → Prop}

theorem copy (hs : StackAt K free m ρ o d v w) (hlen : 0 < len) (hoff : off + len ≤ PGSIZE)
    (hQ : Q true (m.setPage (pteAddr w) ((m.page (pteAddr w)).blit off len p))) :
    WU K free E (copyout c d (v * PGSIZE + off) p len) Q m :=
  wu_copyout_page hs.toAt hs.owned (by have := hs.lt; omega) hs.stack hs.user hlen hoff hQ

theorem guard_reached {k : ℕ} (hk : va / PGSIZE + k = v - 1) (hreach : (v - 1) * PGSIZE < va + len) :
    k * PGSIZE < va % PGSIZE + len := by
  apply Nat.lt_of_add_lt_add_left (n := va / PGSIZE * PGSIZE)
  calc va / PGSIZE * PGSIZE + k * PGSIZE = (v - 1) * PGSIZE := by rw [← Nat.add_mul, hk]
    _ < va + len := hreach
    _ = va / PGSIZE * PGSIZE + (va % PGSIZE + len) := by rw [← Nat.add_assoc, Nat.div_add_mod']

theorem refused_below (hs : StackAt K free m ρ o d v w)
    (hva : va < v * PGSIZE) (hreach : (v - 1) * PGSIZE < va + len)
    (hlen : 0 < len) (hQ : ∀ m', At K m' ρ o d none → Keeps o m ρ m' ρ → Q false m') :
    WU K free E (copyout c d va p len) Q m := by
  have hlt := hs.lt
  have hpos := hs.pos
  have hva32 : va < 2 ^ 32 := by
    simp only [PGSIZE] at hva
    omega
  -- The guard page has this index among the pages of the copy.
  obtain ⟨k, hk⟩ : ∃ k, va / PGSIZE + k = v - 1 :=
    ⟨v - 1 - va / PGSIZE, by simp only [PGSIZE] at *; omega⟩
  have hkreach := guard_reached hk hreach
  have hguard : ¬ Accessible m d ((va / PGSIZE + k) % 2 ^ 20) := by
    rw [hk, Nat.mod_eq_of_lt (by omega)]
    exact hs.guard
  refine wu_copyout hs.toAt hs.owned hva32 hlen (fun j _ hacc => ?_)
    fun b m' ha' hkeep hb => ?_
  · have hjk : j ≤ k := by
      by_contra hgt
      exact hguard (hacc k (by omega))
    rw [Nat.mod_eq_of_lt (by omega)]
    exact table_ne_none (hs.below _ (by omega))
  · cases b with
    | false => exact hQ m' ha' hkeep
    | true => exact absurd (hb rfl k hkreach) hguard

theorem wu_copyout_null (hhi : va < 2 ^ 32) (hlen : 0 < len)
    (htable : m.table d (va / PGSIZE / NPTENTRIES) = none) (hnull : NullRefused m c) (hQ : Q false m) :
    WU K free E (copyout c d va p len) Q m := by
  obtain ⟨w', hw', hx⟩ := hnull
  have hdown : pgrounddown va = va / PGSIZE * PGSIZE := rfl
  refine wu_of_w ?_
  rw [copyout, dif_pos hlen, w_bind, hdown]
  refine w_uva2ka_null (by simp only [PGSIZE]; omega) htable hw' rfl ?_
  split_ifs with hP hU
  · exact hQ
  · exact hQ
  · exact (hx.elim hP hU).elim

theorem refused_above (hs : StackAt K free m ρ o d v w) (hlo : KERNBASE ≤ va) (hhi : va < 2 ^ 32)
    (hlen : 0 < len) (hland : ¬InGap va ∨ NullRefused m c)
    (hQ : ∀ m', At K m' ρ o d none → Keeps o m ρ m' ρ → Q false m') :
    WU K free E (copyout c d va p len) Q m := by
  by_cases htable : m.table d (va / PGSIZE / NPTENTRIES) = none
  · refine wu_copyout_null hhi hlen htable (hland.resolve_left fun hgap => ?_) (hQ m hs.toAt (.refl o m ρ))
    refine table_ne_none (hs.above (va / PGSIZE) ?_ ?_ fun h => hgap ?_) htable
    · simp only [PGSIZE, KERNBASE] at *
      omega
    · simp only [PGSIZE]
      omega
    · simp only [InGap, KERNBASE, PHYSTOP, DEVSPACE, PGSIZE] at *
      omega
  have hpage : (va / PGSIZE + 0) % 2 ^ 20 = va / PGSIZE := by
    simp only [PGSIZE]
    omega
  have hlt : va / PGSIZE < 2 ^ 20 := by
    simp only [PGSIZE]
    omega
  have hacc : ¬ Accessible m d ((va / PGSIZE + 0) % 2 ^ 20) := by
    rw [hpage]
    intro ⟨x, hx, hU⟩
    have hlow := hs.accessible_lt hlt hx hU
    simp only [PGSIZE, KERNBASE] at hlo hlow
    omega
  refine wu_copyout hs.toAt hs.owned hhi hlen (fun j _ hall => ?_)
    fun b m' ha' hkeep hb => ?_
  · cases j with
    | zero =>
      rw [hpage]
      exact htable
    | succ j => exact absurd (hall 0 (Nat.succ_pos j)) hacc
  · cases b with
    | false => exact hQ m' ha' hkeep
    | true =>
      refine absurd (hb rfl 0 ?_) hacc
      rw [Nat.zero_mul]
      omega

end StackAt

def strSize (arg : List Byte) : ℕ := (arg.length + 1 + 3) / 4 * 4

def Fit (args : List (List Byte)) : Prop := (args.map strSize).sum + 4 * (args.length + 4) ≤ PGSIZE

/-- The first string that does not fit into the `off` bytes left of the page at `base`, if there is
one, is put at an address that has a page table. -/
def Lands (base : ℕ) : ℕ → List (List Byte) → Prop
  | _, [] => True
  | off, arg :: args =>
    if arg.length + 1 ≤ off then Lands base ((off - (arg.length + 1)) / 4 * 4) args
    else ¬InGap ((base + off + 2 ^ 32 - (arg.length + 1)) % 2 ^ 32)

def Pushed (X : Page) : ℕ → List (List Byte) → List ℕ → ℕ → Prop
  | off, [], [], off' => off' = off
  | off, arg :: args, q :: qs, off' =>
    q + (arg.length + 1) ≤ off ∧ q % 4 = 0 ∧ (∀ k ≤ arg.length, X.get (q + k) = arg.getD k 0) ∧
      Pushed X q args qs off'
  | _, _, _, _ => False

theorem push_fits {A : ℕ} (hv : v < 2 ^ 19) (hoff : off ≤ PGSIZE) (hA : A ≤ off) :
    (v * PGSIZE + off + 2 ^ 32 - A % 2 ^ 32) % 2 ^ 32 / 4 * 4 = v * PGSIZE + (off - A) / 4 * 4 := by
  simp only [PGSIZE] at *
  omega

theorem StackAt.pushLoop {Q : Option (ℕ × List ℕ) → Kmem → Prop} (hs : StackAt K free m ρ o d v w)
    (hstr : ∀ a ∈ args, a.length < KERNBASE) (hoff : off ≤ PGSIZE) (hal : off % 4 = 0) (ptrs : List ℕ)
    (hland : Lands (v * PGSIZE) off (args.take (MAXARG - ptrs.length)) ∨
      ∀ m', Keeps o m ρ m' ρ → NullRefused m' c) (hcount : ptrs.length ≤ MAXARG)
    (hfail : off < (args.map strSize).sum ∨ MAXARG < ptrs.length + args.length →
      ∀ m', At K m' ρ o d none → Keeps o m ρ m' ρ → Q none m')
    (hok : ∀ X qs off', Pushed X off args qs off' → off ≤ off' + (args.map strSize).sum →
      (∀ k, off ≤ k → X.get k = (m.page (pteAddr w)).get k) → (ptrs ++ qs).length ≤ MAXARG →
      Q (some (v * PGSIZE + off', ptrs ++ qs.map (v * PGSIZE + ·))) (m.setPage (pteAddr w) X)) :
    WU K free E (pushLoop c d args (v * PGSIZE + off) ptrs) Q m := by
  have hlt := hs.lt
  have hpos := hs.pos
  induction args generalizing m off ptrs with
  | nil =>
    have hend := hok (m.page (pteAddr w)) [] off rfl le_rfl (fun _ _ => rfl) (by simpa using hcount)
    rw [Kmem.setPage_page, List.map_nil, List.append_nil] at hend
    exact meets_pure hend
  | cons arg args ih =>
    obtain ⟨hA, hstr'⟩ := List.forall_mem_cons.mp hstr
    simp only [List.map_cons, List.sum_cons, List.length_cons, strSize] at hfail hok
    rw [Exec.pushLoop]
    by_cases hmax : MAXARG ≤ ptrs.length
    · rw [if_pos hmax]
      exact meets_pure (hfail (.inr (by omega)) m hs.toAt (.refl o m ρ))
    rw [if_neg hmax]
    obtain ⟨n, hn⟩ : ∃ n, MAXARG - ptrs.length = n + 1 := ⟨MAXARG - ptrs.length - 1, by omega⟩
    rw [hn, List.take_succ_cons, Lands] at hland
    have hmod : (arg.length + 1) % 2 ^ 32 = arg.length + 1 := Nat.mod_eq_of_lt (by
      simp only [KERNBASE] at hA
      omega)
    by_cases hfit : arg.length + 1 ≤ off
    · have hsp := push_fits (v := v) hlt hoff hfit
      rw [hmod] at hsp
      set q := (off - (arg.length + 1)) / 4 * 4 with hq
      have hqoff : q + (arg.length + 1) ≤ off := by omega
      rw [if_pos hfit] at hland
      simp only [hmod, hsp]
      refine meets_bind (hs.copy (Nat.succ_pos _) (hqoff.trans hoff) ?_)
      simp only [if_true]
      set X₁ := (m.page (pteAddr w)).blit q (arg.length + 1) fun k => arg.getD k 0
      refine ih (hs.setPage X₁) hstr' (by omega) (by omega) (ptrs ++ [v * PGSIZE + q]) ?_ ?_
        (fun hmore m' ha' hk' => hfail ?_ m' ha' ((hs.keeps_setPage X₁).trans hk'))
        fun X qs off' hpushed hsum hframe hlen => ?_
      · rw [List.length_append, List.length_singleton, ← Nat.sub_sub, hn, Nat.add_sub_cancel]
        exact hland.imp id fun hnull m' hk' => hnull m' ((hs.keeps_setPage X₁).trans hk')
      · rw [List.length_append, List.length_singleton]
        omega
      · rw [List.length_append, List.length_singleton] at hmore
        omega
      · rw [Kmem.setPage_page_self] at hframe
        have hstring : ∀ k ≤ arg.length, X.get (q + k) = arg.getD k 0 := fun k hk => by
          rw [hframe (q + k) (by omega)]
          exact Bytes.get_blit_of_mem _ _ (hqoff.trans hoff) (by omega)
        have hend := hok X (q :: qs) off' ⟨hqoff, Nat.mul_mod_left _ 4, hstring, hpushed⟩ (by omega)
          (fun k hk => by
            rw [hframe k (by omega)]
            exact Bytes.get_blit_of_disjoint _ _ (by omega))
          (by simpa [Nat.add_assoc, Nat.add_comm] using hlen)
        rw [Kmem.setPage_setPage]
        simpa using hend
    · -- The string starts below the stack or, after a wrap, above `KERNBASE`.
      have hfail' := hfail (.inl (by omega))
      rw [if_neg hfit] at hland
      simp only [hmod]
      refine meets_bind ?_
      by_cases hwrap : arg.length + 1 ≤ v * PGSIZE + off
      · refine hs.refused_below ?_ ?_ (Nat.succ_pos _) fun m' ha' hk' => meets_pure (hfail' m' ha' hk')
        · simp only [PGSIZE] at *
          omega
        · simp only [PGSIZE] at *
          omega
      · refine hs.refused_above ?_ ?_ (Nat.succ_pos _)
          (hland.imp (fun hno hgap => hno ?_) fun hnull => hnull m (.refl o m ρ))
          fun m' ha' hk' => meets_pure (hfail' m' ha' hk')
        · simp only [PGSIZE, KERNBASE] at *
          omega
        · omega
        · simp only [InGap, PGSIZE, KERNBASE, PHYSTOP, DEVSPACE] at *
          omega

namespace Pushed

variable {X X' : Page} {qs : List ℕ} {off' i j : ℕ}

section

variable (hp : Pushed X off args qs off')
include hp

theorem length : qs.length = args.length := by
  induction args generalizing off qs with
  | nil =>
    cases qs with
    | nil => rfl
    | cons q qs => exact hp.elim
  | cons arg args ih =>
    cases qs with
    | nil => exact hp.elim
    | cons q qs => exact congrArg Nat.succ (ih hp.2.2.2)

theorem le : off' ≤ off := by
  induction args generalizing off qs with
  | nil =>
    cases qs with
    | nil => exact Nat.le_of_eq hp
    | cons q qs => exact hp.elim
  | cons arg args ih =>
    cases qs with
    | nil => exact hp.elim
    | cons q qs =>
      obtain ⟨hq, -, -, hrest⟩ := hp
      have := ih hrest
      omega

theorem nth (hi : i < args.length) :
    off' ≤ qs.getD i 0 ∧ qs.getD i 0 + ((args.getD i []).length + 1) ≤ off ∧
      ∀ k ≤ (args.getD i []).length, X.get (qs.getD i 0 + k) = (args.getD i []).getD k 0 := by
  induction args generalizing off qs i with
  | nil => cases hi
  | cons arg args ih =>
    cases qs with
    | nil => exact hp.elim
    | cons q qs =>
      obtain ⟨hq, -, hstring, hrest⟩ := hp
      cases i with
      | zero => exact ⟨hrest.le, hq, hstring⟩
      | succ i =>
        obtain ⟨h1, h2, h3⟩ := ih hrest (Nat.lt_of_succ_lt_succ hi)
        rw [List.getD_cons_succ, List.getD_cons_succ]
        exact ⟨h1, by omega, h3⟩

theorem apart (hij : i < j) (hj : j < args.length) :
    qs.getD j 0 + ((args.getD j []).length + 1) ≤ qs.getD i 0 := by
  induction args generalizing off qs i j with
  | nil => cases hj
  | cons arg args ih =>
    cases qs with
    | nil => exact hp.elim
    | cons q qs =>
      obtain ⟨-, -, -, hrest⟩ := hp
      cases j with
      | zero => cases hij
      | succ j =>
        have hj' := Nat.lt_of_succ_lt_succ hj
        cases i with
        | zero => exact (hrest.nth hj').2.1
        | succ i => exact ih hrest (Nat.lt_of_succ_lt_succ hij) hj'

theorem fits (hoff : off % 4 = 0) : off' + (args.map strSize).sum ≤ off := by
  induction args generalizing off qs with
  | nil =>
    cases qs with
    | nil => exact Nat.le_of_eq hp
    | cons q qs => exact hp.elim
  | cons arg args ih =>
    cases qs with
    | nil => exact hp.elim
    | cons q qs =>
      obtain ⟨hq, hal, -, hrest⟩ := hp
      have := ih hrest hal
      rw [List.map_cons, List.sum_cons, strSize]
      omega

end

end Pushed

structure ArgStack (m : Kmem) (d : Frame) (sz esp : ℕ) (args : List (List Byte)) (ptrs : List ℕ) :
    Prop where
  count : ptrs.length = args.length
  fakePc : m.userWord d esp = some 0xffffffff
  argc : m.userWord d (esp + 4) = some (BitVec.ofNat 32 args.length)
  argv : m.userWord d (esp + 8) = some (BitVec.ofNat 32 (esp + 12))
  ptr : ∀ i < args.length, m.userWord d (esp + 12 + 4 * i) = some (BitVec.ofNat 32 (ptrs.getD i 0))
  terminator : m.userWord d (esp + 12 + 4 * args.length) = some 0
  string : ∀ i < args.length, ∀ k ≤ (args.getD i []).length,
    m.userByte d (ptrs.getD i 0 + k) = some ((args.getD i []).getD k 0)
  bottom : sz ≤ esp + PGSIZE
  top : ∀ i < args.length, ptrs.getD i 0 + ((args.getD i []).length + 1) ≤ sz
  pastArray : esp + 12 + 4 * (args.length + 1) ≤ sz ∧
    ∀ i < args.length, esp + 12 + 4 * (args.length + 1) ≤ ptrs.getD i 0
  apart : ∀ i j, i < j → j < args.length →
    ptrs.getD j 0 + ((args.getD j []).length + 1) ≤ ptrs.getD i 0
  fit : Fit args

theorem ArgStack.congr {sz esp : ℕ} {ptrs : List ℕ} (h : ArgStack m d sz esp args ptrs)
    (hsz : sz ≤ KERNBASE) (hm : ∀ u < 2 ^ 19, m'.mapped d u = m.mapped d u) :
    ArgStack m' d sz esp args ptrs := by
  have hpage : ∀ a < sz, a / PGSIZE < 2 ^ 19 := by
    intro a ha
    simp only [PGSIZE, KERNBASE] at *
    omega
  have hword : ∀ a < sz, m'.userWord d a = m.userWord d a := fun a ha => by
    rw [Kmem.userWord_eq, Kmem.userWord_eq, hm _ (hpage a ha)]
  have hbyte : ∀ a < sz, m'.userByte d a = m.userByte d a := fun a ha => by
    rw [Kmem.userByte_eq, Kmem.userByte_eq, hm _ (hpage a ha)]
  have hpast := h.pastArray.1
  exact
    { h with
      fakePc := (hword _ (by omega)).trans h.fakePc
      argc := (hword _ (by omega)).trans h.argc
      argv := (hword _ (by omega)).trans h.argv
      ptr := fun i hi => (hword _ (by omega)).trans (h.ptr i hi)
      terminator := (hword _ (by omega)).trans h.terminator
      string := fun i hi k hk => (hbyte _ (by have := h.top i hi; omega)).trans (h.string i hi k hk) }

theorem uintBytes_word (ws : List ℕ) (j : ℕ) {k : ℕ} (hk : k < 4) :
    uintBytes ws (4 * j + k) = (BitVec.ofNat 32 (ws.getD j 0)).extractLsb' (8 * k) 8 := by
  have hdiv : (4 * j + k) / 4 = j := by omega
  have hmod : (4 * j + k) % 4 = k := by omega
  rw [uintBytes, hdiv, hmod]

theorem page_offset {k : ℕ} (hk : k < PGSIZE) :
    (v * PGSIZE + k) / PGSIZE = v ∧ (v * PGSIZE + k) % PGSIZE = k := by
  simp only [PGSIZE] at *
  omega

theorem StackAt.userByte (hs : StackAt K free m ρ o d v w) {k : ℕ} (hk : k < PGSIZE) :
    m.userByte d (v * PGSIZE + k) = some ((m.page (pteAddr w)).get k) := by
  rw [Kmem.userByte, (page_offset hk).1, (page_offset hk).2, hs.stack]
  rfl

theorem StackAt.userWord (hs : StackAt K free m ρ o d v w) {k : ℕ} (hk : k < PGSIZE) :
    m.userWord d (v * PGSIZE + k) = some ((m.page (pteAddr w)).word k) := by
  rw [Kmem.userWord, (page_offset hk).1, (page_offset hk).2, hs.stack]
  rfl

theorem getD_map_add (qs : List ℕ) (b : ℕ) {i : ℕ} (hi : i < qs.length) :
    (qs.map (b + ·)).getD i 0 = b + qs.getD i 0 := by
  simp only [List.getD_eq_getElem?_getD, List.getElem?_map, List.getElem?_eq_getElem hi,
    Option.map_some, Option.getD_some]

theorem StackAt.argStack (hs : StackAt K free m ρ o d v w) {X : Page} {qs : List ℕ} {off' off₂ : ℕ}
    (hp : Pushed X PGSIZE args qs off') (hoff : off₂ + 4 * (args.length + 4) = off') :
    ArgStack (m.setPage (pteAddr w) (X.blit off₂ (4 * (args.length + 4)) (uintBytes
      ([0xffffffff, args.length, v * PGSIZE + off₂ + 12] ++ qs.map (v * PGSIZE + ·) ++ [0]))))
      d ((v + 1) * PGSIZE) (v * PGSIZE + off₂) args (qs.map (v * PGSIZE + ·)) := by
  set ws := [0xffffffff, args.length, v * PGSIZE + off₂ + 12] ++ qs.map (v * PGSIZE + ·) ++ [0]
  have hs' := hs.setPage (X.blit off₂ (4 * (args.length + 4)) (uintBytes ws))
  have hlen := hp.length
  have hle := hp.le
  have hptr : ∀ i < args.length, (qs.map (v * PGSIZE + ·)).getD i 0 = v * PGSIZE + qs.getD i 0 :=
    fun i hi => getD_map_add qs _ (by omega)
  have hword : ∀ j < args.length + 4, ∀ a, a = v * PGSIZE + off₂ + 4 * j → ∀ x, ws.getD j 0 = x →
      (m.setPage (pteAddr w) (X.blit off₂ (4 * (args.length + 4)) (uintBytes ws))).userWord d a =
        some (BitVec.ofNat 32 x) := by
    rintro j hj a rfl x rfl
    rw [Nat.add_assoc, hs'.userWord (by omega), Kmem.setPage_page_self,
      Bytes.word_blit_of_mem X (by omega) (by omega) fun k hk => uintBytes_word ws j hk]
  constructor
  case count => rw [List.length_map, hlen]
  case fakePc => exact hword 0 (by omega) _ (by omega) _ rfl
  case argc => exact hword 1 (by omega) _ (by omega) _ rfl
  case argv => exact hword 2 (by omega) _ (by omega) _ rfl
  case ptr =>
    intro i hi
    refine hword (i + 3) (by omega) _ (by omega) _ ?_
    have hmap : i < (qs.map (v * PGSIZE + ·)).length := by
      rw [List.length_map]
      omega
    simp only [ws, List.cons_append, List.nil_append, List.getElem?_cons_succ, List.getD_eq_getElem?_getD,
      List.getElem?_append_left hmap]
  case terminator =>
    refine hword (args.length + 3) (by omega) _ (by omega) _ ?_
    have hmap : (qs.map (v * PGSIZE + ·)).length ≤ args.length := by
      rw [List.length_map]
      omega
    simp only [ws, List.cons_append, List.nil_append, List.getElem?_cons_succ, List.getD_eq_getElem?_getD,
      List.getElem?_append_right hmap, List.length_map, hlen, Nat.sub_self]
    rfl
  case string =>
    intro i hi k hk
    obtain ⟨h1, h2, h3⟩ := hp.nth hi
    rw [hptr i hi, Nat.add_assoc, hs'.userByte (by omega), Kmem.setPage_page_self,
      Bytes.get_blit_of_disjoint _ _ (by omega), h3 k hk]
  case bottom =>
    rw [Nat.add_mul]
    omega
  case top =>
    intro i hi
    obtain ⟨-, h2, -⟩ := hp.nth hi
    rw [hptr i hi, Nat.add_mul]
    omega
  case pastArray =>
    refine ⟨?_, fun i hi => ?_⟩
    · rw [Nat.add_mul]
      omega
    · obtain ⟨h1, -, -⟩ := hp.nth hi
      rw [hptr i hi]
      omega
  case apart =>
    intro i j hij hj
    have hap := hp.apart hij hj
    rw [hptr i (by omega), hptr j hj]
    omega
  case fit =>
    have hfits := hp.fits (by decide)
    rw [Fit]
    omega

theorem StackAt.pushStack {Q : Option ℕ → Kmem → Prop} (hs : StackAt K free m ρ o d v w)
    (hstr : ∀ a ∈ args, a.length < KERNBASE)
    (hland : Lands (v * PGSIZE) PGSIZE (args.take MAXARG) ∨ ∀ m', Keeps o m ρ m' ρ → NullRefused m' c)
    (hfail : ¬(Fit args ∧ args.length ≤ MAXARG) →
      ∀ m', At K m' ρ o d none → Keeps o m ρ m' ρ → Q none m')
    (hok : ∀ X esp ptrs, ArgStack (m.setPage (pteAddr w) X) d ((v + 1) * PGSIZE) esp args ptrs →
      Q (some esp) (m.setPage (pteAddr w) X)) :
    WU K free E (pushStack c d ((v + 1) * PGSIZE) args) Q m := by
  have hlt := hs.lt
  have hpos := hs.pos
  have htop : (v + 1) * PGSIZE = v * PGSIZE + PGSIZE := Nat.succ_mul v PGSIZE
  rw [Exec.pushStack, htop]
  refine meets_bind (hs.pushLoop hstr le_rfl (by decide) [] hland (Nat.zero_le _)
    (fun hmore m' ha' hk' => meets_pure (hfail (fun hfit => ?_) m' ha' hk'))
    fun X qs off' hpushed hsum _ hcount => ?_)
  · simp only [Fit, List.length_nil] at hfit hmore
    omega
  have hs' := hs.setPage X
  have hk' := hs.keeps_setPage X
  have hlen := hpushed.length
  have hle := hpushed.le
  rw [List.nil_append] at hcount
  simp only [List.nil_append, List.length_map, hlen]
  have hmax : args.length ≤ 32 := hlen ▸ hcount
  by_cases hfit : 4 * (args.length + 4) ≤ off'
  · obtain ⟨off₂, hoff⟩ : ∃ off₂, off₂ + 4 * (args.length + 4) = off' :=
      ⟨off' - 4 * (args.length + 4), by omega⟩
    have hesp : (v * PGSIZE + off' + 2 ^ 32 - (3 + args.length + 1) * 4) % 2 ^ 32 =
        v * PGSIZE + off₂ := by
      simp only [PGSIZE] at *
      omega
    have hargv : (v * PGSIZE + off' + 2 ^ 32 - (args.length + 1) * 4) % 2 ^ 32 =
        v * PGSIZE + off₂ + 12 := by
      simp only [PGSIZE] at *
      omega
    have hbytes : (3 + args.length + 1) * 4 = 4 * (args.length + 4) := by omega
    rw [hesp, hargv, hbytes]
    refine meets_bind (hs'.copy (by omega) (by omega) (meets_pure ?_))
    rw [Kmem.setPage_page_self, Kmem.setPage_setPage]
    have hstack := hs.argStack hpushed hoff
    rw [htop] at hok
    rw [htop] at hstack
    exact hok _ _ _ hstack
  · have hnot : ¬(Fit args ∧ args.length ≤ MAXARG) := fun hargs => hfit (by
      have := hargs.1
      rw [Fit] at this
      omega)
    refine meets_bind (hs'.refused_below ?_ ?_ (by omega) fun m' ha'' hk'' =>
      meets_pure (hfail hnot m' ha'' (hk'.trans hk'')))
    · simp only [PGSIZE] at *
      omega
    · simp only [PGSIZE] at *
      omega

end Xv6.Exec
