import Xv6.Lib.Safety
import Xv6.Vm.Kalloc

/-!
# Fetching system call arguments

`fetchint`, `fetchstr`, `argint`, `argptr` and `argstr`.
-/

namespace Xv6.Syscall

open Lib
open Vm (KERNBASE)

inductive Op : Type → Type
  | word (a : BitVec 32) : Op (BitVec 32)
  | byte (a : BitVec 32) : Op Byte

abbrev Memory := BitVec 32 → Byte

def Memory.word (m : Memory) (a : BitVec 32) : BitVec 32 := m (a + 3) ++ m (a + 2) ++ m (a + 1) ++ m a

def perform : Prog.Handler Op Empty Memory
  | _, .word a, m => .ok (m.word a, m)
  | _, .byte a, m => .ok (m a, m)

abbrev ArgProg := Prog Op Empty

def fetchint (sz addr : BitVec 32) : ArgProg (Option (BitVec 32)) :=
  if sz ≤ addr ∨ sz < addr + 4 then pure none
  else do
    let i ← Prog.call (.word addr)
    pure (some i)

/-- The loop of `fetchstr`, with the number of rounds that are left. -/
def fetchstrLoop (pp : BitVec 32) : ℕ → BitVec 32 → ArgProg (Option (BitVec 32 × BitVec 32))
  | 0, _ => pure none
  | n + 1, s => do
    if (← Prog.call (.byte s)) = 0 then pure (some (pp, s - pp)) else fetchstrLoop pp n (s + 1)

def fetchstr (sz addr : BitVec 32) : ArgProg (Option (BitVec 32 × BitVec 32)) :=
  if sz ≤ addr then pure none else fetchstrLoop addr (sz.toNat - addr.toNat) addr

def argint (sz esp n : BitVec 32) : ArgProg (Option (BitVec 32)) := fetchint sz (esp + 4 + 4 * n)

def argptr (sz esp n size : BitVec 32) : ArgProg (Option (BitVec 32)) := do
  match ← argint sz esp n with
  | none => pure none
  | some i => if size.toInt < 0 ∨ sz ≤ i ∨ sz < i + size then pure none else pure (some i)

def argstr (sz esp n : BitVec 32) : ArgProg (Option (BitVec 32 × BitVec 32)) := do
  match ← argint sz esp n with
  | none => pure none
  | some addr => fetchstr sz addr

open Prog

def Below (sz : BitVec 32) : ∀ β, Op β → Memory → Prop
  | _, .word a, _ => a.toNat + 4 ≤ sz.toNat
  | _, .byte a, _ => a.toNat < sz.toNat

abbrev Fetches {α : Type} (sz : BitVec 32) (p : ArgProg α) (Q : α → Prop) (m : Memory) : Prop :=
  Meets perform (Below sz) (fun _ => False) p (fun r m' => m' = m ∧ Q r) m

structure IsString (m : Memory) (sz s : BitVec 32) (k : ℕ) : Prop where
  below : s.toNat + k < sz.toNat
  nul : m (s + BitVec.ofNat 32 k) = 0
  rest : ∀ j < k, m (s + BitVec.ofNat 32 j) ≠ 0

variable {m : Memory} {sz s pp esp n size : BitVec 32}

theorem toNat_add_of_lt {a : BitVec 32} (b : BitVec 32) (h : a.toNat + b.toNat < 2 ^ 32) :
    (a + b).toNat = a.toNat + b.toNat := by
  rw [BitVec.toNat_add, Nat.mod_eq_of_lt h]

theorem fetches_fetchint (hsz : sz.toNat ≤ KERNBASE) (addr : BitVec 32) :
    Fetches sz (fetchint sz addr)
      (fun r => r = if addr.toNat + 4 ≤ sz.toNat then some (m.word addr) else none) m := by
  have hbound : KERNBASE + 4 < 2 ^ 32 := by decide
  have hiff : (sz ≤ addr ∨ sz < addr + 4) ↔ ¬ addr.toNat + 4 ≤ sz.toNat := by
    rw [BitVec.le_def, BitVec.lt_def]
    by_cases hlt : addr.toNat < sz.toNat
    · rw [toNat_add_of_lt 4 (by simp; omega)]
      simp only [BitVec.reduceToNat]
      omega
    · omega
  rw [fetchint]
  split_ifs with hbad hin hin
  · exact absurd hin (hiff.mp hbad)
  · exact meets_pure ⟨rfl, rfl⟩
  · exact meets_bind (meets_call hin rfl (meets_pure ⟨rfl, rfl⟩))
  · exact absurd (hiff.mpr hin) hbad

theorem IsString.succ (hs : m s ≠ 0) (hlt : s.toNat < sz.toNat) {k : ℕ} :
    IsString m sz (s + 1) k ↔ IsString m sz s (k + 1) := by
  have hnext : (s + 1).toNat = s.toNat + 1 := toNat_add_of_lt 1 (by
    have := sz.isLt
    simp
    omega)
  have haddr : ∀ j, s + 1 + BitVec.ofNat 32 j = s + BitVec.ofNat 32 (j + 1) := fun j => by
    rw [Nat.add_comm, BitVec.ofNat_add, ← BitVec.add_assoc]
    rfl
  constructor
  · rintro ⟨hb, hn, hr⟩
    refine ⟨by omega, haddr k ▸ hn, fun j hj => ?_⟩
    cases j with
    | zero => simpa using hs
    | succ j => exact haddr j ▸ hr j (by omega)
  · rintro ⟨hb, hn, hr⟩
    exact ⟨by omega, (haddr k).symm ▸ hn, fun j hj => (haddr j).symm ▸ hr (j + 1) (by omega)⟩

theorem fetches_fetchstrLoop {rounds : ℕ} (h : s.toNat + rounds = sz.toNat) :
    Fetches sz (fetchstrLoop pp rounds s) (fun r =>
      (∃ k, r = some (pp, s + BitVec.ofNat 32 k - pp) ∧ IsString m sz s k) ∨
        r = none ∧ ∀ k, ¬ IsString m sz s k) m := by
  induction rounds generalizing s with
  | zero => exact meets_pure ⟨rfl, .inr ⟨rfl, fun k hk => by have := hk.below; omega⟩⟩
  | succ rounds ih =>
    have hlt : s.toNat < sz.toNat := by omega
    refine meets_bind (meets_call hlt rfl ?_)
    split_ifs with hzero
    · refine meets_pure ⟨rfl, .inl ⟨0, by simp, by omega, by simpa using hzero, nofun⟩⟩
    · have hnext : (s + 1).toNat = s.toNat + 1 := toNat_add_of_lt 1 (by
        have := sz.isLt
        simp
        omega)
      refine (ih (by omega)).mono fun r m' ⟨hm, hr⟩ => ⟨hm, ?_⟩
      rcases hr with ⟨k, rfl, hk⟩ | ⟨rfl, hk⟩
      · refine .inl ⟨k + 1, ?_, (IsString.succ hzero hlt).mp hk⟩
        rw [Nat.add_comm, BitVec.ofNat_add, ← BitVec.add_assoc]
        rfl
      · refine .inr ⟨rfl, fun k hstr => ?_⟩
        cases k with
        | zero => exact hzero (by simpa using hstr.nul)
        | succ k => exact hk k ((IsString.succ hzero hlt).mpr hstr)

theorem fetches_fetchstr (addr : BitVec 32) : Fetches sz (fetchstr sz addr) (fun r =>
      (∃ k, r = some (addr, BitVec.ofNat 32 k) ∧ IsString m sz addr k) ∨
        r = none ∧ ∀ k, ¬ IsString m sz addr k) m := by
  rw [fetchstr]
  split_ifs with hle
  · rw [BitVec.le_def] at hle
    exact meets_pure ⟨rfl, .inr ⟨rfl, fun k hk => by have := hk.below; omega⟩⟩
  · rw [BitVec.le_def] at hle
    refine (fetches_fetchstrLoop (by omega)).mono fun r m' ⟨hm, hr⟩ => ⟨hm, ?_⟩
    simpa only [add_sub_cancel_left] using hr

theorem argument_checks (hsz : sz.toNat ≤ KERNBASE) (m : Memory) :
    (∀ addr, Fetches sz (fetchint sz addr)
      (fun r => r = if addr.toNat + 4 ≤ sz.toNat then some (m.word addr) else none) m) ∧
    (∀ addr, Fetches sz (fetchstr sz addr) (fun r =>
      (∃ k, r = some (addr, BitVec.ofNat 32 k) ∧ IsString m sz addr k) ∨
        r = none ∧ ∀ k, ¬ IsString m sz addr k) m) ∧
    ∀ esp n a, a = esp + 4 + 4 * n →
      Fetches sz (argint sz esp n)
        (fun r => r = if a.toNat + 4 ≤ sz.toNat then some (m.word a) else none) m ∧
      (∀ size, Fetches sz (argptr sz esp n size) (fun r =>
        (∀ i, r = some i → a.toNat + 4 ≤ sz.toNat ∧ i = m.word a ∧ 0 ≤ size.toInt ∧
          i.toNat + size.toNat ≤ sz.toNat) ∧
        (a.toNat + 4 ≤ sz.toNat → 0 < size.toInt → (m.word a).toNat + size.toNat ≤ sz.toNat →
          r = some (m.word a))) m) ∧
      Fetches sz (argstr sz esp n) (fun r =>
        (∀ x, r = some x → a.toNat + 4 ≤ sz.toNat ∧
          ∃ k, x = (m.word a, BitVec.ofNat 32 k) ∧ IsString m sz (m.word a) k) ∧
        (a.toNat + 4 ≤ sz.toNat → (∃ k, IsString m sz (m.word a) k) → r ≠ none)) m := by
  refine ⟨fetches_fetchint hsz, fetches_fetchstr, fun esp n a ha => ?_⟩
  subst ha
  have hint := fetches_fetchint (m := m) hsz (esp + 4 + 4 * n)
  refine ⟨hint, fun size => ?_, ?_⟩
  · refine meets_bind (hint.mono ?_)
    rintro r m' ⟨rfl, rfl⟩
    split_ifs with hin
    · have hbound : KERNBASE < 2 ^ 31 + 1 := by decide
      have hsum : (0 ≤ size.toInt → (m'.word (esp + 4 + 4 * n)).toNat < sz.toNat →
          (m'.word (esp + 4 + 4 * n) + size).toNat =
            (m'.word (esp + 4 + 4 * n)).toNat + size.toNat) := fun hnn hlt =>
        toNat_add_of_lt size (by
          rw [BitVec.toInt_eq_toNat_cond] at hnn
          split_ifs at hnn <;> omega)
      dsimp only
      split_ifs with hbad
      · refine meets_pure ⟨rfl, nofun, fun _ hpos hle => ?_⟩
        have hsize : 0 < size.toNat := by
          rw [BitVec.toInt_eq_toNat_cond] at hpos
          split_ifs at hpos <;> omega
        rw [BitVec.le_def, BitVec.lt_def] at hbad
        have := hsum hpos.le (by omega)
        omega
      · simp only [not_or, not_lt, BitVec.le_def, BitVec.lt_def] at hbad
        obtain ⟨hnn, hlt, hle⟩ := hbad
        rw [hsum hnn (by omega)] at hle
        refine meets_pure ⟨rfl, fun i hi => ?_, fun _ _ _ => rfl⟩
        cases hi
        exact ⟨hin, rfl, hnn, hle⟩
    · exact meets_pure ⟨rfl, nofun, fun h => absurd h hin⟩
  · refine meets_bind (hint.mono ?_)
    rintro r m' ⟨rfl, rfl⟩
    split_ifs with hin
    · refine (fetches_fetchstr _).mono fun r m' ⟨hm, hr⟩ => ⟨hm, fun x hx => ?_, fun _ hstr => ?_⟩
      · rcases hr with ⟨k, rfl, hk⟩ | ⟨rfl, -⟩
        · cases hx
          exact ⟨hin, k, rfl, hk⟩
        · cases hx
      · rcases hr with ⟨k, rfl, -⟩ | ⟨-, hnone⟩
        · simp
        · obtain ⟨k, hk⟩ := hstr
          exact absurd hk (hnone k)
    · exact meets_pure ⟨rfl, nofun, fun h => absurd h hin⟩

/-- The argument at 4092 is the address 16, where the string "AB" is. -/
def argPage : Memory := fun a => if a = 4092 then 16 else if a = 16 then 65 else if a = 17 then 66 else 0

theorem argument_checks_onePage :
    Fetches 4096 (argptr 4096 4084 1 3) (fun r => r = some 16) argPage ∧
      Fetches 4096 (argstr 4096 4084 1) (fun r => r = some (16, 2)) argPage := by
  obtain ⟨-, -, hargs⟩ := argument_checks (show (4096 : BitVec 32).toNat ≤ KERNBASE by decide) argPage
  obtain ⟨-, hptr, hstr⟩ := hargs 4084 1 4092 (by decide)
  refine ⟨(hptr 3).mono ?_, hstr.mono ?_⟩
  · rintro r m ⟨hm, -, h⟩
    exact ⟨hm, h (by decide) (by decide) (by decide)⟩
  · rintro r m ⟨hm, h, hsome⟩
    have h2 : IsString argPage 4096 16 2 := ⟨by decide, by decide, by decide⟩
    obtain ⟨x, rfl⟩ := Option.ne_none_iff_exists'.mp (hsome (by decide) ⟨2, h2⟩)
    obtain ⟨-, k, rfl, hk⟩ := h x rfl
    rcases Nat.lt_trichotomy k 2 with hlt | rfl | hgt
    · exact absurd hk.nul (h2.rest k hlt)
    · exact ⟨hm, rfl⟩
    · exact absurd h2.nul (hk.rest 2 hgt)

end Xv6.Syscall
