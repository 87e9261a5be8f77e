import Mathlib.Data.List.Basic
import Mathlib.Tactic.Linarith

/-!
# An array with a separate element count

The memory of the array is a total function of the index, so that a loop that runs past the end
still has a meaning; `oob` records that some access was made outside the `cap` elements.
-/

namespace Xv6.Lib

open Function (update_of_ne update_self)

structure CountedArray (cap : ℕ) (α : Type*) where
  arr : ℤ → α
  cnt : ℤ
  oob : Bool

namespace CountedArray

variable {cap : ℕ} {α : Type*}

def touch (a : CountedArray cap α) (i : ℤ) : CountedArray cap α :=
  { a with oob := a.oob || !decide (0 ≤ i ∧ i < cap) }

def write (a : CountedArray cap α) (i : ℤ) (x : α) : CountedArray cap α :=
  { a.touch i with arr := Function.update a.arr i x }

/-- `for (; i < i + n; i++) if (P(a[i])) { found = i; break; }` -/
def findFirstFrom (P : α → Bool) :
    ℕ → ℤ → CountedArray cap α → Option ℤ × CountedArray cap α
  | 0, _, a => (none, a)
  | n + 1, i, a =>
    if P (a.arr i) then (some i, a.touch i) else findFirstFrom P n (i + 1) (a.touch i)

def findLastFrom (P : α → Bool) :
    ℕ → ℤ → Option ℤ → CountedArray cap α → Option ℤ × CountedArray cap α
  | 0, _, found, a => (found, a)
  | n + 1, i, found, a =>
    findLastFrom P n (i + 1) (if P (a.arr i) then some i else found) (a.touch i)

def findFirst (P : α → Bool) (a : CountedArray cap α) : Option ℤ × CountedArray cap α :=
  findFirstFrom P a.cnt.toNat 0 a

def findLast (P : α → Bool) (a : CountedArray cap α) : Option ℤ × CountedArray cap α :=
  findLastFrom P a.cnt.toNat 0 none a

/-- `for (; i < i + n; i++) a[i] = a[i + 1];` -/
def shiftFrom : ℕ → ℤ → CountedArray cap α → CountedArray cap α
  | 0, _, a => a
  | n + 1, i, a => shiftFrom n (i + 1) ((a.touch (i + 1)).write i (a.arr (i + 1)))

def shift (a : CountedArray cap α) (i : ℤ) : CountedArray cap α :=
  shiftFrom (a.cnt - i).toNat i a

def removeAt (a : CountedArray cap α) (i : ℤ) : CountedArray cap α :=
  shift { a with cnt := a.cnt - 1 } i

def push (a : CountedArray cap α) (x : α) : CountedArray cap α :=
  { a.write a.cnt x with cnt := a.cnt + 1 }

def rotate (a : CountedArray cap α) (i : ℤ) (x : α) : CountedArray cap α :=
  (a.write a.cnt x).shift i

def segment (f : ℤ → α) : ℕ → ℤ → List α
  | 0, _ => []
  | n + 1, i => f i :: segment f n (i + 1)

def toList (a : CountedArray cap α) : List α := segment a.arr a.cnt.toNat 0

section Segment

variable {f g : ℤ → α}

@[simp] theorem length_segment (n : ℕ) (i : ℤ) : (segment f n i).length = n := by
  induction n generalizing i with
  | zero => rfl
  | succ n ih => simp [segment, ih]

@[simp] theorem getElem_segment (n : ℕ) (i : ℤ) (j : ℕ) (hj : j < (segment f n i).length) :
    (segment f n i)[j] = f (i + j) := by
  induction n generalizing i j with
  | zero => simp [segment] at hj
  | succ n ih =>
    cases j with
    | zero => simp [segment]
    | succ j =>
      simp only [segment, List.getElem_cons_succ, ih]
      congr 1
      push_cast
      omega

theorem mem_segment {x : α} {n : ℕ} {i : ℤ} :
    x ∈ segment f n i ↔ ∃ j : ℤ, i ≤ j ∧ j < i + n ∧ f j = x := by
  constructor
  · intro hx
    obtain ⟨j, hj, rfl⟩ := List.getElem_of_mem hx
    simp only [length_segment] at hj
    exact ⟨i + j, by omega, by omega, by simp⟩
  · intro ⟨j, hlo, hhi, hj⟩
    have hlen : (j - i).toNat < (segment f n i).length := by simp; omega
    have hget : (segment f n i)[(j - i).toNat] = x := by
      have : i + ((j - i).toNat : ℤ) = j := by omega
      simp only [getElem_segment, this, hj]
    exact hget ▸ List.getElem_mem hlen

end Segment

section

variable (a : CountedArray cap α)
include a

@[simp] theorem length_toList : a.toList.length = a.cnt.toNat :=
  length_segment _ _

@[simp] theorem getElem_toList (j : ℕ) (hj : j < a.toList.length) : a.toList[j] = a.arr j := by
  simp [toList]

@[simp] theorem touch_arr (i : ℤ) : (a.touch i).arr = a.arr := rfl
@[simp] theorem touch_cnt (i : ℤ) : (a.touch i).cnt = a.cnt := rfl
@[simp] theorem write_arr (i : ℤ) (x : α) : (a.write i x).arr = Function.update a.arr i x := rfl
@[simp] theorem write_cnt (i : ℤ) (x : α) : (a.write i x).cnt = a.cnt := rfl
@[simp] theorem write_oob (i : ℤ) (x : α) : (a.write i x).oob = (a.touch i).oob := rfl

theorem touch_oob {i : ℤ} (hlo : 0 ≤ i) (hhi : i < cap) : (a.touch i).oob = a.oob := by
  simp [touch, hlo, hhi]

end

structure Found (P : α → Bool) (a : CountedArray cap α) (r : Option ℤ) : Prop where
  hit : ∀ i, r = some i → ∃ j : ℕ, i = j ∧ ∃ h : j < a.toList.length, P a.toList[j] = true
  miss : r = none → ∀ x ∈ a.toList, P x = false

structure SameContent (a b : CountedArray cap α) : Prop where
  arr : b.arr = a.arr
  cnt : b.cnt = a.cnt
  oob : a.cnt ≤ cap → b.oob = a.oob

theorem SameContent.toList {a b : CountedArray cap α} (h : SameContent a b) :
    b.toList = a.toList := by
  simp only [CountedArray.toList, h.arr, h.cnt]

section

variable (P : α → Bool) (n : ℕ) (i : ℤ)
include P n i

theorem findFirstFrom_frame (a : CountedArray cap α) :
    (findFirstFrom P n i a).2.arr = a.arr ∧ (findFirstFrom P n i a).2.cnt = a.cnt ∧
      (0 ≤ i → i + n ≤ cap → (findFirstFrom P n i a).2.oob = a.oob) := by
  induction n generalizing i a with
  | zero => simp [findFirstFrom]
  | succ n ih =>
    simp only [findFirstFrom]
    by_cases h : P (a.arr i)
    · simp only [h, if_true]
      exact ⟨rfl, rfl, fun hlo hhi => touch_oob a hlo (by push_cast at hhi; omega)⟩
    · simp only [h]
      obtain ⟨harr, hcnt, hoob⟩ := ih (i + 1) (a.touch i)
      refine ⟨harr, hcnt, fun hlo hhi => ?_⟩
      push_cast at hhi
      exact (hoob (by omega) (by omega)).trans (touch_oob a hlo (by omega))

theorem findLastFrom_frame (r : Option ℤ) (a : CountedArray cap α) :
    (findLastFrom P n i r a).2.arr = a.arr ∧ (findLastFrom P n i r a).2.cnt = a.cnt ∧
      (0 ≤ i → i + n ≤ cap → (findLastFrom P n i r a).2.oob = a.oob) := by
  induction n generalizing i r a with
  | zero => simp [findLastFrom]
  | succ n ih =>
    obtain ⟨harr, hcnt, hoob⟩ := ih (i + 1) (if P (a.arr i) then some i else r) (a.touch i)
    refine ⟨harr, hcnt, fun hlo hhi => ?_⟩
    push_cast at hhi
    exact (hoob (by omega) (by omega)).trans (touch_oob a hlo (by omega))

theorem findFirstFrom_found (a : CountedArray cap α) :
    (∀ j, (findFirstFrom P n i a).1 = some j → i ≤ j ∧ j < i + n ∧ P (a.arr j) = true) ∧
      ((findFirstFrom P n i a).1 = none → ∀ j, i ≤ j → j < i + n → P (a.arr j) = false) := by
  induction n generalizing i a with
  | zero => exact ⟨by simp [findFirstFrom], fun _ j hlo hhi => by push_cast at hhi; omega⟩
  | succ n ih =>
    obtain ⟨hhit, hmiss⟩ := ih (i + 1) (a.touch i)
    simp only [findFirstFrom]
    push_cast
    by_cases h : P (a.arr i)
    · simp only [h, if_true]
      refine ⟨fun j hj => ?_, fun hj => nomatch hj⟩
      cases hj
      exact ⟨le_refl i, by omega, h⟩
    · simp only [h]
      refine ⟨fun j hj => ?_, fun hj j hlo hhi => ?_⟩
      · obtain ⟨hlo, hhi, hP⟩ := hhit j hj
        exact ⟨by omega, by omega, hP⟩
      · rcases eq_or_lt_of_le hlo with rfl | hlt
        · simpa using h
        · exact hmiss hj j (by omega) (by omega)

theorem findLastFrom_found (r : Option ℤ) (a : CountedArray cap α) :
    (∀ j, (findLastFrom P n i r a).1 = some j →
        r = some j ∨ i ≤ j ∧ j < i + n ∧ P (a.arr j) = true) ∧ ((findLastFrom P n i r a).1 = none →
        r = none ∧ ∀ j, i ≤ j → j < i + n → P (a.arr j) = false) := by
  induction n generalizing i r a with
  | zero =>
    exact ⟨fun j hj => .inl hj, fun hj => ⟨hj, fun j hlo hhi => by push_cast at hhi; omega⟩⟩
  | succ n ih =>
    obtain ⟨hhit, hmiss⟩ := ih (i + 1) (if P (a.arr i) then some i else r) (a.touch i)
    simp only [findLastFrom]
    push_cast
    refine ⟨fun j hj => ?_, fun hj => ?_⟩
    · rcases hhit j hj with hr | ⟨hlo, hhi, hP⟩
      · by_cases h : P (a.arr i)
        · simp only [h, if_true, Option.some.injEq] at hr
          subst hr
          exact .inr ⟨le_refl i, by omega, h⟩
        · simp only [h] at hr
          exact .inl hr
      · exact .inr ⟨by omega, by omega, hP⟩
    · obtain ⟨hr, hrest⟩ := hmiss hj
      by_cases h : P (a.arr i)
      · simp [h] at hr
      · simp only [h] at hr
        refine ⟨hr, fun j hlo hhi => ?_⟩
        rcases eq_or_lt_of_le hlo with rfl | hlt
        · simpa using h
        · exact hrest j (by omega) (by omega)

end

theorem found_of_bounds {P : α → Bool} {a : CountedArray cap α} {r : Option ℤ}
    (hhit : ∀ j, r = some j → 0 ≤ j ∧ j < a.cnt.toNat ∧ P (a.arr j) = true)
    (hmiss : r = none → ∀ j : ℤ, 0 ≤ j → j < a.cnt.toNat → P (a.arr j) = false) : Found P a r where
  hit i hi := by
    obtain ⟨hlo, hhi, hP⟩ := hhit i hi
    refine ⟨i.toNat, by omega, by simp; omega, ?_⟩
    have : (i.toNat : ℤ) = i := by omega
    simpa [this] using hP
  miss hr x hx := by
    obtain ⟨j, hlo, hhi, rfl⟩ := mem_segment.mp hx
    exact hmiss hr j hlo (by omega)

section

variable (P : α → Bool) (a : CountedArray cap α)
include P a

theorem findFirst_found : Found P a (a.findFirst P).1 := by
  obtain ⟨hhit, hmiss⟩ := findFirstFrom_found P a.cnt.toNat 0 a
  refine found_of_bounds (fun j hj => ?_) (fun hr j hlo hhi => hmiss hr j hlo (by omega))
  obtain ⟨hlo, hhi, hP⟩ := hhit j hj
  exact ⟨hlo, by omega, hP⟩

theorem findLast_found : Found P a (a.findLast P).1 := by
  obtain ⟨hhit, hmiss⟩ := findLastFrom_found P a.cnt.toNat 0 none a
  refine found_of_bounds (fun j hj => ?_) (fun hr j hlo hhi => (hmiss hr).2 j hlo (by omega))
  rcases hhit j hj with hr | ⟨hlo, hhi, hP⟩
  · cases hr
  · exact ⟨hlo, by omega, hP⟩

theorem findFirst_same : SameContent a (a.findFirst P).2 := by
  obtain ⟨harr, hcnt, hoob⟩ := findFirstFrom_frame P a.cnt.toNat 0 a
  exact ⟨harr, hcnt, fun hcap => hoob (le_refl 0) (by omega)⟩

theorem findLast_same : SameContent a (a.findLast P).2 := by
  obtain ⟨harr, hcnt, hoob⟩ := findLastFrom_frame P a.cnt.toNat 0 none a
  exact ⟨harr, hcnt, fun hcap => hoob (le_refl 0) (by omega)⟩

theorem findFirst_arr : (a.findFirst P).1.map a.arr = a.toList.find? P := by
  have hfrom : ∀ (n : ℕ) (i : ℤ) (b : CountedArray cap α), b.arr = a.arr →
      (findFirstFrom P n i b).1.map a.arr = (segment a.arr n i).find? P := by
    intro n
    induction n with
    | zero => intro i b _; rfl
    | succ n ih =>
      intro i b hb
      simp only [findFirstFrom, segment, List.find?_cons, hb]
      cases h : P (a.arr i) with
      | true => simp
      | false => simpa using ih (i + 1) (b.touch i) hb
  exact hfrom a.cnt.toNat 0 a rfl

theorem findFirst_findIdx : (a.findFirst P).1 = (a.toList.findIdx? P).map fun j : ℕ => (j : ℤ) := by
  have hfrom : ∀ (n : ℕ) (i : ℤ) (b : CountedArray cap α), b.arr = a.arr →
      (findFirstFrom P n i b).1 = ((segment a.arr n i).findIdx? P).map fun j : ℕ => i + (j : ℤ) := by
    intro n
    induction n with
    | zero => intro i b _; rfl
    | succ n ih =>
      intro i b hb
      simp only [findFirstFrom, segment, List.findIdx?_cons, hb]
      cases h : P (a.arr i) with
      | true => simp
      | false =>
        simp only [Bool.false_eq_true, if_false]
        rw [ih (i + 1) (b.touch i) hb, Option.map_map]
        congr 1
        funext j
        simp only [Function.comp_apply, Nat.cast_add, Nat.cast_one]
        omega
  exact (hfrom a.cnt.toNat 0 a rfl).trans (by simp only [zero_add, toList])

end

theorem shiftFrom_arr (n : ℕ) (i : ℤ) (a : CountedArray cap α) (j : ℤ) :
    (shiftFrom n i a).arr j = if i ≤ j ∧ j < i + n then a.arr (j + 1) else a.arr j := by
  induction n generalizing i a with
  | zero =>
    have : ¬(i ≤ j ∧ j < i + (0 : ℕ)) := by push_cast; omega
    simp only [shiftFrom, this, if_false]
  | succ n ih =>
    simp only [shiftFrom, ih, write_arr, touch_arr]
    push_cast
    -- The element written at `i` is not read again by the later rounds.
    by_cases hj : j = i
    · subst hj
      have h1 : ¬(j + 1 ≤ j ∧ j < j + 1 + n) := by omega
      have h2 : j ≤ j ∧ j < j + (n + 1) := by omega
      simp only [h1, h2, if_false, and_self, if_true, update_self]
    · by_cases hin : i + 1 ≤ j ∧ j < i + 1 + n
      · have h2 : i ≤ j ∧ j < i + (n + 1) := by omega
        have hne : j + 1 ≠ i := by omega
        simp only [hin, h2, and_self, if_true, update_of_ne hne]
      · have h2 : ¬(i ≤ j ∧ j < i + (n + 1)) := by omega
        simp only [hin, h2, if_false, update_of_ne hj]

theorem shiftFrom_frame (n : ℕ) (i : ℤ) (a : CountedArray cap α) : (shiftFrom n i a).cnt = a.cnt ∧
      (0 ≤ i → i + n < cap ∨ n = 0 → (shiftFrom n i a).oob = a.oob) := by
  induction n generalizing i a with
  | zero => simp [shiftFrom]
  | succ n ih =>
    obtain ⟨hcnt, hoob⟩ := ih (i + 1) ((a.touch (i + 1)).write i (a.arr (i + 1)))
    refine ⟨hcnt, fun hlo hhi => ?_⟩
    have hhi : i + n + 1 < cap := by omega
    have h1 : (shiftFrom (n + 1) i a).oob = _ := hoob (by omega) (by omega)
    rw [h1, write_oob, touch_oob _ hlo (by omega), touch_oob _ (by omega) (by omega)]

section Remove

variable (a : CountedArray cap α) {j : ℕ}

theorem removeAt_toList (hj : j < a.toList.length) :
    (a.removeAt j).toList = a.toList.eraseIdx j := by
  simp only [length_toList] at hj
  have hcnt : (a.removeAt j).cnt = a.cnt - 1 := (shiftFrom_frame _ _ _).1
  refine List.ext_getElem ?_ ?_
  · rw [List.length_eraseIdx_of_lt (by simpa using hj)]
    simp only [length_toList, hcnt]
    omega
  · intro k hk hk'
    simp only [length_toList, hcnt] at hk
    simp only [getElem_toList, List.getElem_eraseIdx, removeAt, shift, shiftFrom_arr]
    by_cases hkj : k < j
    · have : ¬((j : ℤ) ≤ k ∧ (k : ℤ) < j + ((a.cnt - 1 - j).toNat : ℤ)) := by omega
      simp only [hkj, this, if_false, dif_pos]
    · have : (j : ℤ) ≤ k ∧ (k : ℤ) < j + ((a.cnt - 1 - j).toNat : ℤ) := by omega
      simp only [hkj, this, and_self, if_true, dif_neg, not_false_eq_true, Nat.cast_add,
        Nat.cast_one]

theorem removeAt_cnt (i : ℤ) : (a.removeAt i).cnt = a.cnt - 1 := (shiftFrom_frame _ _ _).1

theorem removeAt_oob (hcap : a.cnt ≤ cap) : (a.removeAt j).oob = a.oob :=
  (shiftFrom_frame _ _ _).2 (by omega) (by simp only; omega)

theorem push_toList (x : α) (h : 0 ≤ a.cnt) : (a.push x).toList = a.toList ++ [x] := by
  refine List.ext_getElem ?_ ?_
  · simp only [length_toList, List.length_append, push, List.length_singleton]
    omega
  · intro k hk _
    simp only [length_toList, push] at hk
    simp only [getElem_toList, push, write_arr]
    by_cases hkc : (k : ℤ) = a.cnt
    · have hlen : a.toList.length ≤ k := by simp; omega
      simp [hkc, List.getElem_append_right hlen]
    · have hlen : k < a.toList.length := by simp; omega
      simp [update_of_ne hkc, List.getElem_append_left hlen]

@[simp] theorem push_cnt (x : α) : (a.push x).cnt = a.cnt + 1 := rfl

theorem push_oob (x : α) (h : 0 ≤ a.cnt) (hcap : a.cnt < cap) : (a.push x).oob = a.oob :=
  touch_oob a h hcap

theorem rotate_toList (x : α) (hj : j < a.toList.length) :
    (a.rotate j x).toList = a.toList.eraseIdx j ++ [x] := by
  simp only [length_toList] at hj
  have hcnt : (a.rotate j x).cnt = a.cnt := (shiftFrom_frame _ _ _).1
  have hlen : (a.toList.eraseIdx j).length = a.cnt.toNat - 1 := by
    rw [List.length_eraseIdx_of_lt (by simpa using hj), length_toList]
  refine List.ext_getElem ?_ ?_
  · simp only [length_toList, hcnt, List.length_append, hlen, List.length_singleton]
    omega
  · intro k hk hk'
    simp only [length_toList, hcnt] at hk
    simp only [getElem_toList, rotate, shift, shiftFrom_arr, write_arr, write_cnt]
    by_cases hlast : k < a.cnt.toNat - 1
    · rw [List.getElem_append_left (by omega), List.getElem_eraseIdx]
      have hk1 : (k : ℤ) + 1 ≠ a.cnt := by omega
      have hk0 : (k : ℤ) ≠ a.cnt := by omega
      by_cases hkj : k < j
      · have : ¬((j : ℤ) ≤ k ∧ (k : ℤ) < j + ((a.cnt - j).toNat : ℤ)) := by omega
        simp only [hkj, this, if_false, dif_pos, getElem_toList, update_of_ne hk0]
      · have : (j : ℤ) ≤ k ∧ (k : ℤ) < j + ((a.cnt - j).toNat : ℤ) := by omega
        simp only [hkj, this, and_self, if_true, dif_neg, not_false_eq_true, getElem_toList,
          Nat.cast_add, Nat.cast_one, update_of_ne hk1]
    · rw [List.getElem_append_right (by omega)]
      have hk1 : (k : ℤ) + 1 = a.cnt := by omega
      have : (j : ℤ) ≤ k ∧ (k : ℤ) < j + ((a.cnt - j).toNat : ℤ) := by omega
      simp only [this, and_self, if_true, hk1, update_self, List.getElem_singleton]

theorem rotate_cnt (i : ℤ) (x : α) : (a.rotate i x).cnt = a.cnt := (shiftFrom_frame _ _ _).1

theorem rotate_oob (x : α) (hj : j < a.toList.length) (hcap : a.cnt < cap) :
    (a.rotate j x).oob = a.oob := by
  simp only [length_toList] at hj
  have h := (shiftFrom_frame (a.cnt - j).toNat j (a.write a.cnt x)).2 (by omega) (by omega)
  exact h.trans (touch_oob a (by omega) hcap)

end Remove

end CountedArray

end Xv6.Lib
