import Mathlib.Tactic.Common

/-!
# Cyclic scans of a table

A scan looks at the positions `0, 1, …, n - 1` in turn and stops at those that are ready. `Next
ready i c` says that `c` is where a scan at position `i` stops next.
-/

namespace Xv6.Lib.RoundRobin

variable {ready : ℕ → Prop} {n i c p q : ℕ}

structure Next (ready : ℕ → Prop) (i c : ℕ) : Prop where
  ge : i ≤ c
  found : ready c
  first : ∀ j, i ≤ j → j < c → ¬ready j

def Done (ready : ℕ → Prop) (i : ℕ) : Prop := ∀ j, i ≤ j → ¬ready j

def Ahead (p q i : ℕ) : Prop := if p < q then p < i ∧ i ≤ q else p < i ∨ i ≤ q

def gap (n q i : ℕ) : ℕ := if i ≤ q then q - i else n - i + q

theorem Next.le_of_ready (h : Next ready i c) (hq : ready q) (hi : i ≤ q) : c ≤ q := by
  by_contra hlt
  exact h.first q hi (by omega) hq

theorem ahead_succ (p q : ℕ) : Ahead p q (p + 1) := by
  simp only [Ahead]
  split_ifs <;> omega

theorem ahead_zero (hlt : q < p) : Ahead p q 0 := by
  rw [Ahead, if_neg (by omega)]
  exact .inr (Nat.zero_le q)

theorem Ahead.le (h : Ahead p q i) (hlt : p < q) : i ≤ q := by
  rw [Ahead, if_pos hlt] at h
  exact h.2

theorem Ahead.next (h : Ahead p q i) (hn : Next ready i c) (hq : ready q) (hc : c ≠ q) :
    c ≠ p ∧ Ahead p q (c + 1) := by
  have hge := hn.ge
  have hle : i ≤ q → c ≤ q := hn.le_of_ready hq
  simp only [Ahead] at h ⊢
  split_ifs at h ⊢ with hlt
  · have := hle h.2
    omega
  · rcases h with h | h
    · omega
    · have := hle h
      omega

theorem Ahead.wrap (h : Ahead p q i) (hd : Done ready i) (hq : ready q) : Ahead p q 0 := by
  have hlt : q < i := by
    by_contra hle
    exact hd q (by omega) hq
  simp only [Ahead] at h ⊢
  split_ifs at h ⊢ <;> omega

theorem gap_lt (hq : q < n) (hi : i ≤ n) : gap n q i < n := by
  simp only [gap]
  split_ifs <;> omega

theorem Next.gap_lt (hn : Next ready i c) (hq : ready q) (hc : c ≠ q) (hcn : c < n) :
    gap n q (c + 1) < gap n q i := by
  have hge := hn.ge
  have hle : i ≤ q → c ≤ q := hn.le_of_ready hq
  simp only [gap]
  split_ifs with h1 h2 h2
  · omega
  · omega
  · have := hle h2
    omega
  · omega

theorem Done.gap_le (hd : Done ready i) (hq : ready q) : gap n q 0 ≤ gap n q i := by
  have hlt : q < i := by
    by_contra hle
    exact hd q (by omega) hq
  simp only [gap]
  split_ifs <;> omega

end Xv6.Lib.RoundRobin
