import Mathlib.Tactic
import Mathlib.Data.BitVec

/-!
# Ring buffers with wrapping counters

The counters run on modulo `2 ^ w` and are reduced modulo the capacity `N` only to index
the array. As long as `N` divides `2 ^ w`, wrapping does not disturb the order.
-/

namespace Xv6.Lib

structure Ring (w : ℕ) (α : Type*) where
  data : ℕ → α
  nread : BitVec w
  nwrite : BitVec w

namespace Ring

variable {w : ℕ} {α : Type*}

def count (r : Ring w α) : ℕ := (r.nwrite - r.nread).toNat

def contents (N : ℕ) (r : Ring w α) : List α :=
  (List.range r.count).map fun k => r.data ((r.nread.toNat + k) % N)

def push (N : ℕ) (a : α) (r : Ring w α) : Ring w α :=
  { r with data := Function.update r.data (r.nwrite.toNat % N) a, nwrite := r.nwrite + 1 }

def front (N : ℕ) (r : Ring w α) : α := r.data (r.nread.toNat % N)

def pop (r : Ring w α) : Ring w α := { r with nread := r.nread + 1 }

theorem toNat_nwrite (r : Ring w α) : r.nwrite.toNat = (r.nread.toNat + r.count) % 2 ^ w := by
  have h : r.nwrite = r.nread + (r.nwrite - r.nread) := by ring
  have h' := congrArg BitVec.toNat h
  rwa [BitVec.toNat_add] at h'

theorem empty_iff (r : Ring w α) : r.nread = r.nwrite ↔ r.count = 0 := by
  have hzero : r.nwrite - r.nread = 0 ↔ r.nwrite = r.nread := sub_eq_zero
  rw [eq_comm, ← hzero, count, ← BitVec.toNat_inj]
  rfl

theorem full_iff (r : Ring w α) {N : ℕ} (hN : N < 2 ^ w) :
    r.nwrite = r.nread + BitVec.ofNat w N ↔ r.count = N := by
  rw [count, ← sub_eq_iff_eq_add', ← BitVec.toNat_inj, BitVec.toNat_ofNat, Nat.mod_eq_of_lt hN]

variable {r : Ring w α}

theorem count_push {N : ℕ} {a : α} (h : r.count + 1 < 2 ^ w) :
    (r.push N a).count = r.count + 1 := by
  have hd : r.nwrite + 1 - r.nread = r.nwrite - r.nread + 1 := by ring
  have hlt : 1 < 2 ^ w := by omega
  have hone : (1 : BitVec w).toNat = 1 := Nat.mod_eq_of_lt hlt
  change (r.nwrite + 1 - r.nread).toNat = _
  rw [hd, BitVec.toNat_add, hone]
  exact Nat.mod_eq_of_lt h

theorem count_pop (h : 0 < r.count) : r.pop.count + 1 = r.count := by
  have hd : r.nwrite - r.nread = r.nwrite - (r.nread + 1) + 1 := by ring
  have hlt := (r.nwrite - (r.nread + 1)).isLt
  have hcount : r.count = (r.pop.count + 1 % 2 ^ w) % 2 ^ w := by
    change (r.nwrite - r.nread).toNat = _
    rw [hd, BitVec.toNat_add]
    rfl
  change r.pop.count < 2 ^ w at hlt
  rcases Nat.lt_or_ge (r.pop.count + 1) (2 ^ w) with hsmall | hbig
  · rw [Nat.mod_eq_of_lt (by omega : 1 < 2 ^ w), Nat.mod_eq_of_lt hsmall] at hcount
    exact hcount.symm
  · -- A count of `2 ^ w - 1` would have wrapped to nothing.
    have heq : r.pop.count + 1 = 2 ^ w := by omega
    rcases Nat.lt_or_ge 1 (2 ^ w) with hone | hone
    · rw [Nat.mod_eq_of_lt hone, heq, Nat.mod_self] at hcount
      omega
    · have := (r.nwrite - r.nread).isLt
      change r.count < 2 ^ w at this
      omega

theorem contents_push {N : ℕ} {a : α} (hN : N ∣ 2 ^ w) (hlt : N < 2 ^ w)
    (h : r.count < N) : (r.push N a).contents N = r.contents N ++ [a] := by
  have hlast : r.nwrite.toNat % N = (r.nread.toNat + r.count) % N := by
    rw [toNat_nwrite, Nat.mod_mod_of_dvd _ hN]
  have hold : ∀ k ∈ List.range r.count, (r.push N a).data ((r.nread.toNat + k) % N) =
      r.data ((r.nread.toNat + k) % N) := by
    intro k hk
    have hkc : k < r.count := List.mem_range.mp hk
    refine Function.update_of_ne (fun heq => ?_) _ _
    rw [hlast] at heq
    -- Two positions less than one round apart are different cells.
    have hmod : k ≡ r.count [MOD N] := Nat.ModEq.add_left_cancel' _ heq
    have := Nat.ModEq.eq_of_lt_of_lt hmod (by omega) h
    omega
  have hnew : (r.push N a).data ((r.nread.toNat + r.count) % N) = a := by
    rw [← hlast]
    exact Function.update_self _ _ _
  rw [contents, count_push (by omega), List.range_succ, List.map_append]
  change (List.range r.count).map (fun k => (r.push N a).data ((r.nread.toNat + k) % N)) ++
    [(r.push N a).data ((r.nread.toNat + r.count) % N)] = _
  rw [List.map_congr_left hold, hnew]
  rfl

theorem contents_pop {N : ℕ} (hN : N ∣ 2 ^ w) (h : 0 < r.count) :
    r.contents N = r.front N :: r.pop.contents N := by
  have hnext : ∀ k, (r.pop.nread.toNat + k) % N = (r.nread.toNat + (k + 1)) % N := by
    intro k
    change ((r.nread + 1).toNat + k) % N = _
    have hone : (1 : BitVec w).toNat % N = 1 % N := Nat.mod_mod_of_dvd 1 hN
    have hread : (r.nread + 1).toNat % N = (r.nread.toNat + 1) % N := by
      rw [BitVec.toNat_add, Nat.mod_mod_of_dvd _ hN, Nat.add_mod, hone, ← Nat.add_mod]
    rw [Nat.add_mod, hread, ← Nat.add_mod, Nat.add_assoc, Nat.add_comm 1 k]
  have hdata : ∀ k ∈ List.range r.pop.count, r.data ((r.nread.toNat + (k + 1)) % N) =
      r.pop.data ((r.pop.nread.toNat + k) % N) := by
    intro k _
    rw [hnext]
    rfl
  rw [contents, ← count_pop h, List.range_succ_eq_map, List.map_cons, List.map_map]
  change r.data ((r.nread.toNat + 0) % N) :: (List.range r.pop.count).map
    (fun k => r.data ((r.nread.toNat + (k + 1)) % N)) = _
  rw [List.map_congr_left hdata, Nat.add_zero]
  rfl

end Ring
end Xv6.Lib
