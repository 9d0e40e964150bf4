import Mathlib.Data.List.Basic
import Mathlib.Data.List.DropRight
import Mathlib.Logic.Function.Basic

/-!
# Rings of cells

Positions `0` to `n - 1` in a circle, and the list that `k` cells from a position on hold. A cell
that is written behind them is the next of the list, and the list of a full ring loses its first
one.
-/

namespace Lib

section Positions

variable {n : ℕ}

/-- The position behind `p`, which starts again at the end of the cells. -/
def ringNext (n p : ℕ) : ℕ := if p + 1 = n then 0 else p + 1

theorem ringNext_eq {p : ℕ} (hp : p < n) : ringNext n p = (p + 1) % n := by
  unfold ringNext
  split_ifs with h
  · rw [h, Nat.mod_self]
  · rw [Nat.mod_eq_of_lt (by omega)]

theorem ringNext_lt {p : ℕ} (hp : p < n) : ringNext n p < n := by
  rw [ringNext_eq hp]
  exact Nat.mod_lt _ (by omega)

/-- Steps within one round lead to different positions. -/
theorem ring_ne {p i j : ℕ} (hij : i < j) (hj : j < n) : (p + i) % n ≠ (p + j) % n := by
  intro h
  have hzero := Nat.sub_mod_eq_zero_of_mod_eq h.symm
  rw [show p + j - (p + i) = j - i by omega, Nat.mod_eq_of_lt (by omega)] at hzero
  omega

theorem ring_add (p i j : ℕ) : ((p + i) % n + j) % n = (p + (i + j)) % n := by
  rw [Nat.mod_add_mod, Nat.add_assoc]

end Positions

section Cells

variable {α : Type*} {n : ℕ} (cells : ℕ → α)

/-- What `k` cells from `p` on hold. -/
def ringRead (n p k : ℕ) : List α := (List.range k).map fun i => cells ((p + i) % n)

@[simp]
theorem length_ringRead (p k : ℕ) : (ringRead cells n p k).length = k := by simp [ringRead]

@[simp]
theorem ringRead_zero (p : ℕ) : ringRead cells n p 0 = [] := rfl

theorem ringRead_add (p k j : ℕ) :
    ringRead cells n p (k + j) = ringRead cells n p k ++ ringRead cells n ((p + k) % n) j := by
  unfold ringRead
  rw [List.range_add, List.map_append, List.map_map]
  refine congrArg _ (List.map_congr_left fun i _ => ?_)
  rw [ring_add]
  rfl

theorem ringRead_succ {p : ℕ} (hp : p < n) (k : ℕ) :
    ringRead cells n p (k + 1) = cells p :: ringRead cells n (ringNext n p) k := by
  have hone : ringRead cells n p 1 = [cells p] := by
    simp [ringRead, Nat.mod_eq_of_lt hp]
  rw [Nat.add_comm, ringRead_add, hone, ringNext_eq hp, List.singleton_append]

theorem ringRead_mod (p k : ℕ) : ringRead cells n (p % n) k = ringRead cells n p k := by
  unfold ringRead
  simp only [Nat.mod_add_mod]

theorem take_ringRead (p : ℕ) {k j : ℕ} (h : j ≤ k) :
    (ringRead cells n p k).take j = ringRead cells n p j := by
  obtain ⟨i, rfl⟩ := Nat.exists_eq_add_of_le h
  rw [ringRead_add, List.take_left' (length_ringRead ..)]

theorem drop_ringRead (p : ℕ) {k j : ℕ} (h : j ≤ k) :
    (ringRead cells n p k).drop j = ringRead cells n ((p + j) % n) (k - j) := by
  obtain ⟨i, rfl⟩ := Nat.exists_eq_add_of_le h
  rw [ringRead_add, List.drop_left' (length_ringRead ..), Nat.add_sub_cancel_left]

variable {cells}

/-- A cell that is written behind `k` of them comes next. -/
theorem ringRead_write {cells' : ℕ → α} {p k : ℕ} {c : α} (hk : k < n)
    (hc : cells' ((p + k) % n) = c) (hsame : ∀ q, q ≠ (p + k) % n → cells' q = cells q) :
    ringRead cells' n p (k + 1) = ringRead cells n p k ++ [c] := by
  rw [ringRead_add]
  congr 1
  · exact List.map_congr_left fun i hi => hsame _ (ring_ne (List.mem_range.1 hi) hk)
  · simp only [ringRead, List.range_one, List.map_singleton, Nat.add_zero, Nat.mod_mod, hc]

end Cells

section Last

variable {α : Type*}

theorem rtake_of_length_le {n : ℕ} {as : List α} (h : as.length ≤ n) : as.rtake n = as := by
  rw [List.rtake, Nat.sub_eq_zero_of_le h, List.drop_zero]

/-- Of a list and what follows it, the last `n` elements are those of its last `n` and the rest. -/
theorem rtake_rtake_append (n : ℕ) (as bs : List α) :
    (as.rtake n ++ bs).rtake n = (as ++ bs).rtake n := by
  rcases Nat.le_total as.length n with h | h
  · rw [rtake_of_length_le h]
  · obtain ⟨k, hk⟩ := Nat.exists_eq_add_of_le h
    have hd : as.length - n = k := by omega
    have happ : as.drop k ++ bs = (as ++ bs).drop k :=
      (List.drop_append_of_le_length (by omega)).symm
    rw [List.rtake, List.rtake, List.rtake, hd, happ, List.drop_drop, List.length_drop]
    congr 1
    rw [List.length_append]
    omega

end Last

end Lib
