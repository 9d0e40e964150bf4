import Mathlib.Data.Nat.Bitwise
import Mathlib.Data.Int.Init
import Mathlib.Tactic.Ring

/-!
# Machine words

Fixed-width arithmetic on naturals and integers, and the masks that round to a power of two.
-/

namespace Lib

/-- The value an unsigned 32-bit variable keeps. -/
def u32 (n : ℕ) : ℕ := n % 2 ^ 32

/-- The value a signed 32-bit variable keeps. -/
def s32 (z : ℤ) : ℤ := z.bmod (2 ^ 32)

/-- The unsigned 32-bit reading of a signed value. -/
def toU32 (z : ℤ) : ℕ := (z % 2 ^ 32).toNat

/-- The unsigned 64-bit reading of a signed value. -/
def toU64 (z : ℤ) : ℕ := (z % 2 ^ 64).toNat

/-- `x & ~m` -/
def andNot (x m : ℕ) : ℕ := x - (x &&& m)

theorem u32_lt (n : ℕ) : u32 n < 2 ^ 32 := Nat.mod_lt _ (by norm_num)

theorem u32_of_lt {n : ℕ} (h : n < 2 ^ 32) : u32 n = n := Nat.mod_eq_of_lt h

theorem u32_le (n : ℕ) : u32 n ≤ n := Nat.mod_le _ _

theorem s32_of_range {z : ℤ} (h1 : -2 ^ 31 ≤ z) (h2 : z < 2 ^ 31) : s32 z = z := by
  unfold s32
  rw [Int.bmod_def]
  split <;> omega

theorem s32_le {z : ℤ} (h : 0 ≤ z) : s32 z ≤ z := by
  unfold s32
  rw [Int.bmod_def]
  split <;> omega

theorem s32_natCast {n : ℕ} (h : n < 2 ^ 32) :
    s32 n = if n < 2 ^ 31 then (n : ℤ) else n - 2 ^ 32 := by
  unfold s32
  rw [Int.bmod_def]
  split_ifs <;> omega

theorem toU32_s32 {n : ℕ} (h : n < 2 ^ 32) : toU32 (s32 n) = n := by
  unfold toU32 s32
  rw [Int.bmod_def]
  split <;> omega

theorem toU32_natCast {n : ℕ} (h : n < 2 ^ 32) : toU32 n = n := by
  unfold toU32
  omega

theorem and_mask {a k : ℕ} (ha : a = 2 ^ k) (x : ℕ) : x &&& (a - 1) = x % a := by
  rw [ha, Nat.and_two_pow_sub_one_eq_mod]

theorem andNot_mask {a k : ℕ} (ha : a = 2 ^ k) (x : ℕ) : andNot x (a - 1) = x - x % a := by
  rw [andNot, and_mask ha]

theorem andNot_le (x m : ℕ) : andNot x m ≤ x := Nat.sub_le _ _

end Lib
