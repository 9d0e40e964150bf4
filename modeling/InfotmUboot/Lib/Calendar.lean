import Mathlib.Algebra.BigOperators.Intervals
import Mathlib.Algebra.Order.BigOperators.Group.Finset
import Mathlib.Tactic.IntervalCases

/-!
# The Gregorian calendar

Days are counted year by year and month by month (`DateTime.days`). The years of a stretch are 365
days each and the leap days in it (`yearLength_sum`), the months of a year what the table adds up
to.
-/

namespace Lib

def Leap (y : ℕ) : Prop := y % 4 = 0 ∧ (y % 100 ≠ 0 ∨ y % 400 = 0)

instance (y : ℕ) : Decidable (Leap y) := inferInstanceAs (Decidable (_ ∧ _))

def yearLength (y : ℕ) : ℕ := if Leap y then 366 else 365

def monthLength (y m : ℕ) : ℕ :=
  if m = 2 then if Leap y then 29 else 28
  else if m = 4 ∨ m = 6 ∨ m = 9 ∨ m = 11 then 30 else 31

/-- A day of the calendar and a second of it. -/
structure DateTime where
  year : ℕ
  month : ℕ
  day : ℕ
  hour : ℕ
  min : ℕ
  sec : ℕ
  month_pos : 0 < month
  month_le : month ≤ 12
  day_pos : 0 < day
  day_le : day ≤ monthLength year month
  hour_lt : hour < 24
  min_lt : min < 60
  sec_lt : sec < 60

/-- The days of the year that are over. -/
def DateTime.yearDay (d : DateTime) : ℕ :=
  ∑ m ∈ Finset.Ico 1 d.month, monthLength d.year m + (d.day - 1)

/-- The days from the first of January of a year on. -/
def DateTime.days (epoch : ℕ) (d : DateTime) : ℕ :=
  ∑ y ∈ Finset.Ico epoch d.year, yearLength y + d.yearDay

def DateTime.seconds (epoch : ℕ) (d : DateTime) : ℕ :=
  ((d.days epoch * 24 + d.hour) * 60 + d.min) * 60 + d.sec

/-- Sunday is 0, and the first of January 1970 was a Thursday. -/
def DateTime.weekday (d : DateTime) : ℕ := (4 + d.days 1970) % 7

/-- The leap days before a year. -/
def leapsBefore (y : ℕ) : ℕ := (y - 1) / 4 - (y - 1) / 100 + (y - 1) / 400

theorem leapsBefore_succ {y : ℕ} (hy : 0 < y) :
    leapsBefore (y + 1) = leapsBefore y + if Leap y then 1 else 0 := by
  obtain ⟨x, rfl⟩ : ∃ x, y = x + 1 := ⟨y - 1, by omega⟩
  have hle : x / 100 ≤ x / 4 := Nat.div_le_div_left (by norm_num) (by norm_num)
  have h100 : 100 ∣ x + 1 → 4 ∣ x + 1 := (show 4 ∣ 100 by norm_num).trans
  have h400 : 400 ∣ x + 1 → 100 ∣ x + 1 := (show 100 ∣ 400 by norm_num).trans
  simp only [leapsBefore, Nat.add_sub_cancel, Nat.succ_div, Leap, ne_eq,
    ← Nat.dvd_iff_mod_eq_zero]
  by_cases h4 : 4 ∣ x + 1
  · by_cases h1 : 100 ∣ x + 1
    · by_cases h2 : 400 ∣ x + 1
      · simp [h4, h1, h2, Nat.add_assoc]
      · simp [h4, h1, h2]
    · simp only [h4, h1, mt h400 h1, if_true, if_false, not_false_iff, true_and, true_or]
      omega
  · simp [h4, mt h100 h4, mt h400 (mt h100 h4)]

theorem yearLength_eq (y : ℕ) : yearLength y = 365 + if Leap y then 1 else 0 := by
  unfold yearLength
  split_ifs <;> rfl

theorem yearLength_pos (y : ℕ) : 0 < yearLength y := by
  rw [yearLength_eq]
  omega

theorem yearLength_le (y : ℕ) : yearLength y ≤ 366 := by
  unfold yearLength
  split_ifs <;> omega

theorem yearLength_sum {a b : ℕ} (ha : 0 < a) (hab : a ≤ b) :
    ∑ y ∈ Finset.Ico a b, yearLength y + (365 * a + leapsBefore a) = 365 * b + leapsBefore b := by
  induction b, hab using Nat.le_induction with
  | base => simp
  | succ b hab ih =>
    rw [Finset.sum_Ico_succ_top hab, leapsBefore_succ (ha.trans_le hab), yearLength_eq]
    omega

theorem monthLength_pos (y m : ℕ) : 0 < monthLength y m := by
  unfold monthLength
  split_ifs <;> omega

theorem monthLength_le (y m : ℕ) : monthLength y m ≤ 31 := by
  unfold monthLength
  split_ifs <;> omega

/-- The days of the months before one, by what the shortest leaves out. -/
theorem monthLength_sum {y m : ℕ} (h1 : 0 < m) (h12 : m ≤ 12) :
    ∑ k ∈ Finset.Ico 1 m, monthLength y k =
      [0, 31, 59, 90, 120, 151, 181, 212, 243, 273, 304, 334].getD (m - 1) 0 +
        if Leap y ∧ 2 < m then 1 else 0 := by
  by_cases hleap : Leap y
  · interval_cases m <;> simp [Finset.sum_Ico_succ_top, monthLength, hleap]
  · interval_cases m <;> simp [Finset.sum_Ico_succ_top, monthLength, hleap]

/-- The months make a year. -/
theorem monthLength_year (y : ℕ) : ∑ m ∈ Finset.Ico 1 13, monthLength y m = yearLength y := by
  have hsum := monthLength_sum (y := y) (m := 12) (by omega) le_rfl
  rw [Finset.sum_Ico_succ_top (by omega), hsum, yearLength_eq]
  by_cases hleap : Leap y <;> simp [hleap, monthLength]

theorem DateTime.yearDay_lt (d : DateTime) : d.yearDay < yearLength d.year := by
  have hle : ∑ m ∈ Finset.Ico 1 (d.month + 1), monthLength d.year m ≤
      ∑ m ∈ Finset.Ico 1 13, monthLength d.year m :=
    Finset.sum_le_sum_of_subset_of_nonneg
      (Finset.Ico_subset_Ico_right (Nat.succ_le_succ d.month_le)) fun _ _ _ => Nat.zero_le _
  rw [monthLength_year, Finset.sum_Ico_succ_top (show 1 ≤ d.month from d.month_pos)] at hle
  have hpos := d.day_pos
  have hday := d.day_le
  unfold DateTime.yearDay
  omega

end Lib
