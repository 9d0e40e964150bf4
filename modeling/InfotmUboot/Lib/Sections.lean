import Mathlib.Data.List.DropRight
import Mathlib.Data.List.Count
import Mathlib.Algebra.GroupWithZero.Nat

/-!
# Sections of a list

The parts of a list between its separators, counted from 0, and where each of them starts.
-/

namespace Lib

section Sections

variable {α : Type*} [DecidableEq α] (d : α)

/-- Where the section with this number starts, if there are so many. -/
def sectionStart : List α → ℕ → Option ℕ
  | _, 0 => some 0
  | [], _ + 1 => none
  | c :: s, n + 1 => (sectionStart s (if c = d then n else n + 1)).map (· + 1)

@[simp]
theorem sectionStart_zero (s : List α) : sectionStart d s 0 = some 0 := by
  cases s <;> rfl

@[simp]
theorem sectionStart_nil (n : ℕ) : sectionStart d [] (n + 1) = none := rfl

theorem sectionStart_self (s : List α) (n : ℕ) :
    sectionStart d (d :: s) (n + 1) = (sectionStart d s n).map (· + 1) := by
  rw [sectionStart, if_pos rfl]

theorem sectionStart_ne {c : α} (h : c ≠ d) (s : List α) (n : ℕ) :
    sectionStart d (c :: s) (n + 1) = (sectionStart d s (n + 1)).map (· + 1) := by
  rw [sectionStart, if_neg h]

/-- There is one section more than there are separators. -/
theorem sectionStart_isSome : ∀ (s : List α) (n : ℕ),
    (sectionStart d s n).isSome = true ↔ n ≤ s.count d
  | s, 0 => by simp
  | [], n + 1 => by simp
  | c :: s, n + 1 => by
    by_cases h : c = d
    · rw [h, sectionStart_self, Option.isSome_map, List.count_cons_self, sectionStart_isSome s n]
      omega
    · rw [sectionStart_ne d h, Option.isSome_map, List.count_cons_of_ne h,
        sectionStart_isSome s (n + 1)]

theorem sectionStart_none {s : List α} {n : ℕ} : sectionStart d s n = none ↔ s.count d < n := by
  rw [← Nat.not_le, ← sectionStart_isSome, Option.not_isSome_iff_eq_none]

/-- The sections start one behind the other. -/
theorem sectionStart_lt : ∀ {s : List α} {n k k' : ℕ}, sectionStart d s n = some k →
    sectionStart d s (n + 1) = some k' → k < k'
  | [], n, k, k', _, h' => by simp at h'
  | c :: s, 0, k, k', h, h' => by
    obtain ⟨j, -, rfl⟩ := Option.map_eq_some_iff.1 h'
    rw [sectionStart_zero, Option.some.injEq] at h
    omega
  | c :: s, n + 1, k, k', h, h' => by
    obtain ⟨i, hi, rfl⟩ := Option.map_eq_some_iff.1 h
    obtain ⟨j, hj, rfl⟩ := Option.map_eq_some_iff.1 h'
    refine Nat.succ_lt_succ ?_
    split_ifs at hi hj with hc
    · exact sectionStart_lt hi hj
    · exact sectionStart_lt hi hj

/-- Behind the sections before it and their separators. -/
theorem sectionStart_eq : ∀ (s : List α) (n : ℕ), sectionStart d s n =
    if n < (s.splitOn d).length then some ((((s.splitOn d).take n).map fun t => t.length + 1).sum)
    else none
  | s, 0 => by
    have hne : 0 < (s.splitOn d).length := List.length_pos_of_ne_nil (List.splitOnP_ne_nil _ s)
    simp [hne]
  | [], n + 1 => by simp
  | c :: s, n + 1 => by
    have hsplit : (c :: s).splitOn d = if c = d then [] :: s.splitOn d
        else (s.splitOn d).modifyHead (c :: ·) := by
      rw [List.splitOn, List.splitOnP_cons_eq_if_modifyHead]
      simp [List.splitOn]
    by_cases hc : c = d
    · rw [hsplit, if_pos hc, hc, sectionStart_self, sectionStart_eq s n]
      by_cases hn : n < (s.splitOn d).length
      · simp [hn, Nat.add_comm]
      · simp [hn]
    · obtain ⟨t, ts, hts⟩ := List.exists_cons_of_ne_nil (List.splitOnP_ne_nil (· == d) s)
      have hts : s.splitOn d = t :: ts := hts
      rw [hsplit, if_neg hc, sectionStart_ne d hc, sectionStart_eq s (n + 1), hts]
      by_cases hn : n < ts.length
      · simp [hn]
        omega
      · simp [hn]

end Sections

section Trailing

variable {α : Type*} (p : α → Bool)

/-- What a list ends with is what its tail ends with, unless that is all of the tail. -/
theorem rtakeWhile_cons (c : α) (s : List α) : (c :: s).rtakeWhile p =
    if s.all p then (if p c then c :: s else s) else s.rtakeWhile p := by
  rw [List.rtakeWhile, List.reverse_cons, List.takeWhile_append]
  by_cases h : s.all p = true
  · have hall : s.reverse.takeWhile p = s.reverse :=
      List.takeWhile_eq_self_iff.2 fun x hx => List.all_eq_true.1 h x (List.mem_reverse.1 hx)
    rw [if_pos h, hall, if_pos rfl]
    by_cases hc : p c = true <;> simp [hc]
  · rw [if_neg h, if_neg fun hlen => h ?_, List.rtakeWhile]
    have hself := List.takeWhile_prefix (l := s.reverse) p |>.eq_of_length hlen
    refine List.all_eq_true.2 fun x hx => ?_
    exact List.takeWhile_eq_self_iff.1 hself x (List.mem_reverse.2 hx)

end Trailing

end Lib
