import Mathlib.Data.List.Basic
import Mathlib.Tactic.Basic

/-!
# Saved values that are put back

A list of saved values goes back to `place j`, `place (j + 1)`, …, where places may coincide.
`undo` is what the cell `c` holds after that. A value that is saved in front of the others takes
back a write to its own place (`undo_cons`), so the list takes back all the writes, newest first.
-/

namespace Lib

variable {C V : Type} [DecidableEq C] (place : ℕ → C) (c : C)

def undo : ℕ → List V → V → V
  | _, [], cur => cur
  | j, v :: save, cur => undo (j + 1) save (if place j = c then v else cur)

/-- `v` was read at `place j` before the write of `w` there. -/
theorem undo_cons (j : ℕ) (save : List V) {v w cur : V} (hv : place j = c → v = cur) :
    undo place c j (v :: save) (if place j = c then w else cur) = undo place c (j + 1)
      save cur := by
  rw [undo]
  by_cases h : place j = c
  · rw [if_pos h, hv h]
  · rw [if_neg h, if_neg h]

/-- Where something goes back, what the cell held before is of no account. -/
theorem undo_hit : ∀ (save : List V) (j : ℕ) (a b : V),
    (∃ k < save.length, place (j + k) = c) → undo place c j save a = undo place c j save b
  | [], _, _, _, ⟨_, hk, _⟩ => absurd hk (Nat.not_lt_zero _)
  | v :: save, j, a, b, ⟨k, hk, hplace⟩ => by
    unfold undo
    by_cases h : place j = c
    · rw [if_pos h, if_pos h]
    · rw [if_neg h, if_neg h]
      obtain _ | k := k
      · exact absurd hplace h
      · exact undo_hit save (j + 1) a b
          ⟨k, Nat.lt_of_succ_lt_succ hk, by rwa [Nat.add_right_comm, Nat.add_assoc]⟩

theorem undo_miss : ∀ (save : List V) (j : ℕ) (cur : V),
    (∀ k < save.length, place (j + k) ≠ c) → undo place c j save cur = cur
  | [], _, _, _ => rfl
  | v :: save, j, cur, h => by
    unfold undo
    rw [if_neg (show ¬place j = c from h 0 (Nat.succ_pos _))]
    refine undo_miss save (j + 1) cur fun k hk => ?_
    rw [Nat.add_right_comm, Nat.add_assoc]
    exact h (k + 1) (Nat.succ_lt_succ hk)

end Lib
