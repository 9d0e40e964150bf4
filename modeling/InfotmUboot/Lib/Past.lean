import Mathlib.Data.List.Basic

/-!
# Logs and their past

`Past P log`: every entry of the log is in the relation `P` with what is before it. A log that grows
at its end keeps this if its new entries have it.
-/

namespace Lib

variable {α : Type} {P : List α → α → Prop}

def Past (P : List α → α → Prop) (log : List α) : Prop :=
  ∀ before a after, log = before ++ a :: after → P before a

theorem past_nil : Past P [] := fun before _ _ h => absurd h (by cases before <;> simp)

theorem Past.snoc {log : List α} {a : α} (h : Past P log) (ha : P log a) : Past P (log ++ [a]) := by
  intro before b after heq
  rcases List.eq_nil_or_concat after with rfl | ⟨after, c, rfl⟩
  · obtain ⟨rfl, hb⟩ := List.append_inj' heq rfl
    rw [List.cons.injEq] at hb
    rwa [← hb.1]
  · rw [List.concat_eq_append, ← List.cons_append, ← List.append_assoc] at heq
    obtain ⟨hlog, -⟩ := List.append_inj' heq rfl
    exact h before b after hlog

/-- Entries that have no past to look for. -/
theorem Past.append {log : List α} (h : Past P log) :
    ∀ {as : List α}, (∀ a ∈ as, ∀ before, P before a) → Past P (log ++ as)
  | [], _ => by rwa [List.append_nil]
  | a :: as, has => by
    rw [List.append_cons]
    exact (h.snoc (has a List.mem_cons_self log)).append fun b hb =>
      has b (List.mem_cons_of_mem _ hb)

end Lib
