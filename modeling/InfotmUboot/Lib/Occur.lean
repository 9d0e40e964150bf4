import Mathlib.Data.List.Basic
import Mathlib.Tactic.Linarith

/-!
# Where a word occurs

The occurrences of a word in a text, and the search that goes over them from left to right and goes
on behind each: `Reached` are the positions that it goes on from.
-/

namespace Lib

section Occur

variable {α : Type*} (w t : List α)

/-- The word is in the text at `p`. -/
def Occurs (p : ℕ) : Prop := ∀ i < w.length, t[p + i]? = w[i]?

variable {w t}

theorem occurs_iff {p : ℕ} : Occurs w t p ↔ w <+: t.drop p := by
  simp only [List.prefix_iff_getElem?, List.getElem?_drop, Occurs]
  exact forall₂_congr fun i hi => by rw [List.getElem?_eq_getElem hi]

instance [DecidableEq α] (p : ℕ) : Decidable (Occurs w t p) :=
  decidable_of_iff _ occurs_iff.symm

theorem Occurs.le_length {p : ℕ} (h : Occurs w t p) (hw : w ≠ []) :
    p + w.length ≤ t.length := by
  have hpos := List.length_pos_iff.2 hw
  have hlast := h (w.length - 1) (by omega)
  rw [List.getElem?_eq_getElem (show w.length - 1 < w.length by omega)] at hlast
  have := (List.getElem?_eq_some_iff.1 hlast).1
  omega

/-- What is in the text within an occurrence is in the word. -/
theorem Occurs.mem {p j : ℕ} {c : α} (h : Occurs w t p) (hlo : p ≤ j) (hhi : j < p + w.length)
    (hc : t[j]? = some c) : c ∈ w := by
  have hj := h (j - p) (by omega)
  rw [show p + (j - p) = j by omega, hc] at hj
  exact List.mem_of_getElem? hj.symm

variable [DecidableEq α] (w t)

/-- The first occurrence at or behind `o`. -/
def search (o : ℕ) : Option ℕ :=
  (List.range' o (t.length + 1 - o)).find? fun k => Occurs w t k

variable {w t}

theorem search_eq_none {o : ℕ} (hw : w ≠ []) :
    search w t o = none ↔ ∀ p, o ≤ p → ¬Occurs w t p := by
  rw [search, List.find?_eq_none]
  constructor
  · intro h p hp hocc
    have hle := hocc.le_length hw
    have hmem : p ∈ List.range' o (t.length + 1 - o) := List.mem_range'_1.2 ⟨hp, by omega⟩
    exact h p hmem (by simpa using hocc)
  · intro h p hp
    simpa using h p (List.mem_range'_1.1 hp).1

theorem search_eq_some {o k : ℕ} (h : search w t o = some k) :
    o ≤ k ∧ Occurs w t k ∧ ∀ p, o ≤ p → p < k → ¬Occurs w t p := by
  obtain ⟨hocc, pre, post, hsplit, hpre⟩ := List.find?_eq_some_iff_append.1 h
  have hk : k ∈ List.range' o (t.length + 1 - o) := hsplit ▸ by simp
  refine ⟨(List.mem_range'_1.1 hk).1, by simpa using hocc, fun p hlo hhi => ?_⟩
  have hsorted : (pre ++ k :: post).Pairwise (· < ·) := hsplit ▸ List.pairwise_lt_range'
  have hp : p ∈ pre ++ k :: post :=
    hsplit ▸ List.mem_range'_1.2 ⟨hlo, by have := (List.mem_range'_1.1 hk).2; omega⟩
  rcases List.mem_append.1 hp with hp | hp
  · simpa using hpre p hp
  · rcases List.mem_cons.1 hp with rfl | hp
    · omega
    · have := List.rel_of_pairwise_cons (List.pairwise_append.1 hsorted).2.1 hp
      omega

variable (w t)

/-- The position that the search goes on from after so many occurrences. -/
def reach : ℕ → Option ℕ
  | 0 => some 0
  | n + 1 => (reach n).bind fun o => (search w t o).map (· + w.length)

def Reached (p : ℕ) : Prop := ∃ n, reach w t n = some p

variable {w t}

theorem reach_succ {n o k : ℕ} (ho : reach w t n = some o) (hk : search w t o = some k) :
    reach w t (n + 1) = some (k + w.length) := by
  rw [reach, ho, Option.bind_some, hk, Option.map_some]

theorem reach_mono {n p : ℕ} : ∀ {m o : ℕ}, n ≤ m → reach w t n = some p → reach w t m = some o →
    p ≤ o
  | 0, o, hle, hp, ho => by
    obtain rfl : n = 0 := Nat.le_zero.1 hle
    exact (Option.some.inj (hp.symm.trans ho)).le
  | m + 1, o, hle, hp, ho => by
    rcases Nat.lt_or_eq_of_le hle with hlt | rfl
    · obtain ⟨o', ho', hstep⟩ := Option.bind_eq_some_iff.1 ho
      obtain ⟨k, hk, rfl⟩ := Option.map_eq_some_iff.1 hstep
      have hp' := reach_mono (Nat.lt_succ_iff.1 hlt) hp ho'
      have := (search_eq_some hk).1
      omega
    · exact (Option.some.inj (hp.symm.trans ho)).le

/-- From one position the search goes on at the end of the next occurrence. -/
theorem Reached.next {n o k p : ℕ} (hp : Reached w t p) (ho : reach w t n = some o)
    (hk : search w t o = some k) : p ≤ o ∨ k + w.length ≤ p := by
  obtain ⟨m, hm⟩ := hp
  rcases Nat.lt_or_ge n m with hlt | hge
  · exact .inr (reach_mono hlt (reach_succ ho hk) hm)
  · exact .inl (reach_mono hge hm ho)

end Occur

end Lib
