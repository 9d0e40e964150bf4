import Mathlib.Data.List.Sort

/-!
# Lists sorted by a key

Entries with the same key keep their order in a stable sort, so a list that is sorted by a key is
known from its entries of each key.
-/

namespace Lib

variable {α κ : Type*} [LinearOrder κ] (key : α → κ)

def KeyLe (a b : α) : Prop := key a ≤ key b

instance : DecidableRel (KeyLe key) := fun a b => inferInstanceAs (Decidable (key a ≤ key b))

instance : Std.Total (KeyLe key) := ⟨fun a b => le_total (key a) (key b)⟩

instance : IsTrans α (KeyLe key) := ⟨fun _ _ _ => le_trans⟩

theorem filter_orderedInsert (k : κ) (a : α) : ∀ l : List α,
    (l.orderedInsert (KeyLe key) a).filter (key · = k) = (a :: l).filter (key · = k)
  | [] => rfl
  | b :: l => by
    rw [List.orderedInsert_cons]
    split_ifs with hab
    · rfl
    · have hne : key a ≠ key b := fun he => hab he.le
      rw [List.filter_cons, filter_orderedInsert k a l, List.filter_cons, List.filter_cons,
        List.filter_cons]
      split_ifs with hb ha
      · simp only [decide_eq_true_eq] at ha hb
        exact absurd (ha.trans hb.symm) hne
      · rfl
      · rfl
      · rfl

theorem filter_insertionSort (k : κ) : ∀ l : List α,
    (l.insertionSort (KeyLe key)).filter (key · = k) = l.filter (key · = k)
  | [] => rfl
  | a :: l => by
    rw [List.insertionSort_cons, filter_orderedInsert, List.filter_cons, filter_insertionSort k l,
      List.filter_cons]

variable {key}

theorem eq_of_filter : ∀ {l l' : List α}, l.Pairwise (KeyLe key) → l'.Pairwise (KeyLe key) →
    (∀ k, l.filter (key · = k) = l'.filter (key · = k)) → l = l'
  | [], [], _, _, _ => rfl
  | [], b :: l', _, _, h => by
    have := h (key b)
    rw [List.filter_cons_of_pos (by simp)] at this
    exact absurd this (by simp)
  | a :: l, [], _, _, h => by
    have := h (key a)
    rw [List.filter_cons_of_pos (by simp)] at this
    exact absurd this (by simp)
  | a :: l, b :: l', hl, hl', h => by
    have hkey : key a = key b := by
      have hmin : ∀ {x : α} {xs ys : List α} {y : α}, (x :: xs).Pairwise (KeyLe key) →
          (x :: xs).filter (key · = key y) = (y :: ys).filter (key · = key y) → key x ≤ key y := by
        intro x xs ys y hp he
        have hy : y ∈ (x :: xs).filter (key · = key y) := by
          rw [he, List.filter_cons_of_pos (by simp)]
          exact List.mem_cons_self
        rcases List.mem_cons.mp (List.mem_of_mem_filter hy) with rfl | hy
        · exact le_refl _
        · exact (List.pairwise_cons.mp hp).1 y hy
      exact le_antisymm (hmin hl (h (key b))) (hmin hl' (h (key a)).symm)
    have hhead := h (key a)
    rw [List.filter_cons_of_pos (by simp), List.filter_cons_of_pos (by simp [hkey])] at hhead
    obtain rfl := (List.cons.inj hhead).1
    have htail : l = l' := eq_of_filter hl.of_cons hl'.of_cons fun k => by
      have hk := h k
      rw [List.filter_cons, List.filter_cons] at hk
      split_ifs at hk
      · exact (List.cons.inj hk).2
      · exact hk
    rw [htail]

/-- What a list is sorted into, entry by entry. -/
theorem insertionSort_eq_iff {l l' : List α} (h : l'.Pairwise (KeyLe key)) :
    l.insertionSort (KeyLe key) = l' ↔ ∀ k, l.filter (key · = k) = l'.filter (key · = k) := by
  refine ⟨fun he k => ?_, fun hk => eq_of_filter (List.pairwise_insertionSort _ l) h fun k => ?_⟩
  · rw [← he, filter_insertionSort]
  · rw [filter_insertionSort, hk]

end Lib
