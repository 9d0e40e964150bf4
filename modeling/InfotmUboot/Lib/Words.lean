import Mathlib.Data.List.TakeWhile
import Mathlib.Tactic.Linarith

/-!
# The words of a list

A word is a run of elements that are no separators, as long as it can be; `words` gives each with
its position. A list is separators, then its first word, then a separator and the list of the other
words.
-/

namespace Lib

section Words

variable {α : Type*} (sep : α → Bool)

/-- The words from a position on, the first of them begun before it. -/
def wordsFrom : ℕ → Option (ℕ × List α) → List α → List (ℕ × List α)
  | _, w, [] => w.toList
  | i, none, c :: cs => if sep c then wordsFrom (i + 1) none cs else wordsFrom (i + 1)
      (some (i, [c])) cs
  | i, some (j, w), c :: cs =>
    if sep c then (j, w) :: wordsFrom (i + 1) none cs
    else wordsFrom (i + 1) (some (j, w ++ [c])) cs

/-- The words of a list whose first element is at position `i`. -/
def words (i : ℕ) (cs : List α) : List (ℕ × List α) := wordsFrom sep i none cs

@[simp]
theorem words_nil (i : ℕ) : words sep i [] = [] := rfl

variable {sep}

theorem words_sep : ∀ {bs : List α} (i : ℕ) (rest : List α), (∀ b ∈ bs, sep b) →
    words sep i (bs ++ rest) = words sep (i + bs.length) rest
  | [], _, _, _ => rfl
  | b :: bs, i, rest, h => by
    have hb := h b List.mem_cons_self
    have ih := words_sep (i + 1) rest fun c hc => h c (List.mem_cons_of_mem b hc)
    unfold words at ih ⊢
    rw [List.cons_append, wordsFrom, if_pos hb, ih, List.length_cons, Nat.add_assoc,
      Nat.add_comm 1]

theorem wordsFrom_word : ∀ {w : List α} (i j : ℕ) (v rest : List α), (∀ c ∈ w, ¬sep c) →
    wordsFrom sep i (some (j, v)) (w ++ rest) =
      wordsFrom sep (i + w.length) (some (j, v ++ w)) rest
  | [], i, j, v, rest, _ => by rw [List.append_nil]; rfl
  | c :: w, i, j, v, rest, h => by
    have hc := h c List.mem_cons_self
    have ih := wordsFrom_word (i + 1) j (v ++ [c]) rest fun d hd => h d (List.mem_cons_of_mem c hd)
    rw [List.cons_append, wordsFrom, if_neg hc, ih, List.length_cons, List.append_assoc,
      List.singleton_append, Nat.add_assoc, Nat.add_comm 1]

theorem wordsFrom_start {c : α} {w : List α} (i : ℕ) (rest : List α) (h : ∀ d ∈ c :: w, ¬sep d) :
    words sep i (c :: w ++ rest) =
      wordsFrom sep (i + (c :: w).length) (some (i, c :: w)) rest := by
  rw [words, List.cons_append, wordsFrom, if_neg (h c List.mem_cons_self),
    wordsFrom_word _ _ _ _ fun d hd => h d (List.mem_cons_of_mem c hd), List.length_cons,
    List.singleton_append, Nat.add_assoc, Nat.add_comm 1]

/-- A word that ends the list. -/
theorem words_last {w : List α} (i : ℕ) (hw : w ≠ []) (h : ∀ c ∈ w, ¬sep c) :
    words sep i w = [(i, w)] := by
  obtain ⟨c, w, rfl⟩ := List.exists_cons_of_ne_nil hw
  have := wordsFrom_start i [] h
  rwa [List.append_nil] at this

/-- A word, its separator and the others. -/
theorem words_cons {w : List α} (i : ℕ) {b : α} (rest : List α) (hw : w ≠ []) (h : ∀ c ∈ w, ¬sep c)
    (hb : sep b) :
    words sep i (w ++ b :: rest) = (i, w) :: words sep (i + w.length + 1) rest := by
  obtain ⟨c, w, rfl⟩ := List.exists_cons_of_ne_nil hw
  rw [wordsFrom_start i (b :: rest) h, wordsFrom, if_pos hb]
  rfl

variable (sep) in
/-- The ways a list can begin: with separators only, with these and a last word, or with these, a
word and a separator. -/
theorem words_split (cs : List α) : ∃ bs rest, cs = bs ++ rest ∧ (∀ b ∈ bs, sep b) ∧
    (rest = [] ∨ ∃ w rest', w ≠ [] ∧ (∀ c ∈ w, ¬sep c) ∧ rest = w ++ rest' ∧
      (rest' = [] ∨ ∃ b rest'', rest' = b :: rest'' ∧ sep b)) := by
  refine ⟨cs.takeWhile sep, cs.dropWhile sep, (List.takeWhile_append_dropWhile).symm,
    fun b hb => List.mem_takeWhile_imp hb, ?_⟩
  rcases hd : cs.dropWhile sep with _ | ⟨c, rest⟩
  · exact Or.inl rfl
  refine Or.inr ⟨(c :: rest).takeWhile (!sep ·), (c :: rest).dropWhile (!sep ·), ?_, ?_,
    (List.takeWhile_append_dropWhile).symm, ?_⟩
  · have hc : ¬sep c := by
      have hne : cs.dropWhile sep ≠ [] := by rw [hd]; exact List.cons_ne_nil _ _
      have := List.head_dropWhile_not sep hne
      simp only [hd, List.head_cons] at this
      rw [this]
      exact Bool.false_ne_true
    rw [List.takeWhile_cons, if_pos (by simpa using hc)]
    exact List.cons_ne_nil _ _
  · intro d hd'
    simpa using List.mem_takeWhile_imp hd'
  · rcases hr : (c :: rest).dropWhile (!sep ·) with _ | ⟨b, rest''⟩
    · exact Or.inl rfl
    · refine Or.inr ⟨b, rest'', rfl, ?_⟩
      have hne : (c :: rest).dropWhile (!sep ·) ≠ [] := by rw [hr]; exact List.cons_ne_nil _ _
      have := List.head_dropWhile_not (!sep ·) hne
      simp only [hr, List.head_cons] at this
      simpa using this

end Words

end Lib
