import InfotmUboot.Lib.Bytes

/-!
# A text edited in memory

A byte put into the text, over one of its bytes or taken out of it, by the stores that move what is
behind it.
-/

namespace Lib

variable {m : Mem} {a p : ℕ} {text : List UInt8}

theorem Holds.take (h : Holds m a text) (p : ℕ) : Holds m a (text.take p) := by
  rw [← List.take_append_drop p text, holds_append] at h
  exact h.1

theorem Holds.drop (h : Holds m a text) (hp : p ≤ text.length) : Holds m (a + p) (text.drop p) := by
  rw [← List.take_append_drop p text, holds_append, List.length_take_of_le hp] at h
  exact h.2

/-- The text from one of its bytes on, as it is read. -/
theorem Holds.load_drop (h : Holds m a text) (hp : p ≤ text.length) :
    m.load (a + p) (text.length - p) = text.drop p := by
  have hdrop := h.drop hp
  rwa [Holds, List.length_drop] at hdrop

/-- The text as far as `p`, and what is stored there. -/
theorem Holds.splice (h : Holds m a text) (hp : p ≤ text.length) (bs : List UInt8) :
    Holds (m.store (a + p) bs) a (text.take p ++ bs) := by
  rw [holds_append, List.length_take_of_le hp]
  refine ⟨(h.take p).store (.inl ?_), holds_store m _ bs⟩
  rw [List.length_take_of_le hp]

theorem Holds.insert (h : Holds m a text) (hp : p ≤ text.length) (c : UInt8) :
    Holds ((m.store (a + p + 1) (text.drop p)).store (a + p) [c]) a
      (text.take p ++ c :: text.drop p) := by
  have htake : Holds (m.store (a + p + 1) (text.drop p)) a (text.take p) :=
    (h.take p).store (.inl (by rw [List.length_take_of_le hp]; omega))
  have hdrop := holds_store m (a + p + 1) (text.drop p)
  rw [holds_append, List.length_take_of_le hp, holds_cons]
  refine ⟨htake.store (.inl (by rw [List.length_take_of_le hp])), ?_, hdrop.store (.inr le_rfl)⟩
  simpa using (holds_cons.1 (holds_store (m.store (a + p + 1) (text.drop p)) (a + p) [c])).1

theorem Holds.overwrite (h : Holds m a text) (hp : p < text.length) (c : UInt8) :
    Holds (m.store (a + p) [c]) a (text.take p ++ c :: text.drop (p + 1)) := by
  have hrest : Holds (m.store (a + p) [c]) (a + (p + 1)) (text.drop (p + 1)) :=
    (h.drop hp).store (.inr (by rw [List.length_singleton, Nat.add_assoc]))
  have hhead := h.splice hp.le [c]
  rw [holds_append, List.length_take_of_le hp.le, holds_cons] at hhead ⊢
  exact ⟨hhead.1, hhead.2.1, hrest⟩

end Lib
