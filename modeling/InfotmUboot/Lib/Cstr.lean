import InfotmUboot.Lib.Bytes
import Mathlib.Data.List.TakeWhile

/-!
# Strings that end with a zero byte

What `strlen` counts from an address on, and the string it finds there.
-/

namespace Lib

section Cstr

variable (m : Mem)

def strlenLoop : ℕ → ℕ → ℕ
  | 0, _ => 0
  | n + 1, a => if m a = 0 then 0 else strlenLoop n (a + 1) + 1

/-- No string is longer than the address space. -/
def strlen (a : ℕ) : ℕ := strlenLoop m (2 ^ 32) a

/-- The string at an address, without its zero. -/
def cstr (a : ℕ) : List UInt8 := m.load a (strlen m a)

end Cstr

variable {m : Mem}

theorem strlenLoop_eq : ∀ {s : List UInt8} {n a : ℕ}, Holds m a (s ++ [0]) → s.length < n →
    strlenLoop m n a = (s.takeWhile (· ≠ 0)).length
  | [], n + 1, a, h, _ => by
    rw [List.nil_append, holds_cons] at h
    simp [strlenLoop, h.1]
  | b :: s, n + 1, a, h, hn => by
    rw [List.cons_append, holds_cons] at h
    obtain ⟨hb, hs⟩ := h
    rw [strlenLoop, hb]
    by_cases hz : b = 0
    · simp [hz]
    · rw [if_neg hz, strlenLoop_eq hs (Nat.lt_of_succ_lt_succ hn)]
      simp [hz]

theorem strlen_eq {s : List UInt8} {a : ℕ} (h : Holds m a (s ++ [0])) (hs : s.length < 2 ^ 32) :
    strlen m a = (s.takeWhile (· ≠ 0)).length :=
  strlenLoop_eq h hs

/-- A text with a zero behind it is a string up to its own first zero. -/
theorem cstr_eq {s : List UInt8} {a : ℕ} (h : Holds m a (s ++ [0])) (hs : s.length < 2 ^ 32) :
    cstr m a = s.takeWhile (· ≠ 0) := by
  obtain ⟨t, ht⟩ := List.takeWhile_prefix (l := s) (· ≠ (0 : UInt8))
  rw [cstr, strlen_eq h hs]
  rw [← ht, List.append_assoc, holds_append] at h
  exact h.1

theorem takeWhile_clean {s : List UInt8} (h : 0 ∉ s) : s.takeWhile (· ≠ 0) = s := by
  refine List.takeWhile_eq_self_iff.2 fun b hb => ?_
  simpa using fun hz : b = 0 => h (hz ▸ hb)

theorem zero_notMem_takeWhile (s : List UInt8) : 0 ∉ s.takeWhile (· ≠ 0) := by
  intro h
  simpa using List.mem_takeWhile_imp h

end Lib
