import Mathlib.Data.List.GetD
import Mathlib.Tactic.Linarith

/-!
# Byte memories

A memory gives every address its byte; `load` reads a run of bytes as a list and `store` writes
one. `fit` is what a transfer of exactly `n` bytes takes from a list.
-/

namespace Lib

abbrev Mem := ℕ → UInt8

namespace Mem

def load (m : Mem) (a n : ℕ) : List UInt8 := (List.range n).map fun i => m (a + i)

def store (m : Mem) (a : ℕ) (bs : List UInt8) : Mem :=
  fun i => if a ≤ i ∧ i < a + bs.length then bs.getD (i - a) 0 else m i

@[simp]
theorem length_load (m : Mem) (a n : ℕ) : (m.load a n).length = n := by simp [load]

@[simp]
theorem load_zero (m : Mem) (a : ℕ) : m.load a 0 = [] := rfl

@[simp]
theorem store_nil (m : Mem) (a : ℕ) : m.store a [] = m := by
  funext i
  simp only [store, List.length_nil, Nat.add_zero]
  exact if_neg (by omega)

theorem getElem_load (m : Mem) (a n i : ℕ) (h : i < (m.load a n).length) :
    (m.load a n)[i] = m (a + i) := by
  simp [load]

theorem load_congr {m m' : Mem} {a a' n : ℕ} (h : ∀ i < n, m (a + i) = m' (a' + i)) :
    m.load a n = m'.load a' n := by
  unfold load
  refine List.map_congr_left fun i hi => h i (List.mem_range.1 hi)

theorem load_add (m : Mem) (a n k : ℕ) : m.load a (n + k) = m.load a n ++ m.load (a + n) k := by
  refine List.ext_getElem (by simp) fun i h1 h2 => ?_
  rw [getElem_load, List.getElem_append]
  split
  · rw [getElem_load]
  · rw [getElem_load]
    simp only [length_load] at *
    congr 1
    omega

theorem take_load (m : Mem) (a : ℕ) {n k : ℕ} (h : k ≤ n) : (m.load a n).take k = m.load a k := by
  obtain ⟨j, rfl⟩ := Nat.exists_eq_add_of_le h
  rw [load_add, List.take_left' (length_load m a k)]

theorem drop_load (m : Mem) (a : ℕ) {n k : ℕ} (h : k ≤ n) :
    (m.load a n).drop k = m.load (a + k) (n - k) := by
  obtain ⟨j, rfl⟩ := Nat.exists_eq_add_of_le h
  rw [load_add, List.drop_left' (length_load m a k), Nat.add_sub_cancel_left]

theorem store_of_lt (m : Mem) {a i : ℕ} (bs : List UInt8) (h : i < a) : m.store a bs i = m i :=
  if_neg (by omega)

theorem store_of_ge (m : Mem) {a i : ℕ} (bs : List UInt8) (h : a + bs.length ≤ i) :
    m.store a bs i = m i :=
  if_neg (by omega)

theorem store_add (m : Mem) (a : ℕ) (bs : List UInt8) {i : ℕ} (h : i < bs.length) :
    m.store a bs (a + i) = bs[i] := by
  rw [store, if_pos (by omega), Nat.add_sub_cancel_left, List.getD_eq_getElem _ _ h]

/-- Inside the bytes stored, what was there before makes no difference. -/
theorem store_congr (m m' : Mem) {a i : ℕ} {bs : List UInt8} (h1 : a ≤ i)
    (h2 : i < a + bs.length) : m.store a bs i = m'.store a bs i := by
  rw [store, store, if_pos ⟨h1, h2⟩, if_pos ⟨h1, h2⟩]

theorem load_store_same (m : Mem) (a : ℕ) (bs : List UInt8) :
    (m.store a bs).load a bs.length = bs := by
  refine List.ext_getElem (by simp) fun i h1 h2 => ?_
  rw [getElem_load, store_add m a bs h2]

theorem store_load_same (m : Mem) (a n : ℕ) : m.store a (m.load a n) = m := by
  funext i
  by_cases h : a ≤ i ∧ i < a + n
  · obtain ⟨j, rfl⟩ := Nat.exists_eq_add_of_le h.1
    rw [store_add m a _ (by rw [length_load]; omega), getElem_load]
  · rw [store, length_load, if_neg h]

/-- A store past the range read leaves it. -/
theorem load_store_after (m : Mem) {a b n : ℕ} (bs : List UInt8) (h : a + n ≤ b) :
    (m.store b bs).load a n = m.load a n :=
  load_congr fun i hi => store_of_lt m bs (by omega)

theorem store_append (m : Mem) (a : ℕ) (bs cs : List UInt8) :
    m.store a (bs ++ cs) = (m.store a bs).store (a + bs.length) cs := by
  funext i
  simp only [store, List.length_append]
  by_cases h1 : a ≤ i ∧ i < a + bs.length
  · rw [if_pos (by omega), if_neg (by omega), if_pos h1, List.getD_append _ _ _ _ (by omega)]
  · by_cases h2 : a + bs.length ≤ i ∧ i < a + bs.length + cs.length
    · rw [if_pos (by omega), if_pos h2, List.getD_append_right _ _ _ _ (by omega)]
      congr 1
      omega
    · rw [if_neg (by omega), if_neg h2, if_neg h1]

theorem store_store (m : Mem) (a : ℕ) {bs cs : List UInt8} (h : bs.length ≤ cs.length) :
    (m.store a bs).store a cs = m.store a cs := by
  funext x
  by_cases hx : a ≤ x ∧ x < a + cs.length
  · exact store_congr _ _ hx.1 hx.2
  · rcases Nat.lt_or_ge x a with hlt | hge
    · rw [store_of_lt _ _ hlt, store_of_lt _ _ hlt, store_of_lt _ _ hlt]
    · rw [store_of_ge _ _ (by omega), store_of_ge _ _ (by omega),
        store_of_ge _ _ (by omega)]

/-- More bytes from the last of those stored on. -/
theorem store_over (m : Mem) (a : ℕ) (bs cs : List UInt8) (b c : UInt8) :
    (m.store a (bs ++ [b])).store (a + bs.length) (c :: cs) = m.store a (bs ++ c :: cs) := by
  rw [store_append, store_append,
    store_store _ _ (by rw [List.length_singleton, List.length_cons]; omega)]

/-- A store into the middle of stored bytes. -/
theorem store_patch (m : Mem) (a : ℕ) (as : List UInt8) {bs bs' : List UInt8} (cs : List UInt8)
    (h : bs.length = bs'.length) :
    (m.store a (as ++ bs ++ cs)).store (a + as.length) bs' = m.store a (as ++ bs' ++ cs) := by
  simp only [store_append, List.length_append, h]
  funext i
  by_cases h1 : a + (as.length + bs'.length) ≤ i
  · rw [store_of_ge _ _ (by omega)]
    by_cases h2 : i < a + (as.length + bs'.length) + cs.length
    · exact store_congr _ _ h1 h2
    · simp only [store_of_ge _ _ (Nat.not_lt.1 h2)]
      rw [store_of_ge _ _ (by omega), store_of_ge _ _ (by omega), store_of_ge _ _ (by omega),
        store_of_ge _ _ (by omega)]
  · rw [store_of_lt _ cs (Nat.not_le.1 h1)]
    by_cases h2 : a + as.length ≤ i
    · exact store_congr _ _ h2 (by omega)
    · have h3 : i < a + as.length := Nat.not_le.1 h2
      rw [store_of_lt _ _ h3, store_of_lt _ _ h3, store_of_lt _ _ (by omega), store_of_lt _ _ h3]

end Mem

/-- The `n` bytes a transfer of length `n` takes: what the list holds, zeros past its end. -/
def fit (n : ℕ) (bs : List UInt8) : List UInt8 :=
  bs.take n ++ List.replicate (n - bs.length) 0

@[simp]
theorem length_fit (n : ℕ) (bs : List UInt8) : (fit n bs).length = n := by
  simp only [fit, List.length_append, List.length_take, List.length_replicate]
  omega

theorem fit_of_length {n : ℕ} {bs : List UInt8} (h : bs.length = n) : fit n bs = bs := by
  simp [fit, h, List.take_of_length_le h.le]

theorem fit_append {n : ℕ} {bs : List UInt8} (rest : List UInt8) (hn : n ≤ bs.length) :
    fit n (bs ++ rest) = fit n bs := by
  simp only [fit, List.length_append, List.take_append_of_le_length hn]
  rw [Nat.sub_eq_zero_of_le (by omega), Nat.sub_eq_zero_of_le hn]

/-- The little-endian 16-bit field at `a`. -/
def Mem.get16 (m : Mem) (a : ℕ) : ℕ := (m a).toNat + 2 ^ 8 * (m (a + 1)).toNat

/-- The little-endian 32-bit field at `a`. -/
def Mem.get32 (m : Mem) (a : ℕ) : ℕ := m.get16 a + 2 ^ 16 * m.get16 (a + 2)

theorem Mem.get32_lt (m : Mem) (a : ℕ) : m.get32 a < 2 ^ 32 := by
  have h0 := (m a).toNat_lt
  have h1 := (m (a + 1)).toNat_lt
  have h2 := (m (a + 2)).toNat_lt
  have h3 := (m (a + 2 + 1)).toNat_lt
  unfold get32 get16
  omega

/-- The four bytes of a 32-bit value, the low byte first. -/
def bytes32 (n : ℕ) : List UInt8 :=
  [UInt8.ofNat n, UInt8.ofNat (n / 2 ^ 8), UInt8.ofNat (n / 2 ^ 16), UInt8.ofNat (n / 2 ^ 24)]

/-- The two bytes of a 16-bit value, the low byte first. -/
def bytes16 (n : ℕ) : List UInt8 := [UInt8.ofNat n, UInt8.ofNat (n / 2 ^ 8)]

@[simp]
theorem length_bytes32 (n : ℕ) : (bytes32 n).length = 4 := rfl

@[simp]
theorem length_bytes16 (n : ℕ) : (bytes16 n).length = 2 := rfl

theorem Mem.get32_store (m : Mem) (a n : ℕ) : (m.store a (bytes32 n)).get32 a = n % 2 ^ 32 := by
  have hb (i : ℕ) (hi : i < 4) : m.store a (bytes32 n) (a + i) = (bytes32 n)[i] :=
    store_add m a (bytes32 n) hi
  have h0 := hb 0 (by decide)
  have h1 := hb 1 (by decide)
  have h2 := hb 2 (by decide)
  have h3 := hb 3 (by decide)
  simp only [bytes32, Nat.add_zero, List.getElem_cons_zero, List.getElem_cons_succ] at h0 h1 h2 h3
  simp only [get32, get16, Nat.add_assoc, Nat.reduceAdd, bytes32, h0, h1, h2, h3,
    UInt8.toNat_ofNat']
  omega

section Holds

/-- The bytes at `s` are `bs`. -/
def Holds (m : Mem) (s : ℕ) (bs : List UInt8) : Prop := m.load s bs.length = bs

variable {m : Mem}

theorem holds_nil (s : ℕ) : Holds m s [] := rfl

theorem holds_append {s : ℕ} {as bs : List UInt8} :
    Holds m s (as ++ bs) ↔ Holds m s as ∧ Holds m (s + as.length) bs := by
  unfold Holds
  rw [List.length_append, Mem.load_add]
  constructor
  · intro h
    exact List.append_inj h (Mem.length_load _ _ _)
  · rintro ⟨h1, h2⟩
    rw [h1, h2]

theorem holds_cons {s : ℕ} {b : UInt8} {bs : List UInt8} :
    Holds m s (b :: bs) ↔ m s = b ∧ Holds m (s + 1) bs := by
  rw [← List.singleton_append, holds_append]
  simp [Holds, Mem.load]

theorem holds_store (m : Mem) (a : ℕ) (bs : List UInt8) : Holds (m.store a bs) a bs :=
  Mem.load_store_same m a bs

/-- What is stored elsewhere leaves the bytes. -/
theorem Holds.store {s a : ℕ} {bs cs : List UInt8} (h : Holds m s bs)
    (hd : s + bs.length ≤ a ∨ a + cs.length ≤ s) : Holds (m.store a cs) s bs := by
  unfold Holds
  rw [Mem.load_congr fun i hi => ?_]
  · exact h
  · rcases hd with hd | hd
    · exact Mem.store_of_lt _ _ (by omega)
    · exact Mem.store_of_ge _ _ (by omega)

/-- Where the bytes read elsewhere are, there are the same ones. -/
theorem Holds.of_load {m' : Mem} {s a n : ℕ} (h : Holds m s (m'.load a n)) :
    ∀ i < n, m (s + i) = m' (a + i) := fun i hi => by
  unfold Holds at h
  rw [Mem.length_load] at h
  rw [← Mem.getElem_load m s n i (by rw [Mem.length_load]; exact hi),
    ← Mem.getElem_load m' a n i (by rw [Mem.length_load]; exact hi)]
  exact List.getElem_of_eq h _

theorem Holds.congr {m' : Mem} {s : ℕ} {bs : List UInt8} (h : Holds m s bs)
    (heq : ∀ x, s ≤ x → x < s + bs.length → m' x = m x) : Holds m' s bs := by
  unfold Holds
  rw [Mem.load_congr fun i hi => heq (s + i) (by omega) (by omega)]
  exact h

end Holds

end Lib
