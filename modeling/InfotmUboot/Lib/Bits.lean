import InfotmUboot.Lib.Bytes
import Mathlib.Data.Nat.Bitwise

/-!
# Messages as bits

The bits of a list of bytes, the low bit of each byte first, and the bits in which two lists of the
same length differ: none, one, two, or only some in a row.
-/

namespace Lib

section Message

/-- The bytes as one number, the low bit of the first byte its lowest. -/
def bitsOf : List UInt8 → ℕ
  | [] => 0
  | b :: bs => b.toNat ^^^ bitsOf bs <<< 8

@[simp]
theorem bitsOf_nil : bitsOf [] = 0 := rfl

theorem bitsOf_cons (b : UInt8) (bs : List UInt8) :
    bitsOf (b :: bs) = b.toNat + 2 ^ 8 * bitsOf bs := by
  have hor : b.toNat ^^^ bitsOf bs <<< 8 = bitsOf bs <<< 8 ||| b.toNat := by
    refine Nat.eq_of_testBit_eq fun i => ?_
    rw [Nat.testBit_xor, Nat.testBit_or, Nat.testBit_shiftLeft]
    by_cases hi : 8 ≤ i
    · have hhigh : b.toNat.testBit i = false :=
        Nat.testBit_lt_two_pow (lt_of_lt_of_le b.toNat_lt (Nat.pow_le_pow_right (by omega) hi))
      simp [hhigh]
    · simp [hi]
  rw [bitsOf, hor, ← Nat.shiftLeft_add_eq_or_of_lt b.toNat_lt, Nat.shiftLeft_eq]
  omega

/-- Bit `i` of the bytes, the low bit of each byte first. -/
def bitAt (bs : List UInt8) (i : ℕ) : Bool := (bs.getD (i / 8) 0).toNat.testBit (i % 8)

theorem bitsOf_testBit (bs : List UInt8) (i : ℕ) : (bitsOf bs).testBit i = bitAt bs i := by
  induction bs generalizing i with
  | nil => simp [bitsOf, bitAt]
  | cons b bs ih =>
    rw [bitsOf, Nat.testBit_xor, Nat.testBit_shiftLeft]
    by_cases hi : 8 ≤ i
    · have hhigh : b.toNat.testBit i = false :=
        Nat.testBit_lt_two_pow (lt_of_lt_of_le b.toNat_lt (Nat.pow_le_pow_right (by omega) hi))
      have hbit : bitAt (b :: bs) i = bitAt bs (i - 8) := by
        unfold bitAt
        rw [show i / 8 = (i - 8) / 8 + 1 by omega, show i % 8 = (i - 8) % 8 by omega,
          List.getD_cons_succ]
      rw [hhigh, ih, hbit]
      simp [hi]
    · have hbit : bitAt (b :: bs) i = b.toNat.testBit i := by
        unfold bitAt
        rw [show i / 8 = 0 by omega, show i % 8 = i by omega, List.getD_cons_zero]
      simp [hi, hbit]

theorem bitAt_of_ge {bs : List UInt8} {i : ℕ} (h : 8 * bs.length ≤ i) : bitAt bs i = false := by
  unfold bitAt
  rw [List.getD_eq_default _ _ (by omega)]
  exact Nat.zero_testBit _

/-- Bytes are given by their bits. -/
theorem eq_of_bitAt {as bs : List UInt8} (hlen : as.length = bs.length)
    (h : ∀ i, bitAt as i = bitAt bs i) : as = bs := by
  refine List.ext_getElem hlen fun k h1 h2 => UInt8.toNat_inj.1 (Nat.eq_of_testBit_eq fun j => ?_)
  by_cases hj : j < 8
  · have hbit := h (8 * k + j)
    unfold bitAt at hbit
    rwa [show (8 * k + j) / 8 = k by omega, show (8 * k + j) % 8 = j by omega,
      List.getD_eq_getElem _ _ h1, List.getD_eq_getElem _ _ h2] at hbit
  · have hlt : ∀ b : UInt8, b.toNat.testBit j = false := fun b =>
      Nat.testBit_lt_two_pow
        (lt_of_lt_of_le b.toNat_lt (Nat.pow_le_pow_right (by omega) (Nat.not_lt.1 hj)))
    rw [hlt, hlt]

end Message

section Damage

/-- No more than two bits differ. -/
def TwoBits (as bs : List UInt8) : Prop :=
  ∃ i j, ∀ l, bitAt as l ≠ bitAt bs l → l = i ∨ l = j

/-- Bytes of the same length that differ, and in no more than two bits or only within `w` bits in a
row. -/
structure Damage (w : ℕ) (as bs : List UInt8) : Prop where
  length_eq : as.length = bs.length
  ne : as ≠ bs
  small : TwoBits as bs ∨ ∃ k, ∀ l, bitAt as l ≠ bitAt bs l → k ≤ l ∧ l < k + w

variable {w : ℕ} {as bs : List UInt8}

/-- The bits that differ are the bits of this number. -/
theorem bitsOf_xor_testBit (l : ℕ) :
    (bitsOf as ^^^ bitsOf bs).testBit l = true ↔ bitAt as l ≠ bitAt bs l := by
  rw [Nat.testBit_xor, bitsOf_testBit, bitsOf_testBit]
  simp

theorem lt_of_bitAt_ne (hlen : as.length = bs.length) {l : ℕ} (h : bitAt as l ≠ bitAt bs l) :
    l < 8 * as.length := by
  by_contra hge
  exact h (by rw [bitAt_of_ge (Nat.not_lt.1 hge), bitAt_of_ge (hlen ▸ Nat.not_lt.1 hge)])

theorem exists_bitAt_ne (hlen : as.length = bs.length) (hne : as ≠ bs) :
    ∃ l, bitAt as l ≠ bitAt bs l := by
  by_contra hall
  exact hne (eq_of_bitAt hlen fun i => not_not.1 (not_exists.1 hall i))

/-- Bits in a row are a short number shifted to their place. -/
theorem Damage.row (h : Damage w as bs) {k : ℕ}
    (hk : ∀ l, bitAt as l ≠ bitAt bs l → k ≤ l ∧ l < k + w) :
    ∃ k e, e ≠ 0 ∧ e < 2 ^ w ∧ k < 8 * as.length ∧ bitsOf as ^^^ bitsOf bs = e <<< k := by
  obtain ⟨l, hl⟩ := exists_bitAt_ne h.length_eq h.ne
  have heq : bitsOf as ^^^ bitsOf bs = ((bitsOf as ^^^ bitsOf bs) >>> k) <<< k := by
    refine Nat.eq_of_testBit_eq fun i => ?_
    rw [Nat.testBit_shiftLeft, Nat.testBit_shiftRight]
    by_cases hi : k ≤ i
    · simp [hi]
    · have hnot : ¬ (bitsOf as ^^^ bitsOf bs).testBit i = true := fun ht =>
        hi (hk i ((bitsOf_xor_testBit i).1 ht)).1
      simp [hi, hnot]
  refine ⟨k, (bitsOf as ^^^ bitsOf bs) >>> k, fun h0 => ?_, ?_, ?_, heq⟩
  · rw [h0, Nat.zero_shiftLeft] at heq
    have ht := (bitsOf_xor_testBit l).2 hl
    rw [heq, Nat.zero_testBit] at ht
    exact Bool.false_ne_true ht
  · refine Nat.lt_pow_two_of_testBit _ fun i hi => ?_
    rw [Nat.testBit_shiftRight]
    by_contra ht
    have := (hk _ ((bitsOf_xor_testBit _).1 (Bool.eq_true_of_not_eq_false ht))).2
    omega
  · exact lt_of_le_of_lt (hk l hl).1 (lt_of_bitAt_ne h.length_eq hl)

theorem xor_pair {i d : ℕ} (hd : 0 < d) (hi : bitAt as i ≠ bitAt bs i)
    (hj : bitAt as (i + d) ≠ bitAt bs (i + d))
    (hl : ∀ l, bitAt as l ≠ bitAt bs l → l = i ∨ l = i + d) :
    bitsOf as ^^^ bitsOf bs = (1 ^^^ 1 <<< d) <<< i := by
  refine Nat.eq_of_testBit_eq fun l => ?_
  have hright : ((1 ^^^ 1 <<< d) <<< i).testBit l = decide (l = i ∨ l = i + d) := by
    rw [Nat.shiftLeft_xor_distrib, ← Nat.shiftLeft_add, Nat.one_shiftLeft, Nat.one_shiftLeft,
      Nat.testBit_xor, Nat.testBit_two_pow, Nat.testBit_two_pow, Nat.add_comm d i]
    by_cases h1 : i = l
    · simp [h1, hd.ne']
    · have h2 : l ≠ i := fun h => h1 h.symm
      simp [h1, h2, eq_comm]
  rw [hright, Bool.eq_iff_iff, bitsOf_xor_testBit, decide_eq_true_iff]
  refine ⟨hl l, ?_⟩
  rintro (rfl | rfl)
  · exact hi
  · exact hj

/-- What two damaged bits, or bits in a row, are as a number. -/
theorem Damage.shape (h : Damage w as bs) (hw : 0 < w) :
    (∃ k e, e ≠ 0 ∧ e < 2 ^ w ∧ k < 8 * as.length ∧ bitsOf as ^^^ bitsOf bs = e <<< k) ∨
    ∃ i d, 0 < d ∧ i + d < 8 * as.length ∧
      bitsOf as ^^^ bitsOf bs = (1 ^^^ 1 <<< d) <<< i := by
  have hone : ∀ i, (∀ l, bitAt as l ≠ bitAt bs l → l = i) →
      ∀ l, bitAt as l ≠ bitAt bs l → i ≤ l ∧ l < i + w := fun i hi l hl => by
    have := hi l hl
    omega
  have hpair : ∀ i d, 0 < d → (∀ l, bitAt as l ≠ bitAt bs l → l = i ∨ l = i + d) →
      (∃ k e, e ≠ 0 ∧ e < 2 ^ w ∧ k < 8 * as.length ∧ bitsOf as ^^^ bitsOf bs = e <<< k) ∨
      ∃ i d, 0 < d ∧ i + d < 8 * as.length ∧
        bitsOf as ^^^ bitsOf bs = (1 ^^^ 1 <<< d) <<< i := by
    intro i d hd hl
    by_cases hi : bitAt as i ≠ bitAt bs i
    · by_cases hj : bitAt as (i + d) ≠ bitAt bs (i + d)
      · exact Or.inr ⟨i, d, hd, lt_of_bitAt_ne h.length_eq hj, xor_pair hd hi hj hl⟩
      · exact Or.inl (h.row (hone i fun l hne => (hl l hne).resolve_right fun he => hj (he ▸ hne)))
    · exact Or.inl (h.row (hone (i + d) fun l hne =>
        (hl l hne).resolve_left fun he => hi (he ▸ hne)))
  rcases h.small with ⟨i, j, hl⟩ | ⟨k, hk⟩
  · rcases Nat.lt_trichotomy i j with hij | rfl | hij
    · refine hpair i (j - i) (by omega) fun l hne => ?_
      rw [Nat.add_sub_cancel' hij.le]
      exact hl l hne
    · exact Or.inl (h.row (hone i fun l hne => (or_self_iff.1 (hl l hne))))
    · refine hpair j (i - j) (by omega) fun l hne => ?_
      rw [Nat.add_sub_cancel' hij.le]
      exact (hl l hne).symm
  · exact Or.inl (h.row hk)

end Damage

section Region

variable {w a n b k : ℕ} {m m' : Mem}

theorem bitAt_load (m : Mem) (a : ℕ) {n l : ℕ} (h : l < 8 * n) :
    bitAt (m.load a n) l = (m (a + l / 8)).toNat.testBit (l % 8) := by
  have hlt : l / 8 < (m.load a n).length := by rw [Mem.length_load]; omega
  unfold bitAt
  rw [List.getD_eq_getElem _ _ hlt, Mem.getElem_load]

/-- A bit of a part of a region is a bit of the region. -/
theorem bitAt_part (ha : a ≤ b) (hb : b + k ≤ a + n) {l : ℕ}
    (h : bitAt (m.load b k) l ≠ bitAt (m'.load b k) l) :
    bitAt (m.load a n) (8 * (b - a) + l) ≠ bitAt (m'.load a n) (8 * (b - a) + l) := by
  have hl : l < 8 * k := by
    have := lt_of_bitAt_ne (by simp) h
    rwa [Mem.length_load] at this
  rw [bitAt_load _ _ hl, bitAt_load _ _ hl] at h
  rwa [bitAt_load _ _ (by omega), bitAt_load _ _ (by omega),
    show a + (8 * (b - a) + l) / 8 = b + l / 8 by omega,
    show (8 * (b - a) + l) % 8 = l % 8 by omega]

theorem TwoBits.part (h : TwoBits (m.load a n) (m'.load a n)) (ha : a ≤ b)
    (hb : b + k ≤ a + n) : TwoBits (m.load b k) (m'.load b k) := by
  obtain ⟨i, j, hl⟩ := h
  refine ⟨i - 8 * (b - a), j - 8 * (b - a), fun l hne => ?_⟩
  have := hl _ (bitAt_part ha hb hne)
  omega

/-- The damage to a part, if it is damaged. -/
theorem Damage.part (h : Damage w (m.load a n) (m'.load a n)) (ha : a ≤ b)
    (hb : b + k ≤ a + n) (hne : m.load b k ≠ m'.load b k) :
    Damage w (m.load b k) (m'.load b k) := by
  refine ⟨by simp, hne, ?_⟩
  rcases h.small with h2 | ⟨i, hl⟩
  · exact Or.inl (h2.part ha hb)
  · refine Or.inr ⟨i - 8 * (b - a), fun l hd => ?_⟩
    have := hl _ (bitAt_part ha hb hd)
    omega

/-- Another byte in one place. -/
theorem Damage.of_byte {x : ℕ} {c : UInt8} (ha : a ≤ x) (hx : x < a + n) (hc : m x ≠ c)
    (hw : 8 ≤ w) : Damage w (m.load a n) ((m.store x [c]).load a n) := by
  refine ⟨by simp, fun heq => hc ?_, Or.inr ⟨8 * (x - a), fun l hl => ?_⟩⟩
  · have hbyte := List.getElem_of_eq heq (i := x - a) (by rw [Mem.length_load]; omega)
    rw [Mem.getElem_load, Mem.getElem_load, Nat.add_sub_cancel' ha] at hbyte
    rw [hbyte]
    exact Mem.store_add m x [c] (i := 0) (by simp)
  · have hlt := lt_of_bitAt_ne (by simp) hl
    rw [Mem.length_load] at hlt
    rw [bitAt_load _ _ hlt, bitAt_load _ _ hlt] at hl
    by_contra hout
    refine hl (congrArg (fun b : UInt8 => b.toNat.testBit (l % 8)) ?_)
    rcases Nat.lt_or_ge (a + l / 8) x with h1 | h1
    · exact (Mem.store_of_lt m [c] h1).symm
    · exact (Mem.store_of_ge m [c] (by rw [List.length_singleton]; omega)).symm

end Region

section Flip

/-- The bytes with bit `l` the other way. -/
def flipBit (bs : List UInt8) (l : ℕ) : List UInt8 :=
  bs.set (l / 8) (bs.getD (l / 8) 0 ^^^ UInt8.ofNat (1 <<< (l % 8)))

@[simp]
theorem length_flipBit (bs : List UInt8) (l : ℕ) : (flipBit bs l).length = bs.length := by
  simp [flipBit]

theorem toNat_xor_ofNat (b : UInt8) {k : ℕ} (hk : k < 8) (j : ℕ) :
    (b ^^^ UInt8.ofNat (1 <<< k)).toNat.testBit j = (b.toNat.testBit j ^^ decide (k = j)) := by
  have hlt : 2 ^ k < 2 ^ 8 := Nat.pow_lt_pow_right (by omega) hk
  rw [Nat.one_shiftLeft, UInt8.toNat_xor, UInt8.toNat_ofNat', Nat.mod_eq_of_lt hlt,
    Nat.testBit_xor, Nat.testBit_two_pow]

theorem bitAt_flipBit {bs : List UInt8} {l : ℕ} (hl : l < 8 * bs.length) (j : ℕ) :
    bitAt (flipBit bs l) j = (bitAt bs j ^^ decide (j = l)) := by
  unfold bitAt flipBit
  by_cases hj : j / 8 = l / 8
  · rw [hj, List.getD_eq_getElem _ _ (by rw [List.length_set]; omega), List.getElem_set_self,
      toNat_xor_ofNat _ (Nat.mod_lt _ (by omega))]
    congr 1
    rw [decide_eq_decide]
    omega
  · have hne : j ≠ l := fun h => hj (by rw [h])
    rw [List.getD_eq_getElem?_getD, List.getElem?_set_ne (Ne.symm hj), ← List.getD_eq_getElem?_getD]
    simp [hne]

variable {as bs : List UInt8}

/-- Lists that differ in no more than one bit. -/
theorem flip_of_one_bit (hlen : as.length = bs.length) {i : ℕ}
    (hi : ∀ l, bitAt as l ≠ bitAt bs l → l = i) :
    bs = as ∨ i < 8 * as.length ∧ bs = flipBit as i := by
  by_cases hne : bitAt as i = bitAt bs i
  · refine Or.inl (eq_of_bitAt hlen.symm fun l => ?_)
    by_contra hd
    have hl := hi l (Ne.symm hd)
    subst hl
    exact hd hne.symm
  · have hlt := lt_of_bitAt_ne hlen hne
    refine Or.inr ⟨hlt, eq_of_bitAt (by rw [length_flipBit, hlen]) fun l => ?_⟩
    rw [bitAt_flipBit hlt]
    by_cases hl : l = i
    · subst hl
      cases h1 : bitAt as l <;> cases h2 : bitAt bs l <;> simp [h1, h2] at hne ⊢
    · have hsame : bitAt as l = bitAt bs l := not_not.1 fun hd => hl (hi l hd)
      simp [hl, hsame]

/-- Lists that differ in no more than two bits. -/
theorem flip_of_two_bits (hlen : as.length = bs.length) (h : TwoBits as bs) :
    bs = as ∨ (∃ i < 8 * as.length, bs = flipBit as i) ∨
      ∃ i j, i < j ∧ j < 8 * as.length ∧ bs = flipBit (flipBit as i) j := by
  obtain ⟨i, j, hl⟩ := h
  have hpair : ∀ i j, i < j → (∀ l, bitAt as l ≠ bitAt bs l → l = i ∨ l = j) →
      bs = as ∨ (∃ i < 8 * as.length, bs = flipBit as i) ∨
        ∃ i j, i < j ∧ j < 8 * as.length ∧ bs = flipBit (flipBit as i) j := by
    intro i j hij hl
    by_cases hne : bitAt as i = bitAt bs i
    · have hone := flip_of_one_bit hlen (i := j) fun l hd =>
        (hl l hd).resolve_left fun he => hd (by rw [he, hne])
      rcases hone with h0 | ⟨hj, h1⟩
      · exact Or.inl h0
      · exact Or.inr (Or.inl ⟨j, hj, h1⟩)
    · have hi := lt_of_bitAt_ne hlen hne
      have hone := @flip_of_one_bit (flipBit as i) bs (by simpa using hlen) j
        fun l hd => by
          rw [bitAt_flipBit hi] at hd
          by_cases hli : l = i
          · subst hli
            cases h1 : bitAt as l <;> cases h2 : bitAt bs l <;> simp [h1, h2] at hne hd
          · simp only [hli, decide_false, Bool.xor_false] at hd
            exact (hl l hd).resolve_left hli
      rw [length_flipBit] at hone
      rcases hone with h0 | ⟨hj, h1⟩
      · exact Or.inr (Or.inl ⟨i, hi, h0⟩)
      · exact Or.inr (Or.inr ⟨i, j, hij, hj, h1⟩)
  rcases Nat.lt_trichotomy i j with hij | rfl | hij
  · exact hpair i j hij hl
  · rcases flip_of_one_bit hlen (i := i) fun l hd => or_self_iff.1 (hl l hd) with h0 | ⟨hi, h1⟩
    · exact Or.inl h0
    · exact Or.inr (Or.inl ⟨i, hi, h1⟩)
  · exact hpair j i hij fun l hd => (hl l hd).symm

theorem flipBit_append_left (bs cs : List UInt8) {l : ℕ} (h : l < 8 * bs.length) :
    flipBit (bs ++ cs) l = flipBit bs l ++ cs := by
  unfold flipBit
  rw [List.getD_append _ _ _ _ (by omega), List.set_append_left _ _ (by omega)]

theorem flipBit_append_right (bs cs : List UInt8) {l : ℕ} (h : 8 * bs.length ≤ l) :
    flipBit (bs ++ cs) l = bs ++ flipBit cs (l - 8 * bs.length) := by
  unfold flipBit
  rw [List.getD_append_right _ _ _ _ (by omega), List.set_append_right _ _ (by omega),
    show (l - 8 * bs.length) / 8 = l / 8 - bs.length by omega,
    show (l - 8 * bs.length) % 8 = l % 8 by omega]

/-- The other way and back. -/
theorem flipBit_flipBit {l : ℕ} (h : l < 8 * bs.length) : flipBit (flipBit bs l) l = bs := by
  refine eq_of_bitAt (by simp) fun j => ?_
  rw [bitAt_flipBit (by simpa using h), bitAt_flipBit h]
  simp

end Flip

end Lib
