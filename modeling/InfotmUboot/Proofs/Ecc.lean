import InfotmUboot.Ecc
import InfotmUboot.Lib.Bits
import Mathlib.Tactic.IntervalCases

/-!
# What the software ECC corrects

The code is linear: a bit of the data the other way changes it by a pattern of the place of the bit.
In the pattern of one bit of each pair of parities just one is set, in that of two bits of each pair
both or none. So one bit that is wrong, in the data or in the code, is put right, and of two that
are wrong none is made a third.
-/

namespace InfotmUboot

open Lib

section Linear

theorem eccTmp1_xor (a b c d : UInt8) :
    eccTmp1 (a ^^^ c) (b ^^^ d) = eccTmp1 a b ^^^ eccTmp1 c d := by
  apply UInt8.eq_of_toBitVec_eq
  simp only [eccTmp1, UInt8.toBitVec_xor, UInt8.toBitVec_or, UInt8.toBitVec_and,
    UInt8.toBitVec_shiftRight]
  generalize a.toBitVec = a
  generalize b.toBitVec = b
  generalize c.toBitVec = c
  generalize d.toBitVec = d
  refine BitVec.eq_of_getLsbD_eq fun i hi => ?_
  interval_cases i <;> simp

theorem eccTmp2_xor (a b c d : UInt8) :
    eccTmp2 (a ^^^ c) (b ^^^ d) = eccTmp2 a b ^^^ eccTmp2 c d := by
  apply UInt8.eq_of_toBitVec_eq
  simp only [eccTmp2, UInt8.toBitVec_xor, UInt8.toBitVec_or, UInt8.toBitVec_and,
    UInt8.toBitVec_shiftLeft]
  generalize a.toBitVec = a
  generalize b.toBitVec = b
  generalize c.toBitVec = c
  generalize d.toBitVec = d
  refine BitVec.eq_of_getLsbD_eq fun i hi => ?_
  interval_cases i <;> simp

/-- The third byte of the code. -/
def eccColumn (reg1 : UInt8) : UInt8 := (~~~ reg1) <<< 2 ||| 0x03

theorem eccColumn_xor (a c : UInt8) : eccColumn (a ^^^ c) = eccColumn a ^^^ c <<< 2 := by
  apply UInt8.eq_of_toBitVec_eq
  simp only [eccColumn, UInt8.toBitVec_xor, UInt8.toBitVec_or, UInt8.toBitVec_shiftLeft,
    UInt8.toBitVec_not]
  generalize a.toBitVec = a
  generalize c.toBitVec = c
  refine BitVec.eq_of_getLsbD_eq fun i hi => ?_
  interval_cases i <;> simp

theorem xor_and_right (a b c : UInt8) : (a ^^^ b) &&& c = (a &&& c) ^^^ (b &&& c) := by
  apply UInt8.toNat_inj.1
  simp only [UInt8.toNat_xor, UInt8.toNat_and]
  exact Nat.and_xor_distrib_right

/-- The registers, one and the other. -/
def EccRegs.xor (a b : EccRegs) : EccRegs :=
  ⟨a.reg1 ^^^ b.reg1, a.reg2 ^^^ b.reg2, a.reg3 ^^^ b.reg3⟩

theorem EccRegs.xor_right_comm (a b c : EccRegs) : (a.xor b).xor c = (a.xor c).xor b := by
  simp only [EccRegs.xor, UInt8.xor_assoc, UInt8.xor_comm b.reg1, UInt8.xor_comm b.reg2,
    UInt8.xor_comm b.reg3]

theorem EccRegs.xor_assoc (a b c : EccRegs) : (a.xor b).xor c = a.xor (b.xor c) := by
  simp only [EccRegs.xor, UInt8.xor_assoc]

/-- What byte `i` does to the registers. -/
def eccByte (i : ℕ) (b : UInt8) : EccRegs :=
  let idx := nandEccPrecalcTable.getD b.toNat 0
  if idx &&& 0x40 ≠ 0 then ⟨idx &&& 0x3f, ~~~ (UInt8.ofNat i), UInt8.ofNat i⟩
  else ⟨idx &&& 0x3f, 0, 0⟩

theorem eccStep_eq (r : EccRegs) (i : ℕ) (b : UInt8) : eccStep r i b = r.xor (eccByte i b) := by
  unfold eccStep eccByte EccRegs.xor
  dsimp only
  split_ifs
  · rfl
  · simp

/-- What bit `k` of byte `i` does to the registers. -/
def eccBit (i k : ℕ) : EccRegs :=
  ⟨nandEccPrecalcTable.getD (1 <<< k) 0 &&& 0x3f, ~~~ (UInt8.ofNat i), UInt8.ofNat i⟩

/-- The sum of those `units` whose bits are set, from bit `k` on. -/
def bitSum : List UInt8 → ℕ → ℕ → UInt8
  | [], _, _ => 0
  | u :: us, k, b => (if b.testBit k then u else 0) ^^^ bitSum us (k + 1) b

theorem bitSum_xor (a b : ℕ) : ∀ (us : List UInt8) (k : ℕ),
    bitSum us k (a ^^^ b) = bitSum us k a ^^^ bitSum us k b
  | [], _ => by simp [bitSum]
  | u :: us, k => by
    have hbit : (if (a ^^^ b).testBit k then u else 0)
        = (if a.testBit k then u else 0) ^^^ if b.testBit k then u else 0 := by
      rw [Nat.testBit_xor]
      cases a.testBit k <;> cases b.testBit k <;> simp
    rw [bitSum, bitSum, bitSum, bitSum_xor a b us, hbit, UInt8.xor_assoc, UInt8.xor_assoc,
      ← UInt8.xor_assoc (bitSum us (k + 1) a), ← UInt8.xor_assoc (if b.testBit k then u else 0),
      UInt8.xor_comm (bitSum us (k + 1) a)]

/-- The entries of the table for the single bits. -/
def eccUnits : List UInt8 := [0x55, 0x56, 0x59, 0x5a, 0x65, 0x66, 0x69, 0x6a]

theorem table_getD {b : ℕ} (hb : b < 256) :
    nandEccPrecalcTable.getD b 0 = bitSum eccUnits 0 b := by
  have htable : nandEccPrecalcTable = (List.range 256).map (bitSum eccUnits 0) := by decide +kernel
  rw [htable, List.getD_eq_getElem _ _ (by simpa using hb), List.getElem_map, List.getElem_range]

theorem table_flip (b : UInt8) {k : ℕ} (hk : k < 8) :
    nandEccPrecalcTable.getD (b ^^^ UInt8.ofNat (1 <<< k)).toNat 0
      = nandEccPrecalcTable.getD b.toNat 0 ^^^ nandEccPrecalcTable.getD (1 <<< k) 0 := by
  have hbit : 1 <<< k < 256 := by
    rw [Nat.one_shiftLeft]
    exact Nat.pow_lt_pow_right (by omega) hk
  have hxor : (b ^^^ UInt8.ofNat (1 <<< k)).toNat = b.toNat ^^^ 1 <<< k := by
    rw [UInt8.toNat_xor, UInt8.toNat_ofNat', Nat.mod_eq_of_lt hbit]
  rw [table_getD (UInt8.toNat_lt _), table_getD (UInt8.toNat_lt _), table_getD hbit, hxor,
    bitSum_xor]

theorem eccByte_flip (i : ℕ) (b : UInt8) {k : ℕ} (hk : k < 8) :
    eccByte i (b ^^^ UInt8.ofNat (1 <<< k)) = (eccByte i b).xor (eccBit i k) := by
  have hodd : ∀ k : Fin 8, nandEccPrecalcTable.getD (1 <<< k.val) 0 &&& 0x40 = 0x40 := by decide
  have h40 : ∀ idx : UInt8, idx &&& 0x40 = 0 ∨ idx &&& 0x40 = 0x40 := by
    intro idx
    have hall : ∀ n : Fin 256,
        UInt8.ofNat n.val &&& 0x40 = 0 ∨ UInt8.ofNat n.val &&& 0x40 = 0x40 := by
      decide +kernel
    simpa using hall ⟨idx.toNat, idx.toNat_lt⟩
  have hidx := table_flip b hk
  have hbit := hodd ⟨k, hk⟩
  unfold eccByte eccBit EccRegs.xor
  dsimp only at hbit ⊢
  rw [hidx]
  generalize nandEccPrecalcTable.getD b.toNat 0 = idx
  generalize nandEccPrecalcTable.getD (1 <<< k) 0 = t at hbit ⊢
  rw [xor_and_right, xor_and_right, hbit]
  rcases h40 idx with h | h
  · simp [h]
  · simp [h]

/-- The registers over the first bytes. -/
def eccRegsUpTo (e : ℕ → EccRegs) (n : ℕ) : EccRegs :=
  (List.range n).foldl (fun r i => r.xor (e i)) ⟨0, 0, 0⟩

theorem eccRegsUpTo_change {e e' : ℕ → EccRegs} {i : ℕ} {c : EccRegs} (hi : e' i = (e i).xor c)
    (hrest : ∀ j, j ≠ i → e' j = e j) (n : ℕ) :
    eccRegsUpTo e' n = if i < n then (eccRegsUpTo e n).xor c else eccRegsUpTo e n := by
  induction n with
  | zero => rfl
  | succ n ih =>
    have hsucc : ∀ f, eccRegsUpTo f (n + 1) = (eccRegsUpTo f n).xor (f n) := fun f => by
      simp [eccRegsUpTo, List.range_succ]
    rw [hsucc, hsucc, ih]
    rcases Nat.lt_trichotomy i n with hlt | rfl | hgt
    · rw [if_pos hlt, if_pos (by omega), hrest n (by omega), EccRegs.xor_right_comm]
    · rw [if_neg (Nat.lt_irrefl i), if_pos (Nat.lt_succ_self i), hi, EccRegs.xor_assoc]
    · rw [if_neg (by omega), if_neg (by omega), hrest n (by omega)]

theorem eccRegs_flip {d : List UInt8} (hd : d.length = 256) {l : ℕ} (hl : l < 2048) :
    eccRegs (flipBit d l) = (eccRegs d).xor (eccBit (l / 8) (l % 8)) := by
  have hregs : ∀ d : List UInt8, eccRegs d = eccRegsUpTo (fun i => eccByte i (d.getD i 0)) 256 :=
    fun d => by simp only [eccRegs, eccRegsUpTo, eccStep_eq]
  have hbyte : (flipBit d l).getD (l / 8) 0
      = d.getD (l / 8) 0 ^^^ UInt8.ofNat (1 <<< (l % 8)) := by
    unfold flipBit
    rw [List.getD_eq_getElem _ _ (by rw [List.length_set]; omega), List.getElem_set_self]
  have hother : ∀ j, j ≠ l / 8 → (flipBit d l).getD j 0 = d.getD j 0 := fun j hj => by
    unfold flipBit
    rw [List.getD_eq_getElem?_getD, List.getElem?_set_ne (Ne.symm hj), ← List.getD_eq_getElem?_getD]
  rw [hregs, hregs, eccRegsUpTo_change (e := fun i => eccByte i (d.getD i 0)) (i := l / 8)
    (c := eccBit (l / 8) (l % 8)) ?_ ?_, if_pos (by omega)]
  · rw [hbyte, eccByte_flip _ _ (Nat.mod_lt _ (by omega))]
  · intro j hj
    rw [hother j hj]

end Linear

section Syndrome

/-- What `nand_correct_data` goes by. -/
structure Syndrome where
  s0 : UInt8
  s1 : UInt8
  s2 : UInt8
  deriving DecidableEq

namespace Syndrome

def xor (a b : Syndrome) : Syndrome := ⟨a.s0 ^^^ b.s0, a.s1 ^^^ b.s1, a.s2 ^^^ b.s2⟩

def zero : Syndrome := ⟨0, 0, 0⟩

@[simp]
theorem zero_xor (a : Syndrome) : zero.xor a = a := by simp [zero, xor]

/-- What is done for it. -/
def correct (s : Syndrome) (dat : List UInt8) : ℤ × List UInt8 :=
  if s.s0 ||| s.s1 ||| s.s2 = 0 then (0, dat)
  else if eccSingle s.s0 s.s1 s.s2 then
    (1, flipBit dat (8 * eccByteoffs s.s0 s.s1 + eccBitnum s.s2))
  else if countbits (s.s0.toNat ||| s.s1.toNat <<< 8 ||| s.s2.toNat <<< 16) = 1 then (1, dat)
  else (-EBADMSG, dat)

end Syndrome

def syndrome (calcEcc readEcc : List UInt8) : Syndrome :=
  ⟨calcEcc.getD 1 0 ^^^ readEcc.getD 1 0, calcEcc.getD 0 0 ^^^ readEcc.getD 0 0,
    calcEcc.getD 2 0 ^^^ readEcc.getD 2 0⟩

theorem eccBitnum_lt (s2 : UInt8) : eccBitnum s2 < 8 := by
  have hand : ∀ x : ℕ, x &&& 4 < 2 ^ 3 ∧ x &&& 2 < 2 ^ 3 ∧ x &&& 1 < 2 ^ 3 := fun x =>
    ⟨Nat.and_lt_two_pow x (by omega), Nat.and_lt_two_pow x (by omega),
      Nat.and_lt_two_pow x (by omega)⟩
  exact Nat.or_lt_two_pow (Nat.or_lt_two_pow (hand _).1 (hand _).2.1) (hand _).2.2

theorem nandCorrectData_eq (dat readEcc calcEcc : List UInt8) :
    nandCorrectData dat readEcc calcEcc = (syndrome calcEcc readEcc).correct dat := by
  have hlt := eccBitnum_lt (calcEcc.getD 2 0 ^^^ readEcc.getD 2 0)
  unfold nandCorrectData Syndrome.correct syndrome flipBit
  dsimp only
  rw [Nat.mul_add_div (by omega), Nat.div_eq_of_lt hlt, Nat.mul_add_mod, Nat.mod_eq_of_lt hlt,
    Nat.add_zero]

/-- The line parities of byte `i`, in turn with their complements. -/
def lineLow (i : ℕ) : UInt8 := eccTmp2 (~~~ (UInt8.ofNat i)) (UInt8.ofNat i)

def lineHigh (i : ℕ) : UInt8 := eccTmp1 (~~~ (UInt8.ofNat i)) (UInt8.ofNat i)

/-- The column parities of bit `k`. -/
def column (k : ℕ) : UInt8 := (nandEccPrecalcTable.getD (1 <<< k) 0 &&& 0x3f) <<< 2

/-- The syndrome of bit `k` of byte `i` of the data. -/
def dataSyndrome (i k : ℕ) : Syndrome := ⟨lineLow i, lineHigh i, column k⟩

/-- The syndrome of bit `k` of byte `i` of the code. -/
def codeSyndrome (i k : ℕ) : Syndrome :=
  ⟨if i = 1 then UInt8.ofNat (1 <<< k) else 0, if i = 0 then UInt8.ofNat (1 <<< k) else 0,
    if i = 2 then UInt8.ofNat (1 <<< k) else 0⟩

theorem xor_xor_comm (a b c : UInt8) : a ^^^ b ^^^ c = a ^^^ c ^^^ b := by
  rw [UInt8.xor_assoc, UInt8.xor_comm b, ← UInt8.xor_assoc]

theorem syndrome_self (e : List UInt8) : syndrome e e = .zero := by simp [syndrome, Syndrome.zero]

theorem syndrome_data {d c : List UInt8} (hd : d.length = 256) {l : ℕ} (hl : l < 2048) :
    syndrome (nandCalculateEcc (flipBit d l)) c
      = (syndrome (nandCalculateEcc d) c).xor (dataSyndrome (l / 8) (l % 8)) := by
  have hcode : ∀ d, nandCalculateEcc d = [~~~ (eccTmp1 (eccRegs d).reg2 (eccRegs d).reg3),
      ~~~ (eccTmp2 (eccRegs d).reg2 (eccRegs d).reg3), eccColumn (eccRegs d).reg1] := fun _ => rfl
  rw [hcode, hcode, eccRegs_flip hd hl]
  simp only [syndrome, Syndrome.xor, dataSyndrome, lineLow, lineHigh, column, EccRegs.xor, eccBit,
    List.getD_cons_zero, List.getD_cons_succ, eccTmp1_xor, eccTmp2_xor, eccColumn_xor,
    ← UInt8.not_xor]
  congr 1 <;> exact xor_xor_comm _ _ _

theorem syndrome_code (e : List UInt8) {c : List UInt8} (hc : c.length = 3) {l : ℕ} (hl : l < 24) :
    syndrome e (flipBit c l) = (syndrome e c).xor (codeSyndrome (l / 8) (l % 8)) := by
  match c, hc with
  | [c0, c1, c2], _ =>
    have hbyte : l / 8 = 0 ∨ l / 8 = 1 ∨ l / 8 = 2 := by omega
    rcases hbyte with h | h | h <;>
      simp [syndrome, flipBit, Syndrome.xor, codeSyndrome, h, UInt8.xor_assoc]

end Syndrome

section Pairs

/-- Whether of each pair of parities just one is set. -/
def pairs (s : UInt8) : UInt8 := s ^^^ s >>> 1

theorem pairs_xor (a b : UInt8) : pairs (a ^^^ b) = pairs a ^^^ pairs b := by
  unfold pairs
  rw [UInt8.shiftRight_xor, UInt8.xor_assoc, ← UInt8.xor_assoc b, UInt8.xor_comm b,
    UInt8.xor_assoc, UInt8.xor_assoc]

theorem eccSingle_iff (s0 s1 s2 : UInt8) : eccSingle s0 s1 s2 = true ↔
    pairs s0 &&& 0x55 = 0x55 ∧ pairs s1 &&& 0x55 = 0x55 ∧ pairs s2 &&& 0x54 = 0x54 := by
  unfold eccSingle pairs
  rw [decide_eq_true_iff]

/-- The bits of a byte. -/
def bitCount (s : UInt8) : ℕ := countbitsLoop 8 s.toNat

theorem countbitsLoop_byte (n a b : ℕ) (ha : a < 2 ^ 8) :
    countbitsLoop (8 + n) (a + 2 ^ 8 * b) = countbitsLoop 8 a + countbitsLoop n b := by
  have hdiv : ∀ k, k ≤ 8 → ∀ m a b, a < 2 ^ k →
      countbitsLoop (k + m) (a + 2 ^ k * b) = countbitsLoop k a + countbitsLoop m b := by
    intro k
    induction k with
    | zero =>
      intro _ m a b ha
      obtain rfl : a = 0 := by omega
      simp [countbitsLoop]
    | succ k ih =>
      intro hk m a b ha
      rw [pow_succ] at ha
      have hmod : (a + 2 ^ (k + 1) * b) % 2 = a % 2 := by
        rw [pow_succ, Nat.mul_right_comm]
        omega
      have hhalf : (a + 2 ^ (k + 1) * b) / 2 = a / 2 + 2 ^ k * b := by
        rw [pow_succ, Nat.mul_right_comm]
        omega
      rw [Nat.succ_add, countbitsLoop, countbitsLoop, hmod, hhalf, ih (by omega) m _ _ (by omega),
        Nat.add_assoc]
  exact hdiv 8 le_rfl n a b ha

theorem countbits_bytes (s0 s1 s2 : UInt8) :
    countbits (s0.toNat ||| s1.toNat <<< 8 ||| s2.toNat <<< 16)
      = bitCount s0 + bitCount s1 + bitCount s2 := by
  have h0 := s0.toNat_lt
  have h1 := s1.toNat_lt
  have h2 := s2.toNat_lt
  have hsum : s0.toNat ||| s1.toNat <<< 8 ||| s2.toNat <<< 16
      = s0.toNat + 2 ^ 8 * (s1.toNat + 2 ^ 8 * (s2.toNat + 2 ^ 8 * 0)) := by
    rw [Nat.or_comm, Nat.or_comm s0.toNat, ← Nat.shiftLeft_add_eq_or_of_lt h0,
      ← Nat.shiftLeft_add_eq_or_of_lt (by rw [Nat.shiftLeft_eq]; omega), Nat.shiftLeft_eq,
      Nat.shiftLeft_eq]
    omega
  have hzero : countbitsLoop 8 0 = 0 := by decide
  rw [hsum, countbits, countbitsLoop_byte 24 _ _ h0, countbitsLoop_byte 16 _ _ h1,
    countbitsLoop_byte 8 _ _ h2, hzero]
  unfold bitCount
  omega

theorem of_all_bytes {P : UInt8 → Prop} (h : ∀ n : Fin 256, P (UInt8.ofNat n.val)) (s : UInt8) :
    P s := by
  simpa using h ⟨s.toNat, s.toNat_lt⟩

theorem bitCount_pairs : ∀ s : UInt8, (pairs s &&& 0x55 = 0 → bitCount s % 2 = 0) ∧
    (pairs s &&& 0x54 = 0 → s &&& 0x03 = 0 → bitCount s % 2 = 0) :=
  of_all_bytes (by decide +kernel)

end Pairs

section Word

theorem line_spec {i : ℕ} (hi : i < 256) :
    pairs (lineLow i) &&& 0x55 = 0x55 ∧ pairs (lineHigh i) &&& 0x55 = 0x55 ∧
      eccByteoffs (lineLow i) (lineHigh i) = i ∧
      bitCount (lineLow i) = 4 ∧ bitCount (lineHigh i) = 4 := by
  revert i
  decide +kernel

theorem column_spec {k : ℕ} (hk : k < 8) :
    pairs (column k) &&& 0x54 = 0x54 ∧ column k &&& 0x03 = 0 ∧ eccBitnum (column k) = k := by
  revert k
  decide

/-- A bit of the code spoils a pair, if it is one that is looked at. -/
theorem code_spec {k : ℕ} (hk : k < 8) :
    pairs (UInt8.ofNat (1 <<< k)) &&& 0x55 ≠ 0 ∧ bitCount (UInt8.ofNat (1 <<< k)) = 1 ∧
      (k < 2 ∨ pairs (UInt8.ofNat (1 <<< k)) &&& 0x54 ≠ 0) := by
  revert k
  decide

theorem spare_spec : ∀ k < 8, ∀ j < 2,
    pairs (column k ^^^ UInt8.ofNat (1 <<< j)) &&& 0x54 = 0x54 ∧
      eccBitnum (column k ^^^ UInt8.ofNat (1 <<< j)) = k := by
  decide

variable {s : Syndrome} {d : List UInt8} {i j k l : ℕ}

theorem correct_zero (d : List UInt8) : Syndrome.zero.correct d = (0, d) := rfl

theorem Syndrome.ne_zero_of_bitCount (h : bitCount s.s0 ≠ 0 ∨ bitCount s.s1 ≠ 0) :
    s.s0 ||| s.s1 ||| s.s2 ≠ 0 := by
  have hzero : bitCount 0 = 0 := by decide
  intro h0
  obtain ⟨h01, -⟩ := UInt8.or_eq_zero_iff.1 h0
  obtain ⟨h0, h1⟩ := UInt8.or_eq_zero_iff.1 h01
  rcases h with h | h
  · exact h (by rw [h0, hzero])
  · exact h (by rw [h1, hzero])

theorem correct_single (hne : s.s0 ||| s.s1 ||| s.s2 ≠ 0) (h : eccSingle s.s0 s.s1 s.s2 = true) :
    s.correct d = (1, flipBit d (8 * eccByteoffs s.s0 s.s1 + eccBitnum s.s2)) := by
  rw [Syndrome.correct, if_neg hne, if_pos h]

/-- Without the pattern of one bit the data stay as they are. -/
theorem correct_other (h : eccSingle s.s0 s.s1 s.s2 = false) : (s.correct d).2 = d := by
  unfold Syndrome.correct
  rw [h]
  split_ifs <;> simp_all

theorem correct_bad (hne : s.s0 ||| s.s1 ||| s.s2 ≠ 0) (h : eccSingle s.s0 s.s1 s.s2 = false)
    (hc : bitCount s.s0 + bitCount s.s1 + bitCount s.s2 ≠ 1) : s.correct d = (-EBADMSG, d) := by
  rw [Syndrome.correct, if_neg hne, if_neg (Bool.eq_false_iff.1 h), countbits_bytes, if_neg hc]

/-- One bit of the data. -/
theorem correct_data (hi : i < 256) (hk : k < 8) :
    (dataSyndrome i k).correct d = (1, flipBit d (8 * i + k)) := by
  obtain ⟨h0, h1, hoffs, hc0, -⟩ := line_spec hi
  obtain ⟨h2, -, hbit⟩ := column_spec hk
  have hne : bitCount (dataSyndrome i k).s0 ≠ 0 := by
    rw [dataSyndrome, hc0]
    omega
  rw [correct_single (Syndrome.ne_zero_of_bitCount (Or.inl hne))
    ((eccSingle_iff _ _ _).2 ⟨h0, h1, h2⟩), dataSyndrome, hoffs, hbit]

/-- One bit of the code. -/
theorem correct_code (hi : i < 3) (hk : k < 8) : (codeSyndrome i k).correct d = (1, d) := by
  have hall : ∀ i < 3, ∀ k < 8, (codeSyndrome i k).s0 ||| (codeSyndrome i k).s1 |||
      (codeSyndrome i k).s2 ≠ 0 ∧ eccSingle (codeSyndrome i k).s0 (codeSyndrome i k).s1
        (codeSyndrome i k).s2 = false ∧ bitCount (codeSyndrome i k).s0 +
          bitCount (codeSyndrome i k).s1 + bitCount (codeSyndrome i k).s2 = 1 := by
    decide +kernel
  obtain ⟨hne, hsingle, hc⟩ := hall i hi k hk
  rw [Syndrome.correct, if_neg hne, if_neg (Bool.eq_false_iff.1 hsingle), countbits_bytes,
    if_pos hc]

/-- Two bits of the data. -/
theorem correct_data_data (hi : i < 256) (hj : j < 256) (hk : k < 8) (hl : l < 8)
    (hne : i ≠ j ∨ k ≠ l) :
    ((dataSyndrome i k).xor (dataSyndrome j l)).correct d = (-EBADMSG, d) := by
  obtain ⟨hi0, hi1, hioffs, -, -⟩ := line_spec hi
  obtain ⟨hj0, hj1, hjoffs, -, -⟩ := line_spec hj
  obtain ⟨hk2, hk3, hkbit⟩ := column_spec hk
  obtain ⟨hl2, hl3, hlbit⟩ := column_spec hl
  set s := (dataSyndrome i k).xor (dataSyndrome j l) with hs
  have h0 : pairs s.s0 &&& 0x55 = 0 := by
    change pairs (lineLow i ^^^ lineLow j) &&& 0x55 = 0
    rw [pairs_xor, xor_and_right, hi0, hj0, UInt8.xor_self]
  have h1 : pairs s.s1 &&& 0x55 = 0 := by
    change pairs (lineHigh i ^^^ lineHigh j) &&& 0x55 = 0
    rw [pairs_xor, xor_and_right, hi1, hj1, UInt8.xor_self]
  have h2 : pairs s.s2 &&& 0x54 = 0 := by
    change pairs (column k ^^^ column l) &&& 0x54 = 0
    rw [pairs_xor, xor_and_right, hk2, hl2, UInt8.xor_self]
  have h3 : s.s2 &&& 0x03 = 0 := by
    change (column k ^^^ column l) &&& 0x03 = 0
    rw [xor_and_right, hk3, hl3, UInt8.xor_self]
  have hsingle : eccSingle s.s0 s.s1 s.s2 = false := by
    rw [← Bool.not_eq_true, eccSingle_iff, h0]
    exact fun h => absurd h.1 (by decide)
  refine correct_bad (fun hzero => ?_) hsingle ?_
  · obtain ⟨h01, hz2⟩ := UInt8.or_eq_zero_iff.1 hzero
    obtain ⟨hz0, hz1⟩ := UInt8.or_eq_zero_iff.1 h01
    have e0 : lineLow i = lineLow j := UInt8.xor_eq_zero_iff.1 hz0
    have e1 : lineHigh i = lineHigh j := UInt8.xor_eq_zero_iff.1 hz1
    have e2 : column k = column l := UInt8.xor_eq_zero_iff.1 hz2
    rcases hne with hne | hne
    · exact hne (by rw [← hioffs, ← hjoffs, e0, e1])
    · exact hne (by rw [← hkbit, ← hlbit, e2])
  · have c0 := (bitCount_pairs _).1 h0
    have c1 := (bitCount_pairs _).1 h1
    have c2 := (bitCount_pairs _).2 h2 h3
    omega

theorem spoiled {a b : UInt8} (h : a ^^^ b = a) : b = 0 := by
  rwa [← UInt8.xor_right_inj a, UInt8.xor_zero]

/-- A bit of the data and a bit of the code: either it is not taken for one bit of the data, or for
the right one. -/
theorem correct_data_code (hi : i < 256) (hk : k < 8) (hj : j < 3) (hl : l < 8) :
    ((dataSyndrome i k).xor (codeSyndrome j l)).correct d = (-EBADMSG, d) ∨
      ((dataSyndrome i k).xor (codeSyndrome j l)).correct d = (1, flipBit d (8 * i + k)) := by
  obtain ⟨h0, h1, hoffs, c0, c1⟩ := line_spec hi
  obtain ⟨h2, -, -⟩ := column_spec hk
  obtain ⟨hbit, -, hspare⟩ := code_spec hl
  set b := UInt8.ofNat (1 <<< l)
  have hcode : j = 0 ∨ j = 1 ∨ j = 2 := by omega
  rcases hcode with rfl | rfl | rfl
  · refine Or.inl ?_
    have hs : (dataSyndrome i k).xor (codeSyndrome 0 l)
        = ⟨lineLow i, lineHigh i ^^^ b, column k⟩ := by
      simp [Syndrome.xor, dataSyndrome, codeSyndrome, b]
    rw [hs]
    refine correct_bad (Syndrome.ne_zero_of_bitCount (Or.inl (by rw [c0]; omega))) ?_
      (by rw [c0]; omega)
    rw [← Bool.not_eq_true, eccSingle_iff, pairs_xor, xor_and_right, h1]
    exact fun h => hbit (spoiled h.2.1)
  · refine Or.inl ?_
    have hs : (dataSyndrome i k).xor (codeSyndrome 1 l)
        = ⟨lineLow i ^^^ b, lineHigh i, column k⟩ := by
      simp [Syndrome.xor, dataSyndrome, codeSyndrome, b]
    rw [hs]
    refine correct_bad (Syndrome.ne_zero_of_bitCount (Or.inr (by rw [c1]; omega))) ?_
      (by rw [c1]; omega)
    rw [← Bool.not_eq_true, eccSingle_iff, pairs_xor, xor_and_right, h0]
    exact fun h => hbit (spoiled h.1)
  · have hs : (dataSyndrome i k).xor (codeSyndrome 2 l)
        = ⟨lineLow i, lineHigh i, column k ^^^ b⟩ := by
      simp [Syndrome.xor, dataSyndrome, codeSyndrome, b]
    have hne : (⟨lineLow i, lineHigh i, column k ^^^ b⟩ : Syndrome).s0 ||| lineHigh i |||
        (column k ^^^ b) ≠ 0 := Syndrome.ne_zero_of_bitCount
      (s := ⟨lineLow i, lineHigh i, column k ^^^ b⟩) (Or.inl (by rw [c0]; omega))
    rw [hs]
    by_cases hl2 : l < 2
    · obtain ⟨h3, hnum⟩ := spare_spec k hk l hl2
      refine Or.inr ?_
      rw [correct_single hne ((eccSingle_iff _ _ _).2 ⟨h0, h1, h3⟩), hoffs, hnum]
    · refine Or.inl (correct_bad hne ?_ (by rw [c0]; omega))
      rw [← Bool.not_eq_true, eccSingle_iff, pairs_xor, xor_and_right, h2]
      exact fun h => hspare.resolve_left hl2 (spoiled h.2.2)

theorem length_nandCalculateEcc (d : List UInt8) : (nandCalculateEcc d).length = 3 := rfl

theorem mul_add_mod_div (l : ℕ) : 8 * (l / 8) + l % 8 = l := Nat.div_add_mod l 8

/-- A step of data with its code, where one bit of them is wrong at most. -/
theorem nandCorrectData_one {d d' c' : List UInt8} (hd : d.length = 256) (hd' : d'.length = 256)
    (hc' : c'.length = 3) {i : ℕ}
    (h : ∀ l, bitAt (d ++ nandCalculateEcc d) l ≠ bitAt (d' ++ c') l → l = i) :
    0 ≤ (nandCorrectData d' c' (nandCalculateEcc d')).1 ∧
      (nandCorrectData d' c' (nandCalculateEcc d')).2 = d := by
  have hlen : (d ++ nandCalculateEcc d).length = (d' ++ c').length := by
    rw [List.length_append, List.length_append, hd, hd', hc', length_nandCalculateEcc]
  rw [nandCorrectData_eq]
  rcases flip_of_one_bit hlen h with heq | ⟨hi, heq⟩
  · obtain ⟨rfl, rfl⟩ := List.append_inj heq (by rw [hd, hd'])
    rw [syndrome_self, correct_zero]
    exact ⟨le_rfl, rfl⟩
  · rw [List.length_append, hd, length_nandCalculateEcc] at hi
    by_cases hdata : i < 2048
    · rw [flipBit_append_left _ _ (by rw [hd]; exact hdata)] at heq
      obtain ⟨rfl, rfl⟩ := List.append_inj heq (by rw [hd', length_flipBit, hd])
      rw [syndrome_data hd hdata, syndrome_self, Syndrome.zero_xor,
        correct_data (by omega) (Nat.mod_lt _ (by omega)), mul_add_mod_div,
        flipBit_flipBit (by rw [hd]; exact hdata)]
      exact ⟨zero_le_one, rfl⟩
    · rw [flipBit_append_right _ _ (by rw [hd]; omega), hd] at heq
      obtain ⟨rfl, rfl⟩ := List.append_inj heq (by rw [hd, hd'])
      rw [syndrome_code _ rfl (by omega), syndrome_self, Syndrome.zero_xor,
        correct_code (by omega) (Nat.mod_lt _ (by omega))]
      exact ⟨zero_le_one, rfl⟩

/-- Where two bits are wrong, no third is made wrong without notice. -/
theorem nandCorrectData_two {d d' c' : List UInt8} (hd : d.length = 256) (hd' : d'.length = 256)
    (hc' : c'.length = 3) (h : TwoBits (d ++ nandCalculateEcc d) (d' ++ c'))
    (hok : 0 ≤ (nandCorrectData d' c' (nandCalculateEcc d')).1) :
    (nandCorrectData d' c' (nandCalculateEcc d')).2 = d := by
  have hlen : (d ++ nandCalculateEcc d).length = (d' ++ c').length := by
    rw [List.length_append, List.length_append, hd, hd', hc', length_nandCalculateEcc]
  have hbad : ∀ dat : List UInt8, ¬ 0 ≤ ((-EBADMSG, dat) : ℤ × List UInt8).1 := fun _ =>
    not_le.2 (show -EBADMSG < 0 by decide)
  rcases flip_of_two_bits hlen h with heq | ⟨i, hi, heq⟩ | ⟨i, j, hij, hj, heq⟩
  · exact (nandCorrectData_one hd hd' hc' (i := 0) fun l hl => absurd (by rw [heq]) hl).2
  · refine (nandCorrectData_one hd hd' hc' (i := i) fun l hl => ?_).2
    rw [heq, bitAt_flipBit hi] at hl
    by_contra hne
    simp [hne] at hl
  rw [nandCorrectData_eq] at hok ⊢
  rw [List.length_append, hd, length_nandCalculateEcc] at hj
  by_cases hjd : j < 2048
  · -- both in the data
    rw [flipBit_append_left _ _ (by rw [hd]; omega),
      flipBit_append_left _ _ (by rw [length_flipBit, hd]; exact hjd)] at heq
    obtain ⟨rfl, rfl⟩ := List.append_inj heq (by rw [hd', length_flipBit, length_flipBit, hd])
    rw [syndrome_data (by rw [length_flipBit, hd]) hjd, syndrome_data hd (by omega), syndrome_self,
      Syndrome.zero_xor, correct_data_data (by omega) (by omega) (Nat.mod_lt _ (by omega))
        (Nat.mod_lt _ (by omega)) (by omega)] at hok
    exact absurd hok (hbad _)
  by_cases hid : i < 2048
  · -- one in the data
    rw [flipBit_append_left _ _ (by rw [hd]; exact hid),
      flipBit_append_right _ _ (by rw [length_flipBit, hd]; omega), length_flipBit, hd] at heq
    obtain ⟨rfl, rfl⟩ := List.append_inj heq (by rw [hd', length_flipBit, hd])
    rw [syndrome_code _ rfl (by omega), syndrome_data hd hid, syndrome_self,
      Syndrome.zero_xor] at hok ⊢
    rcases correct_data_code (d := flipBit d i) (i := i / 8) (k := i % 8)
      (j := (j - 8 * 256) / 8) (l := (j - 8 * 256) % 8) (by omega) (by omega) (by omega)
      (by omega) with hc | hc
    · rw [hc] at hok
      exact absurd hok (hbad _)
    · rw [hc, mul_add_mod_div]
      exact flipBit_flipBit (by rw [hd]; exact hid)
  · -- none in the data
    rw [flipBit_append_right _ _ (by rw [hd]; omega), hd,
      flipBit_append_right _ _ (by rw [hd]; omega), hd] at heq
    obtain ⟨rfl, rfl⟩ := List.append_inj heq (by rw [hd, hd'])
    have hall : ∀ i < 3, ∀ k < 8, ∀ j < 3, ∀ l < 8,
        eccSingle ((codeSyndrome i k).xor (codeSyndrome j l)).s0
          ((codeSyndrome i k).xor (codeSyndrome j l)).s1
          ((codeSyndrome i k).xor (codeSyndrome j l)).s2 = false := by
      decide +kernel
    rw [syndrome_code _ (by rw [length_flipBit]; rfl) (by omega), syndrome_code _ rfl (by omega),
      syndrome_self, Syndrome.zero_xor]
    exact correct_other (hall _ (by omega) _ (by omega) _ (by omega) _ (by omega))

end Word

end InfotmUboot
