import InfotmUboot.Lib.Bytes

/-!
# The software ECC of NAND

`nand_calculate_ecc` and `nand_correct_data` of `nand_ecc.c`, for steps of 256 bytes with three
bytes of code.
-/

namespace InfotmUboot

open Lib

def nandEccPrecalcTable : List UInt8 :=
  [
    0x00, 0x55, 0x56, 0x03, 0x59, 0x0c, 0x0f, 0x5a, 0x5a, 0x0f, 0x0c, 0x59, 0x03, 0x56, 0x55, 0x00,
    0x65, 0x30, 0x33, 0x66, 0x3c, 0x69, 0x6a, 0x3f, 0x3f, 0x6a, 0x69, 0x3c, 0x66, 0x33, 0x30, 0x65,
    0x66, 0x33, 0x30, 0x65, 0x3f, 0x6a, 0x69, 0x3c, 0x3c, 0x69, 0x6a, 0x3f, 0x65, 0x30, 0x33, 0x66,
    0x03, 0x56, 0x55, 0x00, 0x5a, 0x0f, 0x0c, 0x59, 0x59, 0x0c, 0x0f, 0x5a, 0x00, 0x55, 0x56, 0x03,
    0x69, 0x3c, 0x3f, 0x6a, 0x30, 0x65, 0x66, 0x33, 0x33, 0x66, 0x65, 0x30, 0x6a, 0x3f, 0x3c, 0x69,
    0x0c, 0x59, 0x5a, 0x0f, 0x55, 0x00, 0x03, 0x56, 0x56, 0x03, 0x00, 0x55, 0x0f, 0x5a, 0x59, 0x0c,
    0x0f, 0x5a, 0x59, 0x0c, 0x56, 0x03, 0x00, 0x55, 0x55, 0x00, 0x03, 0x56, 0x0c, 0x59, 0x5a, 0x0f,
    0x6a, 0x3f, 0x3c, 0x69, 0x33, 0x66, 0x65, 0x30, 0x30, 0x65, 0x66, 0x33, 0x69, 0x3c, 0x3f, 0x6a,
    0x6a, 0x3f, 0x3c, 0x69, 0x33, 0x66, 0x65, 0x30, 0x30, 0x65, 0x66, 0x33, 0x69, 0x3c, 0x3f, 0x6a,
    0x0f, 0x5a, 0x59, 0x0c, 0x56, 0x03, 0x00, 0x55, 0x55, 0x00, 0x03, 0x56, 0x0c, 0x59, 0x5a, 0x0f,
    0x0c, 0x59, 0x5a, 0x0f, 0x55, 0x00, 0x03, 0x56, 0x56, 0x03, 0x00, 0x55, 0x0f, 0x5a, 0x59, 0x0c,
    0x69, 0x3c, 0x3f, 0x6a, 0x30, 0x65, 0x66, 0x33, 0x33, 0x66, 0x65, 0x30, 0x6a, 0x3f, 0x3c, 0x69,
    0x03, 0x56, 0x55, 0x00, 0x5a, 0x0f, 0x0c, 0x59, 0x59, 0x0c, 0x0f, 0x5a, 0x00, 0x55, 0x56, 0x03,
    0x66, 0x33, 0x30, 0x65, 0x3f, 0x6a, 0x69, 0x3c, 0x3c, 0x69, 0x6a, 0x3f, 0x65, 0x30, 0x33, 0x66,
    0x65, 0x30, 0x33, 0x66, 0x3c, 0x69, 0x6a, 0x3f, 0x3f, 0x6a, 0x69, 0x3c, 0x66, 0x33, 0x30, 0x65,
    0x00, 0x55, 0x56, 0x03, 0x59, 0x0c, 0x0f, 0x5a, 0x5a, 0x0f, 0x0c, 0x59, 0x03, 0x56, 0x55, 0x00]

def EBADMSG : ℤ := 74

section Calculate

structure EccRegs where
  reg1 : UInt8
  reg2 : UInt8
  reg3 : UInt8
  deriving DecidableEq, Repr

/-- One round of the loop, for byte `i` of the data. -/
def eccStep (r : EccRegs) (i : ℕ) (b : UInt8) : EccRegs :=
  let idx := nandEccPrecalcTable.getD b.toNat 0
  let r := { r with reg1 := r.reg1 ^^^ (idx &&& 0x3f) }
  if idx &&& 0x40 ≠ 0 then
    { r with reg3 := r.reg3 ^^^ UInt8.ofNat i, reg2 := r.reg2 ^^^ ~~~ (UInt8.ofNat i) }
  else r

def eccRegs (dat : List UInt8) : EccRegs :=
  (List.range 256).foldl (fun r i => eccStep r i (dat.getD i 0)) ⟨0, 0, 0⟩

/-- The upper halves of the line parities, in turn. -/
def eccTmp1 (reg2 reg3 : UInt8) : UInt8 :=
  (reg3 &&& 0x80) >>> 0 ||| (reg2 &&& 0x80) >>> 1 ||| (reg3 &&& 0x40) >>> 1 |||
    (reg2 &&& 0x40) >>> 2 ||| (reg3 &&& 0x20) >>> 2 ||| (reg2 &&& 0x20) >>> 3 |||
    (reg3 &&& 0x10) >>> 3 ||| (reg2 &&& 0x10) >>> 4

def eccTmp2 (reg2 reg3 : UInt8) : UInt8 :=
  (reg3 &&& 0x08) <<< 4 ||| (reg2 &&& 0x08) <<< 3 ||| (reg3 &&& 0x04) <<< 3 |||
    (reg2 &&& 0x04) <<< 2 ||| (reg3 &&& 0x02) <<< 2 ||| (reg2 &&& 0x02) <<< 1 |||
    (reg3 &&& 0x01) <<< 1 ||| (reg2 &&& 0x01) <<< 0

/-- `nand_calculate_ecc` -/
def nandCalculateEcc (dat : List UInt8) : List UInt8 :=
  let r := eccRegs dat
  [~~~ (eccTmp1 r.reg2 r.reg3), ~~~ (eccTmp2 r.reg2 r.reg3), (~~~ r.reg1) <<< 2 ||| 0x03]

end Calculate

section Correct

def countbitsLoop : ℕ → ℕ → ℕ
  | 0, _ => 0
  | n + 1, byte => byte % 2 + countbitsLoop n (byte / 2)

/-- The bits of a 32-bit number. -/
def countbits (byte : ℕ) : ℕ := countbitsLoop 32 byte

/-- Whether the differences are those of one bit of the data. -/
def eccSingle (s0 s1 s2 : UInt8) : Bool :=
  (s0 ^^^ s0 >>> 1) &&& 0x55 = 0x55 ∧ (s1 ^^^ s1 >>> 1) &&& 0x55 = 0x55 ∧
    (s2 ^^^ s2 >>> 1) &&& 0x54 = 0x54

def eccByteoffs (s0 s1 : UInt8) : ℕ :=
  let s0 := s0.toNat
  let s1 := s1.toNat
  (s1 <<< 0) &&& 0x80 ||| (s1 <<< 1) &&& 0x40 ||| (s1 <<< 2) &&& 0x20 ||| (s1 <<< 3) &&& 0x10 |||
    (s0 >>> 4) &&& 0x08 ||| (s0 >>> 3) &&& 0x04 ||| (s0 >>> 2) &&& 0x02 ||| (s0 >>> 1) &&& 0x01

def eccBitnum (s2 : UInt8) : ℕ :=
  let s2 := s2.toNat
  (s2 >>> 5) &&& 0x04 ||| (s2 >>> 4) &&& 0x02 ||| (s2 >>> 3) &&& 0x01

/-- `nand_correct_data`: what it returns, and the data. -/
def nandCorrectData (dat readEcc calcEcc : List UInt8) : ℤ × List UInt8 :=
  let s1 := calcEcc.getD 0 0 ^^^ readEcc.getD 0 0
  let s0 := calcEcc.getD 1 0 ^^^ readEcc.getD 1 0
  let s2 := calcEcc.getD 2 0 ^^^ readEcc.getD 2 0
  if s0 ||| s1 ||| s2 = 0 then (0, dat)
  else if eccSingle s0 s1 s2 then
    let byteoffs := eccByteoffs s0 s1
    (1, dat.set byteoffs (dat.getD byteoffs 0 ^^^ UInt8.ofNat (1 <<< eccBitnum s2)))
  else if countbits (s0.toNat ||| s1.toNat <<< 8 ||| s2.toNat <<< 16) = 1 then (1, dat)
  else (-EBADMSG, dat)

end Correct

end InfotmUboot
