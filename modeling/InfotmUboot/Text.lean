import InfotmUboot.Items

/-!
# Texts

What `sprintf` writes of a number, and what `simple_strtoul` of base 0 reads of one. A text is the
bytes before its terminator.
-/

namespace InfotmUboot

open Lib

def ascii (s : String) : List UInt8 := s.toList.map fun c => c.toNat.toUInt8

def hexDigit (n : ℕ) : UInt8 := if n < 10 then (0x30 + n).toUInt8 else (0x61 + (n - 10)).toUInt8

/-- `%08x` -/
def hex8 (n : ℕ) : List UInt8 := (List.range 8).map fun i => hexDigit (n / 16 ^ (7 - i) % 16)

/-- `%u` -/
def decimal (n : ℕ) : List UInt8 := (Nat.toDigits 10 n).map fun c => c.toNat.toUInt8

/-- The digits that `strtoulLoop` goes over. -/
def isDigitOf (base : ℕ) (c : UInt8) : Bool := (digitValue c).any (· < base)

/-- The value of the digits, and `*endp`. -/
def strtoulEnd (base : ℕ) (cs : List UInt8) : ℕ × List UInt8 :=
  (strtoulLoop base cs 0, cs.dropWhile (isDigitOf base))

/-- `simple_strtoul` of base 0, with `*endp` -/
def strtoul0 : List UInt8 → ℕ × List UInt8
  | 0x30 :: 0x78 :: c :: cs =>
    if (digitValue c).isSome then strtoulEnd 16 (c :: cs) else strtoulEnd 8 (0x78 :: c :: cs)
  | 0x30 :: cs => strtoulEnd 8 cs
  | cs => strtoulEnd 10 cs

/-- The rest of a text that begins with `c`. -/
def skipChar (c : Char) : List UInt8 → Option (List UInt8)
  | [] => none
  | x :: p => if x = c.toNat.toUInt8 then some p else none

/-- The text up to the first `c`, and what comes behind it if there is one. -/
def splitChar (c : Char) (p : List UInt8) : List UInt8 × Option (List UInt8) :=
  (p.takeWhile (· ≠ c.toNat.toUInt8),
    match p.dropWhile (· ≠ c.toNat.toUInt8) with
    | [] => none
    | _ :: rest => some rest)

end InfotmUboot
