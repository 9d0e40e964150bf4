import InfotmUboot.VStorage

/-!
# Where `vs_read` puts what it reads

`vs_read` once more, over a driver that is a function, with the places in the caller's buffer its
parts go to. A place may lie outside of the buffer: `buf` and `length` are moved on by parts that
are larger than what was asked for.
-/

namespace InfotmUboot

open Lib

/-- What a driver's `read` returns and puts at the address it gets, for the number of the call, the
offset and the length. -/
abbrev DriverRead := ℕ → ℕ → ℤ → ℤ × List UInt8

/-- The result of `vs_read`, and the bytes it stores with their distance from `buf`. -/
structure VsReadOut where
  ret : ℤ
  writes : List (ℤ × List UInt8)

section VsRead

variable (d : Dev) (align start : ℕ) (length : ℤ) (read : DriverRead)

/-- `vs_read` behind its checks, on any device but `fnd`. -/
def vsReadParts : VsReadOut :=
  let prelen := vsPrelen align start
  let postlen := vsPostlen d align start length
  let midlen := vsMidlen d align start length
  let head := if prelen ≠ 0 then read 0 (andNot (u32 start) (vsMask align)) align else (0, [])
  if head.1 < 0 then ⟨head.1, []⟩
  else
    let writes := if prelen ≠ 0 then [((0 : ℤ), (fit align head.2).drop (align - prelen))] else []
    let mid := if midlen ≠ 0 then read 1 (start + prelen) midlen else (0, [])
    let writes := writes ++ [((prelen : ℤ), mid.2)]
    if mid.1 < 0 then ⟨mid.1, writes⟩
    else if postlen = 0 then ⟨head.1 + mid.1, writes⟩
    else
      let tail := read 2 ((start + prelen : ℕ) + midlen).toNat align
      if tail.1 < 0 then ⟨tail.1, writes⟩
      else ⟨head.1 + mid.1 + tail.1, writes ++ [(prelen + midlen, (fit align tail.2).take postlen)]⟩

def vsReadCall : VsReadOut :=
  if ¬d.entry.read then ⟨-3, []⟩
  else if length = 0 then ⟨0, []⟩
  else if d = .fnd then
    let r := read 0 start length
    ⟨r.1, [(0, r.2)]⟩
  else vsReadParts d align start length read

end VsRead

/-- What these stores leave at a distance from `buf`, if they reach it. -/
def storedAt (writes : List (ℤ × List UInt8)) (i : ℤ) : Option UInt8 :=
  writes.foldl (fun byte w => if w.1 ≤ i ∧ i < w.1 + w.2.length then w.2[(i - w.1).toNat]?
    else byte)
    none

end InfotmUboot
