import InfotmUboot.Lib.Prog
import Mathlib.Data.Int.Notation

/-!
# The size of the memory

`get_ram_size` of `memsize.c`, which probes the words at the powers of two and puts back what was
there.
-/

namespace InfotmUboot

open Lib

/-- What is asked of the memory, by the index of a word from `base` on. -/
inductive RamOp where
  | read (i : ℕ)
  | write (i : ℕ) (v : ℤ)
  deriving DecidableEq, Repr

/-- The reply to a write is not looked at. -/
abbrev RamProg := Prog RamOp ℤ

/-- `~cnt` -/
def ramPattern (cnt : ℕ) : ℤ := -cnt - 1

/-- Each probed word is saved, the last one first in the list, and gets its pattern. -/
def ramSave (cnt : ℕ) (save : List ℤ) : RamProg (List ℤ) :=
  if cnt = 0 then return save
  else do
    let v ← Prog.op (.read cnt)
    let _ ← Prog.op (.write cnt (ramPattern cnt))
    ramSave (cnt / 2) (v :: save)
termination_by cnt
decreasing_by omega

/-- What is left in `save` goes back to the words from `cnt` on. The list ends with the loop where
`maxsize` is a power of two; elsewhere the code would go on with what is before `save`. -/
def ramRestore (words : ℕ) : ℕ → List ℤ → RamProg Unit
  | _, [] => return ()
  | cnt, v :: save => do
    if cnt < words then
      let _ ← Prog.op (.write cnt v)
      ramRestore words (cnt * 2) save
    else return ()

/-- The first word that has lost its pattern is behind the end. -/
def ramCheck (maxsize words : ℕ) : ℕ → List ℤ → RamProg ℕ
  | _, [] => return maxsize
  | cnt, v :: save => do
    if cnt < words then
      let val ← Prog.op (.read cnt)
      let _ ← Prog.op (.write cnt v)
      if val ≠ ramPattern cnt then
        ramRestore words (cnt * 2) save
        return cnt * 4
      else ramCheck maxsize words (cnt * 2) save
    else return maxsize

/-- A `long` has four bytes, and `save` has room for all the powers of two that one can have. -/
def getRamSize (maxsize : ℕ) : RamProg ℕ := do
  let words := maxsize / 4
  let save ← ramSave (words / 2) []
  let base ← Prog.op (.read 0)
  let _ ← Prog.op (.write 0 0)
  let val ← Prog.op (.read 0)
  if val ≠ 0 then
    let _ ← Prog.op (.write 0 base)
    ramRestore words 1 save
    return 0
  else ramCheck maxsize words 1 save

end InfotmUboot
