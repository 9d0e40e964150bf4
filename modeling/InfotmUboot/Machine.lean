import InfotmUboot.VStorage

/-!
# The board as an environment

`nandStep` answers the storage calls on the NAND devices by running their drivers on the flash and
leaves every other operation to the environment `other`. The flash operations of all calls are
kept in `trace`.
-/

namespace InfotmUboot

open Lib

structure World (σ : Type) where
  rows : ℕ → Row
  trace : List (FlashOp × FlashReply)
  other : σ

section Drivers

variable (N : NandCfg)

def nandRead : Dev → ℕ → ℤ → Flash (ℤ × List UInt8)
  | .bnd => bndVsRead N
  | .nnd => nndVsRead N
  | .fnd => fndVsRead N
  | _ => fun _ _ => pure (-1, [])

def nandWrite : Dev → ℕ → List UInt8 → Flash ℤ
  | .bnd => bndVsWrite N
  | .nnd => nndVsWrite N
  | .fnd => fndVsWrite N
  | _ => fun _ _ => pure (-1)

def nandErase : Dev → ℕ → ℕ → Flash ℤ
  | .bnd => bndVsErase N
  | .nnd => nndVsErase N
  | .fnd => fndVsErase N
  | _ => fun _ _ => pure (-1)

def nandIsbad : Dev → ℕ → Flash ℤ
  | .bnd => bndVsIsbad N
  | .nnd => nndVsIsbad N
  | .fnd => fndVsIsbad N
  | _ => fun _ => pure (-1)

end Drivers

section Step

variable (B : Board) (bad : ℕ → Bool) {σ : Type} (other : σ → Op → Reply × σ)

/-- The rows of a block. -/
def Board.pagesperblock : ℕ := B.nand.normal.elim 1 (·.pagesperblock)

/-- What the driver program of an operation on a NAND device is. -/
def nandProg : Op → Option (Flash (ℤ × List UInt8))
  | .read d start length =>
    if d.isNand then some (vsReadBody d (B.align d) start length (nandRead B.nand d)) else none
  | .write d start data =>
    if d.isNand then some do
      let ret ← nandWrite B.nand d start data
      pure (ret, [])
    else none
  | .erase d start size =>
    if d.isNand then some do
      let ret ← nandErase B.nand d start size
      pure (ret, [])
    else none
  | .isbad d start =>
    if d.isNand then some do
      let ret ← nandIsbad B.nand d start
      pure (ret, [])
    else none
  | _ => none

def nandStep (w : World σ) (o : Op) : Reply × World σ :=
  match nandProg B o with
  | some p =>
    let out := Prog.run (flashStep B.pagesperblock bad) p w.rows
    (⟨out.val.1, out.val.2⟩, { w with rows := out.env, trace := w.trace ++ out.log })
  | none =>
    let q := other w.other o
    (q.1, { w with other := q.2 })

end Step

end InfotmUboot
