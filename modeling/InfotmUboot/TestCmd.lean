import InfotmUboot.Text

/-!
# The test command

`do_test` of `command.c`, which evaluates the conditions of the shell, and `strcmp`. The arguments
are texts.
-/

namespace InfotmUboot

open Lib

/-- What a signed character keeps of the difference of two. -/
def charDiff (c t : UInt8) : ℤ := ((c.toNat : ℤ) - t.toNat).bmod 256

def strcmp : List UInt8 → List UInt8 → ℤ
  | [], [] => charDiff 0 0
  | [], t :: _ => charDiff 0 t
  | c :: _, [] => charDiff c 0
  | c :: cs, t :: ct => if charDiff c t ≠ 0 then charDiff c t else strcmp cs ct

/-- `expr`, `last_expr` and `last_cmp` -/
structure TestState where
  expr : ℤ
  lastExpr : ℤ
  lastCmp : ℤ

/-- A number that is 0 or 1. -/
def flag (p : Prop) [Decidable p] : ℤ := if p then 1 else 0

/-- The value of a condition, with the connective before it. -/
def TestState.join (s : TestState) (expr : ℤ) : TestState :=
  { s with
    expr := if s.lastCmp = 0 then flag (s.lastExpr ≠ 0 ∨ expr ≠ 0)
      else if s.lastCmp = 1 then flag (s.lastExpr ≠ 0 ∧ expr ≠ 0) else expr
    lastCmp := -1 }

/-- What an operator gives for its operands. -/
def testOp (op ap0 ap2 : List UInt8) : Option ℤ :=
  if strcmp op (ascii "=") = 0 then some (flag (strcmp ap0 ap2 = 0))
  else if strcmp op (ascii "!=") = 0 then some (flag (strcmp ap0 ap2 ≠ 0))
  else if strcmp op (ascii ">") = 0 then some (flag (strcmp ap0 ap2 > 0))
  else if strcmp op (ascii "<") = 0 then some (flag (strcmp ap0 ap2 < 0))
  else if strcmp op (ascii "-eq") = 0 then some (flag (simpleStrtol ap0 = simpleStrtol ap2))
  else if strcmp op (ascii "-ne") = 0 then some (flag (simpleStrtol ap0 ≠ simpleStrtol ap2))
  else if strcmp op (ascii "-lt") = 0 then some (flag (simpleStrtol ap0 < simpleStrtol ap2))
  else if strcmp op (ascii "-le") = 0 then some (flag (simpleStrtol ap0 ≤ simpleStrtol ap2))
  else if strcmp op (ascii "-gt") = 0 then some (flag (simpleStrtol ap0 > simpleStrtol ap2))
  else if strcmp op (ascii "-ge") = 0 then some (flag (simpleStrtol ap0 ≥ simpleStrtol ap2))
  else none

/-- The loop over the words that are left: `expr` at its end. One that cannot go on makes it 1. -/
def testLoop : List (List UInt8) → TestState → ℤ
  | [], s => s.expr
  | ap0 :: left, s =>
    if strcmp ap0 (ascii "-o") = 0 then testLoop left { s with lastExpr := s.expr, lastCmp := 0 }
    else if strcmp ap0 (ascii "-a") = 0 then
      testLoop left { s with lastExpr := s.expr, lastCmp := 1 }
    else if strcmp ap0 (ascii "-z") = 0 then
      match left with
      | [] => 1
      | ap1 :: left => testLoop left (s.join (flag (ap1.length = 0)))
    else if strcmp ap0 (ascii "-n") = 0 then
      match left with
      | [] => 1
      | ap1 :: left => testLoop left (s.join (flag (ap1.length ≠ 0)))
    else
      match left with
      | op :: ap2 :: left =>
        match testOp op ap0 ap2 with
        | some expr => testLoop left (s.join expr)
        | none => 1
      | _ => 1

/-- `do_test` -/
def doTest (argv : List (List UInt8)) : ℤ :=
  if argv.length < 3 then 1
  else
    let ap := argv.drop 1
    let neg := strcmp (ap.headD []) (ascii "!") = 0
    let expr := testLoop (if neg then ap.drop 1 else ap) ⟨-1, -1, -1⟩
    let expr := if neg then flag (expr = 0) else expr
    flag (expr = 0)

end InfotmUboot
