import InfotmUboot.Text

/-!
# Command lines

`parse_line` of `main.c`, which takes a line apart into its arguments. The line is in memory, and
the slots of `argv` are numbered; what the loops over a text are given as a bound is more than its
length. `process_macros` of `main.c`, which puts the values of variables into a line: a pointer into
the line is the text from there on.
-/

namespace InfotmUboot

open Lib

def isBlank (c : UInt8) : Bool := c = 0x20 ∨ c = 0x09

/-- `argv`, a null pointer as `none`. -/
abbrev Argv := ℕ → Option ℕ

def Argv.set (argv : Argv) (i : ℕ) (p : Option ℕ) : Argv := fun j => if j = i then p else argv j

section ParseLine

variable (m : Mem)

/-- skip any white space -/
def skipBlanks : ℕ → ℕ → ℕ
  | 0, line => line
  | n + 1, line => if isBlank (m line) then skipBlanks n (line + 1) else line

/-- find end of string -/
def argEnd : ℕ → ℕ → ℕ
  | 0, line => line
  | n + 1, line => if m line ≠ 0 ∧ ¬isBlank (m line) then argEnd n (line + 1) else line

/-- What `parse_line` returns and leaves. -/
structure ParseEnd where
  nargs : ℕ
  argv : Argv
  mem : Mem

/-- The rounds of `parse_line` while there is room for an argument. -/
def parseArgs (n : ℕ) : ℕ → ℕ → ℕ → Argv → Mem → ParseEnd
  | 0, nargs, _, argv, m => ⟨nargs, argv, m⟩
  | room + 1, nargs, line, argv, m =>
    let line := skipBlanks m n line
    if m line = 0 then ⟨nargs, argv.set nargs none, m⟩
    else
      let argv := argv.set nargs (some line)
      let nargs := nargs + 1
      let line := argEnd m n line
      if m line = 0 then ⟨nargs, argv.set nargs none, m⟩
      else parseArgs n room nargs (line + 1) argv (m.store line [0])

/-- `parse_line` with `CONFIG_SYS_MAXARGS` and a bound for the length of the line. -/
def Command.parseLine (maxargs n line : ℕ) (argv : Argv) : ParseEnd := parseArgs n maxargs 0
    line argv m

end ParseLine

section ProcessMacros

abbrev BACKSLASH : UInt8 := 0x5c

abbrev QUOTE : UInt8 := 0x27

abbrev DOLLAR : UInt8 := 0x24

def isOpen (c : UInt8) : Bool := c = 0x28 ∨ c = 0x7b

def isClose (c : UInt8) : Bool := c = 0x29 ∨ c = 0x7d

/-- What is written from `output` on, and `outputcnt`. -/
structure MacroOut where
  out : List UInt8
  outputcnt : ℕ
  deriving DecidableEq, Repr

def MacroOut.put (o : MacroOut) (c : UInt8) : MacroOut := ⟨o.out ++ [c], o.outputcnt - 1⟩

inductive MacroState where
  /-- waiting for a dollar sign -/
  | text
  /-- waiting for an opening bracket -/
  | dollar
  /-- waiting for a closing bracket -/
  | name (varnameStart : List UInt8)
  /-- waiting for a quote -/
  | quote
  deriving DecidableEq, Repr

variable (getenv : List UInt8 → Option (List UInt8))

/-- Copy into the line, as far as there is room. -/
def copyValue : List UInt8 → MacroOut → MacroOut
  | [], o => o
  | c :: envval, o => if c ≠ 0 ∧ o.outputcnt ≠ 0 then copyValue envval (o.put c) else o

/-- The switch over the state; `input` is what follows `c`. -/
def macroSwitch (c prev : UInt8) (input : List UInt8) :
    MacroState → MacroOut → MacroState × MacroOut
  | .text, o =>
    if c = QUOTE ∧ prev ≠ BACKSLASH then (.quote, o)
    else if c = DOLLAR ∧ prev ≠ BACKSLASH then (.dollar, o)
    else (.text, o.put c)
  | .dollar, o =>
    if isOpen c then (.name input, o)
    else
      let o := o.put DOLLAR
      (.text, if o.outputcnt ≠ 0 then o.put c else o)
  | .name varnameStart, o =>
    if isClose c then
      let envcnt := varnameStart.length - input.length - 1
      match getenv (varnameStart.take envcnt) with
      | some envval => (.text, copyValue envval o)
      | none => (.text, o)
    else (.name varnameStart, o)
  | .quote, o => if c = QUOTE ∧ prev ≠ BACKSLASH then (.text, o) else (.quote, o.put c)

def macroLoop : MacroState → UInt8 → List UInt8 → MacroOut → MacroOut
  | _, _, [], o => o
  | state, prev, c :: input, o =>
    if o.outputcnt = 0 then o
    else if state ≠ .quote ∧ c = BACKSLASH ∧ prev ≠ BACKSLASH then
      -- remove one level of escape characters
      match input with
      | [] => o
      | c' :: input =>
        let r := macroSwitch getenv c' c input state o
        macroLoop r.1 c' input r.2
    else
      let r := macroSwitch getenv c prev input state o
      macroLoop r.1 c input r.2

/-- What `process_macros` leaves in `output`. -/
def processMacros (cbsize : ℕ) (input : List UInt8) : List UInt8 :=
  let o := macroLoop getenv .text 0 input ⟨[], cbsize⟩
  if o.outputcnt ≠ 0 then o.out ++ [0] else o.out.dropLast ++ [0]

end ProcessMacros

end InfotmUboot
