import InfotmUboot.Lib.Keyed
import InfotmUboot.Lib.Word
import InfotmUboot.Lib.Bytes

/-!
# The hardware configuration

`hwconfig.c`: the search for an option or a sub-option, and the questions that use it. A string is
the bytes before its terminator, and a pointer into it an index. `strstr` is `search`.
-/

namespace InfotmUboot

open Lib

section Parse

variable (t : List UInt8) (maxlen : ℕ) (opt : List UInt8) (stopch eqch : UInt8)

/-- `strchr` -/
def strchrFrom (str : ℕ) : Option ℕ :=
  ((t.drop str).findIdx? (· = stopch)).map (str + ·)

/-- What is returned for an occurrence that is taken, with `*arglen` where that is asked for. -/
def hwconfigTaken (arglen : Bool) (str : ℕ) : Option (ℕ × ℕ) :=
  if arglen = false then some (str, 0)
  else if t.getD (str + opt.length) 0 ≠ eqch then none
  else
    match strchrFrom t stopch str with
    | none =>
      some (str + opt.length + 1, toU32 ((min maxlen (t.length - str) : ℕ) - opt.length - 1))
    | some argEnd =>
      some (str + opt.length + 1, toU32 ((argEnd : ℤ) - (str + opt.length : ℕ) - 1))

/-- The search from `opts` on, in so many rounds. -/
def hwconfigNext (arglen : Bool) : ℕ → ℕ → Option (ℕ × ℕ)
  | 0, _ => none
  | n + 1, opts =>
    match search opt t opts with
    | none => none
    | some str =>
      if maxlen < str + opt.length then none
      else if (str = opts ∨ t.getD (str - 1) 0 = stopch) ∧
          (t.getD (str + opt.length) 0 = stopch ∨ t.getD (str + opt.length) 0 = eqch
            ∨ t.getD (str + opt.length) 0 = 0) then
        hwconfigTaken t maxlen opt stopch eqch arglen str
      else hwconfigNext arglen n (str + opt.length)

/-- `hwconfig_parse`, where `opts` is the text from the pointer on. The name is not empty, so every
round moves on. -/
def hwconfigParse (arglen : Bool) : Option (ℕ × ℕ) :=
  hwconfigNext t maxlen opt stopch eqch arglen (t.length + 1) 0

end Parse

/-- `hwconfig` of the environment, `board_hwconfig` and `cpu_hwconfig`. -/
structure HwStrings where
  env : Option (List UInt8)
  board : Option (List UInt8)
  cpu : Option (List UInt8)

namespace HwStrings

variable (src : HwStrings)

/-- The first of the strings that is there. -/
def string? : Option (List UInt8) := (src.env.or src.board).or src.cpu

end HwStrings

section Questions

variable (src : HwStrings) (opt subopt : List UInt8)

/-- `__hwconfig`, with the string that the result points into. -/
def hwconfigIn (arglen : Bool) : Option (List UInt8 × ℕ × ℕ) :=
  src.string?.bind fun t => (hwconfigParse t t.length opt 0x3b 0x3a arglen).map fun arg => (t, arg)

def hwconfig : Bool := (hwconfigIn src opt false).isSome

def hwconfigArg : Option (ℕ × ℕ) := (hwconfigIn src opt true).map Prod.snd

def hwconfigSub : Bool :=
  match hwconfigIn src opt true with
  | none => false
  | some (t, arg, arglen) => (hwconfigParse (t.drop arg) arglen subopt 0x2c 0x3d false).isSome

def hwconfigSubarg : Option (ℕ × ℕ) :=
  match hwconfigIn src opt true with
  | none => none
  | some (t, arg, arglen) =>
    (hwconfigParse (t.drop arg) arglen subopt 0x2c 0x3d true).map fun sub => (arg + sub.1, sub.2)

end Questions

end InfotmUboot
