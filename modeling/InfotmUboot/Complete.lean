import InfotmUboot.Bootm
import InfotmUboot.Command
import InfotmUboot.Lib.Common

/-!
# Completion of the console line

`cmd_auto_complete` of `command.c` and what it calls, with `env_complete` of `env_common.c`. A text
is the bytes before its terminator, the environment its entries one after another, and `cmdv` what
is before the null pointer.
-/

namespace InfotmUboot

open Lib

/-- `CONFIG_SYS_CBSIZE` -/
abbrev CBSIZE : ℕ := 256

/-- An entry of the command table, and whether `var_complete` is its `complete`. -/
structure CmdTbl where
  name : List UInt8
  complete : Bool
  deriving DecidableEq, Repr

/-- `...` -/
def tooMany : List UInt8 := [0x2e, 0x2e, 0x2e]

/-- A name up to its first dot. -/
def beforeDot (cmd : List UInt8) : List UInt8 := cmd.takeWhile (· ≠ 0x2e)

/-- The loop of `env_complete` from the entry on that `found` others are before; `bufsz` is what is
left of the buffer. -/
def envCompleteLoop (var : List UInt8) (maxv : ℕ) : ℕ → ℕ → List (List UInt8) → List (List UInt8)
  | _, _, [] => []
  | found, bufsz, lval :: env =>
    let val := lval.takeWhile (· ≠ 0x3d)
    if 0 < var.length ∧ (val.length < var.length ∨ ¬var <+: lval) then
      envCompleteLoop var maxv found bufsz env
    else if maxv - 2 ≤ found ∨ bufsz < val.length + 1 then [tooMany]
    else val :: envCompleteLoop var maxv (found + 1) (bufsz - val.length - 1) env

def envComplete (env : List (List UInt8)) (var : List UInt8) (maxv bufsz : ℕ) : List (List UInt8) :=
  envCompleteLoop var maxv 0 bufsz env

/-- There is no last character of an empty line. -/
def isSpace (lastChar : Option UInt8) : Bool := lastChar.all isBlank

def varComplete (env : List (List UInt8)) (argv : List (List UInt8)) (lastChar : Option UInt8)
    (maxv : ℕ) : List (List UInt8) :=
  if isSpace lastChar ∧ argv.length = 1 then envComplete env [] maxv 512
  else if ¬isSpace lastChar ∧ argv.length = 2 then envComplete env (argv.getD 1 []) maxv 512
  else []

/-- The names of the commands that begin with `cmd`, after `found` others. -/
def partialMatches (cmd : List UInt8) (maxv : ℕ) : ℕ → List CmdTbl → List (List UInt8)
  | _, [] => []
  | found, c :: cs =>
    if cmd <+: c.name then
      if maxv - 2 ≤ found then [tooMany] else c.name :: partialMatches cmd maxv (found + 1) cs
    else partialMatches cmd maxv found cs

/-- What a line is completed from. -/
structure Console where
  prompt : List UInt8
  table : List CmdTbl
  env : List (List UInt8)

variable (C : Console)

/-- `maxv` is not less than 2. -/
def completeCmdv (argv : List (List UInt8)) (lastChar : Option UInt8) (maxv : ℕ) :
    List (List UInt8) :=
  match argv with
  | [] => partialMatches [] maxv 0 C.table
  | cmd :: args =>
    if 1 < (cmd :: args).length ∨ isSpace lastChar then
      match findCmdTbl CmdTbl.name cmd C.table with
      | none => []
      | some c => if c.complete then varComplete C.env (cmd :: args) lastChar maxv else []
    else partialMatches (beforeDot cmd) maxv 0 C.table

/-- The words of a line, as many as there is room for. -/
def makeArgv : ℕ → List UInt8 → List (List UInt8)
  | 0, _ => []
  | room + 1, s =>
    let s := s.dropWhile isBlank
    if s = [] then []
    else
      let arg := s.takeWhile fun c => ¬isBlank c
      match s.dropWhile fun c => ¬isBlank c with
      | [] => [arg]
      | _ :: s => arg :: makeArgv room s

/-- How far `t` is the same as the first `len` characters of `s`. -/
def sameLen : ℕ → List UInt8 → List UInt8 → ℕ
  | len + 1, a :: s, b :: t => if b ≠ a then 0 else sameLen len s t + 1
  | _, _, _ => 0

def findCommonPrefix : List (List UInt8) → ℕ
  | [] => 0
  | anchor :: ts => ts.foldl (fun len t => sameLen len anchor t) anchor.length

/-- What is written to the console: a bell, a text, or the list of the candidates. -/
inductive ConsoleOut where
  | bell
  | puts (s : List UInt8)
  | argv (cmdv : List (List UInt8))
  deriving DecidableEq, Repr

/-- What `cmd_auto_complete` returns and leaves. -/
structure AutoEnd where
  ret : ℕ
  buf : List UInt8
  n : ℕ
  col : ℕ
  out : List ConsoleOut
  deriving DecidableEq, Repr

/-- The text `s` and the separator are appended, if they fit. -/
def autoAppend (buf : List UInt8) (n col : ℕ) (s sep : List UInt8) : AutoEnd :=
  let k := s.length + sep.length
  if CBSIZE - 2 ≤ n + k then ⟨1, buf, n, col, [.bell]⟩
  else
    ⟨1, buf ++ s ++ sep, n + k, col + k, .puts (s ++ sep) :: if sep = [] then [.bell] else []⟩

/-- `cmd_auto_complete`; there is no result where it reads before `argv` or behind a candidate. -/
def cmdAutoComplete (prompt buf : List UInt8) (n col : ℕ) : Option AutoEnd :=
  if prompt ≠ C.prompt then some ⟨0, buf, n, col, []⟩
  else
    let argv := makeArgv 16 buf
    match completeCmdv C argv buf.getLast? 20 with
    | [] => some (if 1 < argv.length then ⟨0, buf, n, col, []⟩ else ⟨1, buf, n, col, [.bell]⟩)
    | [cand] => do
      let last ← argv.getLast?
      if cand.length < last.length then none
      else return autoAppend buf n col (cand.drop last.length) [0x20]
    | cand :: cands =>
      let j := findCommonPrefix (cand :: cands)
      if j = 0 then some ⟨1, buf, n, col, [.argv (cand :: cands), .puts prompt, .puts buf]⟩
      else do
        let last ← argv.getLast?
        if j ≤ last.length then
          return ⟨1, buf, n, col, [.argv (cand :: cands), .puts prompt, .puts buf]⟩
        else return autoAppend buf n col ((cand.drop last.length).take (j - last.length)) []

end InfotmUboot
