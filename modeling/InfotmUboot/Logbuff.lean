import InfotmUboot.Lib.Bytes
import InfotmUboot.Lib.Word

/-!
# The log buffer

`logbuff_reset`, `logbuff_printk` and `do_log` of `cmd_log.c`, in both versions of the header. A
message that does not fit into `buf` behind the room for a tag has no result.
-/

namespace InfotmUboot

open Lib

def LOGBUFF_MAGIC : ℕ := 0xc0de4ced

def LOGBUFF_LEN : ℕ := 16384

def LOGBUFF_MASK : ℕ := LOGBUFF_LEN - 1

/-- `sizeof(buf)` -/
def LOG_BUF_SIZE : ℕ := 1024

def DEFAULT_MESSAGE_LOGLEVEL : ℕ := 4

/-- `logbuff_t`, read in one of its two versions. -/
inductive LogHeader where
  | v1 (tag start size chars : ℕ)
  | v2 (tag start con stop chars : ℕ)
  deriving DecidableEq, Repr

/-- The variables of `cmd_log.c`, with the storage behind `lbuf` and what the console has shown. -/
structure Logbuff where
  buf : Mem
  log : LogHeader
  lbuf : Mem
  msgLevel : ℤ
  consoleLoglevel : ℕ
  console : List UInt8

/-- The version stays as it is. -/
def logbuffReset (l : Logbuff) : Logbuff :=
  { l with
    log := match l.log with
      | .v1 .. => .v1 LOGBUFF_MAGIC 0 0 0
      | .v2 .. => .v2 LOGBUFF_MAGIC 0 0 0 0 }

/-- One character goes into the ring. -/
def Logbuff.put (l : Logbuff) (c : UInt8) : Logbuff :=
  match l.log with
  | .v2 tag start con stop chars =>
    let lbuf := l.lbuf.store (stop &&& LOGBUFF_MASK) [c]
    let stop := u32 (stop + 1)
    let start := if toU32 (stop - start) > LOGBUFF_LEN then u32 (start + 1) else start
    { l with lbuf, log := .v2 tag start con stop (u32 (chars + 1)) }
  | .v1 tag start size chars =>
    let lbuf := l.lbuf.store (u32 (start + size) &&& LOGBUFF_MASK) [c]
    let chars := u32 (chars + 1)
    if size < LOGBUFF_LEN then { l with lbuf, log := .v1 tag start (size + 1) chars }
    else { l with lbuf, log := .v1 tag (u32 (start + 1)) size chars }

/-- The inner loop of `logbuff_printk`, up to the end of a line: `p` and `line_feed`. -/
def printkLine (bufEnd : ℕ) : ℕ → ℕ → Logbuff → Logbuff × ℕ × Bool
  | 0, p, l => (l, p, false)
  | n + 1, p, l =>
    if p < bufEnd then
      let c := l.buf p
      let l := l.put c
      if c = 0x0a then (l, p, true) else printkLine bufEnd n (p + 1) l
    else (l, p, false)

/-- There is a level at `p`. -/
def Logbuff.tagAt (l : Logbuff) (p : ℕ) : Bool :=
  ¬(l.buf p ≠ 0x3c ∨ l.buf (p + 1) < 0x30 ∨ l.buf (p + 1) > 0x37 ∨ l.buf (p + 2) ≠ 0x3e)

/-- `"<4>"` -/
def defaultTag : List UInt8 := [0x3c, (DEFAULT_MESSAGE_LOGLEVEL + 0x30).toUInt8, 0x3e]

/-- What is done where a line starts: `p` and `msg`. A tag is put in front of the line. -/
def printkTag (p : ℕ) (l : Logbuff) : Logbuff × ℕ × ℕ :=
  if l.msgLevel < 0 then
    let (buf, p, msg) := if l.tagAt p then (l.buf, p, p + 3)
      else (l.buf.store (p - 3) defaultTag, p - 3, p)
    ({ l with buf, msgLevel := (buf (p + 1)).toNat - 0x30 }, p, msg)
  else (l, p, p)

/-- The console gets all that is left of the message. -/
def Logbuff.print (l : Logbuff) (msg bufEnd : ℕ) : Logbuff :=
  if l.msgLevel < l.consoleLoglevel then
    { l with console := l.console ++ l.buf.load msg (bufEnd - msg) } else l

/-- The outer loop, which begins a round at each line. -/
def printkLoop (bufEnd : ℕ) : ℕ → ℕ → Logbuff → Logbuff
  | 0, _, l => l
  | n + 1, p, l =>
    if p < bufEnd then
      let (l, p, msg) := printkTag p l
      let (l, p, lineFeed) := printkLine bufEnd (bufEnd - p) p l
      let l := l.print msg bufEnd
      let l := if lineFeed then { l with msgLevel := -1 } else l
      printkLoop bufEnd n (p + 1) l
    else l

/-- Each round takes at least one character of the message. -/
def logbuffPrintk (line : List UInt8) (l : Logbuff) : Option (ℕ × Logbuff) :=
  if 3 + line.length + 1 ≤ LOG_BUF_SIZE then
    let l := { l with buf := l.buf.store 3 (line ++ [0]) }
    some (line.length, printkLoop (3 + line.length) line.length 3 l)
  else none

def logbuffPutc (c : UInt8) (l : Logbuff) : Option Logbuff :=
  (logbuffPrintk [c] l).map Prod.snd

/-- `log append`, from an argument on. -/
def logAppend : List (List UInt8) → Logbuff → Option Logbuff
  | [], l => some l
  | arg :: args, l => do
    let (_, l) ← logbuffPrintk arg l
    let l ← logbuffPutc (if args = [] then 0x0a else 0x20) l
    logAppend args l

/-- `start` and `size` -/
def LogHeader.start : LogHeader → ℕ
  | .v1 _ start _ _ => start
  | .v2 _ start _ _ _ => start

def LogHeader.size : LogHeader → ℕ
  | .v1 _ _ size _ => size
  | .v2 _ start _ stop _ => toU32 (stop - start)

/-- `log show` -/
def logShow (l : Logbuff) : List UInt8 :=
  (List.range (l.log.size &&& LOGBUFF_MASK)).map fun i =>
    l.lbuf (u32 (l.log.start + i) &&& LOGBUFF_MASK)

/-- The subcommands of `do_log` that log or show something. -/
inductive LogCmd where
  | append (args : List (List UInt8))
  | show_
  | reset

/-- What is printed, and what the buffer becomes. -/
def doLog (l : Logbuff) : LogCmd → Option (List UInt8 × Logbuff)
  | .append args => (logAppend args l).map fun l => ([], l)
  | .show_ => some (logShow l, l)
  | .reset => some ([], logbuffReset l)

end InfotmUboot
