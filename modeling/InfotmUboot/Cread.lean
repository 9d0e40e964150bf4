import InfotmUboot.Lib.Cstr

/-!
# The command line editor

`cread_line` of `main.c` with its history, key by key: the buffer and the slots of `hist_lines` are
in memory, and every run of bytes written there is noted. `readlineKey` goes from one line to the
next as `readline` is called again and again.
-/

namespace InfotmUboot

open Lib

def maxCmdbufSize : ℕ := 256

/-- `CONFIG_SYS_CBSIZE`, the size of `console_buffer`. -/
def consoleBufferSize : ℕ := 256

/-- `HIST_MAX` -/
def histSlots : ℕ := 20

/-- `HIST_SIZE` -/
def histSize : ℕ := maxCmdbufSize

/-- Where `console_buffer` and `hist_lines` are. -/
structure ConsoleMem where
  buf : ℕ
  hist : ℕ
  apart : buf + consoleBufferSize ≤ hist ∨ hist + histSlots * histSize ≤ buf

/-- `hist_list[i]` -/
def ConsoleMem.slot (cm : ConsoleMem) (i : ℕ) : ℕ := cm.hist + i * histSize

/-- The history's positions. -/
structure Hist where
  max : ℕ
  addIdx : ℕ
  cur : ℤ
  deriving DecidableEq

structure Cread where
  mem : Mem
  /-- what was written: where, and how many bytes -/
  writes : List (ℕ × ℕ)
  hist : Hist
  num : ℕ
  eolNum : ℕ
  insert : Bool
  /-- `esc_save` as far as `esc_len` goes -/
  esc : List UInt8

def Cread.write (s : Cread) (a : ℕ) (bs : List UInt8) : Cread :=
  { s with mem := s.mem.store a bs, writes := s.writes ++ [(a, bs.length)] }

def ctlCh (c : Char) : UInt8 := c.toUInt8 - 'a'.toUInt8 + 1

variable (cm : ConsoleMem)

section History

/-- The slots of `hist_init`. -/
def histInitLoop : ℕ → Cread → Cread
  | 0, s => s
  | n + 1, s => (histInitLoop n s).write (cm.slot n) [0]

def histInit (s : Cread) : Cread :=
  histInitLoop cm histSlots { s with hist := ⟨0, 0, -1⟩ }

/-- The slot for the line after this one. -/
def Hist.advance (h : Hist) : Hist :=
  let addIdx := if h.addIdx + 1 ≥ histSlots then 0 else h.addIdx + 1
  let max := if addIdx > h.max then addIdx else h.max
  { h with max := max, addIdx := addIdx }

def creadAddToHist (line : ℕ) (s : Cread) : Cread :=
  let s := s.write (cm.slot s.hist.addIdx) (cstr s.mem line ++ [0])
  { s with hist := s.hist.advance }

/-- The string that is returned, none for `NULL`. -/
def histPrev (m : Mem) (h : Hist) : Option (List UInt8) × Hist :=
  if h.cur < 0 then (none, h)
  else
    let cur : ℤ := if h.cur - 1 < 0 then h.max else h.cur - 1
    if cur = h.addIdx then (none, h)
    else (some (cstr m (cm.slot cur.toNat)), { h with cur := cur })

def histNext (m : Mem) (h : Hist) : Option (List UInt8) × Hist :=
  if h.cur < 0 then (none, h)
  else if h.cur = h.addIdx then (none, h)
  else
    let cur : ℤ := if h.cur + 1 > h.max then 0 else h.cur + 1
    if cur = h.addIdx then (some [], { h with cur := cur })
    else (some (cstr m (cm.slot cur.toNat)), { h with cur := cur })

end History

section Editing

/-- `BEGINNING_OF_LINE` -/
def Cread.beginningOfLine (s : Cread) : Cread := { s with num := 0 }

/-- `ERASE_TO_EOL` -/
def Cread.eraseToEol (s : Cread) : Cread :=
  if s.num < s.eolNum then { s with eolNum := s.num } else s

/-- `REFRESH_TO_EOL` -/
def Cread.refreshToEol (s : Cread) : Cread :=
  if s.num < s.eolNum then { s with num := s.eolNum } else s

def Cread.memmove (s : Cread) (dest src count : ℕ) : Cread := s.write dest (s.mem.load src count)

/-- The bytes from the cursor on, one further. -/
def Cread.moveUp (s : Cread) (wlen : ℕ) : Cread :=
  if wlen > 1 then s.memmove (cm.buf + s.num + 1) (cm.buf + s.num) (wlen - 1) else s

def creadAddChar (ichar : UInt8) (len : ℕ) (s : Cread) : Cread :=
  if (s.insert = true ∨ s.num = s.eolNum) ∧ s.eolNum > len - 1 then s
  else
    let s := if s.insert = true ∨ s.num = s.eolNum then { s with eolNum := s.eolNum + 1 } else s
    if s.insert then
      let wlen := s.eolNum - s.num
      let s := s.moveUp cm wlen
      let s := s.write (cm.buf + s.num) [ichar]
      { s with num := s.num + 1 }
    else
      let s := s.write (cm.buf + s.num) [ichar]
      { s with num := s.num + 1 }

def creadAddStr (len : ℕ) : List UInt8 → Cread → Cread
  | [], s => s
  | c :: str, s => creadAddStr len str (creadAddChar cm c len s)

/-- `^D` -/
def Cread.eraseHere (s : Cread) : Cread :=
  if s.num < s.eolNum then
    let wlen := s.eolNum - s.num - 1
    let s := if wlen ≠ 0 then s.memmove (cm.buf + s.num) (cm.buf + s.num + 1) wlen else s
    { s with eolNum := s.eolNum - 1 }
  else s

/-- `DEL`, `DEL7` and backspace -/
def Cread.eraseBack (s : Cread) : Cread :=
  if s.num ≠ 0 then
    let wlen := s.eolNum - s.num
    let s := { s with num := s.num - 1 }
    let s := s.memmove (cm.buf + s.num) (cm.buf + s.num + 1) wlen
    { s with eolNum := s.eolNum - 1 }
  else s

/-- The line of the history in place of the one there. -/
def Cread.recall (s : Cread) : Option (List UInt8) × Hist → Cread
  | (none, h) => { s with hist := h }
  | (some hline, h) =>
    let s := ({ s with hist := h }).beginningOfLine.eraseToEol
    let s := s.write cm.buf (hline ++ [0])
    ({ s with eolNum := strlen s.mem cm.buf }).refreshToEol

end Editing

section Keys

/-- What `cread_line` returns to `readline`, and the bytes of the buffer with the zero at the
end. -/
abbrev Entered := ℤ × List UInt8

/-- `^C` -/
def creadBreak (s : Cread) : Cread × Option Entered :=
  let s := s.write cm.buf [0]
  (s, some (-1, s.mem.load cm.buf 1))

/-- The end of the line. -/
def creadEnd (s : Cread) : Cread × Option Entered :=
  let len := s.eolNum
  let s := s.write (cm.buf + len) [0]
  let s := if s.mem cm.buf ≠ 0 ∧ s.mem cm.buf ≠ '!'.toUInt8 then creadAddToHist cm cm.buf s else s
  ({ s with hist := { s.hist with cur := s.hist.addIdx } }, some (len, s.mem.load cm.buf (len + 1)))

/-- The switch over the key. -/
def creadSwitch (len : ℕ) (ichar : UInt8) (s : Cread) : Cread × Option Entered :=
  if ichar = 0x1b then
    (if s.esc.length = 0 then { s with esc := [ichar] } else { s with esc := [] }, none)
  else if ichar = ctlCh 'a' then (s.beginningOfLine, none)
  else if ichar = ctlCh 'c' then creadBreak cm s
  else if ichar = ctlCh 'f' then (if s.num < s.eolNum then { s with num := s.num + 1 } else s, none)
  else if ichar = ctlCh 'b' then (if s.num ≠ 0 then { s with num := s.num - 1 } else s, none)
  else if ichar = ctlCh 'd' then (s.eraseHere cm, none)
  else if ichar = ctlCh 'k' then (s.eraseToEol, none)
  else if ichar = ctlCh 'e' then (s.refreshToEol, none)
  else if ichar = ctlCh 'o' then ({ s with insert := !s.insert }, none)
  else if ichar = ctlCh 'x' ∨ ichar = ctlCh 'u' then (s.beginningOfLine.eraseToEol, none)
  else if ichar = 255 ∨ ichar = 127 ∨ ichar = 8 then (s.eraseBack cm, none)
  else if ichar = ctlCh 'p' then
    let s := { s with esc := [] }
    (s.recall cm (histPrev cm s.mem s.hist), none)
  else if ichar = ctlCh 'n' then
    let s := { s with esc := [] }
    (s.recall cm (histNext cm s.mem s.hist), none)
  else (creadAddChar cm ichar len s, none)

/-- The key a sequence that ends with `ichar` stands for. -/
def escKey (ichar : UInt8) : Option UInt8 :=
  if ichar = 'D'.toUInt8 then some (ctlCh 'b')
  else if ichar = 'C'.toUInt8 then some (ctlCh 'f')
  else if ichar = 'H'.toUInt8 then some (ctlCh 'a')
  else if ichar = 'A'.toUInt8 then some (ctlCh 'p')
  else if ichar = 'B'.toUInt8 then some (ctlCh 'n')
  else none

/-- A round of `cread_line`: the line where the key ends it. -/
def creadKey (len : ℕ) (s : Cread) (ichar : UInt8) : Cread × Option Entered :=
  if ichar = '\n'.toUInt8 ∨ ichar = '\r'.toUInt8 then creadEnd cm s
  else if s.esc.length ≠ 0 then
    if s.esc.length = 1 then
      if ichar = '['.toUInt8 then ({ s with esc := s.esc ++ [ichar] }, none)
      else ({ creadAddStr cm len s.esc s with esc := [] }, none)
    else
      match escKey ichar with
      | some key => creadSwitch cm len key { s with esc := [] }
      | none => ({ creadAddStr cm len (s.esc ++ [ichar]) s with esc := [] }, none)
  else creadSwitch cm len ichar s

/-- The locals of a call of `cread_line`. -/
def creadLine (s : Cread) : Cread := { s with num := 0, eolNum := 0, insert := true, esc := [] }

/-- A key, and the next call of `readline` where it ends a line. -/
def readlineKey (s : Cread) (ichar : UInt8) : Cread × Option Entered :=
  match creadKey cm maxCmdbufSize s ichar with
  | (s, none) => (s, none)
  | (s, some line) => (creadLine s, some line)

/-- The keys one after the other, and the lines returned. -/
def readlineKeys : Cread → List UInt8 → Cread × List Entered
  | s, [] => (s, [])
  | s, key :: keys =>
    let r := readlineKey cm s key
    let rest := readlineKeys r.1 keys
    (rest.1, r.2.toList ++ rest.2)

/-- The first call of `readline`. -/
def readlineStart (m : Mem) : Cread :=
  creadLine (histInit cm ⟨m, [], ⟨0, 0, -1⟩, 0, 0, true, []⟩)

end Keys

end InfotmUboot
