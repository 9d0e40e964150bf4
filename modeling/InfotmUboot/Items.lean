import InfotmUboot.VStorage

/-!
# The configuration items

The scanner of `items.c`, `item_init` and the lookups. The text and the table of items are two
memories: a field that is copied past its slot runs on into what follows it in the table. `Scan`
keeps what the scanner has read and written.
-/

namespace InfotmUboot

open Lib

def ITEM_MAX_LEN : ℕ := 64
def ITEM_MAX_COUNT : ℕ := 200
def PARSE_LIMIT : ℕ := 256
def LINEF0 : UInt8 := 10
def LINEF1 : UInt8 := 13
def ITEMS_EINT : ℤ := 9999

/-- `sizeof(struct imap_item)` -/
def ITEM_SIZE : ℕ := 2 * ITEM_MAX_LEN

/-- `items[i].key` -/
def keyAt (i : ℕ) : ℕ := i * ITEM_SIZE

/-- `items[i].string` -/
def stringAt (i : ℕ) : ℕ := i * ITEM_SIZE + ITEM_MAX_LEN

def isWhite (b : UInt8) : Bool := b = 0x20 ∨ b = 9

def isLinef (b : UInt8) : Bool := b = LINEF0 ∨ b = LINEF1

/-- What a field is made of. -/
def isField (b : UInt8) : Bool := ¬isWhite b ∧ ¬isLinef b

/-- The scanner's account: the table, the offsets of the text it has read, and the fields it has
written, with the offset in the field. -/
structure Scan where
  tab : Mem
  reads : List ℕ
  writes : List (ℕ × ℕ)

/-- How a line ends: with a read through a null pointer, with a null pointer that is returned, or
with the next line. -/
inductive LineEnd where
  | fault
  | stop
  | next (s : ℕ)
  deriving DecidableEq, Repr

section Scanner

variable (text : Mem)

/-- How many bytes from `s` on are in `p`, up to `n`. -/
def scan (p : UInt8 → Bool) : ℕ → ℕ → ℕ
  | 0, _ => 0
  | n + 1, s => if p (text s) then scan p n (s + 1) + 1 else 0

/-- The loops of the scanner read the byte they stop at, past the limit too. -/
def Scan.read (a : Scan) (s n : ℕ) : Scan := { a with reads := a.reads ++ List.range' s n }

/-- A loop over the bytes in `p`: null when it gets to the limit. -/
def skip (p : UInt8 → Bool) (s : ℕ) (a : Scan) : Option ℕ × Scan :=
  let c := scan text p PARSE_LIMIT s
  (if c = PARSE_LIMIT then none else some (s + c), a.read s (c + 1))

def skipWhite : ℕ → Scan → Option ℕ × Scan := skip text isWhite

def skipLinef : ℕ → Scan → Option ℕ × Scan := skip text isLinef

def skipLine (s : ℕ) (a : Scan) : LineEnd × Scan :=
  match skip text (fun b => ¬isLinef b) s a with
  | (none, a) => (.stop, a)
  | (some s, a) =>
    match skipLinef text s a with
    | (none, a) => (.stop, a)
    | (some s, a) => (.next s, a)

/-- `__copy` into the field at `buf` -/
def copy (buf s : ℕ) (a : Scan) : ℕ × Scan :=
  let c := scan text isField PARSE_LIMIT s
  (s + c, {
    tab := a.tab.store buf (text.load s c ++ [0])
    reads := a.reads ++ List.range' s (c + 1)
    writes := a.writes ++ (List.range (c + 1)).map fun j => (buf, j) })

/-- `"items.end"` -/
def itemsEnd : List UInt8 := [0x69, 0x74, 0x65, 0x6d, 0x73, 0x2e, 0x65, 0x6e, 0x64]

/-- How many bytes from `s` on agree with a string. -/
def agree : List UInt8 → ℕ → ℕ
  | [], _ => 0
  | c :: cs, s => if text s = c then agree cs (s + 1) + 1 else 0

/-- The key of a line, and its string if there is one. -/
def parseItem (t s : ℕ) (a : Scan) : LineEnd × Scan :=
  let (s, a) := copy text (keyAt t) s a
  match skipWhite text s a with
  | (none, a) => (.fault, a)
  | (some s, a) =>
    let a := a.read s 1
    if isLinef (text s) then skipLine text s a
    else
      match skipLinef text s a with
      | (none, a) => (.fault, a)
      | (some s, a) =>
        let (s, a) := copy text (stringAt t) s a
        skipLine text s a

/-- `_parse_line` into slot `t` -/
def parseLine (t s : ℕ) (a : Scan) : LineEnd × Scan :=
  match skipWhite text s a with
  | (none, a) => (.fault, a)
  | (some s, a) =>
    match skipLinef text s a with
    | (none, a) => (.fault, a)
    | (some s, a) =>
      let a := a.read s 1
      if text s ≠ 0x23 then
        let a := a.read s (min (agree text itemsEnd s + 1) 9)
        if agree text itemsEnd s = 9 then (.stop, a) else parseItem text t s a
      else skipLine text s a

/-- The loop of `item_init` over a text of `len` bytes: the count it returns, or nothing when it
reads through a null pointer. Every line moves the scan on, so `len` bounds the rounds. -/
def itemInitLoop (len : ℕ) : ℕ → ℕ → ℕ → Scan → Option ℕ × Scan
  | 0, i, _, a => (some i, a)
  | n + 1, i, s, a =>
    if i < ITEM_MAX_COUNT ∧ s < len then
      let a := { a with tab := (a.tab.store (keyAt i) [0]).store (stringAt i) [0] }
      match parseLine text i s a with
      | (.fault, a) => (none, a)
      | (.stop, a) => (some i, a)
      | (.next s, a) =>
        if a.tab (keyAt i) = 0 then itemInitLoop len n i s a else itemInitLoop len n (i + 1) s a
    else (some i, a)

/-- The table cleared, and what follows it in memory left alone. -/
def clearItems (tab : Mem) : Mem := fun a => if a < ITEM_MAX_COUNT * ITEM_SIZE then 0 else tab a

def itemInit (len : ℕ) (tab : Mem) : Option ℕ × Scan :=
  itemInitLoop text len len 0 0 ⟨clearItems tab, [], []⟩

end Scanner

/-- How a lookup ends: with what it looked for, at a slot without a key, or past the table. -/
inductive Lookup (α : Type) where
  | found (a : α)
  | missing
  | outside
  deriving DecidableEq, Repr

section Lookups

variable (tab : Mem)

/-- The loop of the lookups, from slot `i` on: `n` slots are left of the table. -/
def lookupLoop {α : Type} (f : ℕ → Option α) : ℕ → ℕ → Lookup α
  | 0, _ => .outside
  | n + 1, i =>
    if tab (keyAt i) = 0 then .missing
    else
      match f i with
      | some a => .found a
      | none => lookupLoop f n (i + 1)

def lookup {α : Type} (f : ℕ → Option α) : Lookup α := lookupLoop tab f ITEM_MAX_COUNT 0

/-- `strncmp` of the string at `a` with `s` gives 0. -/
def strncmpEq : ℕ → List UInt8 → ℕ → Bool
  | _, _, 0 => true
  | a, [], _ + 1 => tab a = 0
  | a, c :: cs, n + 1 => tab a = c ∧ strncmpEq (a + 1) cs n

/-- What `strncpy` takes of the string at `a`. -/
def strncpyOf (a n : ℕ) : List UInt8 := (tab.load a n).takeWhile (· ≠ 0)

/-- The loop of `__string_sec`, bounded by the table. -/
def stringSecLoop (sec : ℕ) : ℕ → ℕ → ℕ → Option ℕ
  | 0, _, _ => none
  | n + 1, c, p =>
    if tab p ≠ 0 ∧ c ≤ sec then
      let dot := tab p = 0x2e
      let c := if dot then c + 1 else c
      let p := if dot then p + 1 else p
      if c = sec then some p else stringSecLoop sec n c (p + 1)
    else none

def stringSec (str sec : ℕ) : Option ℕ := stringSecLoop tab sec (ITEM_MAX_COUNT * ITEM_SIZE) 0 str

/-- Where the loop of `__string_sec` reads. -/
def stringSecReads (sec : ℕ) : ℕ → ℕ → ℕ → List ℕ
  | 0, _, _ => []
  | n + 1, c, p =>
    p :: if tab p ≠ 0 ∧ c ≤ sec then
        let dot := tab p = 0x2e
        let c := if dot then c + 1 else c
        let p := if dot then p + 1 else p
        if c = sec then [] else stringSecReads sec n c (p + 1)
      else []

def itemExist (key : List UInt8) : Lookup Unit :=
  lookup tab fun i =>
    if strncmpEq tab (keyAt i) key (min key.length ITEM_MAX_LEN) then some () else none

/-- `item_string`, with what it puts in the buffer; a slot whose string has no such section is
passed over. -/
def itemString (key : List UInt8) (section' : ℕ) : Lookup (List UInt8) :=
  lookup tab fun i =>
    if strncmpEq tab (keyAt i) key ITEM_MAX_LEN then
      (stringSec tab (stringAt i) section').map fun s => strncpyOf tab s ITEM_MAX_LEN
    else none

/-- `item_equal`: the buffer of `item_string` against the value, as far as the value goes. -/
def itemEqual (key value : List UInt8) (section' : ℕ) : Option Bool :=
  match itemString tab key section' with
  | .found buf => some (strncmpEq (fun i => buf.getD i 0) 0 value (min value.length ITEM_MAX_LEN))
  | .missing => some false
  | .outside => none

def itemStringItem (string : List UInt8) (section' : ℕ) : Lookup (List UInt8) :=
  lookup tab fun i =>
    if strncmpEq tab (stringAt i) string ITEM_MAX_LEN then
      (stringSec tab (keyAt i) section').map fun s => strncpyOf tab s ITEM_MAX_LEN
    else none

/-- `item_list`, which only prints. -/
def itemList : Lookup Unit := lookup tab fun _ => none

def digitValue (c : UInt8) : Option ℕ :=
  if 0x30 ≤ c ∧ c ≤ 0x39 then some (c.toNat - 0x30)
  else if 0x41 ≤ c ∧ c ≤ 0x46 then some (c.toNat - 0x41 + 10)
  else if 0x61 ≤ c ∧ c ≤ 0x66 then some (c.toNat - 0x61 + 10)
  else none

def strtoulLoop (base : ℕ) : List UInt8 → ℕ → ℕ
  | [], result => result
  | c :: cs, result =>
    match digitValue c with
    | some v => if v < base then strtoulLoop base cs (u32 (result * base + v)) else result
    | none => result

/-- `simple_strtoul` of base 10: a leading `0x` makes it 16. -/
def simpleStrtoul : List UInt8 → ℕ
  | 0x30 :: 0x78 :: c :: cs =>
    if (digitValue c).isSome then strtoulLoop 16 (c :: cs) 0 else 0
  | cs => strtoulLoop 10 cs 0

def simpleStrtol : List UInt8 → ℤ
  | 0x2d :: cs => s32 (-simpleStrtoul cs)
  | cs => s32 (simpleStrtoul cs)

/-- `item_integer`: the code for a key that is missing is negative. -/
def itemInteger (key : List UInt8) (section' : ℕ) : Option ℤ :=
  match itemString tab key section' with
  | .found buf => some (simpleStrtol buf)
  | .missing => some (-ITEMS_EINT)
  | .outside => none

end Lookups

end InfotmUboot
