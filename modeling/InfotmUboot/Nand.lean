import InfotmUboot.Lib.Prog
import InfotmUboot.Lib.Word
import InfotmUboot.Lib.Bytes
import Mathlib.Data.Nat.Digits.Defs

/-!
# The NAND drivers

`bnd`, `nnd` and `fnd` are three views of one flash: boot pages, normal pages, and normal pages
with their system bytes. The drivers below ask the flash for single pages and blocks; the flash
itself, with its bad-block map, is `flashStep`.

An offset of `bnd` counts boot pages, so a block of `bnd` is smaller than the same block of `nnd`
by `bndSizeShift`.
-/

namespace InfotmUboot

open Lib

inductive NandCfgType where
  | boot
  | normal
  deriving DecidableEq, Repr

/-- What the burn paths read of a `nand_config`. -/
structure NandConfig where
  sysinfosize : ℕ
  pagesize : ℕ
  blocksize : ℕ
  readRetry : ℕ
  retryLevel : ℕ
  nandParam0 : ℕ
  cycle : ℕ

namespace NandConfig

def pagesperblock (c : NandConfig) : ℕ := c.blocksize / c.pagesize

/-- How often a failing read is tried in all: once at each retry level, for the chips that have
them. -/
def attempts (c : NandConfig) : ℕ :=
  if c.readRetry = 1 ∧ (c.nandParam0 = 0x55 ∨ c.nandParam0 = 0x75 ∨ c.nandParam0 = 0x95) then
    c.retryLevel + 1
  else 1

end NandConfig

/-- `nand_cfg` after the scans: the enabled configurations, the shifts `ffs` gives them, and what
the chip tables and the boot pins make true of both. -/
structure NandCfg where
  normal : Option NandConfig
  boot : Option NandConfig
  bndSizeShift : ℕ
  bndPageShift : ℕ
  nndPageShift : ℕ
  nndBlockShift : ℕ
  normal_page : ∀ c ∈ normal, c.pagesize = 2 ^ nndPageShift
  normal_block : ∀ c ∈ normal, c.blocksize = 2 ^ nndBlockShift
  normal_chip : ∀ c ∈ normal, c.sysinfosize = 16 ∧ 11 ≤ nndPageShift ∧ nndPageShift ≤ 14 ∧
    nndPageShift + 6 ≤ nndBlockShift ∧ nndBlockShift ≤ 22
  normal_cycle : ∀ c ∈ normal, c.cycle = 4 ∨ c.cycle = 5
  boot_page : ∀ c ∈ boot, c.pagesize = 2 ^ bndPageShift ∧ 9 ≤ bndPageShift
  boot_block : ∀ b ∈ boot, b.blocksize = normal.elim 0 fun n => n.blocksize >>> bndSizeShift
  size_shift : ∀ c ∈ boot, bndPageShift + bndSizeShift = nndPageShift

namespace NandCfg

def getConfig (N : NandCfg) : NandCfgType → Option NandConfig
  | .boot => N.boot
  | .normal => N.normal

end NandCfg

inductive FlashOp where
  | isbad (row : ℕ)
  | erase (row : ℕ)
  | readPage (type : NandCfgType) (row : ℕ)
  | writePage (type : NandCfgType) (row : ℕ) (main spare : List UInt8)
  deriving DecidableEq, Repr

structure FlashReply where
  ret : ℤ
  main : List UInt8 := []
  spare : List UInt8 := []
  unfixed : Bool := false
  deriving DecidableEq, Repr

abbrev Flash := Prog FlashOp FlashReply

section Config

variable (N : NandCfg)

def bndVsAlign : ℕ := (N.getConfig .boot).elim 0 (·.pagesize)

def nndVsAlign : ℕ := (N.getConfig .normal).elim 0 (·.pagesize)

def fndVsAlign : ℕ := nndVsAlign N

def fndAlign : ℕ := (N.getConfig .normal).elim 0 fun c => c.pagesize + c.sysinfosize

def fndSizeMatch (size : ℕ) : Bool :=
  (N.getConfig .normal).elim false fun c => size % (c.pagesize + c.sysinfosize) == 0

def fndSizeShrink (size : ℕ) : ℕ :=
  (N.getConfig .normal).elim 0 fun c => size / (c.pagesize + c.sysinfosize) * c.pagesize

end Config

/-- The bytes of the data a page of the normal area takes. -/
def normalUnit (nc : NandConfig) (extra : Bool) : ℕ :=
  nc.pagesize + if extra then nc.sysinfosize else 0

section Isbad

variable (N : NandCfg)

def nndVsIsbad (offset : ℕ) : Flash ℤ :=
  match N.getConfig .normal with
  | none => pure (-1)
  | some nc => do
    let offset := andNot offset (nc.blocksize - 1)
    let rowAddr := offset >>> N.nndPageShift
    let r ← Prog.op (.isbad rowAddr)
    pure r.ret

def bndVsIsbad (offset : ℕ) : Flash ℤ := nndVsIsbad N (offset <<< N.bndSizeShift)

def fndVsIsbad (offset : ℕ) : Flash ℤ := nndVsIsbad N offset

end Isbad

section Erase

/-- The address bytes that `nf2_erase` sends for a row, the lowest first. -/
def nf2EraseAddr (addr cycle : ℕ) : List ℕ :=
  (List.range (cycle - 2)).map fun i => (addr &&& (0xff <<< (i * 8))) >>> (i * 8)

/-- The row that reaches the chip of one that the driver has: `row_addr` is an `int`, and of that
only the bytes of the row cycles are sent. -/
def NandConfig.sentRow (nc : NandConfig) (rowAddr : ℕ) : ℕ :=
  Nat.ofDigits 256 (nf2EraseAddr (u32 rowAddr) nc.cycle)

variable (N : NandCfg)

def baseVsEraseLoop (nc : NandConfig) (scrub : Bool) : ℕ → ℕ → ℕ → ℤ → Flash ℤ
  | 0, _, _, result => pure result
  | n + 1, rowAddr, start, result => do
    let bad ← if scrub then pure 0 else nndVsIsbad N start
    let result ←
      if bad = 0 then do
        let r ← Prog.op (.erase rowAddr)
        pure (if r.ret ≠ 0 then -1 else result)
      else pure result
    baseVsEraseLoop nc scrub n (rowAddr + nc.pagesperblock) (start + nc.blocksize) result

def baseVsErase (start size : ℕ) (scrub : Bool) : Flash ℤ :=
  match N.getConfig .normal with
  | none => pure (-1)
  | some nc =>
    let tmp := start &&& (nc.blocksize - 1)
    let size := u32 (size + tmp)
    let aligned := tmp = 0 ∧ size &&& (nc.blocksize - 1) = 0
    let start := if aligned then start else andNot start (nc.blocksize - 1)
    let size :=
      if aligned then size else andNot (u32 (size + (nc.blocksize - 1))) (nc.blocksize - 1)
    baseVsEraseLoop N nc scrub (size / nc.blocksize) (start >>> N.nndPageShift) start 0

def nndVsErase (start size : ℕ) : Flash ℤ := baseVsErase N start size false

def nndVsScrub (start size : ℕ) : Flash ℤ := baseVsErase N start size true

def bndVsErase (start size : ℕ) : Flash ℤ :=
  nndVsScrub N (start <<< N.bndSizeShift) (u32 (size <<< N.bndSizeShift))

def fndVsErase (start size : ℕ) : Flash ℤ :=
  match N.getConfig .normal with
  | none => pure (-1)
  | some cfg => nndVsErase N start (u32 (size / fndAlign N * cfg.pagesize))

end Erase

section Read

variable (N : NandCfg)

/-- The pages of `base_vs_read`, with what they put in the buffer. -/
def baseVsReadLoop (nc : NandConfig) (extra : Bool) :
    ℕ → ℕ → ℤ → List UInt8 → Flash (ℤ × List UInt8)
  | 0, _, ret, data => pure (ret, data)
  | n + 1, rowAddr, ret, data => do
    let r ← Prog.op (.readPage .normal rowAddr)
    if r.ret ≠ 0 then return (-1, data)
    let main := fit nc.pagesize r.main
    let prsvdbuf := fit (nc.sysinfosize + 4) r.spare
    let page :=
      (if prsvdbuf.getD 1 0 = 0xff then List.replicate nc.pagesize 0xff else main)
        ++ (if extra then prsvdbuf.drop 4 else [])
    if prsvdbuf.getD 1 0 ≠ 0xff ∧ r.unfixed then return (-1, data ++ main)
    baseVsReadLoop nc extra n (rowAddr + 1) (ret + page.length) (data ++ page)

def baseVsRead (nc : NandConfig) (start : ℕ) (length : ℤ) (extra : Bool) :
    Flash (ℤ × List UInt8) :=
  let pageCnt := toU32 length / normalUnit nc extra
  baseVsReadLoop nc extra pageCnt (start >>> N.nndPageShift) 0 []

/-- `base_vs_read` with the retries of `nnd_vs_read`. -/
def baseVsReadRetry (nc : NandConfig) (start : ℕ) (length : ℤ) : ℕ → Flash (ℤ × List UInt8)
  | 0 => baseVsRead N nc start length false
  | n + 1 => do
    let r ← baseVsRead N nc start length false
    if r.1 = -1 then baseVsReadRetry nc start length n else pure r

/-- The skip loop of `nnd_vs_read`: the first block from `start` on that is not bad, unless more
than `skip` of them are. -/
def nndSkipBad (block : ℕ) : ℕ → ℕ → Flash (Option ℕ)
  | 0, start => do
    let b ← nndVsIsbad N (andNot start (block - 1))
    pure (if b ≠ 0 then none else some start)
  | skip + 1, start => do
    let b ← nndVsIsbad N (andNot start (block - 1))
    if b ≠ 0 then nndSkipBad block skip (start + block) else pure (some start)

/-- The loop of `nnd_vs_read`; every round shortens `remain`, so its size bounds the rounds. -/
def nndVsReadLoop (nc : NandConfig) (length : ℤ) :
    ℕ → ℕ → ℤ → List UInt8 → Flash (ℤ × List UInt8)
  | 0, _, _, data => pure (length, data)
  | n + 1, start, remain, data =>
    if remain = 0 then pure (length, data)
    else do
      let some start ← nndSkipBad N nc.blocksize 31 start | return (-1, data)
      let w : ℤ := min nc.blocksize
        (min (nc.blocksize - (start &&& (nc.blocksize - 1) : ℕ)) remain)
      let r ← baseVsReadRetry N nc start w (nc.attempts - 1)
      if r.1 = -1 then return (-1, data ++ r.2)
      nndVsReadLoop nc length n (start + w).toNat (remain - w) (data ++ r.2)

def nndVsRead (start : ℕ) (length : ℤ) : Flash (ℤ × List UInt8) :=
  match N.getConfig .normal with
  | none => pure (-1, [])
  | some nc => nndVsReadLoop N nc length length.natAbs start length []

def fndVsRead (start : ℕ) (length : ℤ) : Flash (ℤ × List UInt8) :=
  match N.getConfig .normal with
  | none => pure (-1, [])
  | some nc => baseVsRead N nc start length true

/-- The mark `bnd` leaves in the reserved bytes of a page it wrote. -/
def bndMagic : ℕ := 0x0318

def bndVsReadLoop (bc : NandConfig) : ℕ → ℕ → ℤ → List UInt8 → Flash (ℤ × List UInt8)
  | 0, _, cnt, data => pure (cnt, data)
  | n + 1, rowAddr, cnt, data => do
    let r ← Prog.op (.readPage .boot rowAddr)
    if r.ret ≠ 0 then return (-1, data)
    let main := fit bc.pagesize r.main
    let rsvdbuf := fit 4 r.spare
    -- a page without the mark is passed over: the next one is read in its place
    if ¬ r.unfixed ∧ rsvdbuf.drop 2 = bytes16 bndMagic then
      bndVsReadLoop bc n (rowAddr + 1) (cnt + bc.pagesize) (data ++ main)
    else bndVsReadLoop bc n (rowAddr + 1) cnt data

def bndVsRead (start : ℕ) (length : ℤ) : Flash (ℤ × List UInt8) :=
  match N.getConfig .boot with
  | none => pure (-1, [])
  | some bc => bndVsReadLoop bc (toU32 length / bc.pagesize) (start >>> N.bndPageShift) 0 []

end Read

section Write

variable (N : NandCfg)

/-- The pages of a write, one row after the other; `page` gives the main and spare bytes of the
page that begins at a position of the buffer, and a page takes `step` bytes of it. -/
def vsWriteLoop (type : NandCfgType) (page : ℕ → List UInt8 × List UInt8) (step : ℕ) :
    ℕ → ℕ → ℕ → ℤ → Flash ℤ
  | 0, _, _, ret => pure ret
  | n + 1, rowAddr, pos, ret => do
    let r ← Prog.op (.writePage type rowAddr (page pos).1 (page pos).2)
    if r.ret ≠ 0 then return -1
    vsWriteLoop type page step n (rowAddr + 1) (pos + step) (ret + step)

/-- A page of `base_vs_write`: with `extra` its system bytes come from the data. -/
def normalPage (nc : NandConfig) (extra : Bool) (data : List UInt8) (pos : ℕ) :
    List UInt8 × List UInt8 :=
  (fit nc.pagesize (data.drop pos),
    if extra then
      [0xff, 0x00, 0xff, 0xff] ++ fit nc.sysinfosize (data.drop (pos + nc.pagesize))
    else [0xff, 0x00] ++ List.replicate (nc.sysinfosize + 2) 0xff)

/-- `base_vs_write` of the whole of `data`. -/
def baseVsWrite (start : ℕ) (data : List UInt8) (extra : Bool) : Flash ℤ :=
  match N.getConfig .normal with
  | none => pure (-1)
  | some nc =>
    let step := normalUnit nc extra
    vsWriteLoop .normal (normalPage nc extra data) step (data.length / step)
      (start >>> N.nndPageShift) 0 0

def nndVsWrite (start : ℕ) (data : List UInt8) : Flash ℤ := baseVsWrite N start data false

def fndVsWrite (start : ℕ) (data : List UInt8) : Flash ℤ := baseVsWrite N start data true

/-- A page of `bnd_vs_write`, with the mark in its reserved bytes. -/
def bootPage (bc : NandConfig) (data : List UInt8) (pos : ℕ) : List UInt8 × List UInt8 :=
  (fit bc.pagesize (data.drop pos), [0xff, 0x00] ++ bytes16 bndMagic)

def bndVsWrite (start : ℕ) (data : List UInt8) : Flash ℤ :=
  match N.getConfig .boot, N.getConfig .normal with
  | some bc, some _ =>
    vsWriteLoop .boot (bootPage bc data) bc.pagesize (data.length / bc.pagesize)
      (start >>> N.bndPageShift) 0 0
  | _, _ => pure (-1)

end Write

/-! ## The flash -/

/-- What a row of the flash holds: nothing since its block was erased, a page, or a page the ECC
cannot mend. -/
inductive Row where
  | erased
  | page (type : NandCfgType) (main spare : List UInt8)
  | unfixed
  deriving DecidableEq, Repr

/-- The flash under a bad-block map: page and block operations succeed and pages read back as they
were written. -/
def flashStep (pagesperblock : ℕ) (bad : ℕ → Bool) (rows : ℕ → Row) :
    FlashOp → FlashReply × (ℕ → Row)
  | .isbad row => (⟨if bad (row / pagesperblock) then 1 else 0, [], [], false⟩, rows)
  | .erase row =>
    (⟨0, [], [], false⟩,
      fun r => if r / pagesperblock = row / pagesperblock then .erased else rows r)
  | .readPage type row =>
    match rows row with
    | .erased => (⟨0, [], List.replicate 4 0xff, false⟩, rows)
    | .page t main spare => (⟨0, main, spare, decide (t ≠ type)⟩, rows)
    | .unfixed => (⟨0, [], [], true⟩, rows)
  | .writePage type row main spare =>
    (⟨0, [], [], false⟩, fun r => if r = row then .page type main spare else rows r)

end InfotmUboot
