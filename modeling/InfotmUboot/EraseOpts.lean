import InfotmUboot.Lib.Prog
import Mathlib.Data.Int.Notation

/-!
# Erases with options

`nand_erase_opts` of `nand_util.c`. Each call of the device is one operation, by its address; the
check function and the table of the bad blocks are the state that a scrub changes.
-/

namespace InfotmUboot

open Lib

/-- `dropBbt` is for the table in memory, which is freed. -/
inductive EraseOp where
  | blockIsbad (addr : ℕ)
  | erase (addr : ℕ)
  | writeOob (addr : ℕ)
  | dropBbt
  | scanBbt
  deriving DecidableEq, Repr

abbrev EraseProg := Prog EraseOp ℤ

/-- `nand_erase_options_t`, with the widths left open: the length is one that `erase_length` holds,
and `erase.addr` holds the end of the range. -/
structure EraseOptions where
  offset : ℕ
  length : ℕ
  jffs2 : Bool
  scrub : Bool
  deriving DecidableEq, Repr

/-- What `block_bad` points to. -/
inductive BlockBad where
  | device
  | nandBlockBadScrub
  deriving DecidableEq, Repr

/-- `erasesize`, and `oobavail` of the layout of the chip. -/
structure EraseDevice where
  erasesize : ℕ
  oobavail : ℕ
  pos : 0 < erasesize

section Erase

variable (d : EraseDevice) (opts : EraseOptions)

/-- The range has a block at least. -/
def EraseDevice.eraseLength : ℕ := if opts.length < d.erasesize then d.erasesize else opts.length

/-- What a failed erase or a failed write leaves out is only reported: `continue`. -/
def EraseDevice.eraseOptsBlock (addr : ℕ) : EraseProg Unit := do
  let result ← Prog.op (.erase addr)
  if result = 0 ∧ opts.jffs2 = true ∧ 8 ≤ d.oobavail then
    let _ ← Prog.op (.writeOob addr)

/-- The loop from `addr` on: -1 if a check fails. -/
def EraseDevice.eraseOptsLoop (addr : ℕ) : EraseProg ℤ :=
  if addr < opts.offset + d.eraseLength opts then
    if opts.scrub then do
      d.eraseOptsBlock opts addr
      eraseOptsLoop (addr + d.erasesize)
    else do
      let ret ← Prog.op (.blockIsbad addr)
      if 0 < ret then eraseOptsLoop (addr + d.erasesize)
      else if ret < 0 then return -1
      else
        d.eraseOptsBlock opts addr
        eraseOptsLoop (addr + d.erasesize)
  else return 0
termination_by opts.offset + d.eraseLength opts - addr
decreasing_by all_goals have := d.pos; omega

/-- The result, and the check function that is left. -/
def EraseDevice.nandEraseOpts (blockBad : BlockBad) : EraseProg (ℤ × BlockBad) := do
  if opts.scrub then
    let _ ← Prog.op .dropBbt
    let ret ← d.eraseOptsLoop opts opts.offset
    if ret ≠ 0 then return (ret, .nandBlockBadScrub)
    let _ ← Prog.op .scanBbt
    return (0, blockBad)
  else
    let ret ← d.eraseOptsLoop opts opts.offset
    return (ret, blockBad)

end Erase

end InfotmUboot
