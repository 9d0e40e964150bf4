import InfotmUboot.CmdFlash
import InfotmUboot.Lib.Lift
import Mathlib.Logic.Function.Basic

/-!
# Updates of the flash

`flash_sect_roundb` of `cmd_flash.c`, and `update_flash_protect` and `update_flash` of `update.c`.
The table of the banks goes through the program, since the protection flags in it change.
-/

namespace InfotmUboot

open Lib

/-- What an update asks: memory for the saved flags, the protection of a sector, and the calls of
the driver. -/
inductive UpdateOp where
  | calloc
  | protect (c : SectProtect)
  | erase (c : SectErase)
  | write (c : BufWrite)
  deriving DecidableEq, Repr

/-- The end of the sector where the address is. -/
def flashSectRoundb (banks : List FlashInfo) (addr : ℕ) : Option ℕ :=
  banks.findSome? fun info =>
    (List.range info.sectorCount).findSome? fun i =>
      if addr ≤ info.sectLast i ∧ info.start i ≤ addr then some (info.sectLast i) else none

/-- A bank, and what `saved_prot_info` has of it. -/
structure SavedBank where
  info : FlashInfo
  saved : ℕ → ℕ

namespace SavedBank

variable (b : SavedBank)

/-- The flag of a sector of the range is saved. -/
def save (addrFirst addrLast i : ℕ) : SavedBank :=
  if addrFirst ≤ b.info.start i ∧ b.info.start i ≤ addrLast then
    { b with saved := Function.update b.saved i (b.info.protect i) }
  else b

def setProtect (i prot : ℕ) : SavedBank :=
  { b with info := { b.info with protect := Function.update b.info.protect i prot } }

end SavedBank

/-- The loop over the sectors from `i` on. The reply is looked at where `flash_real_protect` is
called; elsewhere the flag is simply set. -/
def updateSects (real : Bool) (prot bank addrFirst addrLast : ℕ) :
    ℕ → ℕ → SavedBank → Prog UpdateOp ℤ (ℕ × SavedBank)
  | 0, _, b => return (0, b)
  | n + 1, i, b =>
    let b := if prot = 0 then b.save addrFirst addrLast i else b
    if b.saved i = 1 then do
      let ret ← Prog.op (.protect ⟨bank, i, prot⟩)
      if real ∧ ret ≠ 0 then return (1, b)
      else updateSects real prot bank addrFirst addrLast n (i + 1) (b.setProtect i prot)
    else updateSects real prot bank addrFirst addrLast n (i + 1) b

/-- The loop over the banks from `bank` on, which ends with the first that does not exist. -/
def updateBanks (real : Bool) (prot : ℕ) :
    ℕ → List SavedBank → ℕ → ℕ → Prog UpdateOp ℤ (ℕ × List SavedBank)
  | _, [], _, _ => return (0, [])
  | bank, b :: bs, addrFirst, addrLast => do
    if b.info.sectorCount = 0 then return (0, b :: bs)
    let addrLast := if b.info.bLast < addrLast then b.info.bLast else addrLast
    let addrFirst := if addrFirst < b.info.start 0 then b.info.start 0 else addrFirst
    let (ret, b) ← updateSects real prot bank addrFirst addrLast b.info.sectorCount 0 b
    if ret ≠ 0 then return (ret, b :: bs)
    let (ret, bs) ← updateBanks real prot (bank + 1) bs addrFirst addrLast
    return (ret, b :: bs)

/-- With `prot` 0 the flags are saved in memory that is zero at first; `calloc` answers 0 where
there is none. -/
def updateFlashProtect (real : Bool) (prot : ℕ) (bs : List SavedBank) (addrFirst addrLast : ℕ) :
    Prog UpdateOp ℤ (ℕ × List SavedBank) :=
  if prot = 0 then do
    let mem ← Prog.op .calloc
    if mem = 0 then return (1, bs)
    else
      updateBanks real prot 0 (bs.map fun b => { b with saved := fun _ => 0 }) addrFirst addrLast
  else updateBanks real prot 0 bs addrFirst addrLast

/-- `ERR_INVAL` and `ERR_PROTECTED` are greater than 0. -/
def FlashWriteEnd.hasFailed : FlashWriteEnd → Bool
  | .errOk => false
  | .errInval => true
  | .errProtected => true
  | .failed ret => 0 < ret

/-- `update_flash` of the bytes at `addr_source`, and the banks that it leaves. -/
def updateFlash (real : Bool) (banks : List FlashInfo) (addrFirst : ℕ) (source : List UInt8) :
    Prog UpdateOp ℤ (ℕ × List FlashInfo) :=
  match flashSectRoundb banks (u32 (addrFirst + source.length + (2 ^ 32 - 1))) with
  | none => return (1, banks)
  | some addrLast =>
    if addrLast ≤ addrFirst then return (1, banks)
    else do
      let (ret, bs) ← updateFlashProtect real 0 (banks.map fun info => ⟨info, fun _ => 0⟩) addrFirst
        addrLast
      if 0 < ret then return (1, bs.map SavedBank.info)
      let ret ← (flashSectErase (bs.map SavedBank.info) addrFirst addrLast).mapOp .erase
      if 0 < ret then return (1, bs.map SavedBank.info)
      let ret ← (flashWrite (bs.map SavedBank.info) source addrFirst).mapOp .write
      if ret.hasFailed then return (1, bs.map SavedBank.info)
      let (ret, bs) ← updateFlashProtect real 1 bs addrFirst addrLast
      if 0 < ret then return (1, bs.map SavedBank.info)
      return (0, bs.map SavedBank.info)

end InfotmUboot
