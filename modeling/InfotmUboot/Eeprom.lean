import InfotmUboot.Lib.Prog
import InfotmUboot.Lib.Word

/-!
# The EEPROM

The writes of the I2C EEPROM, cut at its pages of 16 bytes. A write is repeated until it works or
its time is up, which is one operation here: its reply is whether it worked.
-/

namespace InfotmUboot

open Lib

def PAGE_BLOCK_LEN : ℕ := 16

def u16 (n : ℕ) : ℕ := n % 2 ^ 16

inductive IicOp where
  | init (iicAddr : ℕ)
  | regWrite (wordAddr : List UInt8) (data : List UInt8)
  deriving DecidableEq, Repr

abbrev Iic := Prog IicOp Bool

structure IicTransfer where
  iicAddr : ℕ
  iicWordAddr : ℕ
  iicAddition : ℕ := 0
  iicLen : ℕ
  iicCurrentLen : ℕ
  flag : Bool

/-- The chip is one of those that are addressed with two bytes. -/
def iicAddressNum : Bool := true

section Write

-- from the boot pins
variable (iicAddrConst : ℕ)

def iicAddrFunc (offs : ℕ) : ℕ :=
  if iicAddressNum then iicAddrConst else u16 (iicAddrConst ||| (offs / 256) <<< 1)

def iicWordAddrFunc (offs : ℕ) : ℕ := if iicAddressNum then u16 offs else offs % 256

def iicWriteGetAddress (iic : IicTransfer) : Bool × IicTransfer :=
  let iic := { iic with iicWordAddr := u16 (iic.iicWordAddr + iic.iicCurrentLen) }
  let iic :=
    if !iicAddressNum && iic.iicWordAddr == 256 then
      { iic with iicWordAddr := 0, iicAddr := u16 (iic.iicAddr + 2), flag := true }
    else iic
  let iic := { iic with iicAddition := PAGE_BLOCK_LEN - iic.iicWordAddr % PAGE_BLOCK_LEN }
  if iic.iicAddition < iic.iicLen then
    (true, { iic with iicCurrentLen := iic.iicAddition, iicLen := iic.iicLen - iic.iicAddition })
  else if iic.iicLen > 0 then (true, { iic with iicCurrentLen := iic.iicLen, iicLen := 0 })
  else (false, iic)

def iicWordCurrentAddr (iicWordAddr : ℕ) : List UInt8 :=
  if iicAddressNum then [UInt8.ofNat (iicWordAddr >>> 8), UInt8.ofNat iicWordAddr]
  else [UInt8.ofNat iicWordAddr]

/-- The chunks, of which `i` adds up those that failed; no result if the controller does not come
up. -/
def e2pVsWriteLoop : ℕ → IicTransfer → List UInt8 → ℕ → Iic (Option ℕ)
  | 0, _, _, i => pure (some i)
  | n + 1, addr, buf, i => do
    let r := iicWriteGetAddress addr
    if r.1 then
      let up ← if r.2.flag then Prog.op (.init r.2.iicAddr) else pure true
      if up then
        let ok ← Prog.op (.regWrite (iicWordCurrentAddr r.2.iicWordAddr)
          (buf.take r.2.iicCurrentLen))
        e2pVsWriteLoop n { r.2 with flag := false } (buf.drop r.2.iicCurrentLen)
          (if ok then i else u16 (i + r.2.iicCurrentLen))
      else return none
    else return some i

def e2pVsWrite (buf : List UInt8) (offs : ℕ) : Iic ℤ := do
  let i ← e2pVsWriteLoop (buf.length + 1)
    { iicAddr := iicAddrFunc iicAddrConst offs, iicWordAddr := iicWordAddrFunc offs,
      iicLen := u32 buf.length, iicCurrentLen := 0, flag := true } buf 0
  match i with
  | none => return 0
  | some i => return s32 (buf.length - i)

end Write

end InfotmUboot
