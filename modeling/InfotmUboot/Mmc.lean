import InfotmUboot.Lib.Bytes
import InfotmUboot.Lib.Prog
import InfotmUboot.Lib.Word

/-!
# The block access to an MMC card

The polls for the status of the card and the transfers of `mmc_bread` and `mmc_bwrite`, cut into
chunks the controller can take. A command goes through the `send_cmd` of the controller, which the
card is behind. The variables for blocks and counts have 32 bits.
-/

namespace InfotmUboot

open Lib

def MMC_STATUS_MASK : UInt32 := ~~~0x0206bf7f

def MMC_STATUS_RDY_FOR_DATA : UInt32 := 0x100

def COMM_ERR : ℤ := -18

def TIMEOUT : ℤ := -19

inductive MmcOp where
  | setBlocklen (len : ℕ)
  | sendStatus
  | stopTransmission
  | write (multiple : Bool) (cmdarg blocks blocksize src : ℕ)
  | read (multiple : Bool) (cmdarg blocks blocksize dst : ℕ)
  deriving DecidableEq, Repr

/-- What `send_cmd` returns, and `response[0]`. -/
structure MmcReply where
  err : ℤ
  response : UInt32 := 0
  deriving DecidableEq, Repr

abbrev MmcHost := Prog MmcOp MmcReply

/-- What is known of a card once `mmc_startup` has read its registers. It cuts both block lengths to
512 bytes, and no card has shorter ones. A card that is addressed in bytes has as many of them as an
address can tell apart. -/
structure Mmc where
  highCapacity : Bool
  lba : ℕ
  readBlLen : ℕ
  writeBlLen : ℕ
  bMax : ℕ
  lba_lt : lba < 2 ^ 32
  bMax_pos : 0 < bMax
  read_len : readBlLen = 512
  write_len : writeBlLen = 512
  bytes_fit : highCapacity = false → lba * 512 ≤ 2 ^ 32

/-- What an answer ends the loop of `mmc_send_status` with, if it does: a value to return at once,
or that of `timeout` behind the loop. -/
def mmcPollEnds (timeout : ℕ) (r : MmcReply) : Option (Except ℤ ℤ) :=
  if r.err ≠ 0 then some (.error r.err)
  else if r.response &&& MMC_STATUS_RDY_FOR_DATA ≠ 0 then some (.ok (s32 timeout))
  else if r.response &&& MMC_STATUS_MASK ≠ 0 then some (.error COMM_ERR)
  else none

/-- The polls until one ends the loop, or it runs out, which leaves `timeout` at -1. -/
def mmcStatusLoop : ℕ → MmcHost (Except ℤ ℤ)
  | 0 => do
    let r ← Prog.op .sendStatus
    return (mmcPollEnds 0 r).getD (.ok (-1))
  | timeout + 1 => do
    let r ← Prog.op .sendStatus
    match mmcPollEnds (timeout + 1) r with
    | some e => return e
    | none => mmcStatusLoop timeout

def mmcSendStatus (timeout : ℤ) : MmcHost ℤ := do
  match ← mmcStatusLoop (toU32 timeout) with
  | .error err => return err
  | .ok timeout => return if timeout = 0 then TIMEOUT else 0

section Blocks

variable (m : Mmc)

/-- The commands after a transfer that worked: the stop of one of several blocks, and the wait. -/
def mmcFinish (blkcnt : ℕ) : MmcHost ℕ := do
  if blkcnt > 1 then
    let r ← Prog.op .stopTransmission
    if r.err ≠ 0 then return 0
  let _ ← mmcSendStatus 1000
  return blkcnt

def mmcWriteBlocks (start blkcnt src : ℕ) : MmcHost ℕ := do
  if u32 (start + blkcnt) > m.lba then return 0
  let r ← Prog.op (.write (blkcnt > 1) (if m.highCapacity then start
    else u32 (start * m.writeBlLen))
    blkcnt m.writeBlLen src)
  if r.err ≠ 0 then return 0
  mmcFinish blkcnt

/-- The loop of `mmc_bwrite`; `todo` bounds its rounds. -/
def mmcBwriteLoop : ℕ → ℕ → ℕ → ℕ → MmcHost Bool
  | 0, _, _, _ => return true
  | n + 1, start, todo, src => do
    let cur := if todo > m.bMax then m.bMax else todo
    let w ← mmcWriteBlocks m start cur src
    if w ≠ cur then return false
    if todo - cur > 0 then
      mmcBwriteLoop n (u32 (start + cur)) (todo - cur) (src + cur * m.writeBlLen)
    else return true

def mmcBwrite (start blkcnt src : ℕ) : MmcHost ℕ := do
  let r ← Prog.op (.setBlocklen m.writeBlLen)
  if r.err ≠ 0 then return 0
  if ← mmcBwriteLoop m (blkcnt + 1) start blkcnt src then return blkcnt else return 0

def mmcReadBlocks (dst start blkcnt : ℕ) : MmcHost ℕ := do
  let r ← Prog.op (.read (blkcnt > 1) (if m.highCapacity then start else u32 (start * m.readBlLen))
    blkcnt m.readBlLen dst)
  if r.err ≠ 0 then return 0
  mmcFinish blkcnt

def Mmc.mmcBreadLoop : ℕ → ℕ → ℕ → ℕ → MmcHost Bool
  | 0, _, _, _ => return true
  | n + 1, start, todo, dst => do
    let cur := if todo > m.bMax then m.bMax else todo
    let r ← mmcReadBlocks m dst start cur
    if r ≠ cur then return false
    if todo - cur > 0 then
      Mmc.mmcBreadLoop n (u32 (start + cur)) (todo - cur) (dst + cur * m.readBlLen)
    else return true

def Mmc.mmcBread (start blkcnt dst : ℕ) : MmcHost ℕ := do
  if blkcnt = 0 then return 0
  if u32 (start + blkcnt) > m.lba then return 0
  let r ← Prog.op (.setBlocklen m.readBlLen)
  if r.err ≠ 0 then return 0
  if ← Mmc.mmcBreadLoop m (blkcnt + 1) start blkcnt dst then return blkcnt else return 0

end Blocks

end InfotmUboot
