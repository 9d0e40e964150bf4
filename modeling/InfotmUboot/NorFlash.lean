import InfotmUboot.Lib.Prog
import InfotmUboot.Lib.Word

/-!
# Writes to the NOR banks

`addr2info` and `flash_write` of `flash.c`, over the table `flash_info` of the banks. The driver's
`write_buff` is one operation, whose reply is its result.
-/

namespace InfotmUboot

open Lib

/-- An entry of `flash_info`; `known` if its `flash_id` is not `FLASH_UNKNOWN`. -/
structure FlashInfo where
  known : Bool
  size : ℕ
  sectorCount : ℕ
  start : ℕ → ℕ
  protect : ℕ → ℕ

namespace FlashInfo

variable (info : FlashInfo)

/-- `info->start[0] + info->size`, which is 0 for a bank that ends at the top of the addresses. -/
def bEnd : ℕ := u32 (info.start 0 + info.size)

def eAddr (i : ℕ) : ℕ := if i + 1 = info.sectorCount then info.bEnd else info.start (i + 1)

/-- A sector of the range from `addr` to `stop` is protected, as `flash_write` looks for one. -/
def isProtected (addr stop : ℕ) : Bool :=
  (List.range info.sectorCount).any fun i =>
    info.start i ≤ stop ∧ addr < info.eAddr i ∧ info.protect i ≠ 0

end FlashInfo

def addr2info (banks : List FlashInfo) (addr : ℕ) : Option ℕ :=
  banks.findIdx? fun info =>
    info.known ∧ info.start 0 ≤ addr ∧ addr ≤ u32 (info.start 0 + info.size + (2 ^ 32 - 1))

/-- A call of `write_buff`. -/
structure BufWrite where
  bank : ℕ
  addr : ℕ
  data : List UInt8
  deriving DecidableEq, Repr

/-- How `flash_write` ends: with `ERR_OK`, with an error of its own or with that of `write_buff`. -/
inductive FlashWriteEnd where
  | errOk
  | errInval
  | errProtected
  | failed (ret : ℤ)
  deriving DecidableEq, Repr

/-- The last loop of `flash_write`, from the entry `bank` on. -/
def writeBanks : List FlashInfo → ℕ → ℕ → List UInt8 → Prog BufWrite ℤ FlashWriteEnd
  | [], _, _, _ => pure .errOk
  | info :: infos, bank, addr, src => do
    if src.length = 0 then return .errOk
    let len := min (u32 (info.bEnd + (2 ^ 32 - addr))) src.length
    let ret ← Prog.op ⟨bank, addr, src.take len⟩
    if ret ≠ 0 then return .failed ret
    writeBanks infos (bank + 1) (u32 (addr + len)) (src.drop len)

/-- The entries from `first` to `last`. -/
def bankSlice (banks : List FlashInfo) (first last : ℕ) : List FlashInfo :=
  (banks.drop first).take (last + 1 - first)

/-- `flash_write` of the bytes `src`. -/
def flashWrite (banks : List FlashInfo) (src : List UInt8) (addr : ℕ) :
    Prog BufWrite ℤ FlashWriteEnd := do
  let stop := u32 (addr + src.length + (2 ^ 32 - 1))
  if src.length = 0 then return .errOk
  match addr2info banks addr, addr2info banks stop with
  | some first, some last =>
    if (bankSlice banks first last).any (·.isProtected addr stop) then return .errProtected
    writeBanks (bankSlice banks first last) first addr src
  | _, _ => return .errInval

end InfotmUboot
