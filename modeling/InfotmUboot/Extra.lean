import InfotmUboot.Iuw

/-!
# Extra images of a package

`burn_extra` and its sources, and the reads of a card and of the ramdisk behind them. A transfer
from a card succeeds.
-/

namespace InfotmUboot

open Lib

def IUS_DESC_SYSM : ℕ := 0x20
def IUS_DESC_MISC : ℕ := 0x21
def IUS_DESC_CACH : ℕ := 0x22
def IUS_DESC_USER : ℕ := 0x23
def IUS_DESC_REBOOT : ℕ := 0x30
def IUS_DESC_BOOT : ℕ := 0x31
def IUS_DESC_BOOTR : ℕ := 0x32

section Card

/-- A card: its bytes, `lba`, and how many blocks one transfer takes at most. -/
structure Card where
  data : Mem
  lba : ℕ
  bMax : ℕ

variable (c : Card)

/-- The loop of `mmc_bread`; every round takes `b_max` blocks or the rest. -/
def mmcBreadLoop : ℕ → ℕ → ℕ → List UInt8
  | 0, _, _ => []
  | n + 1, start, todo =>
    let cur := if todo > c.bMax then c.bMax else todo
    let data := c.data.load (start * 512) (cur * 512)
    if todo - cur > 0 then data ++ mmcBreadLoop n (start + cur) (todo - cur) else data

/-- What it returns, and the data. -/
def mmcBread (start blkcnt : ℕ) : ℕ × List UInt8 :=
  if blkcnt = 0 then (0, [])
  else if u32 (start + blkcnt) > c.lba then (0, [])
  else (blkcnt, mmcBreadLoop c blkcnt start blkcnt)

/-- `mmc0_vs_read`, `mmc1_vs_read` and `mmc2_vs_read`: the count of blocks times itself. -/
def mmcVsRead (start : ℕ) (length : ℤ) : ℤ × List UInt8 :=
  let blocks := length / 512
  let r := mmcBread c (u32 (start >>> 9)) (toU32 blocks)
  (s32 (blocks * r.1), r.2)

end Card

/-- `ram_vs_read`, over the ramdisk as the device shows it. -/
def ramVsRead (disk : Mem) (offs : ℕ) (len : ℤ) : ℤ × List UInt8 :=
  if offs < IUS_DEFAULT_LOCATION then (0, []) else (len, disk.load offs len.toNat)

section Extra

variable (B : Board)

def ius2part (d : ℕ) : Option Part :=
  if d = IUS_DESC_MISC then some .misc
  else if d = IUS_DESC_SYSM then some .system
  else if d = IUS_DESC_CACH then some .cache
  else if d = IUS_DESC_USER then some .user
  else none

/-- What it returns, and what it put in the buffer. -/
def iusSparseData (s : IusSource) : Strat (ℤ × List UInt8 × IusSource) := do
  if s.remain = 0 then return (0, [], s)
  let (_, cur) ← vsAssignById s.id false
  let step : ℤ :=
    if EXTRA_BUFFER_SIZE > s.remain then
      if 6 ≤ s.id ∧ s.id ≤ 7 then
        let align := vsAlign B cur s.id
        s32 (andNot (toU32 s.remain) (toU32 (align - 1)) + align)
      else s.remain
    else EXTRA_BUFFER_SIZE
  let r ← vsRead cur s.offs step
  return (r.1, r.2, { s with remain := s32 (s.remain - r.1), offs := toU64 (s.offs + r.1) })

/-- What `burn_extra` starts from. -/
def iusSource (desc : IusDesc) (idI : ℤ) : IusSource := ⟨idI, s32 desc.len, desc.offi⟩

/-- The three descriptors that boot have no image. -/
def burnExtra (fuel : ℕ) (desc : IusDesc) (idI : ℤ) (cur : Option Dev) : Strat (Option ℤ) := do
  let type := desc.type
  if type = IUS_DESC_REBOOT ∨ type = IUS_DESC_BOOT ∨ type = IUS_DESC_BOOTR then return some 0
  let r ← Prog.op (.malloc EXTRA_BUFFER_SIZE)
  if r.ret = 0 then return some (-1)
  let part := ius2part type
  let (offs, cur) ← storageOffset B part cur
  let size := storageSize B part
  if offs = 0 then return some (-2)
  if size = 0 then return some (-2)
  let src := iusSource desc idI
  if B.storageDevice = DEV_NAND then
    -- here only pages of 2K + 16 are accepted
    if src.remain.tmod 2064 ≠ 0 then return some (-3)
    yaffsBurn B iusGetPage fuel (toU64 offs) size src
  else do
    let some (ret, _) ← sparseBurn B (iusSparseData B) fuel B.storageDevice (toU64 offs) src.remain
      EXTRA_BUFFER_SIZE src cur | return none
    return some ret

end Extra

end InfotmUboot
