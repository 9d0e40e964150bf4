import InfotmUboot.Lib.Prog
import InfotmUboot.Lib.Bytes
import InfotmUboot.Lib.Word

/-!
# Transfers around bad blocks

`get_len_incl_bad`, `nand_write_skip_bad` and `nand_read_skip_bad` of `nand_util.c`. The MTD device
answers three operations. The loops are bounded by a fuel; a run that is cut short has no result.
-/

namespace InfotmUboot

open Lib

def EINVAL : ℤ := 22
def EUCLEAN : ℤ := 117

/-- `nand_info_t` -/
structure NandInfo where
  size : ℕ
  erasesize : ℕ
  writesize : ℕ

/-- What is asked of the device: `block_isbad`, `write` and `read`. -/
inductive NandOp where
  | isbad (ofs : ℕ)
  | write (ofs : ℕ) (data : List UInt8)
  | read (ofs len : ℕ)
  deriving DecidableEq, Repr

structure NandReply where
  ret : ℤ
  data : List UInt8 := []
  deriving DecidableEq, Repr

abbrev NandProg := Prog NandOp NandReply

section SkipBad

variable (d : NandInfo)

/-- `offset & (nand->erasesize - 1)` -/
def NandInfo.blockOffset (offset : ℕ) : ℕ := offset &&& (d.erasesize - 1)

/-- `offset & ~(nand->erasesize - 1)`, where the mask has 32 bits. -/
def NandInfo.blkoff (offset : ℕ) : ℕ := andNot (u32 offset) (d.erasesize - 1)

/-- The loop of `get_len_incl_bad`. -/
def getLenLoop (length : ℕ) : ℕ → ℕ → ℕ → ℕ → NandProg ℕ
  | 0, _, lenInclBad, _ => pure lenInclBad
  | n + 1, offset, lenInclBad, lenExclBad => do
    if lenExclBad < length then
      let blockLen := d.erasesize - d.blockOffset offset
      let bad ← Prog.op (.isbad (d.blkoff offset))
      let lenExclBad := if bad.ret = 0 then u32 (lenExclBad + blockLen) else lenExclBad
      let lenInclBad := u32 (lenInclBad + blockLen)
      let offset := offset + blockLen
      if offset + lenInclBad ≥ d.size then return lenInclBad
      getLenLoop length n offset lenInclBad lenExclBad
    else return lenInclBad

/-- Every round moves on. -/
def getLenInclBad (offset length : ℕ) : NandProg ℕ := getLenLoop d length (d.size + 1) offset 0 0

/-- The loop of `nand_write_skip_bad` over what is left to write: its result, and how much was not
written. -/
def writeSkipLoop : ℕ → ℕ → List UInt8 → NandProg (Option (ℤ × ℕ))
  | 0, _, _ => pure none
  | n + 1, offset, left => do
    if left = [] then return some (0, 0)
    let blockOffset := d.blockOffset offset
    let bad ← Prog.op (.isbad (d.blkoff offset))
    if bad.ret ≠ 0 then writeSkipLoop n (offset + (d.erasesize - blockOffset)) left
    else do
      let writeSize :=
        if left.length < d.erasesize - blockOffset then left.length else d.erasesize - blockOffset
      let r ← Prog.op (.write offset (left.take writeSize))
      if r.ret ≠ 0 then return some (r.ret, left.length)
      writeSkipLoop n (offset + writeSize) (left.drop writeSize)

/-- Its result, and `*length` afterwards. -/
def nandWriteSkipBad (fuel offset : ℕ) (buffer : List UInt8) : NandProg (Option (ℤ × ℕ)) := do
  let length := buffer.length
  if offset &&& (d.writesize - 1) ≠ 0 ∨ length &&& (d.writesize - 1) ≠ 0 then
    return some (-EINVAL, length)
  let lenInclBad ← getLenInclBad d offset length
  if offset + lenInclBad ≥ d.size then return some (-EINVAL, length)
  if lenInclBad = length then do
    let r ← Prog.op (.write offset buffer)
    return some (r.ret, length)
  let some (ret, left) ← writeSkipLoop d fuel offset buffer | return none
  return some (ret, length - left)

/-- The loop of `nand_read_skip_bad`: its result, how much was not read, and what was. -/
def readSkipLoop : ℕ → ℕ → ℕ → List UInt8 → NandProg (Option (ℤ × ℕ × List UInt8))
  | 0, _, _, _ => pure none
  | n + 1, offset, left, buffer => do
    if left = 0 then return some (0, 0, buffer)
    let blockOffset := d.blockOffset offset
    let bad ← Prog.op (.isbad (d.blkoff offset))
    if bad.ret ≠ 0 then readSkipLoop n (offset + (d.erasesize - blockOffset)) left buffer
    else do
      let readLength := if left < d.erasesize - blockOffset then left else d.erasesize - blockOffset
      let r ← Prog.op (.read offset readLength)
      if r.ret ≠ 0 ∧ r.ret ≠ -EUCLEAN then return some (r.ret, left, buffer)
      readSkipLoop n (offset + readLength) (left - readLength) (buffer ++ fit readLength r.data)

/-- Its result, `*length` afterwards, and what was read. -/
def nandReadSkipBad (fuel offset length : ℕ) : NandProg (Option (ℤ × ℕ × List UInt8)) := do
  let lenInclBad ← getLenInclBad d offset length
  if offset + lenInclBad ≥ d.size then return some (-EINVAL, length, [])
  if lenInclBad = length then do
    let r ← Prog.op (.read offset length)
    if r.ret = 0 ∨ r.ret = -EUCLEAN then return some (0, length, fit length r.data)
    return some (r.ret, length, [])
  let some (ret, left, buffer) ← readSkipLoop d fuel offset length [] | return none
  return some (ret, length - left, buffer)

end SkipBad

end InfotmUboot
