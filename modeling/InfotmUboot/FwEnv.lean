import InfotmUboot.EnvNand

/-!
# The environment tool

`env_init`, `flash_io` and what they call of `fw_env.c`, for two copies in NAND flash. The tool runs
under Linux and is given the same two regions as U-Boot, copy 1 as its device 0 and copy 2 as its
device 1. Its `char` has a sign or not, as the compiler has it. Erasures, reads and writes of good
blocks succeed; a run that ends with an error has no result.
-/

namespace InfotmUboot

open Lib

structure FwEnv where
  /-- the regions, which the tool reads from its configuration file -/
  regions : NandEnv
  /-- `ENVSECTORS` of both devices -/
  envSectors : ℕ
  charSigned : Bool
  /-- `default_environment` of the tool -/
  fwDefault : List UInt8

section Flash

variable (f : FwEnv)

/-- `DEVOFFSET` of device 0 or 1 -/
def FwEnv.devoff (dev : ℕ) : ℕ := f.regions.offset (dev + 1)

/-- `DEVESIZE` -/
def FwEnv.blocklen : ℕ := f.regions.erasesize

def FwEnv.blockOf (offset : ℕ) : ℕ := offset - offset % f.blocklen

def FwEnv.topOfRange (dev : ℕ) : ℕ := f.blockOf (f.devoff dev) + f.envSectors * f.blocklen

/-- The loop of `flash_read_buf`; a round moves on by a block, of which a range has `envSectors`. -/
def flashReadBufLoop (m : Mem) (count top : ℕ) : ℕ → ℕ → ℕ → ℕ → ℕ → Mem → Option Mem
  | 0, _, _, _, _, _ => none
  | n + 1, blockstart, blockSeek, readlen, processed, buf =>
    if processed < count then
      if f.regions.isbad blockstart < 0 then none
      else if blockstart + blockSeek + readlen > top then none
      else if f.regions.isbad blockstart ≠ 0 then
        flashReadBufLoop m count top n (blockstart + f.blocklen) blockSeek readlen processed buf
      else
        flashReadBufLoop m count top n (blockstart + f.blocklen) 0
          (min f.blocklen (count - (processed + readlen))) (processed + readlen)
          (buf.store processed (m.load (blockstart + blockSeek) readlen))
    else some buf

def flashReadBuf (dev : ℕ) (m buf : Mem) (count offset : ℕ) : Option Mem :=
  let blockSeek := offset - f.blockOf offset
  flashReadBufLoop f m count (f.topOfRange dev) (f.envSectors * f.blocklen + 1) (f.blockOf offset)
    blockSeek (min count (f.blocklen - blockSeek)) 0 buf

/-- The loop of `flash_write_buf`: each block is erased and written whole. -/
def flashWriteBufLoop (data : Mem) (writeTotal top : ℕ) : ℕ → ℕ → ℕ → Mem → Option Mem
  | 0, _, _, _ => none
  | n + 1, blockstart, processed, m =>
    if processed < writeTotal then
      if f.regions.isbad blockstart < 0 then none
      else if blockstart + f.blocklen > top then none
      else if f.regions.isbad blockstart ≠ 0 then
        flashWriteBufLoop data writeTotal top n (blockstart + f.blocklen) processed m
      else
        flashWriteBufLoop data writeTotal top n (blockstart + f.blocklen) (processed + f.blocklen)
          (m.store blockstart (data.load processed f.blocklen))
    else some m

def flashWriteBuf (dev : ℕ) (buf m : Mem) (count offset : ℕ) : Option Mem :=
  let eraseOffset := f.blockOf offset
  let blockSeek := offset - eraseOffset
  let writeTotal := (blockSeek + count + f.blocklen - 1) / f.blocklen * f.blocklen
  let data :=
    if writeTotal > count then
      -- the rest of the blocks is read and written back
      (flashReadBuf f dev m (fun _ => 0) writeTotal eraseOffset).map fun data =>
        data.store blockSeek (buf.load 0 count)
    else some buf
  data.bind fun data =>
    flashWriteBufLoop f data writeTotal (f.topOfRange dev) (f.envSectors * f.blocklen + 1)
      eraseOffset 0 m

end Flash

section Tool

variable (f : FwEnv)

/-- The value of a `char`. -/
def FwEnv.char (b : UInt8) : ℤ :=
  if f.charSigned ∧ 128 ≤ b then (b.toNat : ℤ) - 256 else b.toNat

/-- `dev_current`, of two copies whose flags are counted on -/
def FwEnv.devCurrent (crc0Ok crc1Ok : Bool) (flags0 flags1 : UInt8) : ℕ :=
  let flag0 := f.char flags0
  let flag1 := f.char flags1
  if crc0Ok = true ∧ crc1Ok = false then 0
  else if crc0Ok = false ∧ crc1Ok = true then 1
  else if crc0Ok = false ∧ crc1Ok = false then 0
  else if flag0 = 255 ∧ flag1 = 0 ∨ flag1 > flag0 then 1
  else 0

/-- `dev_current` and the image that is in use, as `env_init` leaves them. -/
def fwEnvInit (m : Mem) : Option (ℕ × Mem) := do
  let c := f.regions
  let image0 ← flashReadBuf f 0 m (fun _ => 0) c.envSize (f.devoff 0)
  let image1 ← flashReadBuf f 1 m (fun _ => 0) c.envSize (f.devoff 1)
  let dev := f.devCurrent (c.crcOk image0) (c.crcOk image1) (envFlags image0) (envFlags image1)
  let image0 :=
    if c.crcOk image0 = false ∧ c.crcOk image1 = false then
      image0.store ENV_HEADER_SIZE f.fwDefault
    else image0
  return (dev, if dev = 0 then image0 else image1)

/-- A run of `fw_setenv` that leaves this data in the environment. -/
def fwSetenv (data : List UInt8) (m : Mem) : Option Mem := do
  let c := f.regions
  let (dev, image) ← fwEnvInit f m
  let image := c.crcUpdate (image.store ENV_HEADER_SIZE (fit c.dataSize data))
  let image := image.store 4 [envFlags image + 1]
  flashWriteBuf f (1 - dev) image m c.envSize (f.devoff (1 - dev))

end Tool

end InfotmUboot
