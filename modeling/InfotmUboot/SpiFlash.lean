import InfotmUboot.Lib.Bytes
import InfotmUboot.Lib.Word

/-!
# The SPI flash drivers

Each driver as the frames that it sends to the chip, a frame being the bytes between two edges of
the chip select. `X800a` is the driver that is built and `Imapx800` the one before it. The chip
takes an address of three bytes, and programs inside the page of that address.
-/

namespace InfotmUboot

open Lib

def FLASH_CMD_WREN : UInt8 := 0x6

def FLASH_CMD_RDSR : UInt8 := 0x5

def FLASH_CMD_WRSR : UInt8 := 0x1

def FLASH_CMD_WRIT : UInt8 := 0x2

def FLASH_CMD_WESR : UInt8 := 0x50

def FLASH_CMD_ERAS : UInt8 := 0xc7

abbrev SpiFrame : Type := List UInt8

def spibytes : ℕ := 256

/-- `__swab32` -/
def swab32 (n : ℕ) : ℕ :=
  n % 2 ^ 8 * 2 ^ 24 + n / 2 ^ 8 % 2 ^ 8 * 2 ^ 16 + n / 2 ^ 16 % 2 ^ 8 * 2 ^ 8 + n / 2 ^ 24 % 2 ^ 8

namespace X800a

/-- The status is read until the chip is as `flash_poll` wants it; what the reads ask of the chip is
the same each time. -/
def flashPoll : List SpiFrame := [[FLASH_CMD_RDSR, FLASH_CMD_RDSR]]

def flashWren : List SpiFrame := [FLASH_CMD_WREN] :: flashPoll

/-- The command and the address, as they lie in `tx[4]` and behind. -/
def writeHeader (offs : ℕ) : SpiFrame :=
  bytes32 (andNot (swab32 (u32 offs)) 0xff ||| FLASH_CMD_WRIT.toNat)

def flashVsWriteLoop : ℕ → ℕ → List UInt8 → List SpiFrame
  | 0, _, _ => []
  | n + 1, offs, buf =>
    if buf.length = 0 then []
    else
      let len := if buf.length < spibytes then buf.length else spibytes
      flashWren ++ (writeHeader offs ++ buf.take len) :: flashPoll ++
        flashVsWriteLoop n (offs + len) (buf.drop len)

def flashVsWrite (buf : List UInt8) (offs : ℕ) : List SpiFrame :=
  flashVsWriteLoop (buf.length + 1) offs buf

/-- The offset and the length are not looked at. -/
def flashVsErase (_ _ : ℕ) : List SpiFrame :=
  -- clear sr
  flashWren ++ [[FLASH_CMD_WRSR, 0]] ++ flashPoll ++
  -- clear sr: alt
  [[FLASH_CMD_WESR], [FLASH_CMD_WRSR, 0]] ++ flashPoll ++
  -- erase
  flashWren ++ [[FLASH_CMD_ERAS]] ++ flashPoll

end X800a

namespace Imapx800

/-- What the loop of the write moves on. -/
structure SpiTransfer where
  spiAddr : ℕ
  spiAdditionAddr : ℕ
  spiCurrentLen : ℕ
  spiAddition : ℕ := 0
  spiLen : ℕ

def spiAdditionFunc (offs : ℕ) : ℕ := offs &&& (spibytes - 1)

def spiWriteGetLen (spi : SpiTransfer) : Bool × SpiTransfer :=
  let additionAddr := u32 (spi.spiAdditionAddr + spi.spiCurrentLen)
  let spi := if additionAddr = spibytes then
      { spi with spiAdditionAddr := 0, spiAddr := u32 (spi.spiAddr + spi.spiCurrentLen) }
    else { spi with spiAdditionAddr := additionAddr }
  let spi := { spi with spiAddition := spibytes - spi.spiAdditionAddr }
  if spi.spiAddition < spi.spiLen then
    (true, { spi with spiCurrentLen := spi.spiAddition, spiLen := spi.spiLen - spi.spiAddition })
  else if spi.spiLen > 0 then (true, { spi with spiCurrentLen := spi.spiLen, spiLen := 0 })
  else (false, spi)

/-- `spi_flash_finish`, as often as the chip is busy. -/
def spiFlashFinish : List SpiFrame := [[FLASH_CMD_RDSR, 0]]

def spiFlashEnableWrite : List SpiFrame := [FLASH_CMD_WREN] :: spiFlashFinish

def spiHeader (addr : ℕ) : SpiFrame :=
  [FLASH_CMD_WRIT, UInt8.ofNat (addr / 2 ^ 16), UInt8.ofNat (addr / 2 ^ 8), UInt8.ofNat addr]

def flashVsWriteLoop : ℕ → SpiTransfer → List UInt8 → List SpiFrame
  | 0, _, _ => []
  | n + 1, spi, buf =>
    let r := spiWriteGetLen spi
    if r.1 then
      spiFlashEnableWrite ++ (spiHeader r.2.spiAddr ++ buf.take r.2.spiCurrentLen) ::
        spiFlashFinish ++
        flashVsWriteLoop n r.2 (buf.drop r.2.spiCurrentLen)
    else []

def flashVsWrite (buf : List UInt8) (offs : ℕ) : List SpiFrame :=
  flashVsWriteLoop (buf.length + 1)
    { spiAddr := u32 offs, spiAdditionAddr := spiAdditionFunc offs, spiCurrentLen := 0,
      spiLen := buf.length } buf

end Imapx800

/-- The chip: its bytes, and whether the next command may change them. -/
structure SpiChip where
  mem : Mem
  wel : Bool

namespace SpiChip

/-- The address behind `a` as the chip counts it while it programs: it goes round inside the
page. -/
def nextInPage (a : ℕ) : ℕ := a / 256 * 256 + (a + 1) % 256

/-- The bytes of a frame, which are no more than a page, go into the page one by one; programming
clears bits. -/
def program : Mem → ℕ → List UInt8 → Mem
  | m, _, [] => m
  | m, a, b :: bs => program (m.store a [m a &&& b]) (nextInPage a) bs

def frame (c : SpiChip) (f : SpiFrame) : SpiChip :=
  match f with
  | cmd :: args =>
    if cmd = FLASH_CMD_WREN then { c with wel := true }
    else if cmd = FLASH_CMD_WRSR then { c with wel := false }
    else if c.wel ∧ cmd = FLASH_CMD_ERAS then ⟨fun _ => 0xff, false⟩
    else if c.wel ∧ cmd = FLASH_CMD_WRIT then
      match args with
      | a2 :: a1 :: a0 :: data =>
        ⟨program c.mem (a2.toNat * 2 ^ 16 + a1.toNat * 2 ^ 8 + a0.toNat) data, false⟩
      | _ => c
    else c
  | [] => c

def frames (c : SpiChip) (fs : List SpiFrame) : SpiChip := fs.foldl frame c

end SpiChip

end InfotmUboot
