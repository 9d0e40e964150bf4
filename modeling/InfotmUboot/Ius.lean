import InfotmUboot.Crc32
import InfotmUboot.VStorage

/-!
# IUS packages and ISI images

The descriptor fields of an IUS package, and the header checks of packages (`ius.c`) and images
(`isi.c`). The checks clear the checksum field and put it back, so they leave the buffer as it was.
-/

namespace InfotmUboot

open Lib

def IUS_DEFAULT_LOCATION : ℕ := 0x1000000
def IUS_MAGIC : ℕ := 0x7375692b
def IUS_FLAG_ENCRYPT : ℕ := 0x2
def IUS_HDR_SIZE : ℕ := 512

def IUS_DESC_EXEC : ℕ := 1
def IUS_DESC_STRW : ℕ := 2
def IUS_DESC_STNB : ℕ := 3
def IUS_DESC_STNR : ℕ := 4
def IUS_DESC_STNF : ℕ := 5

def EBADMAGIC : ℤ := 31
def EBADCRC : ℤ := 32
def EUNTRUST : ℤ := 34
def ENOCFG : ℤ := 52
def EBADBLK : ℤ := 53

structure IusDesc where
  sector : UInt32
  info0 : UInt32
  info1 : UInt32
  length : UInt32
  deriving DecidableEq, Repr

namespace IusDesc

variable (d : IusDesc)

def offi : ℕ := (d.sector.toNat &&& 0xffffff) <<< 9 + IUS_DEFAULT_LOCATION

def offo : ℕ := d.info0.toNat ||| (d.info1.toNat &&& 0xffff) <<< 32

def type : ℕ := (d.sector.toNat >>> 24) &&& 0x3f

def len : ℕ := d.length.toNat

def id : ℤ := ((d.info1.toNat >>> 16) &&& 0xffff : ℕ)

/-- The region the image may take: the upper half of `info1`, which a raw image shares with its
device number. -/
def maxsize : ℕ := andNot d.info1.toNat 0xffff

def load : ℕ := d.info1.toNat

def mask : ℕ := d.sector.toNat >>> 30

end IusDesc

/-- `ss_aes_data` over `len` bytes at `a`: the buffer afterwards. -/
def ssAesData (m : Mem) (a len : ℕ) : Strat Mem := do
  let r ← Prog.op (.aesData (m.load a len))
  pure (m.store a (r.data.take len))

section Isi

def ISI_SIZE : ℕ := 0x200
def ISI_MAGIC : ℕ := 0x6973692b

/-- `isi_check_header` of the image at `a`. -/
def isiCheckHeader (m : Mem) (a : ℕ) : ℤ :=
  if m.get32 a ≠ ISI_MAGIC then -EBADMAGIC
  else
    let crcOri := m.get32 (a + 28)
    let crcCalc := hashCrc ((m.store (a + 28) (bytes32 0)).load a ISI_SIZE)
    if crcOri ≠ crcCalc then -EBADCRC else 0

def isiIsSecure (m : Mem) (a : ℕ) : Bool := (m.get32 (a + 4) >>> 28) &&& 0xf ≠ 0

end Isi

section Header

/-- The secure-burn state of `debug.c`: the flag and the key. -/
structure SecureBurn where
  enabled : Bool
  key : List UInt8

def ENCRYPTION : ℕ := 1
def DECRYPTION : ℕ := 0

/-- `ius_check_header` of the package header at 0, with what it leaves in the buffer. -/
def iusCheckHeader (sec : SecureBurn) (hdr : Mem) : Strat (ℤ × Mem) := do
  if hdr.get32 0 ≠ IUS_MAGIC then return (-1, hdr)
  if sec.enabled ∧ hdr.get32 4 &&& IUS_FLAG_ENCRYPT = 0 then return (-EUNTRUST, hdr)
  let hdr ←
    if sec.enabled then do
      let _ ← Prog.op (.aesInit DECRYPTION (some sec.key))
      ssAesData hdr 16 (IUS_HDR_SIZE - 16)
    else pure hdr
  let crcOri := hdr.get32 24
  let crcCalc := hashCrc ((hdr.store 24 (bytes32 0)).load 0 IUS_HDR_SIZE)
  return (if crcOri ≠ crcCalc then -EBADCRC else 0, hdr)

end Header

end InfotmUboot
