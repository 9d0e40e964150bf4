import InfotmUboot.Crc32
import InfotmUboot.Lib.Bytes
import InfotmUboot.Lib.Word

/-!
# Image headers

The legacy header in front of a kernel or a ramdisk, as the bytes of it. Its numbers are big-endian.
-/

namespace InfotmUboot

open Lib

def IH_MAGIC : ℕ := 0x27051956

/-- `sizeof(image_header_t)` -/
def imageHeaderSize : ℕ := 64

section Header

-- the bytes of an `image_header_t`
variable (hdr : List UInt8)

/-- `uimage_to_cpu` of the field at `i`. -/
def uimageToCpu (i : ℕ) : ℕ :=
  (hdr.getD i 0).toNat * 2 ^ 24 + (hdr.getD (i + 1) 0).toNat * 2 ^ 16 +
    (hdr.getD (i + 2) 0).toNat * 2 ^ 8 + (hdr.getD (i + 3) 0).toNat

def imageGetMagic : ℕ := uimageToCpu hdr 0

def imageGetHcrc : ℕ := uimageToCpu hdr 4

def imageGetSize : ℕ := uimageToCpu hdr 12

def imageGetDcrc : ℕ := uimageToCpu hdr 24

def imageGetComp : UInt8 := hdr.getD 31 0

/-- The field of the checksum is blank where it is calculated. -/
def imageCheckHcrc : Bool :=
  crc32 0 (hdr.take 4 ++ [0, 0, 0, 0] ++ (hdr.take imageHeaderSize).drop 8) = imageGetHcrc hdr

theorem uimageToCpu_lt (i : ℕ) : uimageToCpu hdr i < 2 ^ 32 := by
  have h0 := (hdr.getD i 0).toNat_lt
  have h1 := (hdr.getD (i + 1) 0).toNat_lt
  have h2 := (hdr.getD (i + 2) 0).toNat_lt
  have h3 := (hdr.getD (i + 3) 0).toNat_lt
  unfold uimageToCpu
  omega

end Header

/-- The checksum of the data behind the header at `a`. -/
def imageCheckDcrc (m : Mem) (a : ℕ) : Bool :=
  let hdr := m.load a imageHeaderSize
  crc32 0 (m.load (u32 (a + imageHeaderSize)) (imageGetSize hdr)) = imageGetDcrc hdr

end InfotmUboot
