import InfotmUboot.Mkimage

/-!
# The images that `bootm` starts

`boot_get_kernel` and `boot_get_ramdisk` over legacy images in memory. An address of the target is
32 bits wide.
-/

namespace InfotmUboot

open Lib

def IH_OS_LINUX : UInt8 := 5

def IH_ARCH_ARM : UInt8 := 2

def IH_TYPE_STANDALONE : UInt8 := 1

def IH_TYPE_KERNEL : UInt8 := 2

def IH_TYPE_RAMDISK : UInt8 := 3

def IH_TYPE_MULTI : UInt8 := 4

section Fields

variable (hdr : List UInt8)

def imageGetOs : UInt8 := hdr.getD 28 0

def imageGetArch : UInt8 := hdr.getD 29 0

def imageGetType : UInt8 := hdr.getD 30 0

def imageCheckMagic : Bool := imageGetMagic hdr = IH_MAGIC

end Fields

/-- `image_get_data` -/
def imageGetData (hdr : ℕ) : ℕ := u32 (hdr + imageHeaderSize)

section Checks

variable (m : Mem)

/-- The checks that kernels and ramdisks have in common. -/
def imageVerify (addr : ℕ) (verify : Bool) : Bool :=
  let hdr := m.load addr imageHeaderSize
  imageCheckMagic hdr && imageCheckHcrc hdr && (!verify || imageCheckDcrc m addr)

def imageGetKernel (imgAddr : ℕ) (verify : Bool) : Option ℕ :=
  if imageVerify m imgAddr verify ∧ imageGetArch (m.load imgAddr imageHeaderSize) = IH_ARCH_ARM then
    some imgAddr
  else none

def imageGetRamdisk (rdAddr : ℕ) (arch : UInt8) (verify : Bool) : Option ℕ :=
  let hdr := m.load rdAddr imageHeaderSize
  if imageVerify m rdAddr verify ∧ imageGetOs hdr = IH_OS_LINUX ∧ imageGetArch hdr = arch ∧
      imageGetType hdr = IH_TYPE_RAMDISK then some rdAddr
  else none

end Checks

/-- What a search for an image ends with. The count of the files in it may have no end. -/
inductive Search (α : Type) where
  | found (a : α)
  | refused
  | endless
  deriving DecidableEq, Repr

def Search.ofOption {α : Type} : Option α → Search α
  | none => .endless
  | some a => .found a

/-- `os_data` and `os_len`, and `legacy_hdr_os` with the copy of the header. -/
structure BootKernel where
  osData : ℕ
  osLen : ℕ
  hdr : ℕ
  hdrCopy : List UInt8
  deriving DecidableEq, Repr

/-- `boot_get_kernel` of the image at `imgAddr`, with the third argument of the command as a number.
Only that of a standalone program goes to memory. -/
def bootGetKernel (imgAddr : ℕ) (load : Option ℕ) (verify : Bool) (m : Mem) :
    Search BootKernel × Mem :=
  if imageCheckMagic (m.load imgAddr imageHeaderSize) then
    match imageGetKernel m imgAddr verify with
    | none => (.refused, m)
    | some hdr =>
      let header := m.load hdr imageHeaderSize
      if imageGetType header = IH_TYPE_KERNEL then
        (.found ⟨imageGetData hdr, imageGetSize header, hdr, header⟩, m)
      else if imageGetType header = IH_TYPE_MULTI then
        (.ofOption ((imageMultiGetimg m hdr 0).map fun (osData, osLen) =>
          ⟨osData, osLen, hdr, header⟩), m)
      else if imageGetType header = IH_TYPE_STANDALONE then
        let m := match load with
          | none => m
          | some n => m.store (hdr + 16) (cpuToUimage n)
        let header := m.load hdr imageHeaderSize
        (.found ⟨imageGetData hdr, imageGetSize header, hdr, header⟩, m)
      else (.refused, m)
  else (.refused, m)

/-- The argument of `bootm` for the ramdisk. -/
inductive RamdiskArg where
  | absent
  | dash
  | addr (a : ℕ)

/-- `boot_get_ramdisk`: `rd_start` and `rd_end` where it returns 0. -/
def bootGetRamdisk (arg : RamdiskArg) (os : BootKernel) (arch : UInt8) (verify : Bool) (m : Mem) :
    Search (ℕ × ℕ) :=
  let range := fun (rdData, rdLen) => if rdData = 0 then (0, 0) else (rdData, u32 (rdData + rdLen))
  match arg with
  | .dash => .found (0, 0)
  | .addr rdAddr =>
    if imageCheckMagic (m.load rdAddr imageHeaderSize) then
      match imageGetRamdisk m rdAddr arch verify with
      | none => .refused
      | some hdr =>
        .found (range (imageGetData hdr, imageGetSize (m.load hdr imageHeaderSize)))
    else .refused
  | .absent =>
    if imageGetType os.hdrCopy = IH_TYPE_MULTI then
      .ofOption ((imageMultiGetimg m os.hdr 1).map range)
    else .found (0, 0)

end InfotmUboot
