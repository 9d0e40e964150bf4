import InfotmUboot.Fastboot
import InfotmUboot.Image

/-!
# The boot command of fastboot

`fastboot_do_boot` over one memory, in which the download lies where the images are copied to. What
it calls is listed, with the copies it makes.
-/

namespace InfotmUboot

open Lib

def CFG_FASTBOOT_MKBOOTIMAGE_PAGE_SIZE : ℕ := 2048

/-- `interface.transfer_buffer` -/
def transferBuffer : ℕ := 0x80008000

def CONFIG_SYS_PHY_LK_BASE : ℕ := 0x80007fc0

def CONFIG_SYS_PHY_RD_BASE : ℕ := 0x80ffffc0

def CONFIG_RESERVED_LOGO_BUFFER : ℕ := 0x9a800000

def CONFIG_RESERVED_UBOOT0_BUFFER : ℕ := 0x9b800000

/-- `sizeof(struct fastboot_boot_img_hdr)` -/
def fastbootBootImgHdrSize : ℕ := 608

/-- `memcpy`, byte by byte from the front. -/
def memcpyForward : ℕ → ℕ → ℕ → Mem → Mem
  | 0, _, _, m => m
  | count + 1, dest, src, m => memcpyForward count (dest + 1) (src + 1) (m.store dest [m src])

inductive DoBootCall where
  | setBootType
  | bootl
  | txStatus (response : List UInt8)
  | setenvBootargs (args : List UInt8)
  | memcpy (dest src count : ℕ)
  | doBoot (kernel ramdisk : ℕ)
  deriving DecidableEq, Repr

structure DoBootOut where
  ret : ℤ
  response : List UInt8
  calls : List DoBootCall
  mem : Mem

/-- What else the function depends on: the download's size, whether there is memory for a copy of
the header, and what is read from the boot device for the logo and for uboot0, if it is. -/
structure DoBootWorld where
  downloadBytes : ℕ
  alloc : Bool
  logo : List UInt8
  uboot0 : List UInt8

section DoBoot

variable (w : DoBootWorld)

/-- The kernel and the ramdisk, once the device has its logo; `sizes` are those of the header. -/
def bootCopies (sizes : ℕ × ℕ) (m : Mem) : List DoBootCall × Mem :=
  let imagebase := transferBuffer + CFG_FASTBOOT_MKBOOTIMAGE_PAGE_SIZE
  let m := memcpyForward sizes.1 CONFIG_SYS_PHY_LK_BASE imagebase m
  let kernel := DoBootCall.memcpy CONFIG_SYS_PHY_LK_BASE imagebase sizes.1
  if imageCheckHcrc (m.load CONFIG_SYS_PHY_LK_BASE imageHeaderSize) &&
      imageCheckDcrc m CONFIG_SYS_PHY_LK_BASE then
    let imagebase := u32 (imagebase +
      andNot (u32 (sizes.1 + CFG_FASTBOOT_MKBOOTIMAGE_PAGE_SIZE))
        (CFG_FASTBOOT_MKBOOTIMAGE_PAGE_SIZE - 1))
    let m := memcpyForward sizes.2 CONFIG_SYS_PHY_RD_BASE imagebase m
    let ramdisk := DoBootCall.memcpy CONFIG_SYS_PHY_RD_BASE imagebase sizes.2
    if imageCheckHcrc (m.load CONFIG_SYS_PHY_RD_BASE imageHeaderSize) &&
        imageCheckDcrc m CONFIG_SYS_PHY_RD_BASE then
      ([kernel, ramdisk, .doBoot CONFIG_SYS_PHY_LK_BASE CONFIG_SYS_PHY_RD_BASE], m)
    else ([kernel, ramdisk], m)
  else ([kernel], m)

def fastbootDoBoot (para : List UInt8) (m : Mem) : DoBootOut :=
  let calls :=
    if w.downloadBytes = 0 then
      (if para.take 8 = ascii "recovery" then [DoBootCall.setBootType] else []) ++
        [DoBootCall.bootl]
    else []
  if CFG_FASTBOOT_MKBOOTIMAGE_PAGE_SIZE > w.downloadBytes then
    ⟨0, ascii "FAILThere may has data lost", calls, m⟩
  else if ¬w.alloc then ⟨-1, ascii "FAILFailed to allocate buffer", calls, m⟩
  else
    let fbHdr := m.load transferBuffer fastbootBootImgHdrSize
    let imagebase := transferBuffer + CFG_FASTBOOT_MKBOOTIMAGE_PAGE_SIZE
    let calls := calls ++ [.txStatus (ascii "OKAY")]
    if imageGetMagic (m.load imagebase imageHeaderSize) ≠ IH_MAGIC then
      ⟨0, ascii "FAILInvalid image header magic", calls, m⟩
    else
      let cmdline := (fbHdr.drop 64).takeWhile (· ≠ 0)
      let calls := calls ++ if cmdline ≠ [] then [.setenvBootargs cmdline] else []
      let sizes := (m.get32 (transferBuffer + 8), m.get32 (transferBuffer + 16))
      let m := (m.store CONFIG_RESERVED_LOGO_BUFFER w.logo).store CONFIG_RESERVED_UBOOT0_BUFFER
        w.uboot0
      let copies := bootCopies sizes m
      ⟨0, ascii "FAILinvalid boot image", calls ++ copies.1, copies.2⟩

end DoBoot

end InfotmUboot
