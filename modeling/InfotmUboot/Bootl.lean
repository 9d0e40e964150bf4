import InfotmUboot.Image
import InfotmUboot.Text

/-!
# Loading the boot images

`load_image` over the reads of the current device. It reads the first 4K for the header, and then
the image as a whole, for some images to another place.
-/

namespace InfotmUboot

open Lib

def CONFIG_MAX_LOGO_SIZE : ℤ := 0x400000

/-- What `load_image` returns, where it read that from, and where the header was whose checksum it
had checked, which the code does not keep. -/
structure LoadedImage where
  dst : ℕ
  image : ℕ
  checked : Option ℕ
  deriving DecidableEq, Repr

section Load

-- `storage_offset`, and `vs_read` with what it puts in the buffer
variable (storageOffset : List UInt8 → ℕ) (vsRead : ℕ → ℤ → ℤ × List UInt8) (rambase : ℕ)

/-- One of the two rounds, and the memory behind it. -/
def loadImageTry (imagename : List UInt8) (m : Mem) : Option LoadedImage × Mem :=
  let image := storageOffset imagename
  if imagename = ascii "logo" then
    (some ⟨rambase, image, none⟩, m.store rambase (vsRead image CONFIG_MAX_LOGO_SIZE).2)
  else
    let r := vsRead image 0x1000
    let m := m.store rambase r.2
    if 0x1000 > r.1 then (none, m)
    else
      let hdr := m.load rambase imageHeaderSize
      if imageCheckHcrc hdr then
        let l := imageGetSize hdr
        let dst := rambase + if imageGetComp hdr = 1 then 0x6000000 else 0
        let r := vsRead image (s32 (u32 (l + imageHeaderSize) : ℕ))
        let m := m.store dst r.2
        -- the length is unsigned, and so is the result next to it
        if u32 (l + imageHeaderSize) > toU32 r.1 then (none, m)
        else (some ⟨dst, image, some rambase⟩, m)
      else (none, m)

def loadImage (name : List UInt8) (alternate : Option (List UInt8)) (m : Mem) :
    Option LoadedImage × Mem :=
  match loadImageTry storageOffset vsRead rambase name m with
  | (some dst, m) => (some dst, m)
  | (none, m) =>
    match alternate with
    | none => (none, m)
    | some imagename => loadImageTry storageOffset vsRead rambase imagename m

end Load

end InfotmUboot
