import InfotmUboot.Image

/-!
# Images of several files

What `mkimage` writes for a list of files and where `image.c` finds them again. The host has files
of any length; an address of the target is 32 bits wide.
-/

namespace InfotmUboot

open Lib

/-- `cpu_to_uimage` -/
def cpuToUimage (n : ℕ) : List UInt8 := (bytes32 n).reverse

section Writer

/-- What the options of `mkimage` put into the header. -/
structure ImageOpts where
  time : ℕ
  addr : ℕ
  ep : ℕ
  os : UInt8
  arch : UInt8
  type : UInt8
  comp : UInt8
  name : List UInt8

def IH_NMLEN : ℕ := 32

/-- The header in front of a payload, with a checksum of its own. -/
def headerFields (o : ImageOpts) (payload : List UInt8) (hcrc : ℕ) : List UInt8 :=
  let checksum := crc32 0 (payload.take (u32 payload.length))
  cpuToUimage IH_MAGIC ++ (cpuToUimage hcrc ++ (cpuToUimage o.time ++
    (cpuToUimage payload.length ++ (cpuToUimage o.addr ++ (cpuToUimage o.ep ++
      (cpuToUimage checksum ++ ([o.os, o.arch, o.type, o.comp] ++ fit IH_NMLEN o.name)))))))

/-- The checksum of the header is taken while there is none in it. -/
def imageHeader (o : ImageOpts) (payload : List UInt8) : List UInt8 :=
  headerFields o payload (crc32 0 (headerFields o payload 0))

/-- What is written, and the result. A count that is negative is refused. -/
def hostWrite (data : List UInt8) (size : ℤ) : List UInt8 × ℤ :=
  if size < 0 then ([], -1) else (data.take size.toNat, size)

-- the files by their names
variable (files : List UInt8 → Option (List UInt8))

/-- A file of no bytes cannot be mapped. The padding comes from a variable of four bytes. -/
def copyFile (datafile : List UInt8) (pad : Bool) : Option (List UInt8) := do
  let data ← files datafile
  if data = [] then none
  else
    let size := s32 data.length
    let (out, n) := hostWrite data size
    if n ≠ size then none
    else
      let tail := size.tmod 4
      if pad ∧ tail ≠ 0 then
        if 4 - tail ≤ 4 then some (out ++ List.replicate (4 - tail).toNat 0) else none
      else some out

/-- The sizes of the files and a zero. -/
def sizeTable : List (List UInt8) → Option (List UInt8)
  | [] => some (cpuToUimage 0)
  | file :: names => do
    let data ← files file
    let table ← sizeTable names
    some (cpuToUimage data.length ++ table)

/-- The files, and padding behind each but the last. -/
def copyFiles : List (List UInt8) → Option (List UInt8)
  | [] => some []
  | [file] => copyFile files file false
  | file :: next :: names => do
    let out ← copyFile files file true
    let rest ← copyFiles (next :: names)
    some (out ++ rest)

/-- The image of the files in a list with `:` between them. -/
def mkimageMulti (o : ImageOpts) (datafile : List UInt8) : Option (List UInt8) := do
  let names := datafile.splitOn 0x3a
  let table ← sizeTable files names
  let data ← copyFiles files names
  some (imageHeader o (table ++ data) ++ (table ++ data))

end Writer

section Reader

-- the header is at `hdr`
variable (m : Mem) (hdr : ℕ)

/-- `uimage_to_cpu (size[i])` -/
def sizeSlot (i : ℕ) : ℕ := uimageToCpu (m.load (u32 (hdr + imageHeaderSize + i * 4)) 4) 0

/-- The memory has no more slots than this, so a loop that passes them all has no end. -/
def countSlots : ℕ → ℕ → Option ℕ
  | 0, _ => none
  | n + 1, count => if sizeSlot m hdr count ≠ 0 then countSlots n (count + 1) else some count

def imageMultiCount : Option ℕ := countSlots m hdr (2 ^ 30) 0

/-- `data` and `len` -/
def imageMultiGetimg (idx : ℕ) : Option (ℕ × ℕ) := do
  let count ← imageMultiCount m hdr
  let imgData := hdr + imageHeaderSize + (count + 1) * 4
  if idx < count then
    let offset := (List.range idx).foldl
      (fun offset i => offset + andNot (u32 (sizeSlot m hdr i + 3)) 3) 0
    some (u32 (imgData + offset), sizeSlot m hdr idx)
  else some (0, 0)

end Reader

end InfotmUboot
