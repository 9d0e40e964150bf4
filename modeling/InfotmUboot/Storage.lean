import InfotmUboot.Items

/-!
# The partitions of a NAND system

`default_cfg` and, over it and the items, `storage_device`, `storage_offset` and `storage_size`.
Strings are lists of characters without the NUL; a lookup that runs past the table of items has no
result.
-/

namespace InfotmUboot

open Lib

/-- `part_sz`, in units of 1MB -/
structure PartSz where
  name : List UInt8
  offs : ℤ
  size : ℤ
  deriving DecidableEq, Repr

def defaultCfg : List PartSz := [
  ⟨[0x75, 0x62, 0x6f, 0x6f, 0x74, 0x30], 2, 6⟩,
  ⟨[0x75, 0x62, 0x6f, 0x6f, 0x74, 0x31], 8, 8⟩,
  ⟨[0x69, 0x74, 0x65, 0x6d, 0x73], 16, 8⟩,
  ⟨[0x6c, 0x6f, 0x67, 0x6f], 24, 8⟩,
  ⟨[0x72, 0x61, 0x6d, 0x64, 0x69, 0x73, 0x6b], 32, 8⟩,
  ⟨[0x66, 0x6c, 0x61, 0x67, 0x73], 40, 8⟩,
  ⟨[0x72, 0x65, 0x73, 0x65, 0x72, 0x76, 0x65, 0x64], 48, 8⟩,
  ⟨[0x6b, 0x65, 0x72, 0x6e, 0x65, 0x6c, 0x30], 56, 16⟩,
  ⟨[0x6b, 0x65, 0x72, 0x6e, 0x65, 0x6c, 0x31], 72, 16⟩,
  ⟨[0x72, 0x65, 0x63, 0x6f, 0x76, 0x65, 0x72, 0x79, 0x2d, 0x72, 0x64], 88, 24⟩,
  ⟨[0x73, 0x79, 0x73, 0x74, 0x65, 0x6d], 0, 152⟩,
  ⟨[0x6d, 0x69, 0x73, 0x63], 0, 20⟩,
  ⟨[0x63, 0x61, 0x63, 0x68, 0x65], 0, 64⟩,
  ⟨[0x75, 0x73, 0x65, 0x72, 0x64, 0x61, 0x74, 0x61], 0, 164⟩,
  ⟨[0x6c, 0x6f, 0x63, 0x61, 0x6c], 0, 0⟩,
  ⟨[0x61, 0x64, 0x64, 0x31], 0, 0⟩,
  ⟨[0x61, 0x64, 0x64, 0x32], 0, 0⟩]

/-- The names `storage_device` knows, in the order of the devices. -/
def devNames : List (List UInt8) := [
  [0x62, 0x6e, 0x64],
  [0x6e, 0x6e, 0x64],
  [0x66, 0x6e, 0x64],
  [0x65, 0x65, 0x70, 0x72, 0x6f, 0x6d],
  [0x66, 0x6c, 0x61, 0x73, 0x68],
  [0x68, 0x64, 0x69, 0x73, 0x6b],
  [0x6d, 0x6d, 0x63, 0x30],
  [0x6d, 0x6d, 0x63, 0x31],
  [0x6d, 0x6d, 0x63, 0x32],
  [0x75, 0x64, 0x69, 0x73, 0x6b, 0x30],
  [0x75, 0x64, 0x69, 0x73, 0x6b, 0x31],
  [0x75, 0x64, 0x63],
  [0x65, 0x74, 0x68],
  [0x72, 0x61, 0x6d]]

/-- `"board.disk"` -/
def boardDisk : List UInt8 := [0x62, 0x6f, 0x61, 0x72, 0x64, 0x2e, 0x64, 0x69, 0x73, 0x6b]

/-- The key of a partition's size, `"part."` and its name. -/
def partKey (name : List UInt8) : List UInt8 := [0x70, 0x61, 0x72, 0x74, 0x2e] ++ name

section Storage

variable (tab : Mem)

def storageDevice : Option ℤ :=
  match itemString tab boardDisk 0 with
  | .found buf =>
    match devNames.findIdx? fun d => d.take 20 = buf.take 20 with
    | some i => some i
    | none => some DEV_NAND
  | .missing => some DEV_NAND
  | .outside => none

/-- The loop of `storage_offset`, which has come to `parted`; its result is in bytes once a
partition bears the name, and is `parted` itself if none does. -/
def storageOffsetLoop (p : List UInt8) : List PartSz → ℤ → Option ℤ
  | [], parted => some parted
  | c :: cs, parted =>
    if c.name = p then some (parted * 2 ^ 20)
    else if c.offs ≠ 0 then storageOffsetLoop p cs (c.offs + c.size)
    else do
      let ret ← itemInteger tab (partKey c.name) 0
      storageOffsetLoop p cs (parted + if ret = ITEMS_EINT then c.size else ret)

/-- `storage_offset` on a NAND system -/
def storageOffsetNand (p : List UInt8) : Option ℤ :=
  if p = [0x75, 0x62, 0x6f, 0x6f, 0x74, 0x30] then some 0 else storageOffsetLoop tab p defaultCfg 0

def storageSizeOf (p : List UInt8) : Option ℤ :=
  match defaultCfg.find? fun c => c.name = p with
  | some c => do
    let ret ← itemInteger tab (partKey p) 0
    return (if ret = ITEMS_EINT then c.size else ret) * 2 ^ 20
  | none => some 0

end Storage

end InfotmUboot
