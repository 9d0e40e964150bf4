import InfotmUboot.Block
import InfotmUboot.Lib.Bytes

/-!
# The DOS partition reader

`part_dos.c` over the blocks that `block_partition` leaves on a disk. A partition's name and type
are left out: they follow from the device and the number. The reader goes from table to table as
long as they lead on, so it is given fuel and has no result when that runs out.
-/

namespace InfotmUboot

open Lib

section Block

def DISK_PARTITIONED : ℕ := 0x359fc953

def PartTable.bytes (e : PartTable) : List UInt8 :=
  [e.bootableflag, e.startCHS.1, e.startCHS.2.1, e.startCHS.2.2, e.parttype, e.endCHS.1,
    e.endCHS.2.1, e.endCHS.2.2] ++ bytes32 e.startLBA ++ bytes32 e.sizeinsectors

def PartSz.bytes (p : PartSz) : List UInt8 :=
  fit 12 p.name ++ bytes32 (toU32 p.offs) ++ bytes32 (toU32 p.size)

/-- The block of a partition table. -/
def tableBlock (blksz : ℕ) (entries : List PartTable) (parted : Bool) : List UInt8 :=
  fit blksz (List.replicate 0x120 0 ++
    (if parted then bytes32 DISK_PARTITIONED else List.replicate 4 0) ++
      List.replicate (446 - 0x124) 0 ++ entries.flatMap PartTable.bytes ++ [0x55, 0xaa])

variable (d : Disk) (old : ℕ → List UInt8) (writes : List (ℕ × Sector))

/-- What a block holds once the writes are done. The information is copied over the beginning of the
buffer that the first table was written from. -/
def Disk.block (b : ℕ) : List UInt8 :=
  match written writes b with
  | some (.table entries parted) => tableBlock d.blksz entries parted
  | some (.info psz) =>
    let info := psz.flatMap PartSz.bytes
    match written writes 0 with
    | some (.table entries parted) => info ++ (tableBlock d.blksz entries parted).drop info.length
    | _ => info
  | none => old b

/-- `block_read` of one block: past the end of the disk nothing was written and nothing is read. -/
def Disk.blockRead (b : ℕ) : Option (List UInt8) :=
  if (b : ℤ) < d.capacity then some (d.block old writes b) else none

end Block

section Reader

def DOS_PART_TBL_OFFSET : ℕ := 0x1be

def DOS_PART_MAGIC_OFFSET : ℕ := 0x1fe

structure DosPartition where
  bootInd : UInt8
  sysInd : UInt8
  start4 : ℕ
  size4 : ℕ
  deriving DecidableEq, Repr

structure DiskPartition where
  start : ℕ
  size : ℕ
  blksz : ℕ
  deriving DecidableEq, Repr

def le32 (buffer : List UInt8) (o : ℕ) : ℕ := Mem.get32 (fun i => buffer.getD i 0) o

/-- Entry `i` of the table in a block. -/
def dosPartition (buffer : List UInt8) (i : ℕ) : DosPartition :=
  let pt := DOS_PART_TBL_OFFSET + 16 * i
  ⟨buffer.getD pt 0, buffer.getD (pt + 4) 0, le32 buffer (pt + 8), le32 buffer (pt + 12)⟩

def isExtended (partType : UInt8) : Bool := partType = 0x5 ∨ partType = 0xf ∨ partType = 0x85

/-- The first loop over the entries: the partition, or the number of the next one. -/
def findPart (extPartSector : ℕ) (whichPart : ℤ) : List DosPartition → ℕ → DiskPartition ⊕ ℕ
  | [], partNum => .inr partNum
  | pt :: pts, partNum =>
    if pt.bootInd &&& ~~~0x80 = 0 ∧ pt.sysInd ≠ 0 ∧ (partNum : ℤ) = whichPart ∧
        ¬isExtended pt.sysInd then
      .inl ⟨u32 (extPartSector + pt.start4), pt.size4, 512⟩
    -- Reverse engr the fdisk part# assignment rule!
    else if extPartSector = 0 ∨ (pt.sysInd ≠ 0 ∧ ¬isExtended pt.sysInd) then
      findPart extPartSector whichPart pts (partNum + 1)
    else findPart extPartSector whichPart pts partNum

variable (blockRead : ℕ → Option (List UInt8)) (whichPart : ℤ)

/-- The partition of a number, or -1, in the table at `extPartSector` and those it leads to. -/
def getPartitionInfoExtended : ℕ → ℕ → ℕ → ℕ → Option (Option DiskPartition)
  | 0, _, _, _ => none
  | n + 1, extPartSector, relative, partNum =>
    match blockRead extPartSector with
    | none => some none
    | some buffer =>
      if buffer.getD DOS_PART_MAGIC_OFFSET 0 ≠ 0x55 ∨
          buffer.getD (DOS_PART_MAGIC_OFFSET + 1) 0 ≠ 0xaa then some none
      else
        let pts := (List.range 4).map (dosPartition buffer)
        match findPart extPartSector whichPart pts partNum with
        | .inl info => some (some info)
        | .inr partNum =>
          match pts.find? fun pt => isExtended pt.sysInd with
          | none => some none
          | some pt =>
            let lbaStart := u32 (pt.start4 + relative)
            getPartitionInfoExtended n lbaStart (if extPartSector = 0 then lbaStart else relative)
              partNum

def getPartitionInfoDos (n : ℕ) : Option (Option DiskPartition) :=
  getPartitionInfoExtended blockRead whichPart n 0 0 1

end Reader

end InfotmUboot
