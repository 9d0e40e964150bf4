import InfotmUboot.Lib.Prog
import InfotmUboot.PartDos
import InfotmUboot.Text

/-!
# Printing the DOS partitions

The list of partitions that `print_part_dos` prints, and `get_partition_info_dos` once more: here
the disk is asked for a sector at a time, so that a run leaves the sectors that were visited. Both
go on for as long as the tables lead on, and a run that is cut short has no result.
-/

namespace InfotmUboot

open Lib

abbrev SectorProg := Prog ℕ (Option (List UInt8))

/-- `block_read` of one block. -/
def sectorStep (blockRead : ℕ → Option (List UInt8)) (u : Unit) (b : ℕ) :
    Option (List UInt8) × Unit := (blockRead b, u)

section Print

def DOS_PBR_FSTYPE_OFFSET : ℕ := 0x36

def DOS_PBR32_FSTYPE_OFFSET : ℕ := 0x52

def DOS_PBR_MEDIA_TYPE_OFFSET : ℕ := 0x15

/-- `DOS_MBR` and `DOS_PBR` -/
inductive DosBlock where
  | mbr
  | pbr
  deriving DecidableEq, Repr

/-- None without the signature. -/
def testBlockType (buffer : List UInt8) : Option DosBlock :=
  if buffer.getD DOS_PART_MAGIC_OFFSET 0 ≠ 0x55 ∨
      buffer.getD (DOS_PART_MAGIC_OFFSET + 1) 0 ≠ 0xaa then none
  else if (buffer.drop DOS_PBR_FSTYPE_OFFSET).take 3 = ascii "FAT" ∨
      (buffer.drop DOS_PBR32_FSTYPE_OFFSET).take 5 = ascii "FAT32" then some .pbr
  else some .mbr

inductive DosLine where
  | part (num : ℕ) (start size : ℤ) (sysInd : UInt8)
  | whole (lba : ℕ) (mediaType : UInt8)
  | unread (sector : ℤ)
  | badSignature (lo hi : UInt8)
  deriving DecidableEq, Repr

def printOnePart (p : DosPartition) (extPartSector partNum : ℕ) : DosLine :=
  .part partNum (s32 (extPartSector + p.start4)) (s32 p.size4) p.sysInd

/-- The first loop over the entries: the lines, and the number of the next partition. -/
def printParts (extPartSector : ℕ) : List DosPartition → ℕ → List DosLine × ℕ
  | [], partNum => ([], partNum)
  | pt :: pts, partNum =>
    let line :=
      if pt.sysInd ≠ 0 ∧ (extPartSector = 0 ∨ ¬isExtended pt.sysInd) then
        [printOnePart pt extPartSector partNum]
      else []
    -- Reverse engr the fdisk part# assignment rule!
    let partNum :=
      if extPartSector = 0 ∨ (pt.sysInd ≠ 0 ∧ ¬isExtended pt.sysInd) then partNum + 1 else partNum
    let r := printParts extPartSector pts partNum
    (line ++ r.1, r.2)

/-- The second loop: each extended partition in its turn. -/
def printLinks (print : ℕ → SectorProg (Option (List DosLine))) :
    List ℕ → SectorProg (Option (List DosLine))
  | [] => pure (some [])
  | lbaStart :: rest => do
    let some lines ← print lbaStart | return none
    let some others ← printLinks print rest | return none
    return some (lines ++ others)

variable (lba : ℕ)

def printPartitionExtended : ℕ → ℕ → ℕ → ℕ → SectorProg (Option (List DosLine))
  | 0, _, _, _ => pure none
  | n + 1, extPartSector, relative, partNum => do
    let some buffer ← Prog.op extPartSector | return some [.unread (s32 extPartSector)]
    match testBlockType buffer with
    | none =>
      return some [.badSignature (buffer.getD DOS_PART_MAGIC_OFFSET 0)
        (buffer.getD (DOS_PART_MAGIC_OFFSET + 1) 0)]
    | some .pbr => return some [.whole lba (buffer.getD DOS_PBR_MEDIA_TYPE_OFFSET 0)]
    | some .mbr => do
      let pts := (List.range 4).map (dosPartition buffer)
      let (lines, partNum) := printParts extPartSector pts partNum
      let starts := (pts.filter fun pt => isExtended pt.sysInd).map fun pt =>
        u32 (pt.start4 + relative)
      let some others ← printLinks (fun lbaStart => printPartitionExtended n lbaStart
        (if extPartSector = 0 then lbaStart else relative) partNum) starts | return none
      return some (lines ++ others)

def printPartDos (n : ℕ) : SectorProg (Option (List DosLine)) :=
  printPartitionExtended lba n 0 0 1

end Print

section Info

variable (whichPart : ℤ)

/-- `get_partition_info_extended` -/
def askPartitionInfoExtended : ℕ → ℕ → ℕ → ℕ → SectorProg (Option (Option DiskPartition))
  | 0, _, _, _ => pure none
  | n + 1, extPartSector, relative, partNum => do
    let some buffer ← Prog.op extPartSector | return some none
    if buffer.getD DOS_PART_MAGIC_OFFSET 0 ≠ 0x55 ∨
        buffer.getD (DOS_PART_MAGIC_OFFSET + 1) 0 ≠ 0xaa then return some none
    let pts := (List.range 4).map (dosPartition buffer)
    match findPart extPartSector whichPart pts partNum with
    | .inl info => return some (some info)
    | .inr partNum =>
      match pts.find? fun pt => isExtended pt.sysInd with
      | none => return some none
      | some pt =>
        let lbaStart := u32 (pt.start4 + relative)
        askPartitionInfoExtended n lbaStart (if extPartSector = 0 then lbaStart else relative)
          partNum

def askPartitionInfoDos (n : ℕ) : SectorProg (Option (Option DiskPartition)) :=
  askPartitionInfoExtended whichPart n 0 0 1

end Info

end InfotmUboot
