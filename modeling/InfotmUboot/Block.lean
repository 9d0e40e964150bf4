import InfotmUboot.Storage
import InfotmUboot.Lib.Extent

/-!
# The partitions of a block device

`storage_get_new_config`, `storage_part` and `block.c`. An index outside an array has no result. A
table's address is an `int` that the drivers take as the 32 bits of a block number, so it is kept as
these. `item_string` finds no `M` before the buffer of a key that is missing.
-/

namespace InfotmUboot

open Lib

def INFO_PART_CFG_BASE : ℕ := 1

/-- `part_table`, an entry of a partition table -/
structure PartTable where
  bootableflag : UInt8
  startCHS : UInt8 × UInt8 × UInt8
  parttype : UInt8
  endCHS : UInt8 × UInt8 × UInt8
  startLBA : ℕ
  sizeinsectors : ℕ
  deriving DecidableEq, Repr

/-- An entry that `memset` has cleared. -/
def PartTable.zero : PartTable := ⟨0, (0, 0, 0), 0, (0, 0, 0), 0, 0⟩

/-- A block that is written: a partition table, with the mark of a partitioned disk or without, or
the information about the partitions. -/
inductive Sector where
  | table (entries : List PartTable) (parted : Bool)
  | info (psz : List PartSz)
  deriving DecidableEq, Repr

/-- `partnum`, `sectors`, `spare_area` (its 64 bits) and `default_cfg` -/
structure PartGlobals where
  partnum : ℕ
  sectors : List ℕ
  spareArea : ℕ
  cfg : List PartSz
  deriving DecidableEq, Repr

/-- The globals as the program is loaded. -/
def bootGlobals : PartGlobals := ⟨0, [256, 256, 256, 256, 0, 0, 0, 0], 128, defaultCfg⟩

/-- `vs_align` and `vs_capacity` of the system disk -/
structure Disk where
  blksz : ℕ
  capacity : ℤ

/-- `lba` -/
def Disk.lba (d : Disk) : ℕ := toU32 d.capacity

/-- What `block_partition` gets from `malloc`, the table with what is in it, and what is in memory
after `default_cfg`. -/
structure Heap where
  locationtable : Option (ℕ → PartTable)
  buffer : Bool
  after : PartSz

section Config

/-- The digits of `item_strtoul`, and what follows them. -/
def itemStrtoulLoop : List UInt8 → ℤ → ℤ × List UInt8
  | [], val => (val, [])
  | c :: cs, val =>
    if 0x30 ≤ c ∧ c ≤ 0x39 then itemStrtoulLoop cs (s32 (s32 (val * 10) + (c.toNat - 0x30)))
    else (val, c :: cs)

def itemStrtoul (info : List UInt8) : ℤ :=
  let (val, p) := itemStrtoulLoop info 0
  if p.head? = some 0x47 ∨ p.head? = some 0x67 then s32 (val * 2 ^ 10)
  else if 0 < val ∧ val < 10 then s32 (val * 2 ^ 10)
  else val

/-- `info` without a unit of MB. -/
def stripUnit (info : List UInt8) : List UInt8 :=
  if info.getLast? = some 0x4d ∨ info.getLast? = some 0x6d then info.dropLast else info

/-- A partition of `storage_get_new_config` that is configured, or has a default: the globals, and
the size the items give it. -/
def addPart (i : ℕ) (c : PartSz) (info : List UInt8) (g : PartGlobals) : ℤ × PartGlobals :=
  let size := itemStrtoul (stripUnit info)
  let c := if size ≠ 0 then { c with size } else c
  (size, { g with
    cfg := g.cfg.set (i + INFO_SPARE_IMAGES) c
    sectors := g.sectors.set g.partnum (toU32 c.size)
    partnum := g.partnum + 1 })

/-- The loop of `storage_get_new_config`, with `n` partitions left. -/
def getNewConfigLoop (tab : Mem) : ℕ → ℕ → PartGlobals → Option (ℤ × PartGlobals)
  | 0, _, g => some (if g.partnum = INFO_MAX_PARTITIONS then -1 else 0, g)
  | n + 1, i, g =>
    match g.cfg[i + INFO_SPARE_IMAGES]? with
    | none => none
    | some c =>
      match itemString tab (partKey c.name) 0 with
      | .outside => none
      | l =>
        let info := match l with
          | .found buf => buf
          | _ => []
        if info = [] ∧ 4 ≤ i then some (0, g)
        else if INFO_MAX_PARTITIONS ≤ g.partnum then none
        else
          let (size, g) := addPart i c info g
          if size = 0 ∧ 3 ≤ i ∧ i ≠ 4 then
            some (if g.partnum = INFO_MAX_PARTITIONS then -1 else 0, g)
          else getNewConfigLoop tab n (i + 1) g

def storageGetNewConfig (tab : Mem) (g : PartGlobals) : Option (ℤ × PartGlobals) :=
  getNewConfigLoop tab INFO_MAX_PARTITIONS 0 g

end Config

section Reformat

variable (blksz : ℕ)

/-- Blocks in 1MB. -/
def multip : ℕ := 2 ^ 20 / blksz

/-- `spare_area` in blocks, rounded. -/
def reformatSpare (spare : ℕ) : ℕ :=
  (andNot ((spare * multip blksz + (INFO_PART_CFG_BASE + 1) + 2) % 2 ^ 64) (0x40 - 1) + 0x40) % 2 ^
    64

/-- The sizes in blocks, from the fourth on each a slot further. -/
def reformatShift (s : List ℕ) : List ℕ :=
  let s := s.map fun x => u32 (x * multip blksz)
  s.take 4 ++ (s.drop 3).take 4

/-- `local`, where it has no size: it gets the rest of the extended partition, or its slot closes
up; no list where the others do not fit. -/
def reformatLocal (partnum : ℕ) (s : List ℕ) : Option (Option (List ℕ)) :=
  if s.getD 5 0 = 0 then
    if INFO_MAX_PARTITIONS < partnum then none
    else
      let count := u32 ((s.take partnum).drop 4).sum
      if s.getD 3 0 ≤ count then some none
      else if multip blksz * 2 ^ 5 < s.getD 3 0 - count then
        some (some (s.set 5 (s.getD 3 0 - count)))
      else
        let index := max 5 partnum
        if INFO_MAX_PARTITIONS ≤ index then none
        else some (some (s.take 5 ++ (s.drop 6).take (index - 5) ++ 0 :: s.drop (index + 1)))
  else some (some s)

/-- Room for the table of a logical partition. -/
def trim (x : ℕ) : ℕ := if x ≠ 0 then u32 (x + 2 ^ 32 - 0x10) else x

def reformatTrim (partnum : ℕ) (s : List ℕ) : List ℕ :=
  s.take 4 ++ ((s.drop 4).take (partnum - 4)).map trim ++ s.drop (max 4 partnum)

/-- The number of partitions up to the last that has a size. -/
def lastPart (s : List ℕ) : ℕ := s.length - (s.reverse.takeWhile (· = 0)).length

def reformatPartSize (sectorcount : ℤ) (g : PartGlobals) : Option (ℤ × PartGlobals) :=
  let spare := reformatSpare blksz g.spareArea
  let partnum := g.partnum + 1
  let s := reformatShift blksz g.sectors
  let count := s32 (s.take 3).sum
  if sectorcount ≤ count then some (-1, ⟨partnum, s, spare, g.cfg⟩)
  else
    let s := s.set 3 (toU32 (sectorcount - count - spare))
    match reformatLocal blksz partnum s with
    | none => none
    | some none => some (-1, ⟨partnum, s, spare, g.cfg⟩)
    | some (some s) =>
      if INFO_MAX_PARTITIONS < partnum then none
      else
        let s := reformatTrim partnum s
        if lastPart s = 0 then none else some (0, ⟨lastPart s, s, spare, g.cfg⟩)

end Reformat

section Location

/-- An entry of `init_part_location`, still without its place. -/
def PartTable.fill (l : PartTable) (size : ℕ) : PartTable :=
  { l with
    bootableflag := 0
    startCHS := (0x03, 0xd0, 0xff)
    parttype := 0x83
    endCHS := (0x03, 0xd0, 0xff)
    sizeinsectors := size }

/-- The first loop of `init_part_location`, from `i` on: it ends with the first size of 0. -/
def fillLocation (s : List ℕ) : ℕ → ℕ → (ℕ → PartTable) → Option (ℕ → PartTable)
  | 0, _, loc => some loc
  | n + 1, i, loc =>
    let loc := Function.update loc i ((loc i).fill (s.getD i 0))
    match s[i + 1]? with
    | none => none
    | some 0 => some loc
    | some _ => fillLocation s n (i + 1) loc

/-- A primary partition at `start`, or at the next multiple of 0x40. -/
def PartTable.place (l : PartTable) (start : ℕ) : PartTable :=
  if start % 0x40 ≠ 0 then
    { l with
      startLBA := u32 (start + (0x40 - start % 0x40))
      sizeinsectors := u32 (l.sizeinsectors + 2 ^ 32 - 0x40) }
  else { l with startLBA := start }

/-- Primary partition `i` goes after the one before it. -/
def placeNext (partnum i : ℕ) (loc : ℕ → PartTable) : ℕ → PartTable :=
  if i < partnum then
    Function.update loc i
      ((loc i).place (u32 ((loc (i - 1)).startLBA + (loc (i - 1)).sizeinsectors)))
  else loc

/-- The entries once they have their sizes. -/
def placeLocation (partnum spare : ℕ) (loc : ℕ → PartTable) : ℕ → PartTable :=
  let loc := if 4 < partnum then Function.update loc 3 { loc 3 with parttype := 0x05 } else loc
  let loc := Function.update loc 0 { loc 0 with startCHS := (1, 1, 0), startLBA := u32 spare }
  let loc := placeNext partnum 3 (placeNext partnum 2 (placeNext partnum 1 loc))
  fun i => if 4 ≤ i ∧ i < partnum then { loc i with startLBA := 0x10 } else loc i

def initPartLocation (g : PartGlobals) (locationtable : ℕ → PartTable) :
    Option (ℕ → PartTable) :=
  if INFO_MAX_PARTITIONS < g.partnum then none
  else
    match fillLocation g.sectors g.partnum 0 locationtable with
    | none => none
    | some loc => some (placeLocation g.partnum g.spareArea loc)

/-- `init_part_table`: the table of a step and its address, or -1. -/
def initPartTable (loc : ℕ → PartTable) (partnum step tableaddr : ℕ) :
    Option (List PartTable × ℕ) :=
  if step = 0 then some ((List.range 4).map loc, 0)
  else if partnum - 3 < step then none
  else
    let next :=
      if step < partnum - 4 then
        { loc (step + 4) with
          parttype := 0x05
          startLBA := u32 ((List.range step).map fun i => 0x10 + (loc (i + 4)).sizeinsectors).sum }
      else PartTable.zero
    some ([loc (step + 3), next, PartTable.zero, PartTable.zero],
      if step = 1 then (loc 3).startLBA
      else u32 (tableaddr + 0x10 + (loc (step + 2)).sizeinsectors))

end Location

section Partition

/-- The tables of the logical partitions from `i` on, and where the partitions begin. -/
def writeTables (loc : ℕ → PartTable) (partnum : ℕ) :
    ℕ → ℕ → ℕ → List (ℕ × Sector) × List ℕ
  | 0, _, _ => ([], [])
  | n + 1, i, tableaddr =>
    let (table, tableaddr) := match initPartTable loc partnum i tableaddr with
      | some r => r
      | none => (List.replicate 4 PartTable.zero, tableaddr)
    let (writes, bases) := writeTables loc partnum n (i + 1) tableaddr
    ((tableaddr, .table table false) :: writes, u32 (tableaddr + 0x10) :: bases)

/-- Which base goes to which of the partitions in the information block. -/
def infoSlots (partnum : ℕ) : List (ℕ × ℕ) :=
  [(0, 0), (1, 1), (2, 2)] ++
    if 4 < partnum then
      (3, 4) ::
        if partnum = 8 then [(5, 6), (4, 5), (INFO_MAX_PARTITIONS - 2, partnum - 1)]
        else if partnum = 7 then [(4, 5), (INFO_MAX_PARTITIONS - 2, partnum - 1)]
        else if partnum = 6 then [(INFO_MAX_PARTITIONS - 2, partnum - 1)]
        else []
    else []

def setOffs (imagebase : List ℕ) (psz : List PartSz) (slot : ℕ × ℕ) : Option (List PartSz) :=
  match imagebase[slot.2]? with
  | none => none
  | some base => some (psz.modify (slot.1 + INFO_SPARE_IMAGES) fun p => { p with offs := s32 base })

/-- What a call leaves: its code, the globals, and the blocks it has written, in order. -/
structure BlockRun where
  ret : ℤ
  globals : PartGlobals
  writes : List (ℕ × Sector)

/-- What `block_partition` writes once the partitions have their places. -/
def writePartitions (g : PartGlobals) (after : PartSz) (loc : ℕ → PartTable) : Option BlockRun :=
  let tables := writeTables loc g.partnum (g.partnum - 4) 1 0
  let imagebase := (List.range (min 4 g.partnum)).map (fun i => (loc i).startLBA) ++ tables.2
  match (infoSlots g.partnum).foldlM (setOffs imagebase) (g.cfg ++ [after]) with
  | none => none
  | some psz =>
    some ⟨0, g, tables.1 ++ [(0, .table ((List.range 4).map loc) true), (1, .info psz)]⟩

def blockPartition (d : Disk) (h : Heap) (g : PartGlobals) : Option BlockRun :=
  if d.lba = 0 then some ⟨-1, g, []⟩
  else
    match h.locationtable with
    | none => some ⟨-1, g, []⟩
    | some locationtable =>
      match reformatPartSize d.blksz (s32 d.lba) g with
      | none => none
      | some (_, g) =>
        match initPartLocation g locationtable with
        | none => none
        | some loc => if h.buffer then writePartitions g h.after loc else some ⟨-1, g, []⟩

/-- `block_get_base` over what it reads of the information block. -/
def blockGetBaseOf (d : Disk) (psz : List PartSz) (target : List UInt8) : ℤ :=
  let index := psz.findIdx fun p => p.name = target
  let base := ((psz[index]?).map PartSz.offs).getD 0
  let base := if index < INFO_SPARE_IMAGES then base * 2 ^ 20 else base * d.blksz
  if d.capacity * d.blksz < base then -1 else base

/-- `storage_part`, given what the storage layer says of each device -/
def storagePart (tab : Mem) (disk : ℤ → Disk) (h : Heap) (g : PartGlobals) : Option BlockRun :=
  match storageDevice tab with
  | none => none
  | some dev =>
    if dev = DEV_NAND then some ⟨0, g, []⟩
    else if 6 ≤ dev ∧ dev ≤ 10 then
      match storageGetNewConfig tab g with
      | none => none
      | some (_, g) => blockPartition (disk dev) h g
    else some ⟨0, g, []⟩

end Partition

section Chain

/-- What a block holds once the writes are done. -/
def written (writes : List (ℕ × Sector)) (b : ℕ) : Option Sector :=
  ((writes.reverse.find? fun w => w.1 = b)).map Prod.snd

/-- The logical partitions of the extended partition at `ext`, from the table at block `b` on. -/
def logicals (writes : List (ℕ × Sector)) (ext : ℕ) : ℕ → ℕ → Option (List Extent)
  | 0, _ => none
  | n + 1, b =>
    match written writes b with
    | some (.table (e :: next :: _) _) =>
      if e.parttype = 0x83 then
        if next.parttype = 0 then some [⟨b + e.startLBA, e.sizeinsectors⟩]
        else if next.parttype = 0x05 then
          (logicals writes ext n (u32 (ext + next.startLBA))).map
            (⟨b + e.startLBA, e.sizeinsectors⟩ :: ·)
        else none
      else none
    | _ => none

/-- The partitions of a disk, as the chain of tables describes them. -/
def chain (writes : List (ℕ × Sector)) : Option (List Extent) :=
  match written writes 0 with
  | some (.table [p0, p1, p2, p3] _) =>
    if p0.parttype = 0x83 ∧ p1.parttype = 0x83 ∧ p2.parttype = 0x83 then
      let primaries := [p0, p1, p2].map fun p => Extent.mk p.startLBA p.sizeinsectors
      if p3.parttype = 0x83 then some (primaries ++ [⟨p3.startLBA, p3.sizeinsectors⟩])
      else if p3.parttype = 0x05 then
        (logicals writes p3.startLBA writes.length p3.startLBA).map (primaries ++ ·)
      else none
    else none
  | _ => none

end Chain

end InfotmUboot
