import InfotmUboot.Text

/-!
# Flash partitions

The `mtdparts` command of `cmd_mtdparts.c`: the table of devices and partitions that it keeps in
memory, the texts that the table is read from and written as, and the additions and deletions. A
`struct part_info` is known by its address, a device by its type and number.
-/

namespace InfotmUboot

open Lib

def MTD_DEV_TYPE_NOR : ℕ := 1

def MTD_DEV_TYPE_NAND : ℕ := 2

def MTD_DEV_TYPE_ONENAND : ℕ := 4

def SIZE_REMAINING : ℕ := 0xFFFFFFFF

def OFFSET_NOT_SPECIFIED : ℕ := 0xFFFFFFFF

def MIN_PART_SIZE : ℕ := 4096

def MTDPARTS_MAXLEN : ℕ := 512

def PART_ADD_DESC_MAXLEN : ℕ := 64

/-- `struct mtdids` -/
structure MtdIds where
  type : ℕ
  num : ℕ
  size : ℕ
  mtdId : List UInt8
  size_lt : size < 2 ^ 32
  deriving DecidableEq

/-- `struct part_info` at the address `link`. -/
structure PartInfo where
  link : ℕ
  name : List UInt8
  autoName : Bool
  size : ℕ
  offset : ℕ
  maskFlags : ℕ
  sectorSize : ℕ
  deriving DecidableEq, Repr

structure MtdDevice where
  id : MtdIds
  numParts : ℕ
  parts : List PartInfo
  deriving DecidableEq

/-- `struct mtd_erase_region_info` -/
structure EraseRegion where
  offset : ℕ
  erasesize : ℕ
  numblocks : ℕ

/-- What `get_mtd_device_nm` finds. -/
structure MtdInfo where
  erasesize : ℕ
  eraseregions : List EraseRegion
  erasesize_pos : 0 < erasesize

/-- `last_parts`, the `mtdparts` variable, and the lists with the current partition. The next
address that `malloc` gives is `heap`. -/
structure Mtdparts where
  mtdids : List MtdIds
  devices : List MtdDevice
  currentMtdDev : Option (ℕ × ℕ)
  currentMtdPartnum : ℕ
  lastParts : List UInt8
  mtdparts : Option (List UInt8)
  heap : ℕ

def MtdIds.key (id : MtdIds) : ℕ × ℕ := (id.type, id.num)

section Memsize

def memsizeParse (p : List UInt8) : ℕ × List UInt8 :=
  let (ret, p) := strtoul0 p
  match p with
  | [] => (ret, [])
  | c :: rest =>
    if c ∈ ascii "Gg" then (u32 (ret * 2 ^ 30), rest)
    else if c ∈ ascii "Mm" then (u32 (ret * 2 ^ 20), rest)
    else if c ∈ ascii "Kk" then (u32 (ret * 2 ^ 10), rest)
    else (ret, c :: rest)

def memsizeFormat (size : ℕ) : List UInt8 :=
  if size % 2 ^ 30 = 0 then decimal (size / 2 ^ 30) ++ ascii "g"
  else if size % 2 ^ 20 = 0 then decimal (size / 2 ^ 20) ++ ascii "m"
  else if size % 2 ^ 10 = 0 then decimal (size / 2 ^ 10) ++ ascii "k"
  else decimal size

end Memsize

section Validate

variable (mtd : ℕ → ℕ → Option MtdInfo)

/-- Where the blocks of the regions start. -/
def blockStarts (regions : List EraseRegion) : List ℕ :=
  regions.flatMap fun r => (List.range r.numblocks).map fun j => u32 (r.offset + j * r.erasesize)

/-- `start` behind the loops. -/
def lastStart (regions : List EraseRegion) : Option ℕ :=
  regions.getLast?.map fun r => u32 (r.offset + r.numblocks * r.erasesize)

def partValidateEraseblock (id : MtdIds) (part : PartInfo) : Option PartInfo :=
  match mtd id.type id.num with
  | none => none
  | some mtd =>
    let part := { part with sectorSize := mtd.erasesize }
    if mtd.eraseregions = [] then
      if part.offset % mtd.erasesize ≠ 0 then none
      else if part.size % mtd.erasesize ≠ 0 then none
      else some part
    else if part.offset ∉ blockStarts mtd.eraseregions then none
    else if u32 (part.offset + part.size) ∈ blockStarts mtd.eraseregions then some part
    else if some (u32 (part.offset + part.size)) = lastStart mtd.eraseregions then some part
    else none

def partValidate (id : MtdIds) (part : PartInfo) : Option PartInfo :=
  let part := if part.size = SIZE_REMAINING then { part with size := toU32 (id.size - part.offset) }
    else part
  if part.offset > id.size then none
  else if u32 (part.offset + part.size) ≤ part.offset then none
  else if u32 (part.offset + part.size) > id.size then none
  else partValidateEraseblock mtd id part

/-- The list of `part_sort_add`: the new partition comes before the first that does not start before
it. -/
def sortAdd (new : PartInfo) : List PartInfo → Option (List PartInfo)
  | [] => some [new]
  | pi :: parts =>
    if new.offset = pi.offset ∧ pi.offset = 0 then none
    else if new.offset ≤ pi.offset then some (new :: pi :: parts)
    else (sortAdd new parts).map (pi :: ·)

end Validate

section Parse

variable (mtd : ℕ → ℕ → Option MtdInfo)

def parseSize (p : List UInt8) : Option (ℕ × List UInt8) :=
  match skipChar '-' p with
  | some p => some (SIZE_REMAINING, p)
  | none =>
    let (size, p) := memsizeParse p
    if size < MIN_PART_SIZE then none else some (size, p)

def parseOffset (p : List UInt8) : ℕ × List UInt8 :=
  match skipChar '@' p with
  | some p => memsizeParse p
  | none => (OFFSET_NOT_SPECIFIED, p)

def parseName (p : List UInt8) : Option (Option (List UInt8) × List UInt8) :=
  match skipChar '(' p with
  | some p =>
    match splitChar ')' p with
    | (_, none) => none
    | (name, some p) => if name = [] then none else some (some name, p)
  | none => some (none, p)

def parseFlags (p : List UInt8) : ℕ × List UInt8 :=
  if p.take 2 = ascii "ro" then (1, p.drop 2) else (0, p)

def parseEnd (size : ℕ) (p : List UInt8) : Option (List UInt8) :=
  match skipChar ',' p with
  | some p => if size = SIZE_REMAINING then none else some p
  | none => if p = [] ∨ (skipChar ';' p).isSome then some p else none

/-- `0x%08lx@0x%08lx` -/
def autoName (size offset : ℕ) : List UInt8 :=
  ascii "0x" ++ hex8 size ++ ascii "@0x" ++ hex8 offset

def partParse (link : ℕ) (p : List UInt8) : Option (PartInfo × List UInt8) := do
  let (size, p) ← parseSize p
  let (offset, p) := parseOffset p
  let (name, p) ← parseName p
  let (maskFlags, p) := parseFlags p
  let p ← parseEnd size p
  some (⟨link, name.getD (autoName size offset), name.isNone, size, offset, maskFlags, 0⟩, p)

/-- The loop of `device_parse`, of at most `fuel` rounds: the partitions in the order of the text,
and where it stops. -/
def partsLoop (id : MtdIds) : ℕ → ℕ → ℕ → List UInt8 → Option (List PartInfo × List UInt8)
  | 0, _, _, _ => none
  | fuel + 1, link, offset, p =>
    if p = [] ∨ (skipChar ';' p).isSome then some ([], p)
    else do
      let (part, p) ← partParse link p
      -- the offset is that behind the partition before, unless there is one
      let part := if part.offset = OFFSET_NOT_SPECIFIED then { part with offset := offset }
        else part
      let part ← partValidate mtd id part
      let (parts, p) ← partsLoop id fuel (link + 1) (u32 (part.offset + part.size)) p
      some (part :: parts, p)

def deviceFind (devices : List MtdDevice) (key : ℕ × ℕ) : Option MtdDevice :=
  devices.find? (·.id.key = key)

def idFind (mtdids : List MtdIds) (key : ℕ × ℕ) : Option MtdIds := mtdids.find? (·.key = key)

def idFindByMtdId (mtdids : List MtdIds) (mtdId : List UInt8) : Option MtdIds :=
  mtdids.find? (·.mtdId = mtdId)

/-- The offset behind the last partition of a device that is there already. -/
def endOffset (devices : List MtdDevice) (id : MtdIds) : ℕ :=
  match (deviceFind devices id.key).bind (·.parts.getLast?) with
  | none => 0
  | some part => u32 (part.offset + part.size)

def deviceParse (mtdids : List MtdIds) (devices : List MtdDevice) (link : ℕ) (text : List UInt8) :
    Option (MtdDevice × List UInt8) := do
  let (mtdId, p) := splitChar ':' text
  let p ← p
  let id ← idFindByMtdId mtdids mtdId
  let (parts, p) ← partsLoop mtd id (p.length + 1) link (endOffset devices id) p
  if parts = [] then none
  else do
    let parts ← parts.foldlM (fun parts part => sortAdd part parts) []
    some (⟨id, parts.length % 2 ^ 16, parts⟩, (skipChar ';' p).getD p)

/-- The loop of `parse_mtdparts`, of at most `fuel` rounds. -/
def devicesLoop (mtdids : List MtdIds) :
    ℕ → List MtdDevice → ℕ → List UInt8 → Option (List MtdDevice × ℕ)
  | 0, _, _, _ => none
  | fuel + 1, devices, link, p =>
    if p = [] then some (devices, link)
    else do
      let (dev, p) ← deviceParse mtd mtdids devices link p
      if (deviceFind devices dev.id.key).isSome then none
      else devicesLoop mtdids fuel (devices ++ [dev]) (link + dev.parts.length) p

/-- What `parse_mtdparts` leaves: the list is empty where the text is refused. -/
def parseMtdparts (mtdids : List MtdIds) (link : ℕ) (text : List UInt8) : List MtdDevice × ℕ :=
  if text.take 9 = ascii "mtdparts=" then
    (devicesLoop mtd mtdids (text.length + 1) [] link (text.drop 9)).getD ([], link)
  else ([], link)

end Parse

section Generate

/-- The pieces that are copied for a partition. -/
def partPieces (prev : Option PartInfo) (more : Bool) (part : PartInfo) : List (List UInt8) :=
  let start := match prev with
    | none => 0
    | some prev => u32 (prev.offset + prev.size)
  [memsizeFormat part.size]
    ++ (if start ≠ part.offset then [ascii "@" ++ memsizeFormat part.offset] else [])
    ++ (if part.autoName then [] else [ascii "(" ++ part.name ++ ascii ")"])
    ++ (if part.maskFlags ≠ 0 then [ascii "ro"] else [])
    ++ (if more then [ascii ","] else [])

def partsPieces (numParts : ℕ) : Option PartInfo → ℕ → List PartInfo → List (List UInt8)
  | _, _, [] => []
  | prev, partCnt, part :: parts =>
    partPieces prev (partCnt + 1 < numParts) part
      ++ partsPieces numParts (some part) (partCnt + 1) parts

def devicesPieces : List MtdDevice → List (List UInt8)
  | [] => []
  | dev :: devices =>
    (dev.id.mtdId ++ ascii ":") :: partsPieces dev.numParts none 0 dev.parts
      ++ (if devices ≠ [] then [ascii ";"] else []) ++ devicesPieces devices

/-- Each piece is copied if it fits into what is left. -/
def copyPieces : ℕ → List (List UInt8) → Option (List UInt8)
  | _, [] => some []
  | maxlen, s :: pieces =>
    if maxlen < s.length then none else (copyPieces (maxlen - s.length) pieces).map (s ++ ·)

/-- The copies into memory, the next one to `p`: whether all were made, and where they end. -/
def copyInto : ℕ → List (List UInt8) → ℕ → Mem → Bool × ℕ × Mem
  | _, [], p, m => (true, p, m)
  | maxlen, s :: pieces, p, m =>
    if maxlen < s.length then (false, p, m)
    else copyInto (maxlen - s.length) pieces (p + s.length) (m.store p s)

/-- `generate_mtdparts` into a buffer of `buflen` bytes at `buf`. -/
def generateMtdpartsTo (buf buflen : ℕ) (devices : List MtdDevice) (m : Mem) : ℕ × Mem :=
  if devices = [] then (0, m.store buf [0])
  else
    let m := m.store buf (ascii "mtdparts=" ++ [0])
    let (ok, p, m) := copyInto (toU32 (buflen - 1)) (devicesPieces devices) (buf + 9) m
    if ok then (0, m.store p [0]) else (1, m)

/-- The text in the buffer; the first nine bytes are not counted. -/
def generateMtdparts (buflen : ℕ) (devices : List MtdDevice) : Option (List UInt8) :=
  if devices = [] then some []
  else (copyPieces (toU32 (buflen - 1)) (devicesPieces devices)).map (ascii "mtdparts=" ++ ·)

end Generate

section Edit

variable (mtd : ℕ → ℕ → Option MtdInfo)

def generateMtdpartsSave (m : Mtdparts) : ℕ × Mtdparts :=
  match generateMtdparts MTDPARTS_MAXLEN m.devices with
  | none => (1, { m with lastParts := [], mtdparts := none })
  | some buf => (0, { m with lastParts := buf, mtdparts := if buf = [] then none else some buf })

def mtdPartInfo (dev : MtdDevice) (partNum : ℕ) : Option PartInfo :=
  if partNum ≥ dev.numParts then none else dev.parts[partNum]?

/-- `curr_pi`, if `dev` is the current device. -/
def currPi (m : Mtdparts) (dev : MtdDevice) : Option PartInfo :=
  if m.currentMtdDev = some dev.id.key then mtdPartInfo dev m.currentMtdPartnum else none

def Mtdparts.setDevice (m : Mtdparts) (dev : MtdDevice) : Mtdparts :=
  { m with devices := m.devices.map fun d => if d.id.key = dev.id.key then dev else d }

/-- The first partition of the first device becomes the current one when the current device goes. -/
def deviceDel (m : Mtdparts) (dev : MtdDevice) : Mtdparts :=
  let m' := { m with devices := m.devices.filter (·.id.key ≠ dev.id.key) }
  if m.currentMtdDev = some dev.id.key then
    match m'.devices with
    | [] => { m' with currentMtdDev := none }
    | d :: _ => { m' with currentMtdDev := some d.id.key, currentMtdPartnum := 0 }
  else m'

def deviceAdd (m : Mtdparts) (dev : MtdDevice) : Mtdparts :=
  let m' := { m with devices := m.devices ++ [dev] }
  if m.devices = [] then { m' with currentMtdDev := some dev.id.key, currentMtdPartnum := 0 }
    else m'

/-- One less, of 16 bits -/
def dec16 (n : ℕ) : ℕ := (n + 65535) % 2 ^ 16

def MtdDevice.listDel (dev : MtdDevice) (part : PartInfo) : MtdDevice :=
  { dev with parts := dev.parts.eraseP (·.link = part.link), numParts := dec16 dev.numParts }

def partDel (m : Mtdparts) (dev : MtdDevice) (part : PartInfo) : Mtdparts :=
  if dev.numParts = 1 then deviceDel m dev
  else
    let partnum := match currPi m dev with
      | none => m.currentMtdPartnum
      | some curr =>
        if curr.link = part.link then 0
        else if part.offset ≤ curr.offset then (m.currentMtdPartnum + 255) % 2 ^ 8
        else m.currentMtdPartnum
    { m.setDevice (dev.listDel part) with currentMtdPartnum := partnum }

def partSortAdd (m : Mtdparts) (dev : MtdDevice) (part : PartInfo) : Option Mtdparts := do
  let parts ← sortAdd part dev.parts
  let partnum := match currPi m dev, dev.parts.find? (part.offset ≤ ·.offset) with
    | some curr, some pi =>
      if pi.offset ≤ curr.offset then (m.currentMtdPartnum + 1) % 2 ^ 8 else m.currentMtdPartnum
    | _, _ => m.currentMtdPartnum
  some { m.setDevice { dev with parts := parts, numParts := (dev.numParts + 1) % 2 ^ 16 }
    with currentMtdPartnum := partnum }

def partAdd (m : Mtdparts) (dev : MtdDevice) (part : PartInfo) : Option Mtdparts := do
  let part ← partValidate mtd dev.id part
  partSortAdd m dev part

def isdigit (c : UInt8) : Bool := isDigitOf 10 c

def mtdIdParse (id : List UInt8) : Option ((ℕ × ℕ) × List UInt8) := do
  let (type, p) ←
    if id.take 4 = ascii "nand" then some (MTD_DEV_TYPE_NAND, id.drop 4)
    else if id.take 3 = ascii "nor" then some (MTD_DEV_TYPE_NOR, id.drop 3)
    else if id.take 7 = ascii "onenand" then some (MTD_DEV_TYPE_ONENAND, id.drop 7)
    else none
  if (p.head?.map isdigit).getD false then
    let (num, p) := strtoul0 p
    some ((type, num % 2 ^ 8), p)
  else none

/-- The first partition that has this name, with its device and its number. -/
def findByName (id : List UInt8) : List MtdDevice → Option (MtdDevice × ℕ × PartInfo)
  | [] => none
  | dev :: devices =>
    match dev.parts.find? (·.name = id) with
    | some part => some (dev, dev.parts.findIdx (·.name = id) % 2 ^ 8, part)
    | none => findByName id devices

def findDevAndPart (devices : List MtdDevice) (id : List UInt8) :
    Option (MtdDevice × ℕ × PartInfo) :=
  match findByName id devices with
  | some found => some found
  | none => do
    let (key, p) ← mtdIdParse id
    let p ← skipChar ',' p
    if p = [] then none
    else do
      let (pnum, p) := strtoul0 p
      if p ≠ [] then none
      else do
        let dev ← deviceFind devices key
        let part ← mtdPartInfo dev (pnum % 2 ^ 8)
        some (dev, pnum % 2 ^ 8, part)

/-- `MTD_DEV_TYPE` -/
def mtdDevType (type : ℕ) : List UInt8 :=
  if type = MTD_DEV_TYPE_NAND then ascii "nand"
  else if type = MTD_DEV_TYPE_ONENAND then ascii "onenand"
  else ascii "nor"

/-- What `current_save` leaves in `partition`, and in `last_partition`. -/
def partitionText (m : Mtdparts) : List UInt8 :=
  match m.currentMtdDev with
  | none => []
  | some (type, num) =>
    mtdDevType type ++ decimal num ++ ascii "," ++ decimal m.currentMtdPartnum

/-- `mtdparts_init`, where `mtdids` is as it was when it was read, and `partition` as it was when it
was saved. -/
def mtdpartsInit (m : Mtdparts) : ℕ × Mtdparts :=
  match m.mtdparts with
  | none =>
    if m.lastParts ≠ [] then (0, { m with devices := [], currentMtdDev := none, lastParts := [] })
    else (0, m)
  | some parts =>
    if parts.length > MTDPARTS_MAXLEN - 1 then (1, m)
    else if m.lastParts = [] ∨ m.lastParts ≠ parts then
      match parseMtdparts mtd m.mtdids m.heap parts with
      | ([], heap) =>
        (1, { m with devices := [], currentMtdDev := none, lastParts := [], heap := heap })
      | (dev :: devices, heap) =>
        let m' := { m with
          devices := dev :: devices, currentMtdDev := some dev.id.key, currentMtdPartnum := 0,
          lastParts := parts, heap := heap }
        if partitionText m ≠ [] ∧ partitionText m ≠ partitionText m' then
          match findDevAndPart m'.devices (partitionText m) with
          | none => (0, m')
          | some (dev, pnum, _) =>
            (0, { m' with currentMtdDev := some dev.id.key, currentMtdPartnum := pnum })
        else (0, m')
    else (0, m)

/-- `len`, of 8 bits -/
def addDescLen (id : MtdIds) (size name : List UInt8) (ro : Option (List UInt8)) : ℕ :=
  (id.mtdId.length + 1 + size.length + (name.length + 2)
    + if ro.map (·.length) = some 2 then 2 else 0) % 2 ^ 8

/-- `tmpbuf`. One that does not fit, where `len` does not see it, is taken as it is. -/
def addDesc (id : MtdIds) (size name : List UInt8) (ro : Option (List UInt8)) : List UInt8 :=
  id.mtdId ++ ascii ":" ++ size ++ ascii "(" ++ name ++ ascii ")" ++ ro.getD []

/-- `mtdparts add` -/
def mtdpartsAdd (m : Mtdparts) (mtdDev size name : List UInt8) (ro : Option (List UInt8)) :
    ℕ × Mtdparts :=
  match mtdIdParse mtdDev with
  | none => (1, m)
  | some (key, _) =>
    match idFind m.mtdids key with
    | none => (1, m)
    | some id =>
      if addDescLen id size name ro ≥ PART_ADD_DESC_MAXLEN then (1, m)
      else
        match deviceParse mtd m.mtdids m.devices m.heap (addDesc id size name ro) with
        | none => (1, m)
        | some (dev, _) =>
          let m := { m with heap := m.heap + dev.parts.length }
          match deviceFind m.devices dev.id.key, dev.parts with
          | none, _ => generateMtdpartsSave (deviceAdd m dev)
          -- only the first of the new partitions is merged
          | some _, [] => (1, m)
          | some dev, p :: _ =>
            match partAdd mtd m dev p with
            | none => (1, m)
            | some m => generateMtdpartsSave m

def deletePartition (m : Mtdparts) (id : List UInt8) : ℕ × Mtdparts :=
  match findDevAndPart m.devices id with
  | none => (1, m)
  | some (dev, _, part) => generateMtdpartsSave (partDel m dev part)

inductive MtdpartsCmd where
  | add (mtdDev size name : List UInt8) (ro : Option (List UInt8))
  | del (id : List UInt8)

/-- `do_mtdparts` of an addition or a deletion. -/
def doMtdparts (m : Mtdparts) (cmd : MtdpartsCmd) : ℕ × Mtdparts :=
  match mtdpartsInit mtd m with
  | (0, m) =>
    match cmd with
    | .add mtdDev size name ro => mtdpartsAdd mtd m mtdDev size name ro
    | .del id => deletePartition m id
  | (rc, m) => (rc, m)

end Edit

end InfotmUboot
