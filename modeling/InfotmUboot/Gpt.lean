import InfotmUboot.Crc32
import InfotmUboot.Lib.Word

/-!
# The GPT reader

`get_partition_info_efi` in memory: the header's block is read over a buffer on the stack, the array
of entries over one from the heap, and what is read behind them is what the memory happens to hold.
-/

namespace InfotmUboot

open Lib

section Fields

def GPT_BLOCK_SIZE : ℕ := 512

def GPT_HEADER_SIGNATURE : ℕ := 0x5452415020494645

def GPT_PRIMARY_PARTITION_TABLE_LBA : ℕ := 1

def PARTNAME_SZ : ℕ := 36

def le64ToInt (m : Mem) (a : ℕ) : ℕ := m.get32 a + 2 ^ 32 * m.get32 (a + 4)

structure GptHeader where
  signature : ℕ
  headerSize : ℕ
  headerCrc32 : ℕ
  myLba : ℕ
  firstUsableLba : ℕ
  lastUsableLba : ℕ
  partitionEntryLba : ℕ
  numPartitionEntries : ℕ
  sizeofPartitionEntry : ℕ
  partitionEntryArrayCrc32 : ℕ
  deriving DecidableEq, Repr

def gptHeader (m : Mem) (a : ℕ) : GptHeader where
  signature := le64ToInt m a
  headerSize := m.get32 (a + 12)
  headerCrc32 := m.get32 (a + 16)
  myLba := le64ToInt m (a + 24)
  firstUsableLba := le64ToInt m (a + 40)
  lastUsableLba := le64ToInt m (a + 48)
  partitionEntryLba := le64ToInt m (a + 72)
  numPartitionEntries := m.get32 (a + 80)
  sizeofPartitionEntry := m.get32 (a + 84)
  partitionEntryArrayCrc32 := m.get32 (a + 88)

/-- The bytes that the array of entries is said to have, as the two fields are multiplied. -/
def GptHeader.count (h : GptHeader) : ℕ := u32 (h.numPartitionEntries * h.sizeofPartitionEntry)

structure GptEntry where
  partitionTypeGuid : List UInt8
  startingLba : ℕ
  endingLba : ℕ
  partitionName : List ℕ
  deriving DecidableEq, Repr

def gptEntry (m : Mem) (a : ℕ) : GptEntry where
  partitionTypeGuid := m.load a 16
  startingLba := le64ToInt m (a + 32)
  endingLba := le64ToInt m (a + 40)
  partitionName := (List.range PARTNAME_SZ).map fun i => m.get16 (a + 56 + 2 * i)

/-- `is_pte_valid` -/
def GptEntry.isValid (e : GptEntry) : Prop := e.partitionTypeGuid ≠ List.replicate 16 0

def isPrint (c : ℕ) : Bool := (32 ≤ c ∧ c < 127) ∨ 160 ≤ c

/-- The string that `print_efiname` makes of the name. -/
def printEfiname (e : GptEntry) : List UInt8 :=
  let name := e.partitionName.map fun w =>
    let c := w % 256
    if c ≠ 0 ∧ ¬isPrint c then '.'.toUInt8 else UInt8.ofNat c
  name.takeWhile (· ≠ 0)

end Fields

section Reader

/-- A disk of blocks of 512 bytes, and the reads of it that succeed. -/
structure GptDev where
  lba : ℕ
  contents : Mem
  reads : ℕ → ℕ → Bool

/-- What `block_read` leaves in the buffer. -/
def GptDev.blocks (d : GptDev) (lba n : ℕ) : List UInt8 :=
  d.contents.load (GPT_BLOCK_SIZE * lba) (GPT_BLOCK_SIZE * n)

/-- The buffer of the header and those that `memalign` gives. -/
structure GptRoom where
  head : ℕ
  memalign : ℕ → Option ℕ
  apart : ∀ n p, memalign n = some p → p + n ≤ head ∨ head + GPT_BLOCK_SIZE ≤ p
  fits : ∀ n p, memalign n = some p → p + n ≤ 2 ^ 32

inductive GptBuffer where
  | header
  | entries
  deriving DecidableEq, Repr

/-- What is read of a buffer, from an offset on. -/
structure GptRead where
  buffer : GptBuffer
  offset : ℕ
  size : ℕ
  deriving DecidableEq, Repr

/-- The memory and the bytes that the disk was read to, by buffer, with the reads of the buffers. -/
structure GptState where
  mem : Mem
  filled : GptBuffer → ℕ
  log : List GptRead

variable (d : GptDev) (room : GptRoom)

/-- The array's buffer. -/
def allocReadGptEntries (h : GptHeader) (s : GptState) : Option ℕ × GptState :=
  if h.count = 0 then (none, s)
  else
    match room.memalign h.count with
    | none => (none, s)
    | some pte =>
      let lba := u32 h.partitionEntryLba
      let n := h.count / GPT_BLOCK_SIZE
      if d.reads lba n then
        (some pte, { s with
          mem := s.mem.store pte (d.blocks lba n)
          filled := fun
            | .header => s.filled .header
            | .entries => GPT_BLOCK_SIZE * n })
      else (none, s)

def isGptValid (lba : ℕ) (s : GptState) : Option ℕ × GptState :=
  if d.reads lba 1 then
    let mem := s.mem.store room.head (d.blocks lba 1)
    let h := gptHeader mem room.head
    let s : GptState := { s with
      mem := mem
      filled := fun
        | .header => GPT_BLOCK_SIZE
        | .entries => s.filled .entries }
    if h.signature ≠ GPT_HEADER_SIGNATURE then (none, s)
    else
      -- the field is cleared for the sum and put back
      let calcCrc32 := crc32 0
        ((mem.store (room.head + 16) (List.replicate 4 0)).load room.head h.headerSize)
      let s := { s with log := s.log ++ [⟨.header, 0, h.headerSize⟩] }
      if calcCrc32 ≠ h.headerCrc32 then (none, s)
      else if h.myLba ≠ lba then (none, s)
      else if h.firstUsableLba > d.lba then (none, s)
      else if h.lastUsableLba > d.lba then (none, s)
      else
        match allocReadGptEntries d room h s with
        | (none, s) => (none, s)
        | (some pte, s) =>
          let h := gptHeader s.mem room.head
          let calcCrc32 := crc32 0 (s.mem.load pte h.count)
          let s := { s with log := s.log ++ [⟨.entries, 0, h.count⟩] }
          if calcCrc32 ≠ h.partitionEntryArrayCrc32 then (none, s)
          else (some pte, s)
  else (none, s)

structure EfiPartition where
  start : ℕ
  size : ℕ
  blksz : ℕ
  name : List UInt8
  deriving DecidableEq, Repr

/-- The information of a partition, or -1. -/
def getPartitionInfoEfi (m : Mem) (part : ℤ) : Option EfiPartition × GptState :=
  let s : GptState := ⟨m, fun _ => 0, []⟩
  if part < 1 then (none, s)
  else
    match isGptValid d room GPT_PRIMARY_PARTITION_TABLE_LBA s with
    | (none, s) => (none, s)
    | (some pte, s) =>
      let off := toU32 (128 * (part - 1))
      let e := gptEntry s.mem (u32 (pte + off))
      let start := u32 e.startingLba
      let size := toU32 (u32 e.endingLba + 1 - start)
      let s := { s with
        log := s.log ++
          [⟨.entries, off + 32, 8⟩, ⟨.entries, off + 40, 8⟩, ⟨.entries, off + 56, 2 * PARTNAME_SZ⟩]
            }
      (some ⟨start, size, GPT_BLOCK_SIZE, printEfiname e⟩, s)

end Reader

end InfotmUboot
