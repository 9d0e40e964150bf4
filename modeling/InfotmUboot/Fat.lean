import InfotmUboot.Lib.Bytes
import InfotmUboot.Lib.Word

/-!
# The FAT

`get_fatent` of `fat.c`, which looks up an entry in a window of the FAT that it keeps in memory, and
fetches the entry's window first if that is another one.
-/

namespace InfotmUboot

open Lib

def FATBUFBLOCKS : ℕ := 6

/-- `fsdata`, as far as the FAT goes, with what `fatbuf` points to. -/
structure FsData where
  fatbuf : Mem
  fatsize : ℕ
  fatlength : ℕ
  fatSect : ℕ
  sectSize : ℕ
  fatbufnum : ℤ

namespace FsData

variable (s : FsData)

def FATBUFSIZE : ℕ := s.sectSize * FATBUFBLOCKS

def FAT12BUFSIZE : ℕ := s.FATBUFSIZE * 2 / 3

def FAT16BUFSIZE : ℕ := s.FATBUFSIZE / 2

def FAT32BUFSIZE : ℕ := s.FATBUFSIZE / 4

/-- The entries of a window, if the FAT is of a known kind. -/
def bufEntries : Option ℕ :=
  if s.fatsize = 32 then some s.FAT32BUFSIZE
  else if s.fatsize = 16 then some s.FAT16BUFSIZE
  else if s.fatsize = 12 then some s.FAT12BUFSIZE
  else none

/-- The entry at an offset in the window. -/
def windowEntry (offset : ℕ) : ℕ :=
  if s.fatsize = 32 then s.fatbuf.get32 (4 * offset)
  else if s.fatsize = 16 then s.fatbuf.get16 (2 * offset)
  else
    let off16 := offset * 3 / 4
    let val1 := s.fatbuf.get16 (2 * off16)
    let val2 := s.fatbuf.get16 (2 * (off16 + 1))
    match offset % 4 with
    | 0 => val1 &&& 0xfff
    | 1 => ((val2 &&& 0x00ff) <<< 4) ||| ((val1 &&& 0xf000) >>> 12)
    | 2 => ((val2 &&& 0x000f) <<< 8) ||| ((val1 &&& 0xff00) >>> 8)
    | _ => (val1 &&& 0xfff0) >>> 4

/-- `get_fatent`, given `disk_read`, which fails with less than 0. -/
def getFatent (diskRead : ℕ → ℕ → Option (List UInt8)) (entry : ℕ) : ℕ × FsData :=
  match s.bufEntries with
  | none => (0, s)
  | some n =>
    let bufnum := entry / n
    let offset := entry - bufnum * n
    if bufnum ≠ toU32 s.fatbufnum then
      -- a new window into the cache
      let getsize := if FATBUFBLOCKS > s.fatlength then s.fatlength else FATBUFBLOCKS
      let startblock := u32 (bufnum * FATBUFBLOCKS + s.fatSect)
      match diskRead startblock getsize with
      | none => (0, s)
      | some bs =>
        let s := { s with
          fatbuf := s.fatbuf.store 0 bs
          fatbufnum := bufnum }
        (s.windowEntry offset, s)
    else (s.windowEntry offset, s)

/-- The answers to these queries, one after the other. -/
def getFatents (diskRead : ℕ → ℕ → Option (List UInt8)) : FsData → List ℕ → List ℕ
  | _, [] => []
  | s, e :: es =>
    let r := s.getFatent diskRead e
    r.1 :: getFatents diskRead r.2 es

end FsData

end InfotmUboot
