import Mathlib.Data.Nat.Digits.Defs
import InfotmUboot.Text
import InfotmUboot.Lib.Word
import InfotmUboot.Lib.Bytes

/-!
# S-records over the console

`save_serial` sends a range of memory as S-records and `load_serial` stores the records it is sent.
The console is the list of the characters that come or go over it. Only `save_serial` is asked
whether `^C` was pressed: `load_serial` asks that when the console has been moved off the serial
line. There is no NOR flash on the board.
-/

namespace InfotmUboot

open Lib

/-- The digits of `hex` and of `%X`. -/
def hexDigitUpper (n : ℕ) : UInt8 := if n < 10 then (0x30 + n).toUInt8
    else (0x41 + (n - 10)).toUInt8

/-- `%0nX` of a number that has no more than `n` digits. -/
def hexPad (n v : ℕ) : List UInt8 :=
  (List.range n).map fun i => hexDigitUpper (v / 16 ^ (n - 1 - i) % 16)

/-- `%X`. -/
def hexUpper (v : ℕ) : List UInt8 :=
  if v = 0 then [0x30] else ((Nat.digits 16 v).map hexDigitUpper).reverse

section Decode

inductive SrecType where
  | start
  | data2
  | data3
  | data4
  | count
  | end4
  | end3
  | end2
  | empty
  deriving DecidableEq, Repr

inductive SrecError where
  | badtype
  | nosrec
  | badchks
  deriving DecidableEq, Repr

structure Srec where
  type : SrecType
  count : ℤ
  addr : ℕ
  data : List UInt8
  deriving DecidableEq, Repr

def hex1Bin (c : UInt8) : Option ℕ :=
  if 0x30 ≤ c ∧ c ≤ 0x39 then some (c.toNat - 0x30)
  else if 0x61 ≤ c ∧ c ≤ 0x66 then some (c.toNat + 10 - 0x61)
  else if 0x41 ≤ c ∧ c ≤ 0x46 then some (c.toNat + 10 - 0x41)
  else none

/-- `hex2_bin`, with what `input` is moved on to. -/
def hex2Bin : List UInt8 → Option (ℕ × List UInt8)
  | c :: c' :: input => do
    let i ← hex1Bin c
    let j ← hex1Bin c'
    some (i <<< 4 + j, input)
  | _ => none

/-- What a record type makes of the count, and the bytes of its address field. -/
def srecType (v : UInt8) (count : ℤ) : Option (SrecType × ℤ × ℕ) :=
  if v = 0x30 then some (.start, count - 3, 2)
  else if v = 0x31 then some (.data2, count - 3, 2)
  else if v = 0x32 then some (.data3, count - 4, 3)
  else if v = 0x33 then some (.data4, count - 5, 4)
  else if v = 0x35 then some (.count, 0, 2)
  else if v = 0x37 then some (.end4, count - 5, 4)
  else if v = 0x38 then some (.end3, count - 4, 3)
  else if v = 0x39 then some (.end2, count - 3, 2)
  else none

def srecAddr : ℕ → List UInt8 → ℕ → UInt8 → Option (ℕ × UInt8 × List UInt8)
  | 0, input, addr, chksum => some (addr, chksum, input)
  | n + 1, input, addr, chksum => do
    let (v, input) ← hex2Bin input
    srecAddr n input (u32 (addr <<< 8) + v) (chksum + v.toUInt8)

def srecData : ℕ → List UInt8 → List UInt8 → UInt8 → Option (List UInt8 × UInt8 × List UInt8)
  | 0, input, data, chksum => some (data, chksum, input)
  | n + 1, input, data, chksum => do
    let (v, input) ← hex2Bin input
    srecData n input (data ++ [v.toUInt8]) (chksum + v.toUInt8)

def srecDecode (input : List UInt8) : Except SrecError Srec :=
  -- skip anything before 'S', and the 'S' itself
  match (input.dropWhile (· ≠ 0x53)).drop 1 with
  | [] => .ok ⟨.empty, 0, 0, []⟩
  | v :: input =>
    match hex2Bin input with
    | none => .error .nosrec
    | some (n, input) =>
      match srecType v n with
      | none => .error .badtype
      | some (type, count, addrLen) =>
        match srecAddr addrLen input 0 n.toUInt8 with
        | none => .error .nosrec
        | some (addr, chksum, input) =>
          match srecData count.toNat input [] chksum with
          | none => .error .nosrec
          | some (data, chksum, input) =>
            match hex2Bin input with
            | none => .error .nosrec
            | some (v, _) =>
              if v.toUInt8 = ~~~chksum then .ok ⟨type, count, addr, data⟩ else .error .badchks

end Decode

section Load

def SREC_MAXRECLEN : ℕ := 512 + 4

/-- `read_record` with what it leaves on the console; it fails if nothing more comes. -/
def readRecord : ℕ → List UInt8 → Option (List UInt8) × List UInt8
  | 0, getc => (some [], getc)
  | _ + 1, [] => (none, [])
  | len + 1, c :: getc =>
    if c = 0x0d ∨ c = 0x0a then (some [], getc)
    else if c = 0 ∨ c = 0x03 then (none, getc)
    else
      let r := readRecord len getc
      (r.1.map (c :: ·), r.2)

/-- The memory during a download, and the range stored so far. -/
structure SerialLoad where
  mem : Mem
  startAddr : ℕ
  endAddr : ℕ

/-- A data record of a download. There is no result if `memcpy` is given a negative length. -/
def SerialLoad.record (s : SerialLoad) (offset : ℤ) (r : Srec) : Option SerialLoad :=
  let storeAddr := toU32 (r.addr + offset)
  let last := toU32 (storeAddr + r.count - 1)
  if r.count < 0 then none
  else
    some {
      mem := s.mem.store storeAddr r.data
      startAddr := if storeAddr < s.startAddr then storeAddr else s.startAddr
      endAddr := if last > s.endAddr then last else s.endAddr }

/-- What a download returns and leaves: the memory, and `filesize` if it was set. -/
structure SerialEnd where
  ret : ℕ
  mem : Mem
  filesize : Option (List UInt8)

/-- The rounds of `load_serial`. Each takes a character at least, so their number bounds them. -/
def loadSerialLoop (offset : ℤ) : ℕ → List UInt8 → SerialLoad → Option SerialEnd
  | 0, _, s => some ⟨0xffffffff, s.mem, none⟩
  | n + 1, getc, s =>
    match readRecord SREC_MAXRECLEN getc with
    | (none, _) => some ⟨0xffffffff, s.mem, none⟩
    | (some record, getc) =>
      match srecDecode record with
      | .error _ => some ⟨0xffffffff, s.mem, none⟩
      | .ok r =>
        match r.type with
        | .data2 | .data3 | .data4 => (s.record offset r).bind (loadSerialLoop offset n getc)
        | .end2 | .end3 | .end4 =>
          some ⟨r.addr, s.mem, some (hexUpper (toU32 (s.endAddr - s.startAddr + 1)))⟩
        | .start | .count | .empty => loadSerialLoop offset n getc s

def loadSerial (offset : ℤ) (getc : List UInt8) (mem : Mem) : Option SerialEnd :=
  loadSerialLoop offset (getc.length + 1) getc ⟨mem, 0xffffffff, 0⟩

end Load

section Save

def SREC3_START : List UInt8 := ascii "S0030000FC\n"

def SREC3_END : List UInt8 := ascii "S70500000000FA\n"

def SREC_BYTES_PER_RECORD : ℕ := 16

/-- `sprintf` of `SREC3_FORMAT`. -/
def srec3Record (length address : ℕ) (data : List UInt8) (checksum : ℕ) : List UInt8 :=
  ascii "S3" ++ hexPad 2 length ++ hexPad 8 address ++ data ++ hexPad 2 checksum ++ [0x0a]

variable (ctrlc : List UInt8 → Bool) (mem : Mem)

/-- The rounds of `save_serial`, with what was sent before them and after; `ctrlc` answers after a
record was sent. -/
def saveSerialLoop : ℕ → ℕ → ℕ → ℕ → List UInt8 → List UInt8 → ℤ × List UInt8
  | 0, _, _, _, _, sent => (0, sent)
  | count + 1, address, reclen, checksum, data, sent =>
    let c := (mem (u32 (address + reclen))).toNat
    let checksum := checksum + c
    let data := data ++ [hexDigitUpper (c >>> 4 &&& 0x0f), hexDigitUpper (c &&& 0x0f)]
    let reclen := reclen + 1
    if reclen = SREC_BYTES_PER_RECORD ∨ count = 0 then
      let length := 4 + reclen + 1
      let checksum := checksum + ((List.range 2).map fun i => length >>> (8 * i) &&& 0xff).sum
      let checksum := checksum + ((List.range 4).map fun i => address >>> (8 * i) &&& 0xff).sum
      let checksum := 0xff - checksum % 2 ^ 8
      let sent := sent ++ srec3Record length address data checksum
      if ctrlc sent then (-1, sent)
      else saveSerialLoop count (u32 (address + reclen)) 0 0 [] sent
    else saveSerialLoop count address reclen checksum data sent

def saveSerial (address count : ℕ) : ℤ × List UInt8 :=
  if ctrlc SREC3_START then (-1, SREC3_START)
  else
    let r := saveSerialLoop ctrlc mem count address 0 0 [] SREC3_START
    if r.1 ≠ 0 then r
    else
      let sent := r.2 ++ SREC3_END
      if ctrlc sent then (-1, sent) else (0, sent)

end Save

end InfotmUboot
