import InfotmUboot.Lib.Bytes

/-!
# The Kermit download

`k_recv` of `cmd_load.c`. Every character that `getc` gives it is a step; what `k_recv` keeps of the
packet it is in is a `Frame`. Memory has an address for every number, and a `char` has no sign.
-/

namespace InfotmUboot

open Lib

def START_CHAR : UInt8 := 0x01
def ETX_CHAR : UInt8 := 0x03
def END_CHAR : UInt8 := 0x0d
def SPACE : ℕ := 0x20
def K_ESCAPE : UInt8 := 0x23
def SEND_TYPE : UInt8 := 0x53
def DATA_TYPE : UInt8 := 0x44
def ACK_TYPE : UInt8 := 0x59
def NACK_TYPE : UInt8 := 0x4e
def BREAK_TYPE : UInt8 := 0x42
def SEND_DATA_SIZE : ℕ := 20

def tochar (x : ℕ) : UInt8 := UInt8.ofNat (x + SPACE)

def untochar (x : UInt8) : ℕ := (x - UInt8.ofNat SPACE).toNat

/-- A character less than SPACE, which no packet has behind its start. -/
def isControl (c : UInt8) : Bool := c &&& 0xe0 = 0

/-- The check of a packet whose characters have this sum. -/
def blockCheck (sum : ℕ) : ℕ := (sum + ((sum >>> 6) &&& 0x03)) &&& 0x3f

/-- Converts an escaped character to a binary one. -/
def ktrans (c : UInt8) : UInt8 :=
  if c &&& 0x60 = 0x40 then c &&& ~~~0x40 else if c &&& 0x7f = 0x3f then c ||| 0x40 else c

section Frame

/-- What the next character of a packet is. -/
inductive Phase where
  | length
  | seq
  | type
  | lenHi
  | lenLo
  | header
  | body
  | check
  | end_
  deriving DecidableEq, Repr

/-- `sum`, `length` and `len_hi` in a packet -/
structure Frame where
  phase : Phase
  sum : ℕ
  length : ℤ
  lenHi : ℕ
  deriving DecidableEq, Repr

/-- Behind the character that starts a packet. -/
def Frame.first : Frame := ⟨.length, 0, 0, 0⟩

/-- The packet goes on, is a `packet_error`, or is whole. -/
inductive Verdict where
  | go (f : Frame)
  | bad
  | whole
  deriving DecidableEq, Repr

/-- On to the rest of a packet of which this length is left. -/
def bodyPhase (length : ℤ) : Phase := if 1 < length then .body else .check

/-- What a character makes of a packet. -/
def Frame.next (f : Frame) (c : UInt8) : Verdict :=
  if f.phase = .end_ then (if c = END_CHAR then .whole else .bad)
  else if isControl c then .bad
  else
    let sum := f.sum + c.toNat
    match f.phase with
    | .length => .go ⟨.seq, sum, untochar c, f.lenHi⟩
    | .seq => .go ⟨.type, sum, f.length - 1, f.lenHi⟩
    | .type =>
      let length := f.length - 1
      -- the length byte was 0, decremented twice
      .go ⟨if length = -2 then .lenHi else bodyPhase length, sum, length, f.lenHi⟩
    | .lenHi => .go ⟨.lenLo, sum, f.length, untochar c⟩
    | .lenLo => .go ⟨.header, sum, f.lenHi * 95 + untochar c, f.lenHi⟩
    | .header =>
      if c ≠ tochar (blockCheck f.sum) then .bad else .go ⟨bodyPhase f.length, sum,
        f.length, f.lenHi⟩
    | .body => .go ⟨bodyPhase (f.length - 1), sum, f.length - 1, f.lenHi⟩
    | .check => if c ≠ tochar (blockCheck f.sum) then .bad else .go { f with phase := .end_ }
    | .end_ => .bad

end Frame

section Receive

/-- Where `k_recv` is: waiting for a packet, in one, done, or left by `^C`. -/
inductive KermitMode where
  | idle
  | packet (f : Frame)
  | done
  | aborted
  deriving DecidableEq, Repr

/-- `k_recv`'s locals, the state of `os_data_char` and `k_data_char` with what is saved of it, the
parameters of the sender, the memory and what was sent to the sender. -/
structure Kermit where
  mode : KermitMode
  n : ℕ
  lastN : ℤ
  kState : UInt8
  kStateSaved : UInt8
  escape : Bool
  escapeSaved : Bool
  osDataAddr : ℕ
  osDataAddrSaved : ℕ
  sendParms : List UInt8
  hisEol : UInt8
  hisPadCount : ℕ
  hisPadChar : UInt8
  hisQuote : UInt8
  mem : Mem
  sent : List UInt8

/-- `k_recv` before its first character. -/
def Kermit.start (binStartAddress : ℕ) (mem : Mem) : Kermit where
  mode := .idle
  n := 0
  lastN := -1
  kState := 0
  kStateSaved := 0
  escape := false
  escapeSaved := false
  osDataAddr := binStartAddress
  osDataAddrSaved := binStartAddress
  sendParms := []
  hisEol := END_CHAR
  hisPadCount := 0
  hisPadChar := 0
  hisQuote := K_ESCAPE
  mem := mem
  sent := []

namespace Kermit

variable (k : Kermit)

def kDataSave : Kermit :=
  { k with kStateSaved := k.kState, escapeSaved := k.escape, osDataAddrSaved := k.osDataAddr }

def kDataRestore : Kermit :=
  { k with kState := k.kStateSaved, escape := k.escapeSaved, osDataAddr := k.osDataAddrSaved }

def binDataChar (c : UInt8) : Kermit :=
  { k with mem := k.mem.store k.osDataAddr [c], osDataAddr := k.osDataAddr + 1 }

def kDataChar (c : UInt8) : Kermit :=
  if k.escape then { k.binDataChar (ktrans c) with escape := false }
  else if c = k.hisQuote then { k with escape := true }
  else k.binDataChar c

/-- A parameter of the sender, the last of which is written over where they are too many. -/
def sendParm (c : UInt8) : Kermit :=
  if k.sendParms.length + 1 < SEND_DATA_SIZE then { k with sendParms := k.sendParms ++ [c] } else k

/-- `send_pad` and the characters of a string. -/
def s1Sendpacket (packet : List UInt8) : Kermit :=
  { k with
    sent := k.sent ++ List.replicate k.hisPadCount k.hisPadChar ++ packet.takeWhile fun c => c ≠ 0 }

/-- `chk1` of a string. -/
def chk1 (buffer : List UInt8) : ℕ :=
  blockCheck ((buffer.takeWhile fun c => c ≠ 0).map UInt8.toNat).sum

/-- A packet of this type, with its check and the end that the sender wants. -/
def sendReply (type : UInt8) (data : List UInt8) : Kermit :=
  let body := [tochar (3 + data.length), tochar k.n, type] ++ data
  k.s1Sendpacket (START_CHAR :: body ++ [tochar (chk1 body), k.hisEol])

def sendAck : Kermit := k.sendReply ACK_TYPE []

def sendNack : Kermit := k.sendReply NACK_TYPE []

/-- What the sender's parameters are answered with. -/
def parmReply (bytes : ℕ) : List UInt8 :=
  [tochar 94, tochar 1, tochar 0, 0x40, tochar END_CHAR.toNat, 0x23, 0x4e, 0x31, 0x4e].take bytes ++
    if 10 ≤ bytes then [tochar 2, tochar 0, tochar 94, tochar 94] else []

def handleSendPacket : Kermit :=
  -- the last character is ignored if it filled the buffer
  let bytes := min k.sendParms.length (SEND_DATA_SIZE - 2)
  let parm (i : ℕ) := k.sendParms.getD i 0
  let k := { k with
    hisPadCount := if 3 ≤ bytes then untochar (parm 2) else 0
    hisPadChar := if 4 ≤ bytes then ktrans (parm 3) else 0
    hisEol := if 5 ≤ bytes then UInt8.ofNat (untochar (parm 4)) else END_CHAR
    hisQuote := if 6 ≤ bytes then parm 5 else K_ESCAPE }
  k.sendReply ACK_TYPE (parmReply bytes)

def packetError : Kermit := { k.kDataRestore.sendNack with mode := .idle }

/-- A packet is whole. -/
def complete : Kermit :=
  if k.kState = SEND_TYPE then { k.handleSendPacket with mode := .idle }
  else { k.sendAck with mode := if k.kState = BREAK_TYPE then .done else .idle }

/-- What becomes of a character of a packet besides the `Frame`. -/
def take (phase : Phase) (c : UInt8) : Kermit :=
  match phase with
  | .seq =>
    let k := { k with n := untochar c }
    -- same sequence number, restore the previous state; else checkpoint the download
    if (untochar c : ℤ) = k.lastN then k.kDataRestore
    else { k.kDataSave with lastN := untochar c }
  | .type => { k with kState := c }
  | .body =>
    if k.kState = DATA_TYPE then k.kDataChar c
    else if k.kState = SEND_TYPE then k.sendParm c
    else k
  | _ => k

def step (c : UInt8) : Kermit :=
  match k.mode with
  | .idle =>
    if c = START_CHAR then { k with mode := .packet Frame.first, sendParms := [] }
    else if c = ETX_CHAR then { k with mode := .aborted }
    else k
  | .packet f =>
    match f.next c with
    | .go f' => { k.take f.phase c with mode := .packet f' }
    | .bad => k.packetError
    | .whole => k.complete
  | .done => k
  | .aborted => k

/-- What `k_recv` returns once it does. -/
def ret (binStartAddress : ℕ) : Option ℕ :=
  match k.mode with
  | .done => some (k.osDataAddr - binStartAddress)
  | .aborted => some 0
  | _ => none

end Kermit

/-- `k_recv` with the characters of a line. -/
def kRecv (binStartAddress : ℕ) (mem : Mem) (line : List UInt8) : Kermit :=
  line.foldl Kermit.step (Kermit.start binStartAddress mem)

end Receive

end InfotmUboot
