import InfotmUboot.Lib.Bytes
import InfotmUboot.Text

/-!
# TFTP

`TftpHandler`, `TftpSend` and `TftpTimeout` of `tftp.c`, and a server that sends a block once the
block before it is acknowledged. The network may deliver any block that was sent, any number of
times and at any time. Times are left out: a timeout is an event. A packet is the bytes up to its
length.
-/

namespace InfotmUboot

open Lib

def TFTP_DATA : ℕ := 3

def TFTP_ERROR : ℕ := 5

def TFTP_OACK : ℕ := 6

def TFTP_SEQUENCE_SIZE : ℕ := 2 ^ 16

/-- `TIMEOUT_COUNT`, where `CONFIG_NET_RETRY_COUNT` is not defined. -/
def TIMEOUT_COUNT : ℕ := 10

/-- `TftpState` -/
inductive TftpState where
  | rrq
  | data
  | tooLarge
  | badMagic
  | oack
  deriving DecidableEq, Repr

/-- `NetState`, as far as it is set here. -/
inductive NetloopState where
  | continue_
  | restart
  | success
  deriving DecidableEq, Repr

inductive TftpTx where
  | rrq
  | ack (block : ℕ)
  | error (code : ℕ)
  deriving DecidableEq, Repr

/-- The variables of `tftp.c`, with `load_addr`, `NetBootFileXferSize` and the memory. -/
structure Tftp where
  state : TftpState
  serverPort : ℕ
  ourPort : ℕ
  block : ℕ
  lastBlock : ℕ
  blockWrap : ℕ
  blockWrapOffset : ℕ
  blkSize : ℕ
  timeoutCount : ℕ
  timeoutCountMax : ℕ
  loadAddr : ℕ
  xferSize : ℕ
  mem : Mem

/-- What a call leaves, what it sends, and where it stored how many bytes behind `load_addr`. -/
structure TftpOut where
  tftp : Tftp
  net : NetloopState
  sent : List TftpTx
  stored : List (ℕ × ℕ)

section Handler

variable (t : Tftp)

/-- Nothing is sent or stored. -/
def Tftp.idle (net : NetloopState) : TftpOut := ⟨t, net, [], []⟩

def storeBlock (block : ℕ) (src : List UInt8) : Tftp × ℕ :=
  let offset := u32 (block * t.blkSize + t.blockWrapOffset)
  let newsize := u32 (offset + src.length)
  ({ t with
      mem := t.mem.store (u32 (t.loadAddr + offset)) src,
      xferSize := if t.xferSize < newsize then newsize else t.xferSize }, offset)

def tftpSend : TftpTx :=
  match t.state with
  | .rrq => .rrq
  | .oack => .ack (t.block % 2 ^ 16)
  | .data => .ack (t.block % 2 ^ 16)
  | .tooLarge => .error 3
  | .badMagic => .error 2

/-- The value of `blksize`, looked for at each place of the options. -/
def oackBlkSize : List UInt8 → Option ℕ
  | [] => none
  | c :: p =>
    if (c :: p).length ≤ 8 then none
    else if (c :: p).take 8 = ascii "blksize" ++ [0] then
      some (simpleStrtoul ((c :: p).drop 8) % 2 ^ 16)
    else oackBlkSize p

def tftpOack (src : ℕ) (pkt : List UInt8) : TftpOut :=
  let t := { t with state := .oack, serverPort := src, blkSize := (oackBlkSize pkt).getD t.blkSize }
  ⟨t, .continue_, [tftpSend t], []⟩

/-- The count of blocks has 16 bits, and 0 is taken for a wrap. -/
def Tftp.wrapped (block : ℕ) : Tftp :=
  if block = 0 then { t with
    block := block, blockWrap := u32 (t.blockWrap + 1),
    blockWrapOffset := u32 (t.blockWrapOffset + t.blkSize * TFTP_SEQUENCE_SIZE) }
  else { t with block := block }

/-- A block that is not the last one again. -/
def tftpStore (data : List UInt8) : TftpOut :=
  let t := { t with lastBlock := t.block, timeoutCountMax := TIMEOUT_COUNT }
  let (t, offset) := storeBlock t (toU32 (t.block - 1)) data
  ⟨t, if data.length < t.blkSize then .success else .continue_, [tftpSend t],
    [(offset, data.length)]⟩

def tftpData (src block : ℕ) (data : List UInt8) : TftpOut :=
  let t := t.wrapped block
  if t.state = .rrq ∨ t.state = .oack then
    let t := { t with
      state := .data, serverPort := src, lastBlock := 0, blockWrap := 0, blockWrapOffset := 0 }
    if t.block ≠ 1 then t.idle .restart
    else if t.block = t.lastBlock then t.idle .continue_
    else tftpStore t data
  else if t.block = t.lastBlock then t.idle .continue_
  else tftpStore t data

def tftpHandler (pkt : List UInt8) (dest src : ℕ) : TftpOut :=
  if dest ≠ t.ourPort then t.idle .continue_
  else if t.state ≠ .rrq ∧ src ≠ t.serverPort then t.idle .continue_
  else
    match pkt with
    | a :: b :: pkt =>
      let proto := a.toNat * 256 + b.toNat
      if proto = TFTP_OACK then tftpOack t src pkt
      else if proto = TFTP_DATA then
        match pkt with
        | a :: b :: data => tftpData t src (a.toNat * 256 + b.toNat) data
        | _ => t.idle .continue_
      else if proto = TFTP_ERROR then t.idle .restart
      else t.idle .continue_
    | _ => t.idle .continue_

def tftpTimeout : TftpOut :=
  let t := { t with timeoutCount := t.timeoutCount + 1 }
  if t.timeoutCount > t.timeoutCountMax then t.idle .restart
  else ⟨t, .continue_, [tftpSend t], []⟩

end Handler

section Server

/-- A server with a file, which is sent in blocks of `blkSize` bytes. -/
structure TftpServer where
  file : List UInt8
  blkSize : ℕ
  port : ℕ
  blkSize_pos : 0 < blkSize
  blkSize_lt : blkSize < 2 ^ 16

variable (srv : TftpServer)

/-- The last block has less than `blkSize` bytes. -/
def TftpServer.blocks : ℕ := srv.file.length / srv.blkSize + 1

/-- The blocks count from 1. -/
def TftpServer.payload (i : ℕ) : List UInt8 :=
  (srv.file.drop ((i - 1) * srv.blkSize)).take srv.blkSize

def TftpServer.dataPacket (i : ℕ) : List UInt8 :=
  0 :: 3 :: (i % 2 ^ 16 / 256).toUInt8 :: (i % 2 ^ 16 % 256).toUInt8 :: srv.payload i

/-- A transfer: the client, the newest block that was sent, and the newest that was delivered. -/
structure TftpSession where
  client : Tftp
  net : NetloopState
  sent : ℕ
  newest : ℕ

/-- A copy of a block arrives, or the timer of the client runs out; what the client sends arrives at
once or is lost. -/
inductive TftpEvent where
  | data (i : ℕ) (acked : Bool)
  | timeout (acked : Bool)
  deriving DecidableEq, Repr

/-- The next block is sent when the newest one is acknowledged. -/
def TftpServer.receive (sent : ℕ) : TftpTx → ℕ
  | .ack block => if block = sent % 2 ^ 16 ∧ sent < srv.blocks then sent + 1 else sent
  | _ => sent

def tftpStep (s : TftpSession) : TftpEvent → Option TftpSession
  | .data i acked =>
    if s.net = .continue_ ∧ 1 ≤ i ∧ i ≤ s.sent then
      let out := tftpHandler s.client (srv.dataPacket i) s.client.ourPort srv.port
      some ⟨out.tftp, out.net, if acked then out.sent.foldl srv.receive s.sent else s.sent,
        max s.newest i⟩
    else none
  | .timeout acked =>
    if s.net = .continue_ then
      let out := tftpTimeout s.client
      some ⟨out.tftp, out.net, if acked then out.sent.foldl srv.receive s.sent else s.sent,
        s.newest⟩
    else none

def tftpRun : TftpSession → List TftpEvent → Option TftpSession
  | s, [] => some s
  | s, e :: es =>
    match tftpStep srv s e with
    | none => none
    | some s' => tftpRun s' es

end Server

end InfotmUboot
