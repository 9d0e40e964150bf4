import InfotmUboot.Lib.Bytes
import InfotmUboot.Lib.Prog
import InfotmUboot.Lib.Word

/-!
# Frames from the network

`NetReceive` of `net.c`, which asks for the header fields of a frame one after the other. The sizes
of the headers, the places of their fields and the numbers of the protocols are those of `net.h`.
-/

namespace InfotmUboot

open Lib

/-- What `net.h` defines: the sizes of the headers, where their fields are, and the numbers in
them. -/
structure NetHeaders where
  etherHdrSize : ℕ
  e802HdrSize : ℕ
  vlanEtherHdrSize : ℕ
  arpHdrSize : ℕ
  ipHdrSize : ℕ
  ipHdrSizeNoUdp : ℕ
  /-- `len < ARP_HDR_SIZE` -/
  arpShort : ℤ → Bool
  /-- `len < IP_HDR_SIZE`; of a negative length it depends on the type of the size -/
  ipShort : ℤ → Bool
  etSrc : ℕ
  etProtlen : ℕ
  etProt : ℕ
  vetTag : ℕ
  vetType : ℕ
  arHrd : ℕ
  arPro : ℕ
  arHln : ℕ
  arPln : ℕ
  arOp : ℕ
  arData : ℕ
  ipHlV : ℕ
  ipLen : ℕ
  ipOff : ℕ
  ipP : ℕ
  ipSrc : ℕ
  ipDst : ℕ
  udpSrc : ℕ
  udpDst : ℕ
  udpLen : ℕ
  icmpType : ℕ
  icmpCode : ℕ
  icmpGateway : ℕ
  vlanNone : ℕ
  vlanIdmask : ℕ
  protVlan : ℕ
  protArp : ℕ
  protRarp : ℕ
  protIp : ℕ
  arpEther : ℕ
  arpopRequest : ℕ
  arpopReply : ℕ
  rarpopReply : ℕ
  /-- `IP_OFFS | IP_FLAGS_MFRAG` -/
  ipFragment : ℕ
  ipprotoIcmp : ℕ
  ipprotoUdp : ℕ
  icmpRedirect : ℕ
  icmpRedirHost : ℕ
  icmpEchoReply : ℕ
  icmpEchoRequest : ℕ

/-- The variables that are looked at, in the byte order of the host. -/
structure NetState where
  ourIP : ℕ
  serverIP : ℕ
  ourVLAN : ℕ
  ourNativeVLAN : ℕ
  arpWaitPacketIP : ℕ
  arpWaitPacketMAC : Bool
  arpWaitReplyIP : ℕ
  /-- `CONFIG_CMD_PING` -/
  cmdPing : Bool

/-- So many bytes of the frame from there on. -/
structure NetRead where
  start : ℕ
  len : ℕ
  deriving DecidableEq, Repr

/-- What becomes of a frame. -/
inductive NetDone where
  | dropped
  | arpReply (src target : List UInt8)
  | arpResolved (mac : List UInt8)
  | rarp (ip : List UInt8) (server : Option (List UInt8)) (mac : List UInt8)
  | redirect (gateway : List UInt8)
  | ping (pkt : ℕ)
  | echo (src : List UInt8) (len : ℤ)
  /-- the handler gets `pkt`, `dest`, `src` and `len` -/
  | udp (pkt dest src len : ℕ)
  deriving DecidableEq, Repr

abbrev NetProg := Prog NetRead (List UInt8)

section Receive

variable (H : NetHeaders) (st : NetState)

/-- The value of bytes in the order of the network. -/
def ntoh (bs : List UInt8) : ℕ := bs.foldl (fun n b => n * 256 + b.toNat) 0

def netField (start len : ℕ) : NetProg ℕ := do
  let bs ← Prog.op ⟨start, len⟩
  return ntoh bs

/-- The sum of the 16-bit words of a little-endian host. -/
def sumWords : List UInt8 → ℕ
  | lo :: hi :: bs => lo.toNat + 256 * hi.toNat + sumWords bs
  | _ => 0

def netCksum (bs : List UInt8) : ℕ :=
  let xsum := sumWords bs
  let xsum := xsum % 2 ^ 16 + xsum / 2 ^ 16
  let xsum := xsum % 2 ^ 16 + xsum / 2 ^ 16
  xsum % 2 ^ 16

def netCksumOk (bs : List UInt8) : Bool := (netCksum bs + 1) &&& 0xfffe = 0

/-- The vlan id of a setting. -/
def NetHeaders.vlanOf (v : ℕ) : ℕ := (if v = 0xffff then H.vlanNone else v) &&& H.vlanIdmask

def netArp (ip : ℕ) (len : ℤ) : NetProg NetDone := do
  if H.arpShort len = true then return .dropped
  let hrd ← netField (ip + H.arHrd) 2
  if hrd ≠ H.arpEther then return .dropped
  let pro ← netField (ip + H.arPro) 2
  if pro ≠ H.protIp then return .dropped
  let hln ← netField (ip + H.arHln) 1
  if hln ≠ 6 then return .dropped
  let pln ← netField (ip + H.arPln) 1
  if pln ≠ 4 then return .dropped
  if st.ourIP = 0 then return .dropped
  let target ← netField (ip + H.arData + 16) 4
  if target ≠ st.ourIP then return .dropped
  let op ← netField (ip + H.arOp) 2
  if op = H.arpopRequest then
    let src ← Prog.op ⟨H.etSrc, 6⟩
    let sender ← Prog.op ⟨ip + H.arData, 10⟩
    return .arpReply src sender
  else if op = H.arpopReply then
    if st.arpWaitPacketIP = 0 ∨ st.arpWaitPacketMAC = false then return .dropped
    let sender ← netField (ip + H.arData + 6) 4
    if sender ≠ st.arpWaitReplyIP then return .dropped
    let mac ← Prog.op ⟨ip + H.arData, 6⟩
    return .arpResolved mac
  else return .dropped

def netRarp (ip : ℕ) (len : ℤ) : NetProg NetDone := do
  if H.arpShort len = true then return .dropped
  let op ← netField (ip + H.arOp) 2
  if op ≠ H.rarpopReply then return .dropped
  let hrd ← netField (ip + H.arHrd) 2
  if hrd ≠ H.arpEther then return .dropped
  let pro ← netField (ip + H.arPro) 2
  if pro ≠ H.protIp then return .dropped
  let hln ← netField (ip + H.arHln) 1
  if hln ≠ 6 then return .dropped
  let pln ← netField (ip + H.arPln) 1
  if pln ≠ 4 then return .dropped
  let our ← Prog.op ⟨ip + H.arData + 16, 4⟩
  if st.serverIP = 0 then
    let server ← Prog.op ⟨ip + H.arData + 6, 4⟩
    let mac ← Prog.op ⟨ip + H.arData, 6⟩
    return .rarp our (some server) mac
  else
    let mac ← Prog.op ⟨ip + H.arData, 6⟩
    return .rarp our none mac

def netIcmp (ip : ℕ) (len : ℤ) : NetProg NetDone := do
  let type ← netField (ip + H.udpSrc + H.icmpType) 1
  if type = H.icmpRedirect then
    let code ← netField (ip + H.udpSrc + H.icmpCode) 1
    if code ≠ H.icmpRedirHost then return .dropped
    let gateway ← Prog.op ⟨ip + H.udpSrc + H.icmpGateway, 4⟩
    return .redirect gateway
  else if st.cmdPing = true ∧ type = H.icmpEchoReply then return .ping ip
  else if st.cmdPing = true ∧ type = H.icmpEchoRequest then
    let src ← Prog.op ⟨H.etSrc, 6⟩
    let ipSrc ← Prog.op ⟨ip + H.ipSrc, 4⟩
    return .echo (src ++ ipSrc) len
  else return .dropped

def netUdp (ip : ℕ) : NetProg NetDone := do
  let dest ← netField (ip + H.udpDst) 2
  let src ← netField (ip + H.udpSrc) 2
  let udpLen ← netField (ip + H.udpLen) 2
  return .udp (ip + H.ipHdrSize) dest src (toU32 (udpLen - 8))

def netIp (ip : ℕ) (len : ℤ) : NetProg NetDone := do
  if H.ipShort len = true then return .dropped
  let ipLen ← netField (ip + H.ipLen) 2
  if len < ipLen then return .dropped
  let hlV ← netField (ip + H.ipHlV) 1
  if hlV &&& 0xf0 ≠ 0x40 then return .dropped
  let off ← netField (ip + H.ipOff) 2
  if off &&& H.ipFragment ≠ 0 then return .dropped
  if hlV &&& 0x0f > 5 then return .dropped
  let header ← Prog.op ⟨ip, 2 * (H.ipHdrSizeNoUdp / 2)⟩
  if netCksumOk header = false then return .dropped
  let dst ← netField (ip + H.ipDst) 4
  if st.ourIP ≠ 0 ∧ dst ≠ st.ourIP ∧ dst ≠ 0xffffffff then return .dropped
  let p ← netField (ip + H.ipP) 1
  if p = H.ipprotoIcmp then netIcmp H st ip ipLen
  else if p ≠ H.ipprotoUdp then return .dropped
  else netUdp H ip

/-- The packet of type `x` behind the Ethernet header. -/
def netPacket (x vlanid ip : ℕ) (len : ℤ) : NetProg NetDone :=
  let our := H.vlanOf st.ourVLAN
  let vlanid := if vlanid = H.vlanNone then H.vlanOf st.ourNativeVLAN else vlanid
  if our ≠ H.vlanNone ∧ vlanid ≠ our then pure .dropped
  else if x = H.protArp then netArp H st ip len
  else if x = H.protRarp then netRarp H st ip len
  else if x = H.protIp then netIp H st ip len
  else pure .dropped

def netReceive (len : ℤ) : NetProg NetDone := do
  if len < H.etherHdrSize then return .dropped
  let x ← netField H.etProtlen 2
  if x < 1514 then
    -- an 802 packet has its type further behind
    let x ← netField H.etProt 2
    netPacket H st x H.vlanNone H.e802HdrSize (len - H.e802HdrSize)
  else if x ≠ H.protVlan then
    netPacket H st x H.vlanNone H.etherHdrSize (len - H.etherHdrSize)
  else
    if len < H.vlanEtherHdrSize then return .dropped
    if st.ourVLAN &&& H.vlanIdmask = H.vlanNone then return .dropped
    let cti ← netField H.vetTag 2
    let x ← netField H.vetType 2
    netPacket H st x (cti &&& H.vlanIdmask) H.vlanEtherHdrSize (len - H.vlanEtherHdrSize)

/-- The receive buffer gives what is in it. -/
def netRead (m : Mem) (o : NetRead) : List UInt8 × Mem := (m.load o.start o.len, m)

/-- A frame, with what is behind it in the receive buffer. -/
def netRun (frame : List UInt8) (behind : Mem) : Prog.Out NetRead (List UInt8) Mem NetDone :=
  Prog.run netRead (netReceive H st (s32 frame.length)) (behind.store 0 frame)

end Receive

end InfotmUboot
