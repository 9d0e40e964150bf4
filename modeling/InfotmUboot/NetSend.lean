import InfotmUboot.Net

/-!
# Packets that are sent

`NetSendUDPPacket` of `net.c` with the headers that it writes, and the one packet that waits for an
ARP reply: `ArpRequest`, `ArpTimeoutCheck`, `PingSend` and what `NetReceive` does with the reply.
-/

namespace InfotmUboot

open Lib

/-- What only a sender needs of `net.h`, and the configuration of ARP. -/
structure NetBuild extends NetHeaders where
  etDest : ℕ
  vetVlanType : ℕ
  ipTos : ℕ
  ipId : ℕ
  ipTtl : ℕ
  ipSum : ℕ
  udpXsum : ℕ
  /-- `IP_FLAGS_DFRAG` -/
  ipDfrag : ℕ
  arpTimeout : ℕ
  arpTimeoutCount : ℕ

abbrev EtherAddr := Fin 6 → UInt8

def EtherAddr.bytes (a : EtherAddr) : List UInt8 := List.ofFn a

def EtherAddr.ofBytes (bs : List UInt8) : EtherAddr := fun i => bs.getD i 0

def netBcastAddr : EtherAddr := fun _ => 0xff

def netEtherNullAddr : EtherAddr := fun _ => 0

/-- Where an address is kept. -/
inductive EtherPtr where
  | pingMac
  | of (n : ℕ)
  deriving DecidableEq

/-- The variables that are set elsewhere too, in the byte order of the host. -/
structure NetVars where
  ourEther : EtherAddr
  ourIP : ℕ
  ourSubnetMask : ℕ
  ourGatewayIP : ℕ
  serverIP : ℕ
  pingIP : ℕ
  ourVLAN : ℕ
  ourNativeVLAN : ℕ
  ethers : EtherPtr → EtherAddr
  txPacket : Mem
  ipId : ℕ
  pingSeqNo : ℕ
  cmdPing : Bool

/-- With those of the packet that waits. -/
structure NetTx extends NetVars where
  arpWaitPacketIP : ℕ
  arpWaitPacketMAC : Option EtherPtr
  arpWaitReplyIP : ℕ
  arpWaitTxPacket : Mem
  arpWaitTxPacketSize : ℕ
  arpWaitTimerStart : ℕ
  arpWaitTry : ℕ

/-- What is done with packets. -/
inductive NetAct where
  /-- `eth_send` of a UDP packet in `NetTxPacket` -/
  | send (frame : List UInt8)
  /-- a packet is put into `NetArpWaitTxPacket` -/
  | queue (dest : ℕ) (packet : List UInt8)
  /-- `eth_send` of a request for an address -/
  | ask (ip : ℕ) (frame : List UInt8)
  /-- `eth_send` of what is in `NetArpWaitTxPacket` -/
  | release (frame : List UInt8)
  | startAgain

def htons (n : ℕ) : List UInt8 := [UInt8.ofNat (n / 2 ^ 8), UInt8.ofNat n]

def htonl (n : ℕ) : List UInt8 := htons (n / 2 ^ 16) ++ htons n

section Headers

variable (H : NetBuild) (v : NetVars)

def netEthHdrSize : ℕ :=
  if H.vlanOf v.ourVLAN = H.vlanNone then H.etherHdrSize else H.vlanEtherHdrSize

def netSetEther (m : Mem) (xet : ℕ) (addr : EtherAddr) (prot : ℕ) : Mem × ℕ :=
  let m := m.store (xet + H.etDest) addr.bytes
  let m := m.store (xet + H.etSrc) v.ourEther.bytes
  if H.vlanOf v.ourVLAN = H.vlanNone then
    (m.store (xet + H.etProtlen) (htons prot), H.etherHdrSize)
  else
    let m := m.store (xet + H.vetVlanType) (htons H.protVlan)
    let m := m.store (xet + H.vetTag) (htons (H.vlanOf v.ourVLAN))
    (m.store (xet + H.vetType) (htons prot), H.vlanEtherHdrSize)

/-- The IP header but for its sum, the same for UDP and for a ping. -/
def netSetIpFields (m : Mem) (xip len p dest : ℕ) : Mem :=
  let m := m.store (xip + H.ipHlV) [0x45]
  let m := m.store (xip + H.ipTos) [0]
  let m := m.store (xip + H.ipLen) (htons len)
  let m := m.store (xip + H.ipId) (htons v.ipId)
  let m := m.store (xip + H.ipOff) (htons H.ipDfrag)
  let m := m.store (xip + H.ipTtl) [255]
  let m := m.store (xip + H.ipP) [UInt8.ofNat p]
  let m := m.store (xip + H.ipSum) [0, 0]
  let m := m.store (xip + H.ipSrc) (htonl v.ourIP)
  m.store (xip + H.ipDst) (htonl dest)

/-- `ip->ip_sum = ~NetCksum(ip, IP_HDR_SIZE_NO_UDP / 2)` -/
def netSetIpSum (m : Mem) (xip : ℕ) : Mem :=
  m.store (xip + H.ipSum) (bytes16 (0xffff - netCksum (m.load xip (2 * (H.ipHdrSizeNoUdp / 2)))))

def netSetIP (m : Mem) (xip dest dport sport len : ℕ) : Mem :=
  let m := if len % 2 = 1 then m.store (xip + H.ipHdrSize + len) [0] else m
  let m := netSetIpFields H v m xip (H.ipHdrSize + len) 17 dest
  let m := m.store (xip + H.udpSrc) (htons sport)
  let m := m.store (xip + H.udpDst) (htons dport)
  let m := m.store (xip + H.udpLen) (htons (8 + len))
  let m := m.store (xip + H.udpXsum) [0, 0]
  netSetIpSum H m xip

end Headers

namespace NetTx

variable (H : NetBuild) (tx : NetTx)

/-- Whom to ask for the address of the packet that waits. -/
def replyIP : ℕ :=
  if tx.arpWaitPacketIP &&& tx.ourSubnetMask ≠ tx.ourIP &&& tx.ourSubnetMask then
    if tx.ourGatewayIP = 0 then tx.arpWaitPacketIP else tx.ourGatewayIP
  else tx.arpWaitPacketIP

def arpRequest : List NetAct × NetTx :=
  let (m, pkt) := netSetEther H tx.toNetVars tx.txPacket 0 netBcastAddr H.protArp
  let m := m.store (pkt + H.arHrd) (htons H.arpEther)
  let m := m.store (pkt + H.arPro) (htons H.protIp)
  let m := m.store (pkt + H.arHln) [6]
  let m := m.store (pkt + H.arPln) [4]
  let m := m.store (pkt + H.arOp) (htons H.arpopRequest)
  let m := m.store (pkt + H.arData) tx.ourEther.bytes
  let m := m.store (pkt + H.arData + 6) (htonl tx.ourIP)
  let m := m.store (pkt + H.arData + 10) (List.replicate 6 0)
  let m := m.store (pkt + H.arData + 16) (htonl tx.replyIP)
  ([.ask tx.replyIP (m.load 0 (pkt + H.arpHdrSize))],
    { tx with
      txPacket := m
      arpWaitReplyIP := tx.replyIP })

/-- `NetSendUDPPacket` at this time: 1 if the packet waits, else 0. -/
def netSendUDPPacket (ether : EtherPtr) (dest dport sport len now : ℕ) :
    ℕ × List NetAct × NetTx :=
  let dest := if dest = 0 then 0xffffffff else dest
  let addr := if dest = 0xffffffff then netBcastAddr else tx.ethers ether
  if addr.bytes = netEtherNullAddr.bytes then
    let (m, pkt) := netSetEther H tx.toNetVars tx.arpWaitTxPacket 0 addr H.protIp
    let m := netSetIP H tx.toNetVars m pkt dest dport sport len
    let m := m.store (pkt + H.ipHdrSize) (tx.txPacket.load (pkt + H.ipHdrSize) len)
    let size := pkt + H.ipHdrSize + len
    let r := arpRequest H { tx with
      ipId := u32 (tx.ipId + 1)
      arpWaitPacketIP := dest
      arpWaitPacketMAC := some ether
      arpWaitTxPacket := m
      arpWaitTxPacketSize := size
      arpWaitTry := 1
      arpWaitTimerStart := now }
    (1, .queue dest (m.load 0 size) :: r.1, r.2)
  else
    let (m, pkt) := netSetEther H tx.toNetVars tx.txPacket 0 addr H.protIp
    let m := netSetIP H tx.toNetVars m pkt dest dport sport len
    (0, [.send (m.load 0 (pkt + H.ipHdrSize + len))],
      { tx with
        ipId := u32 (tx.ipId + 1)
        txPacket := m })

def pingSend (now : ℕ) : List NetAct × NetTx :=
  let (m, pkt) := netSetEther H tx.toNetVars tx.arpWaitTxPacket 0 netEtherNullAddr H.protIp
  let m := netSetIpFields H tx.toNetVars m pkt (H.ipHdrSizeNoUdp + 8) 1 tx.pingIP
  let m := netSetIpSum H m pkt
  let m := m.store (pkt + H.udpSrc) (htons 0x0800)
  let m := m.store (pkt + H.udpSrc + 2) [0, 0]
  let m := m.store (pkt + H.udpSrc + 4) [0, 0]
  let m := m.store (pkt + H.udpSrc + 6) (htons tx.pingSeqNo)
  let m := m.store (pkt + H.udpSrc + 2) (bytes16 (0xffff - netCksum (m.load (pkt + H.udpSrc) 8)))
  let size := pkt + H.ipHdrSizeNoUdp + 8
  let r := arpRequest H { tx with
    ethers := Function.update tx.ethers .pingMac netEtherNullAddr
    ipId := u32 (tx.ipId + 1)
    pingSeqNo := tx.pingSeqNo + 1
    arpWaitPacketIP := tx.pingIP
    arpWaitPacketMAC := some .pingMac
    arpWaitTxPacket := m
    arpWaitTxPacketSize := size
    arpWaitTry := 1
    arpWaitTimerStart := now }
  (.queue tx.pingIP (m.load 0 size) :: r.1, r.2)

def arpTimeoutCheck (now : ℕ) : List NetAct × NetTx :=
  if tx.arpWaitPacketIP = 0 then ([], tx)
  else if toU32 (now - tx.arpWaitTimerStart) > H.arpTimeout then
    if tx.arpWaitTry + 1 ≥ H.arpTimeoutCount then ([.startAgain], { tx with arpWaitTry := 0 })
    else arpRequest H { tx with
      arpWaitTry := tx.arpWaitTry + 1
      arpWaitTimerStart := now }
  else ([], tx)

/-- What `NetReceive` does with a reply that it was waiting for. -/
def arpReply (mac : List UInt8) : List NetAct × NetTx :=
  let addr := EtherAddr.ofBytes mac
  let m := tx.arpWaitTxPacket.store H.etDest addr.bytes
  ([.release (m.load 0 tx.arpWaitTxPacketSize)],
    { tx with
      ethers := match tx.arpWaitPacketMAC with
        | some ether => Function.update tx.ethers ether addr
        | none => tx.ethers
      arpWaitTxPacket := m
      arpWaitPacketIP := 0
      arpWaitTxPacketSize := 0
      arpWaitPacketMAC := none })

def netState : NetState where
  ourIP := tx.ourIP
  serverIP := tx.serverIP
  ourVLAN := tx.ourVLAN
  ourNativeVLAN := tx.ourNativeVLAN
  arpWaitPacketIP := tx.arpWaitPacketIP
  arpWaitPacketMAC := tx.arpWaitPacketMAC.isSome
  arpWaitReplyIP := tx.arpWaitReplyIP
  cmdPing := tx.cmdPing

/-- What the handlers of other frames do are events of their own. -/
def onDone : NetDone → List NetAct × NetTx
  | .arpResolved mac => arpReply H tx mac
  | _ => ([], tx)

/-- A frame comes in. -/
def receive (frame : List UInt8) (behind : Mem) : List NetAct × NetTx :=
  onDone H tx (netRun H.toNetHeaders tx.netState frame behind).val

/-- Where `NetLoop` begins. -/
def netLoop : NetTx := { tx with
  arpWaitPacketMAC := none
  arpWaitPacketIP := 0
  arpWaitReplyIP := 0
  arpWaitTxPacketSize := 0 }

end NetTx

/-- What happens to the sender. -/
inductive NetEvent where
  | netLoop
  /-- other code sets its variables -/
  | set (v : NetVars)
  | send (ether : EtherPtr) (dest dport sport len now : ℕ)
  | ping (now : ℕ)
  | timeout (now : ℕ)
  | receive (frame : List UInt8) (behind : Mem)

section Run

variable (H : NetBuild)

def NetTx.step (tx : NetTx) : NetEvent → List NetAct × NetTx
  | .netLoop => ([], tx.netLoop)
  | .set v => ([], { tx with toNetVars := v })
  | .send ether dest dport sport len now =>
    (tx.netSendUDPPacket H ether dest dport sport len now).2
  | .ping now => tx.pingSend H now
  | .timeout now => tx.arpTimeoutCheck H now
  | .receive frame behind => tx.receive H frame behind

/-- What is done at which event, from `NetLoop`'s beginning on. -/
def NetTx.run (tx : NetTx) : List NetEvent → List (NetEvent × NetAct) × NetTx
  | [] => ([], tx)
  | ev :: evs =>
    let r := tx.step H ev
    let rest := r.2.run evs
    (r.1.map (Prod.mk ev) ++ rest.1, rest.2)

end Run

end InfotmUboot
