import InfotmUboot.Lib.Bytes
import InfotmUboot.Text

/-!
# The DHCP client

`DhcpHandler` as a step on its state at one packet. A packet is what lies in memory from `bp_op` on,
which does not end with the packet.
-/

namespace InfotmUboot

open Lib

def PORT_BOOTPS : ℕ := 67

def PORT_BOOTPC : ℕ := 68

def OPT_SIZE : ℕ := 312

/-- `sizeof(Bootp_t)` -/
def BOOTP_HDR_SIZE : ℕ := 236 + OPT_SIZE

/-- `BOOTP_VENDOR_MAGIC`, as it is sent. -/
def BOOTP_VENDOR_MAGIC : List UInt8 := [0x63, 0x82, 0x53, 0x63]

def DHCP_OFFER : UInt8 := 2

def DHCP_ACK : UInt8 := 5

def DHCP_NAK : UInt8 := 6

/-- A packet, its ports and its length; memory ends `ram` bytes behind its first. -/
structure BootpPkt where
  bytes : Mem
  ram : ℕ
  dest : ℕ
  src : ℕ
  len : ℕ

namespace BootpPkt

variable (p : BootpPkt)

def bpOp : UInt8 := p.bytes 0

def bpHtype : UInt8 := p.bytes 1

def bpHlen : UInt8 := p.bytes 2

def bpId : List UInt8 := p.bytes.load 4 4

def bpYiaddr : List UInt8 := p.bytes.load 16 4

end BootpPkt

/-- The offset of `bp_file`, -/
def bpFile : ℕ := 108

/-- and of `bp_vend`. -/
def bpVend : ℕ := 236

/-- The parameters a reply sets. -/
structure NetParams where
  ourIP : List UInt8
  serverIP : List UInt8
  ourSubnetMask : List UInt8
  ourGatewayIP : List UInt8
  ourDNSIP : List UInt8
  dhcpServerIP : List UInt8
  leasetime : List UInt8
  ourHostName : List UInt8
  ourRootPath : List UInt8
  bootFile : List UInt8

inductive DhcpPhase where
  | selecting
  | requesting
  | bound
  | other
  deriving DecidableEq, Repr

inductive DhcpCall where
  | netSetTimeout
  | sendRequest (id offeredIP dhcpServerIP : List UInt8)
  | setenvBootfile (bootFile : List UInt8)
  | loopSuccess
  | nfsStart
  | tftpStart
  deriving DecidableEq, Repr

structure DhcpState where
  phase : DhcpPhase
  bootpID : List UInt8
  net : NetParams
  autoload : Option (List UInt8)

def bootpCheckPkt (bootpID : List UInt8) (p : BootpPkt) : ℤ :=
  if p.dest ≠ PORT_BOOTPC ∨ p.src ≠ PORT_BOOTPS then -1
  else if p.len < BOOTP_HDR_SIZE - OPT_SIZE then -2
  else if p.bpOp ≠ 1 ∧ p.bpOp ≠ 2 ∧ p.bpOp ≠ DHCP_OFFER ∧ p.bpOp ≠ DHCP_ACK ∧
    p.bpOp ≠ DHCP_NAK then -3
  else if p.bpHtype ≠ 1 then -4
  else if p.bpHlen ≠ 6 then -5
  else if p.bpId ≠ bootpID then -6
  else 0

def truncateSz (maxlen curlen : ℕ) : ℕ := if curlen ≥ maxlen then maxlen - 1 else curlen

section Options

/-- One option at `popt`. Option 67 is stored in the packet. -/
def dhcpOption (popt : ℕ) (net : NetParams) (m : Mem) : NetParams × Mem :=
  let oplen := (m (popt + 1)).toNat
  if m popt = 1 then ({ net with ourSubnetMask := m.load (popt + 2) 4 }, m)
  else if m popt = 3 then ({ net with ourGatewayIP := m.load (popt + 2) 4 }, m)
  else if m popt = 6 then ({ net with ourDNSIP := m.load (popt + 2) 4 }, m)
  else if m popt = 12 then ({ net with ourHostName := m.load (popt + 2) (truncateSz 32 oplen) }, m)
  else if m popt = 17 then ({ net with ourRootPath := m.load (popt + 2) (truncateSz 64 oplen) }, m)
  else if m popt = 51 then ({ net with leasetime := m.load (popt + 2) 4 }, m)
  else if m popt = 54 then ({ net with dhcpServerIP := m.load (popt + 2) 4 }, m)
  else if m popt = 67 then
    let size := truncateSz 128 oplen
    if m bpFile = 0 ∧ size > 0 then
      (net, (m.store bpFile (m.load (popt + 2) size)).store (bpFile + size) [0])
    else (net, m)
  else (net, m)

/-- `DhcpOptionsProcess` from `popt` on; the fuel is the bytes left up to `end`. -/
def dhcpOptionsFrom (last : ℕ) : ℕ → ℕ → NetParams → Mem → NetParams × Mem
  | 0, _, net, m => (net, m)
  | n + 1, popt, net, m =>
    if popt < last ∧ m popt ≠ 0xff then
      let next := popt + ((m (popt + 1)).toNat + 2)
      let r := dhcpOption popt net m
      dhcpOptionsFrom last n next r.1 r.2
    else (net, m)

/-- What the options of a packet set, if it has any. -/
def dhcpOptionsProcess (net : NetParams) (m : Mem) : NetParams × Mem :=
  if m.load bpVend 4 = BOOTP_VENDOR_MAGIC then
    dhcpOptionsFrom (bpVend + 4 + BOOTP_HDR_SIZE) BOOTP_HDR_SIZE (bpVend + 4) net m
  else (net, m)

/-- The loop of `DhcpMessageType`, which ends at an end mark, at a type or with the memory. -/
def dhcpMessageTypeFrom (p : BootpPkt) : ℕ → ℕ → Option UInt8
  | 0, _ => none
  | n + 1, popt =>
    if p.ram ≤ popt ∨ p.bytes popt = 0xff then none
    else if p.bytes popt = 53 then some (p.bytes (popt + 2))
    else dhcpMessageTypeFrom p n (popt + ((p.bytes (popt + 1)).toNat + 2))

/-- `DhcpMessageType`, with `none` for -1. -/
def dhcpMessageType (p : BootpPkt) : Option UInt8 :=
  if p.bytes.load bpVend 4 ≠ BOOTP_VENDOR_MAGIC then none
  else dhcpMessageTypeFrom p p.ram (bpVend + 4)

end Options

/-- `copy_filename` from `src`. -/
def copyFilename (m : Mem) (src size : ℕ) : List UInt8 :=
  let quoted := m src = 0x22
  (m.load (if quoted then src + 1 else src) (if quoted then size - 2 else size - 1)).takeWhile
    fun c => c ≠ 0 ∧ c ≠ 0x22

def bootpCopyNetParams (net : NetParams) (m : Mem) : NetParams × List DhcpCall :=
  let net := { net with ourIP := m.load 16 4 }
  let net := if m.load 20 4 ≠ [0, 0, 0, 0] then { net with serverIP := m.load 20 4 } else net
  let net := if m bpFile ≠ 0 then { net with bootFile := copyFilename m bpFile 128 } else net
  (net, if net.bootFile ≠ [] then [.setenvBootfile net.bootFile] else [])

/-- What follows the binding. -/
def dhcpAutoload (autoload : Option (List UInt8)) : DhcpCall :=
  match autoload with
  | some s => if s.head? = some 0x6e then .loopSuccess else if s = ascii "NFS" then .nfsStart
      else .tftpStart
  | none => .tftpStart

def dhcpHandler (s : DhcpState) (p : BootpPkt) : DhcpState × List DhcpCall :=
  if bootpCheckPkt s.bootpID p ≠ 0 then (s, [])
  else match s.phase with
  | .selecting =>
    let r := dhcpOptionsProcess s.net p.bytes
    ({ s with
        phase := .requesting
        net := r.1 },
      [.netSetTimeout, .sendRequest (r.2.load 4 4) (r.2.load 16 4) r.1.dhcpServerIP])
  | .requesting =>
    if dhcpMessageType p = some DHCP_ACK then
      let r := dhcpOptionsProcess s.net p.bytes
      let c := bootpCopyNetParams r.1 r.2
      ({ s with
          phase := .bound
          net := c.1 },
        c.2 ++ [dhcpAutoload s.autoload])
    else (s, [])
  | _ => (s, [])

/-- The client after these packets. -/
def dhcpRun (s : DhcpState) (pkts : List BootpPkt) : DhcpState :=
  pkts.foldl (fun s p => (dhcpHandler s p).1) s

end InfotmUboot
