import InfotmUboot.Dhcp
import InfotmUboot.Lib.Loop

/-!
# The option scans of BOOTP and DHCP

`BootpVendorProcess`, `DhcpOptionsProcess` and `DhcpMessageType` once more, with what they read of
the packet and write to their variables: every access is asked for, so that a run leaves them in its
log.
-/

namespace InfotmUboot

open Lib

/-- The variables that options are copied to. -/
inductive NetVar where
  | ourSubnetMask
  | ourGatewayIP
  | ourDNSIP
  | ourHostName
  | bootFileSize
  | ourRootPath
  | ourNISDomain
  | leasetime
  | dhcpServerIP
  | bpFile
  deriving DecidableEq, Repr

/-- `sizeof` -/
def NetVar.size : NetVar → ℕ
  | ourHostName => 32
  | bootFileSize => 2
  | ourRootPath => 64
  | ourNISDomain => 32
  | bpFile => 128
  | _ => 4

inductive ScanOp where
  /-- bytes of the packet -/
  | read (start len : ℕ)
  /-- the first bytes of a variable -/
  | look (v : NetVar) (len : ℕ)
  | write (v : NetVar) (off : ℕ) (data : List UInt8)
  deriving DecidableEq, Repr

abbrev ScanProg := Prog ScanOp (List UInt8)

/-- The memory from the packet on, and the variables. -/
structure ScanEnv where
  pkt : Mem
  var : NetVar → Mem

def scanStep (e : ScanEnv) : ScanOp → List UInt8 × ScanEnv
  | .read start len => (e.pkt.load start len, e)
  | .look v len => (if v = .bpFile then e.pkt.load bpFile len else (e.var v).load 0 len, e)
  | .write v off data =>
    ([], if v = .bpFile then { e with pkt := e.pkt.store (bpFile + off) data }
      else { e with var := fun u => if u = v then (e.var v).store off data else e.var u })

section Copy

def readByte (o : ℕ) : ScanProg UInt8 := do
  let bs ← Prog.op (.read o 1)
  return bs.headD 0

/-- `NetCopyIP` and `NetCopyLong` -/
def netCopy (v : NetVar) (o : ℕ) : ScanProg Unit := do
  let bs ← Prog.op (.read o 4)
  let _ ← Prog.op (.write v 0 bs)

/-- `truncate_sz`, `memcpy` and the zero behind it. -/
def copyText (v : NetVar) (o curlen : ℕ) : ScanProg Unit := do
  let size := truncateSz v.size curlen
  let bs ← Prog.op (.read o size)
  let _ ← Prog.op (.write v 0 bs)
  let _ ← Prog.op (.write v size [0])

/-- Only if the first bytes of the variable are zero. -/
def ifUnset (v : NetVar) (len : ℕ) (p : ScanProg Unit) : ScanProg Unit := do
  let bs ← Prog.op (.look v len)
  if bs = List.replicate len 0 then p

end Copy

section Vendor

def bootpVendorFieldProcess (ext : ℕ) : ScanProg Unit := do
  let size ← readByte (ext + 1)
  let _ ← Prog.op (.write .bootFileSize 0 [0, 0])
  let code ← readByte ext
  if code = 1 then ifUnset .ourSubnetMask 4 (netCopy .ourSubnetMask (ext + 2))
  else if code = 3 then ifUnset .ourGatewayIP 4 (netCopy .ourGatewayIP (ext + 2))
  else if code = 6 then ifUnset .ourDNSIP 4 (netCopy .ourDNSIP (ext + 2))
  else if code = 12 then ifUnset .ourHostName 1 (copyText .ourHostName (ext + 2) size.toNat)
  else if code = 13 then
    if size = 2 then do
      let bs ← Prog.op (.read (ext + 2) 2)
      let _ ← Prog.op (.write .bootFileSize 0 bs.reverse)
    else if size = 4 then do
      let bs ← Prog.op (.read (ext + 2) 4)
      -- the low half of a big-endian long
      let _ ← Prog.op (.write .bootFileSize 0 (bs.reverse.take 2))
    else return
  else if code = 17 then ifUnset .ourRootPath 1 (copyText .ourRootPath (ext + 2) size.toNat)
  else if code = 40 then ifUnset .ourNISDomain 1 (copyText .ourNISDomain (ext + 2) size.toNat)
  else return

/-- A round of `BootpVendorProcess`. -/
def bootpVendorStep (last ext : ℕ) : ScanProg (Unit ⊕ ℕ) := do
  if last ≤ ext then return .inl ()
  let code ← readByte ext
  if code = 0xff then return .inl ()
  if code = 0 then return .inr (ext + 1)
  let len ← readByte (ext + 1)
  let next := ext + len.toNat + 2
  if next ≤ last then bootpVendorFieldProcess ext
  return .inr next

/-- `BootpVendorProcess` of what is behind the magic number, given the length of the packet. -/
def bootpVendorProcess (len n : ℕ) : ScanProg (Option Unit) :=
  Prog.loop (bootpVendorStep (bpVend + 4 + len)) n (bpVend + 4)

end Vendor

section Dhcp

def dhcpOptionCopy (popt : ℕ) (code : UInt8) (oplen : ℕ) : ScanProg Unit := do
  if code = 1 then netCopy .ourSubnetMask (popt + 2)
  else if code = 3 then netCopy .ourGatewayIP (popt + 2)
  else if code = 6 then netCopy .ourDNSIP (popt + 2)
  else if code = 12 then copyText .ourHostName (popt + 2) oplen
  else if code = 17 then copyText .ourRootPath (popt + 2) oplen
  else if code = 51 then netCopy .leasetime (popt + 2)
  else if code = 54 then netCopy .dhcpServerIP (popt + 2)
  else if code = 67 then
    ifUnset .bpFile 1 (if 0 < truncateSz 128 oplen then copyText .bpFile (popt + 2) oplen
      else return)
  else return

/-- A round of `DhcpOptionsProcess`. -/
def dhcpOptionsStep (last popt : ℕ) : ScanProg (Unit ⊕ ℕ) := do
  if last ≤ popt then return .inl ()
  let code ← readByte popt
  if code = 0xff then return .inl ()
  let oplen ← readByte (popt + 1)
  dhcpOptionCopy popt code oplen.toNat
  return .inr (popt + (oplen.toNat + 2))

/-- `DhcpOptionsProcess` -/
def dhcpOptionsScan (n : ℕ) : ScanProg (Option Unit) :=
  Prog.loop (dhcpOptionsStep (bpVend + 4 + BOOTP_HDR_SIZE)) n (bpVend + 4)

/-- A round of `DhcpMessageType`, with `none` for -1. -/
def dhcpMessageTypeStep (popt : ℕ) : ScanProg (Option UInt8 ⊕ ℕ) := do
  let code ← readByte popt
  if code = 0xff then return .inl none
  if code = 53 then do
    let type ← readByte (popt + 2)
    return .inl (some type)
  let oplen ← readByte (popt + 1)
  return .inr (popt + (oplen.toNat + 2))

/-- `DhcpMessageType` -/
def dhcpMessageTypeScan (n : ℕ) : ScanProg (Option (Option UInt8)) := do
  let magic ← Prog.op (.read bpVend 4)
  if magic ≠ BOOTP_VENDOR_MAGIC then return some none
  Prog.loop dhcpMessageTypeStep n (bpVend + 4)

end Dhcp

end InfotmUboot
