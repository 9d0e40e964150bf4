import InfotmUboot.Net

/-!
# CDP packets

`CDPHandler` of `net.c`, which asks for the bytes of a packet by their places in it. The scan over
the packet's fields goes on for as long as the lengths in it say, so it is given fuel.
-/

namespace InfotmUboot

open Lib

section Sum

def foldCarry (r : ℕ) : ℕ := r % 2 ^ 16 + r / 2 ^ 16

/-- `while (result >> 16)` -/
def foldCarries : ℕ → ℕ → ℕ
  | 0, r => r
  | n + 1, r => if r / 2 ^ 16 = 0 then r else foldCarries n (foldCarry r)

/-- The loop over the words, with what is left of the bytes. -/
def cdpWords : List UInt8 → ℕ → ℕ × Option UInt8
  | [], result => (result, none)
  | [b], result => (result, some b)
  | lo :: hi :: bs, result =>
    let result := u32 (result + (lo.toNat + 256 * hi.toNat))
    cdpWords bs (if result < 2 ^ 31 then result else foldCarry result)

/-- `CDP_compute_csum` of these bytes at an odd address or at an even one. -/
def cdpComputeCsum (isOdd : Bool) (bs : List UInt8) : ℕ :=
  let result :=
    if bs = [] then 0
    else
      let w := if isOdd then cdpWords bs.tail ((bs.headD 0).toNat * 256) else cdpWords bs 0
      let result :=
        match w.2 with
        | none => w.1
        | some b =>
          -- the last byte is sign extended
          let leftover := if b.toNat < 128 then b.toNat else 0xff00 + b.toNat
          w.1 / 2 ^ 16 * 2 ^ 16 + (w.1 + leftover) % 2 ^ 16
      let result := foldCarries 3 result
      if isOdd then result / 256 % 256 + result % 256 * 256 else result
  let result := foldCarry (foldCarry (foldCarry result))
  let csum := 0xffff - result % 2 ^ 16
  csum % 256 * 256 + csum / 256

end Sum

section Handler

def CDP_SNAP_hdr : List UInt8 := [0xAA, 0xAA, 0x03, 0x00, 0x00, 0x0C, 0x20, 0x00]

def CDP_NATIVE_VLAN_TLV : ℕ := 0x000a

def CDP_APPLIANCE_VLAN_TLV : ℕ := 0x000e

/-- What becomes of a packet. -/
inductive CdpDone where
  | short
  | refused
  | ok (applianceVlan nativeVlan : ℕ)
  deriving DecidableEq, Repr

/-- The loop over an appliance VLAN field of `tlen` bytes at `t`. -/
def cdpAppliance : ℕ → ℕ → ℕ → NetProg (Option ℕ)
  | 0, _, vlan => pure (some vlan)
  | 1, _, _ => pure none
  | 2, _, _ => pure none
  | tlen + 3, t, _ => do
    let _ ← Prog.op ⟨t, 1⟩
    let vlan ← netField (t + 1) 2
    cdpAppliance tlen (t + 3) vlan

/-- The loop over the fields, from the one at `pkt` on. -/
def cdpFields : ℕ → ℕ → ℕ → ℕ → ℕ → NetProg (Option CdpDone)
  | 0, _, _, _, _ => pure none
  | n + 1, pkt, len, vlan, nvlan => do
    if len = 0 then return some (.ok vlan nvlan)
    if len < 4 then return some .short
    let type ← netField pkt 2
    let tlen ← netField (pkt + 2) 2
    if tlen > len then return some .short
    let data := pkt + 4
    -- 16 bits: of a length below 4 nearly 64 KiB are left
    let left := (tlen + 2 ^ 16 - 4) % 2 ^ 16
    if type = CDP_NATIVE_VLAN_TLV then do
      let ss ← Prog.op ⟨data, 2⟩
      cdpFields n (pkt + tlen) (len - tlen) vlan (ntoh ss.reverse)
    else if type = CDP_APPLIANCE_VLAN_TLV then do
      let some vlan ← cdpAppliance left data vlan | return some .short
      cdpFields n (pkt + tlen) (len - tlen) vlan nvlan
    else cdpFields n (pkt + tlen) (len - tlen) vlan nvlan

/-- `CDPHandler` of a packet of `len` bytes, at an odd address or at an even one. -/
def cdpHandler (isOdd : Bool) (len n : ℕ) : NetProg (Option CdpDone) := do
  if len < CDP_SNAP_hdr.length + 4 then return some .short
  let hdr ← Prog.op ⟨0, CDP_SNAP_hdr.length⟩
  if hdr ≠ CDP_SNAP_hdr then return some .refused
  let version ← netField 8 1
  if version < 2 then return some .refused
  let ttl ← netField 9 1
  if ttl = 0 then return some .refused
  let len := len - CDP_SNAP_hdr.length
  let bs ← Prog.op ⟨8, len % 2 ^ 16⟩
  if cdpComputeCsum isOdd bs ≠ 0 then return some .refused
  cdpFields n 12 (len - 4) 0xffff 0xffff

end Handler

end InfotmUboot
