import InfotmUboot.VStorage

/-!
# The USB device transport

`udc_read` and `udc_write` over the controller, which is asked for one transfer at a time. What they
return is the length that is left, not the one that came.
-/

namespace InfotmUboot

open Lib

/-- A transfer that `udc_event_handle` waits for. -/
inductive UdcOp where
  | rx (addr : ℕ) (len : ℤ)
  | tx (data : List UInt8)
  deriving DecidableEq, Repr

/-- What the controller placed at the address, and whether it cleared the enable flag before the
cable was out. -/
structure UdcReply where
  data : List UInt8
  ended : Bool
  deriving DecidableEq, Repr

/-- A transfer of a negative length places what the controller takes, of any other no more than
that. -/
def UdcReply.placed (r : UdcReply) (len : ℤ) : List UInt8 :=
  if len < 0 then r.data else r.data.take len.toNat

abbrev UdcProg := Prog UdcOp UdcReply

def UDC_MAX_LEN : ℕ := 0x40000

/-- The loop of `udc_read`, and the memory it leaves. -/
def udcReadLoop : ℕ → Mem → ℕ → ℤ → UdcProg (Option (ℤ × Mem))
  | 0, _, _, _ => pure none
  | n + 1, m, rxAddr, len => do
    if len = 0 then return some (0, m)
    let rxLen : ℤ := if len > UDC_MAX_LEN then UDC_MAX_LEN else len
    let r ← Prog.op (.rx rxAddr rxLen)
    let m := m.store rxAddr (r.placed rxLen)
    if ¬r.ended then return some (-1, m)
    udcReadLoop n m (toU32 (rxAddr + rxLen)) (len - rxLen)

/-- `udc_read`; a length that is not 0 gets a transfer, a negative one too. -/
def udcRead (m : Mem) (buf : ℕ) (len : ℤ) : UdcProg (Option (ℤ × Mem)) :=
  udcReadLoop (len.natAbs + 1) m buf len

/-- The loop of `udc_write`, which does not look whether a transfer ended. -/
def udcWriteLoop : ℕ → List UInt8 → UdcProg (Option ℤ)
  | 0, _ => pure none
  | n + 1, buf => do
    if buf.length = 0 then return some 0
    let txLen := if buf.length > UDC_MAX_LEN then UDC_MAX_LEN else buf.length
    let _ ← Prog.op (.tx (buf.take txLen))
    udcWriteLoop n (buf.drop txLen)

def udcWrite (buf : List UInt8) : UdcProg (Option ℤ) := udcWriteLoop (buf.length + 1) buf

section Transport

variable {σ : Type} (ctl : σ → UdcOp → UdcReply × σ)

/-- What the transfers placed, in the order in which they came. -/
def udcPlaced (log : List (UdcOp × UdcReply)) : List UInt8 :=
  log.flatMap fun p =>
    match p.1 with
    | .rx _ len => p.2.placed len
    | .tx _ => []

/-- The controller as the transport of a strategy, with no other device. -/
def udcStep (e : σ) : Op → Reply × σ
  | .recv len =>
    let o := Prog.run ctl (udcRead (fun _ => 0) 0 len) e
    (⟨(o.val.map Prod.fst).getD 0, udcPlaced o.log⟩, o.env)
  | .send data =>
    let o := Prog.run ctl (udcWrite data) e
    (⟨o.val.getD 0, []⟩, o.env)
  | _ => (⟨0, []⟩, e)

end Transport

end InfotmUboot
