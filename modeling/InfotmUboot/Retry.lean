import InfotmUboot.Lib.Bytes
import InfotmUboot.Lib.Word

/-!
# The read-retry table

The parameters of the read retry come from a page that holds the same set several times, each one
followed by its complement. The preloader looks for a set that is right in `imap_otp_check`, which
keeps its position in `otp_start`; the initialisation of the NAND driver has a search of its own.
-/

namespace InfotmUboot

open Lib

def OTP_LEN : ℕ := 64

def G_2ATR_MAGIC : ℕ := 0x379a8756

section Check

variable (buf : Mem)

/-- The loop over the bytes of a set and their complements: whether it comes to its end, and the
offsets it reads. -/
def otpScan (differ : UInt8 → UInt8 → Bool) : ℕ → ℕ → Bool × List ℕ
  | 0, _ => (true, [])
  | n + 1, i =>
    if differ (buf i) (buf (i + OTP_LEN)) then (false, [i, i + OTP_LEN])
    else
      let r := otpScan differ n (i + 1)
      (r.1, i :: (i + OTP_LEN) :: r.2)

/-- When the preloader takes two bytes for no pair. -/
def imapOtpDiffer (a b : UInt8) : Bool := a ||| b ≠ 0xff ∨ a &&& b ≠ 0x0

/-- When the initialisation of the NAND does. -/
def nandOtpDiffer (a b : UInt8) : Bool := a ||| b ≠ 0xff ∧ a &&& b ≠ 0x0

/-- The result of `imap_otp_check`, where it leaves `otp_start`, and the offsets it read. -/
structure OtpCheck where
  ret : ℤ
  otpStart : ℕ
  reads : List ℕ

def imapOtpCheckFrom (offset : ℕ) : ℕ → ℕ → OtpCheck
  | 0, otpStart => ⟨-1, otpStart, []⟩
  | n + 1, otpStart =>
    let r := otpScan buf imapOtpDiffer OTP_LEN otpStart
    if r.1 then ⟨0, otpStart, r.2⟩
    else
      let otpStart := u32 (otpStart + 128)
      if otpStart ≥ u32 (896 + offset) then ⟨-1, otpStart, r.2⟩
      else
        let c := imapOtpCheckFrom offset n otpStart
        { c with reads := r.2 ++ c.reads }

/-- `imap_otp_check`. It goes no further than 896 bytes, which hold seven sets. -/
def imapOtpCheck (otpStart : ℕ) : OtpCheck := imapOtpCheckFrom buf otpStart 7 otpStart

def nandOtpCheckFrom : ℕ → ℕ → Option ℕ
  | 0, _ => none
  | n + 1, otpStart =>
    if otpStart < 1026 ∧ ¬(otpScan buf nandOtpDiffer OTP_LEN otpStart).1 then
      let otpStart := otpStart + OTP_LEN * 2
      if otpStart ≥ 896 then none else nandOtpCheckFrom n otpStart
    else some otpStart

/-- Where the initialisation of the NAND finds its set. -/
def nandOtpCheck : Option ℕ := nandOtpCheckFrom buf 7 0

/-- The set the preloader takes from a page. -/
def imapOtpSet : Option (List UInt8) :=
  let c := imapOtpCheck buf 0
  if c.ret = 0 then some (buf.load c.otpStart OTP_LEN) else none

/-- The set the driver takes. -/
def nandOtpSet : Option (List UInt8) := (nandOtpCheck buf).map fun s => buf.load s OTP_LEN

end Check

/-- Where `imap_get_retry_param` is: about to read the page with the copy of the table, about to
read the table of the chip, or through. -/
inductive RetryPhase where
  | page
  | otp
  | done
  deriving DecidableEq

structure RetryState where
  phase : RetryPhase := .page
  otpStart : ℕ

/-- What `imap_get_retry_param` does with the 1024 bytes of its next read, and the offsets at which
`imap_otp_check` reads them. `crc` is the hash of the table. -/
def retryStep (crc : List UInt8 → ℕ) (s : RetryState) (buf : Mem) : RetryState × List ℕ :=
  match s.phase with
  | .page =>
    if buf.get32 (255 * 4) ≠ G_2ATR_MAGIC then ({ phase := .otp, otpStart := 2 }, [])
    -- the page is erased, and read again
    else if buf.get32 (254 * 4) ≠ crc (buf.load 0 896) then (s, [])
    else
      let c := imapOtpCheck buf 0
      ({ phase := if c.ret ≠ 0 then .page else .done, otpStart := c.otpStart }, c.reads)
  | .otp =>
    if buf 0 ≠ 0x8 ∨ buf 1 ≠ 0x8 then (s, [])
    else
      -- the table is programmed and the board reset, if it is right
      let c := imapOtpCheck buf s.otpStart
      ({ phase := if c.ret ≠ 0 then .otp else .done, otpStart := c.otpStart }, c.reads)
  | .done => (s, [])

/-- The offsets `imap_otp_check` reads at while the reads return `bufs`. -/
def retryReads (crc : List UInt8 → ℕ) : RetryState → List Mem → List ℕ
  | _, [] => []
  | s, buf :: bufs =>
    let r := retryStep crc s buf
    r.2 ++ retryReads crc r.1 bufs

end InfotmUboot
