import InfotmUboot.NorFlash

/-!
# Ranges of sectors

`flash_fill_sect_ranges` of `cmd_flash.c`, and `flash_sect_erase` and `flash_sect_protect`, which
act on the ranges that it plans. An index is `none` where the code has -1.
-/

namespace InfotmUboot

open Lib

namespace FlashInfo

variable (info : FlashInfo)

/-- `info->start[0] + info->size - 1` -/
def bLast : ℕ := u32 (info.start 0 + info.size + (2 ^ 32 - 1))

/-- The last address in the sector. -/
def sectLast (sect : ℕ) : ℕ :=
  if sect + 1 = info.sectorCount then info.bLast else u32 (info.start (sect + 1) + (2 ^ 32 - 1))

/-- `s_first` and `s_last` of the bank after so many sectors. -/
def fillSects (addrFirst addrLast : ℕ) : ℕ → Option ℕ × Option ℕ
  | 0 => (none, none)
  | sect + 1 =>
    let found := fillSects addrFirst addrLast sect
    if info.sectLast sect < addrFirst then found
    else if addrLast < info.start sect then found
    else
      (if addrFirst = info.start sect then some sect else found.1,
        if addrLast = info.sectLast sect then some sect else found.2)

end FlashInfo

/-- What `flash_fill_sect_ranges` leaves: its result, `s_first` and `s_last` of each bank and
`s_count`. -/
structure SectPlan where
  rcode : ℕ
  ranges : List (Option ℕ × Option ℕ)
  count : ℕ
  deriving DecidableEq, Repr

namespace SectPlan

/-- The loop goes on behind a bank. -/
def next (range : Option ℕ × Option ℕ) (n : ℕ) (plan : SectPlan) : SectPlan :=
  ⟨plan.rcode, range :: plan.ranges, n + plan.count⟩

/-- The loop ends at a bank with an error. -/
def stop (range : Option ℕ × Option ℕ) (infos : List FlashInfo) : SectPlan :=
  ⟨1, range :: infos.map fun _ => (none, none), 0⟩

end SectPlan

def fillSectRanges : List FlashInfo → ℕ → ℕ → SectPlan
  | [], _, _ => ⟨0, [], 0⟩
  | info :: infos, addrFirst, addrLast =>
    if ¬addrFirst ≤ addrLast then (fillSectRanges infos addrFirst addrLast).next (none, none) 0
    else if info.known = false then (fillSectRanges infos addrFirst addrLast).next (none, none) 0
    else
      match info.fillSects addrFirst addrLast info.sectorCount with
      | (some sFirst, last) =>
        match last.or (if info.bLast < addrLast then some (info.sectorCount - 1) else none) with
        | none => SectPlan.stop (some sFirst, none) infos
        | some sLast =>
          if sLast < sFirst then SectPlan.stop (some sFirst, some sLast) infos
          else
            (fillSectRanges infos (if sLast + 1 = info.sectorCount then u32 (info.bLast + 1)
              else info.start (sLast + 1)) addrLast).next (some sFirst, some sLast)
                (sLast - sFirst + 1)
      | (none, last) =>
        if info.start 0 ≤ addrFirst ∧ addrFirst < info.bLast then SectPlan.stop (none, last) infos
        else if last.isSome then SectPlan.stop (none, last) infos
        else (fillSectRanges infos addrFirst addrLast).next (none, none) 0

/-- A call of the driver's `flash_erase`. -/
structure SectErase where
  bank : ℕ
  sFirst : ℕ
  sLast : Option ℕ
  deriving DecidableEq, Repr

/-- The loop of `flash_sect_erase`, which ends with the first call that fails. -/
def eraseRanges : ℕ → List (Option ℕ × Option ℕ) → Prog SectErase ℤ ℤ
  | _, [] => return 0
  | bank, (some sFirst, sLast) :: ranges => do
    let rcode ← Prog.op ⟨bank, sFirst, sLast⟩
    if rcode = 0 then eraseRanges (bank + 1) ranges else return rcode
  | bank, (none, _) :: ranges => eraseRanges (bank + 1) ranges

def flashSectErase (banks : List FlashInfo) (addrFirst addrLast : ℕ) : Prog SectErase ℤ ℤ :=
  let plan := fillSectRanges banks addrFirst addrLast
  if plan.count ≠ 0 ∧ plan.rcode = 0 then eraseRanges 0 plan.ranges
  else if plan.rcode = 0 then return 1
  else return plan.rcode

/-- A call of `flash_real_protect`, or a write to `info->protect[i]` where there is none. -/
structure SectProtect where
  bank : ℕ
  sect : ℕ
  prot : ℕ
  deriving DecidableEq, Repr

/-- The sectors from `sect` on; what a call returns is looked at only if it is one. -/
def protectSects (real : Bool) (bank p : ℕ) : ℕ → ℕ → ℤ → Prog SectProtect ℤ ℤ
  | 0, _, rcode => return rcode
  | n + 1, sect, rcode => do
    let ret ← Prog.op ⟨bank, sect, p⟩
    protectSects real bank p n (sect + 1) (if real ∧ ret ≠ 0 then 1 else rcode)

def protectRanges (real : Bool) (p : ℕ) :
    ℕ → List (FlashInfo × Option ℕ × Option ℕ) → ℤ → Prog SectProtect ℤ ℤ
  | _, [], rcode => return rcode
  | bank, (info, some sFirst, some sLast) :: rest, rcode => do
    if info.known = true ∧ sFirst ≤ sLast then
      let rcode ← protectSects real bank p (sLast + 1 - sFirst) sFirst rcode
      protectRanges real p (bank + 1) rest rcode
    else protectRanges real p (bank + 1) rest rcode
  | bank, _ :: rest, rcode => protectRanges real p (bank + 1) rest rcode

def flashSectProtect (real : Bool) (banks : List FlashInfo) (p addrFirst addrLast : ℕ) :
    Prog SectProtect ℤ ℤ :=
  let plan := fillSectRanges banks addrFirst addrLast
  if plan.count ≠ 0 ∧ plan.rcode = 0 then protectRanges real p 0 (banks.zip plan.ranges) 0
  else if plan.rcode = 0 then return 1
  else return plan.rcode

end InfotmUboot
