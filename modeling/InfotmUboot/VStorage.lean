import InfotmUboot.Nand
import Mathlib.Tactic.IntervalCases

/-!
# Virtual storage

The device table `vs_list`, the current device and the `vs_*` calls. A strategy is a program over
`Op`: one operation for every driver call, and for every call out of the storage layer, that its
behaviour depends on. `vsReadBody` is what `vs_read` does with the driver's `read`; the operation
`Op.read` stands for it as a whole.
-/

namespace InfotmUboot

open Lib

def INFO_MAX_PARTITIONS : ℕ := 8
def INFO_SPARE_IMAGES : ℕ := 10

/-- The devices, in the order of `vs_list`. -/
inductive Dev where
  | bnd
  | nnd
  | fnd
  | eeprom
  | flash
  | hd
  | mmc0
  | mmc1
  | mmc2
  | udisk0
  | udisk1
  | udc
  | eth
  | ram
  deriving DecidableEq, Repr

/-- Which of its optional parts an entry of `vs_list` has. -/
structure VStorage where
  erasable : Bool := false
  burnsrc : Bool := false
  read : Bool := false
  write : Bool := false
  reset : Bool := false
  erase : Bool := false
  isbad : Bool := false

namespace Dev

def vsList : List Dev :=
  [bnd, nnd, fnd, eeprom, flash, hd, mmc0, mmc1, mmc2, udisk0, udisk1, udc, eth, ram]

def entry : Dev → VStorage
  | bnd | nnd | fnd =>
    { erasable := true, read := true, write := true, reset := true, erase := true, isbad := true }
  | eeprom | hd | ram => { read := true, write := true, reset := true }
  | flash => { erasable := true, read := true, write := true, reset := true, erase := true }
  | mmc0 | mmc1 | mmc2 => { burnsrc := true, read := true, write := true, reset := true }
  | udisk0 | udisk1 => {}
  | udc | eth => { reset := true }

/-- The index of a device, as `vs_device_id` looks it up by name. -/
def id (d : Dev) : ℤ := vsList.idxOf d

/-- The entry a device number selects, if `id_valid`. -/
def ofId (id : ℤ) : Option Dev := if 0 ≤ id then vsList[id.toNat]? else none

@[simp]
theorem ofId_id (d : Dev) : ofId d.id = some d := by
  cases d <;> rfl

/-- The three views of the NAND flash. -/
def isNand (d : Dev) : Bool := d = bnd ∨ d = nnd ∨ d = fnd

end Dev

def DEV_CURRENT : ℤ := 14

def DEV_NONE : ℤ := 15

def DEV_BND : ℤ := Dev.bnd.id

def DEV_NAND : ℤ := Dev.nnd.id

def DEV_FND : ℤ := Dev.fnd.id

/-- What a strategy asks of the drivers, the transport, the allocator, the crypto engine and the
memory. -/
inductive Op where
  | reset (dev : Dev)
  | read (dev : Dev) (start : ℕ) (length : ℤ)
  | write (dev : Dev) (start : ℕ) (data : List UInt8)
  | erase (dev : Dev) (start size : ℕ)
  | isbad (dev : Dev) (start : ℕ)
  | malloc (size : ℕ)
  | getData (len : ℕ)
  | recv (len : ℤ)
  | send (data : List UInt8)
  | aesInit (option : ℕ) (key : Option (List UInt8))
  | aesData (data : List UInt8)
  | hashInit (type : ℤ) (len : ℕ)
  | hashData (data : List UInt8)
  | hashValue
  | hashLen
  | memRead (addr len : ℕ)
  | memWrite (addr : ℕ) (data : List UInt8)
  deriving DecidableEq, Repr

structure Reply where
  ret : ℤ
  data : List UInt8 := []
  deriving DecidableEq, Repr

/-- What a fresh allocation holds. -/
def Reply.mem (r : Reply) : Mem := fun i => r.data.getD i 0

/-- What a transfer of `len` bytes put in the buffer: no more than these, where a negative length
stops nothing. -/
def Reply.placed (r : Reply) (len : ℤ) : List UInt8 :=
  if len < 0 then r.data else r.data.take len.toNat

/-- The strategy code. -/
abbrev Strat := Prog Op Reply

/-- The partitions the extra images go to. -/
inductive Part where
  | misc
  | system
  | cache
  | user
  deriving DecidableEq, Repr

/-- The board: the NAND configurations, block size and capacity of the cards, the disk the system
is on (`storage_device`) and what its configuration says of the partitions. -/
structure Board where
  nand : NandCfg
  mmcBlksz : ℕ → ℕ
  mmcCapacity : ℕ → ℕ
  storageDevice : ℤ
  nandPartOffset : Part → ℕ
  partSize : Part → ℤ

def Board.align (B : Board) : Dev → ℕ
  | .bnd => bndVsAlign B.nand
  | .nnd => nndVsAlign B.nand
  | .fnd => fndVsAlign B.nand
  | .eeprom => 16
  | .flash => 256
  | .hd => 512
  | .mmc0 => B.mmcBlksz 0
  | .mmc1 => B.mmcBlksz 1
  | .mmc2 => B.mmcBlksz 2
  | .udisk0 | .udisk1 => 0
  | .udc | .eth => 0x400
  | .ram => 0x200

/-- `vs_capacity`, in blocks. -/
def Board.capacity (B : Board) : Dev → ℕ
  | .mmc0 => B.mmcCapacity 0
  | .mmc1 => B.mmcCapacity 1
  | .mmc2 => B.mmcCapacity 2
  | _ => 0

section Table

variable (B : Board)

def vsIsDevice (cur : Option Dev) (id : ℤ) (d : Dev) : Bool :=
  (if id = DEV_CURRENT then cur else Dev.ofId id) = some d

def vsDeviceErasable (id : ℤ) : Bool := (Dev.ofId id).elim false (·.entry.erasable)

def vsAlign (cur : Option Dev) (id : ℤ) : ℕ :=
  match Dev.ofId id with
  | some d => B.align d
  | none => if id = DEV_CURRENT then cur.elim 0 B.align else 0

end Table

section Calls

def vsReset (cur : Option Dev) : Strat ℤ :=
  match cur with
  | none => pure (-2)
  | some d =>
    if d.entry.reset then do
      let r ← Prog.op (.reset d)
      pure r.ret
    else pure (-3)

/-- The result, and the device that is current from then on. -/
def vsAssignById (id : ℤ) (reset : Bool) : Strat (ℤ × Option Dev) :=
  match Dev.ofId id with
  | none => pure (-1, none)
  | some d => do
    let ret ← if reset then vsReset (some d) else pure 0
    pure (ret, some d)

/-- The result, and what was put in the buffer. -/
def vsRead (cur : Option Dev) (start : ℕ) (length : ℤ) : Strat (ℤ × List UInt8) :=
  match cur with
  | none => pure (-2, [])
  | some d =>
    if ¬ d.entry.read then pure (-3, [])
    else if length = 0 then pure (0, [])
    else do
      let r ← Prog.op (.read d start length)
      pure (r.ret, r.data)

def vsWrite (cur : Option Dev) (start : ℕ) (data : List UInt8) : Strat ℤ :=
  if data = [] then pure 0
  else
    match cur with
    | none => pure (-2)
    | some d =>
      if d.entry.write then do
        let r ← Prog.op (.write d start data)
        pure r.ret
      else pure (-3)

def vsErase (cur : Option Dev) (start size : ℕ) : Strat ℤ :=
  match cur with
  | none => pure (-2)
  | some d =>
    if d.entry.erase then do
      let r ← Prog.op (.erase d start size)
      pure r.ret
    else pure (-3)

def vsIsbad (cur : Option Dev) (start : ℕ) : Strat ℤ :=
  match cur with
  | none => pure (-2)
  | some d =>
    if d.entry.isbad then do
      let r ← Prog.op (.isbad d start)
      pure r.ret
    else pure (-3)

/-- The skip loop of the burn paths: whether there is a good block from `offs` on, and the offset
and the leeway the loop stops at. The fuel is the leeway, which every round shortens. -/
def skipBad (cur : Option Dev) (skip : ℕ) : ℕ → ℕ → ℤ → Strat (Bool × ℕ × ℤ)
  | 0, offs, leeway => do
    let b ← vsIsbad cur offs
    pure (b = 0, offs, leeway)
  | n + 1, offs, leeway => do
    let b ← vsIsbad cur offs
    if b = 0 then return (true, offs, leeway)
    if leeway > skip then skipBad cur skip n (offs + skip) (leeway - skip)
    else return (false, offs, leeway)

end Calls

section Read

variable (d : Dev) (align start : ℕ) (length : ℤ)

/-- `align - 1`, which has 32 bits. -/
def vsMask : ℕ := toU32 (align - 1)

/-- The length `vs_read` goes by: whole pages on `nnd`. -/
def vsLength : ℤ :=
  if d = .nnd then s32 (andNot (toU32 (length + vsMask align)) (vsMask align) : ℕ) else length

/-- What is read before the first aligned offset. -/
def vsPrelen : ℕ :=
  let prelen := start &&& vsMask align
  if prelen ≠ 0 then toU32 (align - prelen) else 0

/-- What is read past the last aligned offset. -/
def vsPostlen : ℕ := toU32 (vsLength d align length - vsPrelen align start) &&& vsMask align

/-- What is read in between. -/
def vsMidlen : ℤ :=
  s32 (s32 (vsLength d align length - vsPrelen align start) - vsPostlen d align start length)

variable {O R : Type}

/-- A part of a read, if there is any of it. -/
def vsReadPart (c : Prop) [Decidable c] (p : Prog O R (ℤ × List UInt8)) :
    Prog O R (ℤ × List UInt8) :=
  if c then p else pure (0, [])

/-- What `vs_read` does over the `read` of a driver with this `align`. What a driver leaves out of
a part that another part follows reads as zero. -/
def vsReadBody (read : ℕ → ℤ → Prog O R (ℤ × List UInt8)) : Prog O R (ℤ × List UInt8) :=
  -- pass fnd request directly to lower layer
  if d = .fnd then read start length
  else do
    let prelen := vsPrelen align start
    let postlen := vsPostlen d align start length
    let midlen := vsMidlen d align start length
    -- the complement of the mask has 32 bits, so the upper half of `start` is lost here
    let head ← vsReadPart (prelen ≠ 0) (read (andNot (u32 start) (vsMask align)) align)
    if head.1 < 0 then return (head.1, [])
    let buf := (fit align head.2).drop (align - prelen)
    let mid ← vsReadPart (midlen ≠ 0) (read (start + prelen) midlen)
    if mid.1 < 0 then return (mid.1, buf ++ mid.2)
    if postlen = 0 then return (head.1 + mid.1, buf ++ mid.2)
    let tail ← read ((start + prelen : ℕ) + midlen).toNat align
    if tail.1 < 0 then return (tail.1, buf ++ fit midlen.toNat mid.2)
    return (head.1 + mid.1 + tail.1,
      buf ++ fit midlen.toNat mid.2 ++ (fit align tail.2).take postlen)

end Read

end InfotmUboot
