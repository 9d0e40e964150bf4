import InfotmUboot.Ius

/-!
# Burning an image

`burn_image_loop` and its caller `burn_images`. What the loop keeps fixed is a `BurnConf`, what it
moves on is a `BurnPos`. The rounds are bounded by `remain`, which every round shortens.
-/

namespace InfotmUboot

open Lib

def IR_MAX_BUFFER : ℕ := 0x4000

/-- BND data must reach 32KB to boot. -/
def BL_SIZE_FIXED : ℕ := 0x8000

/-- What the loop of `burn_image_loop` keeps fixed: the devices, the image's type, how far a round
moves the target (`step`) and how much data it moves (`unit`), the block size to skip bad blocks
by and whether the data is encrypted. -/
structure BurnConf where
  idI : ℤ
  idO : ℤ
  type : ℕ
  step : ℕ
  unit : ℕ
  skip : ℕ
  encrypt : Bool

/-- What it moves on: the source and target offsets, what remains and the leeway, and the buffer
with the address it has come to. -/
structure BurnPos where
  offsI : ℕ
  offsO : ℕ
  remain : ℕ
  leeway : ℤ
  buf : Mem
  bufAt : ℕ

section Loop

variable (c : BurnConf)

/-- The read half of a round: one unit from the source, encrypted if the image asks for it. -/
def burnFetch (p : BurnPos) : Strat Mem := do
  let (_, cur) ← vsAssignById c.idI false
  let r ← vsRead cur p.offsI c.unit
  let buf := p.buf.store p.bufAt (r.2.take c.unit)
  if c.encrypt then ssAesData buf p.bufAt c.step else pure buf

/-- The write half of a round: whether there is a good block left, and the target offset and the
leeway past the bad ones. -/
def burnPlace (p : BurnPos) : Strat (Bool × ℕ × ℤ) := do
  let (ret, cur) ← vsAssignById c.idO false
  if ret ≠ 0 then return (true, p.offsO, p.leeway)
  let (good, offsO, leeway) ←
    if c.skip ≠ 0 ∧ p.offsO &&& (c.skip - 1) = 0 then
      skipBad cur c.skip p.leeway.toNat p.offsO p.leeway
    else pure (true, p.offsO, p.leeway)
  if good then do
    let _ ← vsWrite cur offsO (p.buf.load p.bufAt c.unit)
  return (good, offsO, leeway)

def burnLoop : ℕ → BurnPos → Strat ℤ
  | 0, _ => pure 0
  | n + 1, p => do
    if p.remain = 0 then return 0
    let buf ← burnFetch c p
    let (good, offsO, leeway) ← burnPlace c { p with buf := buf }
    if ¬ good then return -EBADBLK
    burnLoop n {
      offsI := p.offsI + c.unit
      offsO := offsO + c.step
      remain := p.remain - min p.remain c.step
      leeway := leeway
      buf := buf
      bufAt := p.bufAt + if c.type = IUS_DESC_EXEC then c.step else 0 }

end Loop

section Image

variable (B : Board)

/-- Whether the data is to be encrypted: the image is a bootloader with a secure ISI header. -/
def burnEncrypt (type : ℕ) (idI : ℤ) (offsI : ℕ) (buf : Mem) (bufAt : ℕ) :
    Strat (Bool × Mem) := do
  let (_, cur) ← vsAssignById idI false
  if type ≠ IUS_DESC_STNB ∧ type ≠ IUS_DESC_STRW then return (false, buf)
  let r ← vsRead cur offsI ISI_SIZE
  let buf := buf.store bufAt (r.2.take ISI_SIZE)
  if isiCheckHeader buf bufAt = 0 ∧ isiIsSecure buf bufAt then do
    let _ ← Prog.op (.aesInit ENCRYPTION none)
    return (true, buf)
  else return (false, buf)

/-- Whether the target is one of the NAND devices. -/
def burnIsNand (cur : Option Dev) (idO : ℤ) : Bool :=
  vsIsDevice cur idO .nnd ∨ vsIsDevice cur idO .fnd ∨ vsIsDevice cur idO .bnd

/-- The configuration a NAND target is burnt by: that of the boot pages for `bnd`. -/
def burnConfig (cur : Option Dev) (idO : ℤ) : Option NandConfig :=
  B.nand.getConfig (if vsIsDevice cur idO .bnd then .boot else .normal)

/-- What is to be written: the pages of an `fnd` image without their system bytes, and at least
`BL_SIZE_FIXED` bytes on `bnd`. -/
def burnRemain (desc : IusDesc) (cur : Option Dev) (idO : ℤ) : ℕ :=
  if vsIsDevice cur idO .bnd ∧ desc.len < BL_SIZE_FIXED then BL_SIZE_FIXED
  else if desc.type = IUS_DESC_STNF then fndSizeShrink B.nand desc.len
  else desc.len

/-- What the loop of an image keeps fixed. -/
def burnConf (desc : IusDesc) (idI idO : ℤ) (encrypt : Bool) : BurnConf :=
  let cur := Dev.ofId idI
  let step := if desc.type = IUS_DESC_STNF then vsAlign B cur idO else IR_MAX_BUFFER
  { idI
    idO
    type := desc.type
    step
    unit := if desc.type = IUS_DESC_STNF then fndAlign B.nand else step
    skip := if burnIsNand cur idO then (burnConfig B cur idO).elim 0 (·.blocksize) else 0
    encrypt }

/-- Where the loop of an image starts. -/
def burnStart (desc : IusDesc) (idI idO : ℤ) (max : ℕ) (buf : Mem) (bufAt : ℕ) : BurnPos :=
  let remain := burnRemain B desc (Dev.ofId idI) idO
  { offsI := desc.offi, offsO := desc.offo, remain, leeway := s32 (max - remain), buf, bufAt }

/-- The error an image is refused with once its target was erased, if it is. -/
def burnRefusal (desc : IusDesc) (idI idO : ℤ) : Option ℤ :=
  if desc.type = IUS_DESC_STNF ∧ ¬ fndSizeMatch B.nand desc.len then some (-1)
  else if burnIsNand (Dev.ofId idI) idO ∧ burnConfig B (Dev.ofId idI) idO = none then some (-ENOCFG)
  else none

def burnImageLoop (desc : IusDesc) (idI idO : ℤ) (max : ℕ) (buf : Mem) (bufAt : ℕ) :
    Strat ℤ := do
  if idI = idO then return -2
  if vsDeviceErasable idO then do
    let (_, cur) ← vsAssignById idO false
    let _ ← vsErase cur desc.offo max
  let (encrypt, buf) ← burnEncrypt desc.type idI desc.offi buf bufAt
  match burnRefusal B desc idI idO with
  | some ret => return ret
  | none =>
    burnLoop (burnConf B desc idI idO encrypt) (burnRemain B desc (Dev.ofId idI) idO)
      (burnStart B desc idI idO max buf bufAt)

/-- The target of an image, as `burn_images` takes it from the type. -/
def burnTarget (desc : IusDesc) : ℤ :=
  if desc.type = IUS_DESC_STNB then Dev.bnd.id
  else if desc.type = IUS_DESC_STNR then Dev.nnd.id
  else if desc.type = IUS_DESC_STNF then Dev.fnd.id
  else if desc.type = IUS_DESC_STRW then desc.id
  else DEV_NONE

end Image

end InfotmUboot
