import InfotmUboot.Env

/-!
# The redundant environment in NOR flash

`env_init`, `saveenv` and `env_relocate_spec` of `env_flash.c` with a second sector, and
`env_relocate`. A write can only clear bits, an erasure sets them all. The operations of the flash
are done one after the other, and the power may go between any two of them.
-/

namespace InfotmUboot

open Lib

def ACTIVE_FLAG : UInt8 := 1

def OBSOLETE_FLAG : UInt8 := 0

/-- A sector: an `env_t` and what is behind it. -/
structure NorSector where
  crc : ℕ
  flags : UInt8
  data : Mem
  rest : Mem

/-- The sector at `CONFIG_ENV_ADDR` for `false`, that at `CONFIG_ENV_ADDR_REDUND` for `true`. -/
abbrev NorFlash := Bool → NorSector

structure NorEnv where
  /-- `ENV_SIZE` -/
  size : ℕ
  /-- `CONFIG_ENV_SECT_SIZE - CONFIG_ENV_SIZE` -/
  upData : ℕ
  defaultEnvironment : List UInt8

/-- `env_ptr`, `gd->env_valid`, and whether `flash_addr` is the redundant sector. -/
structure NorRam where
  env : EnvT
  flags : UInt8
  valid : ℕ
  flashAddr : Bool

inductive NorOp where
  | erase
  | writeData (data : Mem)
  | writeCrc (crc : ℕ)
  | writeFlags (flags : UInt8)
  | writeRest (rest : Mem)

section Flash

variable (c : NorEnv)

def writeMem (n : ℕ) (old new : Mem) : Mem := fun i => if i < n then old i &&& new i else old i

def NorOp.apply (s : NorSector) : NorOp → NorSector
  | .erase => ⟨0xffffffff, 0xff, fun _ => 0xff, fun _ => 0xff⟩
  | .writeData data => { s with data := writeMem c.size s.data data }
  | .writeCrc crc => { s with crc := s.crc &&& crc }
  | .writeFlags flags => { s with flags := s.flags &&& flags }
  | .writeRest rest => { s with rest := writeMem c.upData s.rest rest }

/-- One operation after the other, each on its sector. -/
def norRun : List (Bool × NorOp) → NorFlash → NorFlash
  | [], m => m
  | (b, op) :: ops, m => norRun ops (Function.update m b (op.apply c (m b)))

/-- The operations before the power goes, if it does. -/
def untilCut (cut : Option ℕ) (ops : List (Bool × NorOp)) : List (Bool × NorOp) :=
  match cut with
  | none => ops
  | some k => ops.take k

def NorEnv.crcOk (s : NorSector) : Bool := crc32 0 (s.data.load 0 c.size) = s.crc

end Flash

section Boot

variable (c : NorEnv)

/-- The sector `gd->env_addr` is in, if it is in one, and `gd->env_valid`. -/
def envInit (m : NorFlash) : Option Bool × ℕ :=
  let crc1Ok := c.crcOk (m false)
  let crc2Ok := c.crcOk (m true)
  let flag1 := (m false).flags
  let flag2 := (m true).flags
  if crc1Ok = true ∧ crc2Ok = false then (some false, 1)
  else if crc1Ok = false ∧ crc2Ok = true then (some true, 1)
  else if crc1Ok = false ∧ crc2Ok = false then (none, 0)
  else if flag1 = ACTIVE_FLAG ∧ flag2 = OBSOLETE_FLAG then (some false, 1)
  else if flag1 = OBSOLETE_FLAG ∧ flag2 = ACTIVE_FLAG then (some true, 1)
  else if flag1 = flag2 then (some false, 2)
  else if flag1 = 0xff then (some false, 2)
  else if flag2 = 0xff then (some true, 2)
  else (none, 0)

/-- What `env_relocate_spec` writes to repair the flags, with this sector in use. -/
def repairOps (flashAddr : Bool) (m : NorFlash) : List (Bool × NorOp) :=
  (if (m !flashAddr).flags ≠ OBSOLETE_FLAG ∧ c.crcOk (m !flashAddr) = true then
    [(!flashAddr, .writeFlags OBSOLETE_FLAG)] else []) ++
  (if (m flashAddr).flags ≠ ACTIVE_FLAG ∧ (m flashAddr).flags &&& ACTIVE_FLAG = ACTIVE_FLAG then
    [(flashAddr, .writeFlags ACTIVE_FLAG)] else [])

/-- `set_default_env`, with a default environment that fits -/
def NorEnv.defaultEnv : EnvT :=
  envCrcUpdate c.size ⟨0, Mem.store (fun _ => 0) 0 c.defaultEnvironment⟩

/-- `env_init`, and `env_relocate` with `env_relocate_spec` -/
def norBoot (cut : Option ℕ) (m : NorFlash) : NorRam × NorFlash :=
  match envInit c m with
  -- `flash_addr` is as it was compiled
  | (none, _) => (⟨c.defaultEnv, 0xff, 1, false⟩, m)
  | (some flashAddr, valid) =>
    let ops := repairOps c flashAddr m
    let m := norRun c (untilCut cut ops) m
    let s := m flashAddr
    (⟨⟨s.crc, s.data⟩, s.flags, if ops = [] then valid else 2, flashAddr⟩, m)

end Boot

section Save

variable (c : NorEnv)

/-- What `saveenv` does to the flash. -/
def saveenvOps (r : NorRam) (m : NorFlash) : List (Bool × NorOp) :=
  [(!r.flashAddr, .erase), (!r.flashAddr, .writeData r.env.data),
    (!r.flashAddr, .writeCrc r.env.crc), (r.flashAddr, .writeFlags OBSOLETE_FLAG),
    (!r.flashAddr, .writeFlags ACTIVE_FLAG)] ++
  if 0 < c.upData then [(!r.flashAddr, .writeRest (m !r.flashAddr).rest)] else []

/-- `saveenv`, after which the other sector is in use. -/
def norSaveenv (cut : Option ℕ) (r : NorRam) (m : NorFlash) : NorRam × NorFlash :=
  ({ r with flashAddr := !r.flashAddr }, norRun c (untilCut cut (saveenvOps c r m)) m)

end Save

end InfotmUboot
