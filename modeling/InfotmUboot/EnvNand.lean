import InfotmUboot.Crc32

/-!
# The redundant environment in NAND flash

`saveenv`, `writeenv`, `readenv` and `env_relocate_spec` of `env_nand.c` with a second copy of the
environment, and the loop of `nand_erase_opts`. The flash is a byte memory. Of every erasure and
write of a block a `Fate` tells how it goes: what it leaves in the block when it fails, or when the
power goes in the middle of it, may be anything. A read of a block gives what is there.
-/

namespace InfotmUboot

open Lib

/-- `crc` and `flags` come before the data. -/
def ENV_HEADER_SIZE : ℕ := 5

structure NandEnv where
  envOffset : ℕ
  envOffsetRedund : ℕ
  envRange : ℕ
  /-- `CONFIG_ENV_SIZE` -/
  envSize : ℕ
  erasesize : ℕ
  /-- `block_isbad` at an offset: bad if positive, an error if negative -/
  isbad : ℕ → ℤ
  defaultEnvironment : List UInt8

/-- How an operation of the flash on one block goes. -/
inductive Fate where
  | done
  | failed (junk : Mem)
  | lost (junk : Mem)

/-- How a function over the flash ends: with 0, with an error, or not at all. -/
inductive FlashEnd where
  | done
  | failed
  | lost
  deriving DecidableEq, Repr

/-- `env_ptr` and `gd->env_valid` -/
structure EnvRam where
  env : Mem
  valid : ℕ

/-- Other contents in a block. -/
def putBlock (m : Mem) (a n : ℕ) (j : Mem) : Mem := fun x => if a ≤ x ∧ x < a + n then j x else m x

section Copy

variable (c : NandEnv)

/-- `ENV_SIZE` -/
def NandEnv.dataSize : ℕ := c.envSize - ENV_HEADER_SIZE

def envFlags (m : Mem) : UInt8 := m 4

def NandEnv.data (m : Mem) : List UInt8 := m.load ENV_HEADER_SIZE c.dataSize

def NandEnv.crcOk (m : Mem) : Bool := crc32 0 (c.data m) = m.get32 0

def NandEnv.crcUpdate (m : Mem) : Mem := m.store 0 (bytes32 (crc32 0 (c.data m)))

/-- `env_ptr` after `set_default_env`, which also sets `env_valid` to 1 -/
def NandEnv.defaultEnv : Mem :=
  let env : Mem := Mem.store (fun _ => 0) ENV_HEADER_SIZE c.defaultEnvironment
  c.crcUpdate (env.store 4 [0xff])

/-- Which of two copies is taken: 1, 2, or 0 if the CRC of neither is right. -/
def envSelect (crc1Ok crc2Ok : Bool) (flags1 flags2 : UInt8) : ℕ :=
  if crc1Ok = false ∧ crc2Ok = false then 0
  else if crc1Ok = true ∧ crc2Ok = false then 1
  else if crc1Ok = false ∧ crc2Ok = true then 2
  else if flags1 = 255 ∧ flags2 = 0 then 2
  else if flags2 = 255 ∧ flags1 = 0 then 1
  else if flags1 > flags2 then 1
  else if flags2 > flags1 then 2
  else 1

end Copy

section Loops

variable (c : NandEnv)

/-- The length of one transfer. -/
def NandEnv.len : ℕ := min c.erasesize c.envSize

def eraseOptsLoop (stop : ℕ) : ℕ → ℕ → Mem → List Fate → FlashEnd × Mem × List Fate
  | 0, _, m, fs => (.done, m, fs)
  | n + 1, addr, m, fs =>
    if addr < stop then
      if c.isbad addr > 0 then eraseOptsLoop stop n (addr + c.erasesize) m fs
      else if c.isbad addr < 0 then (.failed, m, fs)
      else
        match fs.headD .done with
        | .done =>
          eraseOptsLoop stop n (addr + c.erasesize)
            (putBlock m addr c.erasesize fun _ => 0xff) fs.tail
        -- a failure is printed, and the loop goes on
        | .failed j =>
          eraseOptsLoop stop n (addr + c.erasesize) (putBlock m addr c.erasesize j) fs.tail
        | .lost j => (.lost, putBlock m addr c.erasesize j, fs.tail)
    else (.done, m, fs)

def nandEraseOpts (offset length : ℕ) (m : Mem) (fs : List Fate) : FlashEnd × Mem × List Fate :=
  let eraseLength := max length c.erasesize
  eraseOptsLoop c (offset + eraseLength) eraseLength offset m fs

def writeenvLoop (buf : Mem) (stop : ℕ) : ℕ → ℕ → ℕ → Mem → List Fate → FlashEnd × Mem × List Fate
  | 0, _, _, m, fs => (.failed, m, fs)
  | n + 1, offset, saved, m, fs =>
    if saved < c.envSize ∧ offset < stop then
      if c.isbad offset ≠ 0 then writeenvLoop buf stop n (offset + c.erasesize) saved m fs
      else
        match fs.headD .done with
        | .done =>
          writeenvLoop buf stop n (offset + c.erasesize) (saved + c.len)
            (m.store offset (buf.load saved c.len)) fs.tail
        | .failed j => (.failed, putBlock m offset c.erasesize j, fs.tail)
        | .lost j => (.lost, putBlock m offset c.erasesize j, fs.tail)
    else (if saved ≠ c.envSize then .failed else .done, m, fs)

def writeenv (offset : ℕ) (buf m : Mem) (fs : List Fate) : FlashEnd × Mem × List Fate :=
  writeenvLoop c buf (offset + c.envRange) (c.envRange + 1) offset 0 m fs

def readenvLoop (m : Mem) (stop : ℕ) : ℕ → ℕ → ℕ → Mem → Bool × Mem
  | 0, _, _, buf => (false, buf)
  | n + 1, offset, loaded, buf =>
    if loaded < c.envSize ∧ offset < stop then
      if c.isbad offset ≠ 0 then readenvLoop m stop n (offset + c.erasesize) loaded buf
      else
        readenvLoop m stop n (offset + c.erasesize) (loaded + c.len)
          (buf.store loaded (m.load offset c.len))
    else (loaded = c.envSize, buf)

/-- Whether it returns 0, and the buffer. -/
def readenv (offset : ℕ) (m buf : Mem) : Bool × Mem :=
  readenvLoop c m (offset + c.envRange) (c.envRange + 1) offset 0 buf

/-- The offset of a copy. -/
def NandEnv.offset (copy : ℕ) : ℕ := if copy = 1 then c.envOffset else c.envOffsetRedund

def saveenv (r : EnvRam) (m : Mem) (fs : List Fate) : FlashEnd × EnvRam × Mem :=
  let r := { r with env := r.env.store 4 [envFlags r.env + 1] }
  if c.envRange < c.envSize then (.failed, r, m)
  else
    let offset := if r.valid = 1 then c.envOffsetRedund else c.envOffset
    match nandEraseOpts c offset c.envRange m fs with
    | (.done, m, fs) =>
      match writeenv c offset r.env m fs with
      | (.done, m, _) => (.done, { r with valid := if r.valid = 2 then 1 else 2 }, m)
      | (e, m, _) => (e, r, m)
    | (e, m, _) => (e, r, m)

/-- `env_relocate_spec`, whose buffers hold `heap1` and `heap2` before they are read into -/
def envRelocateSpec (m heap1 heap2 : Mem) : EnvRam :=
  let env1 := (readenv c c.envOffset m heap1).2
  let env2 := (readenv c c.envOffsetRedund m heap2).2
  match envSelect (c.crcOk env1) (c.crcOk env2) (envFlags env1) (envFlags env2) with
  | 0 => ⟨c.defaultEnv, 1⟩
  | 1 => ⟨env1, 1⟩
  | v => ⟨env2, v⟩

end Loops

end InfotmUboot
