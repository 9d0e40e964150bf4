import Mathlib.Data.UInt
import Mathlib.Data.List.Basic

/-!
# The read retry of the NAND driver

Where a read fails, the loops of `nnd_vs_isbad` and `nnd_vs_read` set the chip to its next retry
level and read again, until they are back at the level they began with. A loop is its step at one
outcome of the read it waits for.
-/

namespace InfotmUboot

/-- What `struct nand_config` has for the read retry and the two pages with a block's marks. -/
structure RetryConfig where
  readRetry : UInt32
  retryLevel : UInt32
  nandParam0 : UInt32
  nandParam1 : UInt32
  badpagemajor : UInt32
  badpageminor : UInt32

/-- The functions that set a chip to a retry level. -/
inductive SetRetryParam where
  | param26
  | param21
  | param20
  | micro20
  | sandisk19
  deriving DecidableEq, Repr

/-- The level of the loop, `g_retrylevel`, the copy of it in the reserved buffer, and the levels the
chip was set to. -/
structure LevelState where
  retrylevel : UInt32
  gRetrylevel : UInt32
  rrtb : UInt32
  sets : List (SetRetryParam × UInt32)

namespace LevelState

/-- `*((uint32_t *)(CONFIG_RESERVED_RRTB_BUFFER + 0x4)) = g_retrylevel` -/
def save (s : LevelState) : LevelState := { s with rrtb := s.gRetrylevel }

/-- `g_retrylevel = retrylevel`, and saved. -/
def keep (s : LevelState) : LevelState := save { s with gRetrylevel := s.retrylevel }

/-- Back to level 0. -/
def zero (f : SetRetryParam) (s : LevelState) : LevelState :=
  if s.retrylevel ≠ 0 then
    { s with
      retrylevel := 0
      gRetrylevel := 0
      sets := s.sets ++ [(f, 0)] }
  else s

end LevelState

/-- What a failed read leads to: another one, the end of the retry, or no retry at all. -/
inductive RetryNext where
  | again
  | failed
  | none
  deriving DecidableEq

section Retry

variable (c : RetryConfig)

/-- The level after this one. -/
def nextLevel (retrylevel : UInt32) : UInt32 :=
  if retrylevel + 1 > c.retryLevel then 0 else retrylevel + 1

/-- The levels set for a chip with `nand_param0` 0x55. -/
def sets55 (retrylevel : UInt32) : List (SetRetryParam × UInt32) :=
  (if c.nandParam1 = 26 then [(.param26, retrylevel)] else []) ++
    (if c.nandParam1 = 21 then [(.param21, retrylevel)] else []) ++
      if c.nandParam1 = 20 then [(.param20, retrylevel)] else []

def retry55 (s : LevelState) : LevelState × RetryNext :=
  let retrylevel := nextLevel c s.retrylevel
  ({ s with
      retrylevel := retrylevel
      sets := s.sets ++ sets55 c retrylevel },
    if s.gRetrylevel = retrylevel then .failed else .again)

/-- The retry of the chips that go back to level 0 when it has failed. -/
def retryZero (f : SetRetryParam) (s : LevelState) : LevelState × RetryNext :=
  let retrylevel := nextLevel c s.retrylevel
  if s.gRetrylevel = retrylevel then
    let retrylevel := if c.nandParam1 = 20 then 0 else retrylevel
    ({ s with
        retrylevel := retrylevel
        sets := s.sets ++ if c.nandParam1 = 20 then [(f, retrylevel)] else [] }, .failed)
  else
    ({ s with
        retrylevel := retrylevel
        sets := s.sets ++ if c.nandParam1 = 20 then [(f, retrylevel)] else [] }, .again)

def retry75 : LevelState → LevelState × RetryNext := retryZero c .micro20

def retry95 : LevelState → LevelState × RetryNext := retryZero c .sandisk19

/-- What the loops do when a read has failed. -/
def retryFailed (s : LevelState) : LevelState × RetryNext :=
  if c.readRetry = 1 then
    if c.nandParam0 = 0x55 then retry55 c s
    else if c.nandParam0 = 0x75 then retry75 c s
    else if c.nandParam0 = 0x95 then retry95 c s
    else (s, .none)
  else (s, .none)

/-- The chips that are left at level 0. -/
def retryEnd (s : LevelState) : LevelState :=
  if c.readRetry = 1 then
    let s := if c.nandParam0 = 0x75 ∧ c.nandParam1 = 20 then s.zero .micro20 else s
    let s := if c.nandParam1 = 21 then s.zero .param21 else s
    if c.nandParam0 = 0x95 then s.zero .sandisk19 else s
  else s

section Isbad

/-- What `nf2_page_op` returns, and what `base_get_badmark` looks at of what it reads. -/
structure PageOp where
  ret : ℤ
  mark : UInt8
  seccUnfixed : Bool

/-- A mark is read as it is, and once more through the ECC if it is not that of a good block.
`alloc` is whether there is memory for it. -/
def baseGetBadmark (alloc : Bool) (raw ecc : PageOp) : ℤ :=
  if ¬alloc then -1
  else if raw.ret ≠ 0 then raw.ret
  else if raw.mark = 0xff then 0
  else if ecc.ret ≠ 0 then ecc.ret
  else if ¬ecc.seccUnfixed ∧ ecc.mark = 0xff then 0
  else 1

/-- Where `nnd_vs_isbad` is: about to read the mark of either page, or through with its result. -/
inductive IsbadPhase where
  | major
  | minor
  | done (ret : ℤ)
  deriving DecidableEq

/-- The row, the level and the outcome of a read of a mark. -/
structure MarkRead where
  row : UInt32
  level : UInt32
  ret : ℤ
  deriving DecidableEq, Repr

structure IsbadState where
  retry : LevelState
  phase : IsbadPhase
  reads : List MarkRead

/-- `retry_4_end` with the outcome of the last read, and what is before `retry_5_start`; without a
second page, what is behind `retry_5_end` too. -/
def retry4End (ret : ℤ) (s : LevelState) : LevelState × IsbadPhase :=
  let s := s.keep
  if ret ≠ 0 then (s, .done ret)
  else
    let s := retryEnd c s
    if c.badpageminor ≠ c.badpagemajor then (s, .minor)
    else ((retryEnd c s).keep, .done ret)

def retry5End (ret : ℤ) (s : LevelState) : LevelState × IsbadPhase :=
    ((retryEnd c s).keep, .done ret)

/-- What `nnd_vs_isbad` does with the outcome of `base_get_badmark` for the first page, -/
def isbadMajor (ret : ℤ) (s : LevelState) : LevelState × IsbadPhase :=
  if ret < 0 then (s, .done (-1))
  else if ret > 0 then
    match retryFailed c s with
    | (s, .again) => (s, .major)
    | (s, .failed) => retry4End c ret s.save
    | (s, .none) => retry4End c ret s
  else retry4End c ret s

/-- and for the second one. -/
def isbadMinor (ret : ℤ) (s : LevelState) : LevelState × IsbadPhase :=
  if ret < 0 then (s, .done (-1))
  else if ret > 0 then
    match retryFailed c s with
    -- the branch of 0x95 has the labels of the first page
    | (s, .again) => (s, if c.nandParam0 = 0x95 then .major else .minor)
    | (s, .failed) => if c.nandParam0 = 0x95 then retry4End c ret s.save else retry5End c ret s.save
    | (s, .none) => retry5End c ret s
  else retry5End c ret s

/-- One read of a mark of the block whose first row is `rowAddr`. -/
def isbadStep (rowAddr : UInt32) (s : IsbadState) (ret : ℤ) : IsbadState :=
  match s.phase with
  | .major =>
    let next := isbadMajor c ret s.retry
    ⟨next.1, next.2, s.reads ++ [⟨rowAddr + c.badpagemajor, s.retry.retrylevel, ret⟩]⟩
  | .minor =>
    let next := isbadMinor c ret s.retry
    ⟨next.1, next.2, s.reads ++ [⟨rowAddr + c.badpageminor, s.retry.retrylevel, ret⟩]⟩
  | .done _ => s

/-- `nnd_vs_isbad` while the reads of the marks have these outcomes. -/
def isbadRun (rowAddr : UInt32) (s : LevelState) (rets : List ℤ) : IsbadState :=
  rets.foldl (isbadStep c rowAddr) ⟨{ s with retrylevel := s.gRetrylevel }, .major, []⟩

end Isbad

section Read

/-- The retry loop of `nnd_vs_read`, and what `base_vs_read` returned once it is through. -/
structure ReadState where
  retry : LevelState
  ret : Option ℤ

/-- `retry_1_end` -/
def retry1End (ret : ℤ) (s : LevelState) : ReadState := ⟨(retryEnd c s).save, some ret⟩

/-- What the loop does with the outcome of `base_vs_read`. -/
def readStep (s : ReadState) (ret : ℤ) : ReadState :=
  match s.ret with
  | some _ => s
  | none =>
    if ret = -1 then
      match retryFailed c s.retry with
      | (s, .again) => ⟨s, none⟩
      | (s, _) => retry1End c ret s
    else if c.readRetry = 1 ∧ c.nandParam0 = 0x55 then retry1End c ret s.retry.keep
    else retry1End c ret s.retry

def readRun (s : LevelState) (rets : List ℤ) : ReadState :=
  rets.foldl (readStep c) ⟨{ s with retrylevel := s.gRetrylevel }, none⟩

end Read

end Retry

end InfotmUboot
