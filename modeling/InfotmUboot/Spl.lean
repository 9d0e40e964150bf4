import InfotmUboot.Nand

/-!
# The read of the preloader

The preloader loads the items and the U-Boot image with `nread_skip_bad`, which reads the normal
area page by page through the functions the iROM exports and passes over the bad blocks by itself.
On the chips that need it, both functions are called again at the other levels of the read retry;
what the retry registers hold at a level is the chip's.
-/

namespace InfotmUboot

open Lib

/-- What the preloader calls of the iROM when it reads the NAND. -/
structure Irom where
  vsIsbad : ℕ → Flash ℤ
  vsRead : ℕ → ℤ → Flash (ℤ × List UInt8)

/-- What `init_config` found out about the read retry of the chip. -/
structure RetryParam where
  gParam : ℕ
  gRetrylevelMax : ℕ

namespace RetryParam

variable (R : RetryParam)

abbrev Level : Type := Fin (R.gRetrylevelMax + 1)

def retries : Bool := R.gParam &&& 0x3 = 0x3

variable {R}

def next (retrylevel : R.Level) : R.Level :=
  if h : (retrylevel : ℕ) + 1 > R.gRetrylevelMax then 0
  else ⟨retrylevel + 1, Nat.lt_succ_of_le (not_lt.1 h)⟩

end RetryParam

section Retry

variable (R : RetryParam) {α : Type}

/-- A call with its retries: while the result is not `ok` it is tried at the next level, until the
levels have come round to `g_retrylevel`. The number of the levels bounds the tries. -/
def withRetry (gRetrylevel : R.Level) (ok : α → Bool) (call : Flash α) :
    ℕ → R.Level → Flash (α × R.Level)
  | 0, retrylevel => do
    let ret ← call
    pure (ret, retrylevel)
  | n + 1, retrylevel => do
    let ret ← call
    if R.retries ∧ ¬ok ret then
      let retrylevel := RetryParam.next retrylevel
      if retrylevel = gRetrylevel then return (ret, retrylevel)
      withRetry gRetrylevel ok call n retrylevel
    else return (ret, retrylevel)

end Retry

section Read

variable (irf : Irom) (R : RetryParam)

/-- The skip loop: the first block from `start` on that is not bad, unless more than `skip` of them
are. -/
def splSkipBad (block : ℕ) (gRetrylevel : R.Level) : ℕ → R.Level → ℕ → Flash (Option ℕ)
  | 0, retrylevel, start => do
    let ret ← withRetry R gRetrylevel (· = 0) (irf.vsIsbad (andNot start (block - 1)))
      (R.gRetrylevelMax + 1) retrylevel
    pure (if ret.1 ≠ 0 then none else some start)
  | skip + 1, retrylevel, start => do
    let ret ← withRetry R gRetrylevel (· = 0) (irf.vsIsbad (andNot start (block - 1)))
      (R.gRetrylevelMax + 1) retrylevel
    if ret.1 ≠ 0 then splSkipBad block gRetrylevel skip ret.2 (start + block)
    else pure (some start)

/-- The pages of one block, with `start`, `g_retrylevel` and `retrylevel` after them. -/
def splReadPages (pagesize : ℕ) :
    ℕ → ℤ → ℕ → R.Level → R.Level → List UInt8 → Flash (ℕ × R.Level × R.Level × List UInt8)
  | 0, _, start, gRetrylevel, retrylevel, data => pure (start, gRetrylevel, retrylevel, data)
  | n + 1, remainPage, start, gRetrylevel, retrylevel, data =>
    if remainPage = 0 then pure (start, gRetrylevel, retrylevel, data)
    else do
      let ret ← withRetry R gRetrylevel (fun ret => ret.1 = (pagesize : ℤ))
        (irf.vsRead start pagesize) (R.gRetrylevelMax + 1) retrylevel
      -- the result is not looked at again: a page that failed at every level stays in the buffer
      splReadPages pagesize n (if remainPage < pagesize then 0 else remainPage - pagesize)
        (start + pagesize) (if ret.2 ≠ 0 then 0 else gRetrylevel) 0
        (data ++ fit pagesize ret.1.2)

/-- The loop of `nread_skip_bad`; every round shortens `remain`, so its size bounds the rounds. -/
def nreadSkipBadLoop (nc : NandConfig) (length : ℤ) :
    ℕ → ℕ → ℤ → R.Level → List UInt8 → Flash (ℤ × List UInt8)
  | 0, _, _, _, data => pure (length, data)
  | n + 1, start, remain, gRetrylevel, data =>
    if remain = 0 then pure (length, data)
    else do
      let some start ← splSkipBad irf R nc.blocksize gRetrylevel 30 gRetrylevel start
        | return (-1, data)
      let w : ℤ := min nc.blocksize
        (min (nc.blocksize - (start &&& (nc.blocksize - 1) : ℕ)) remain)
      let r ← splReadPages irf R nc.pagesize w.natAbs w start gRetrylevel gRetrylevel data
      nreadSkipBadLoop nc length n r.1 (remain - w) r.2.2.1 r.2.2.2

def nreadSkipBad (nc : NandConfig) (gRetrylevel : R.Level) (start : ℕ) (length : ℤ) :
    Flash (ℤ × List UInt8) :=
  nreadSkipBadLoop irf R nc length length.natAbs start length gRetrylevel []

end Read

end InfotmUboot
