import InfotmUboot.Ius

/-!
# Sparse images

`sparse_burn` reads an Android sparse image through a window over the stream (`copybuf` between
`index` and `deepth`) and writes its chunks. A source is a `getData` over a state of its own. The
loops that wait for the source are bounded by a fuel; a run that is cut short has no result.
-/

namespace InfotmUboot

open Lib

def CONFIG_SPARSE_COPY_SIZE : ℕ := 0x100000
def CONFIG_SPARSE_BUF_SIZE : ℕ := 0x100000
def SPARSE_HEADER_MAGIC : ℕ := 0xed26ff3a
def SPARSE_HEADER_MAJOR_VER : ℕ := 1
def SPARSE_HEADER_LEN : ℕ := 28
def CHUNK_HEADER_LEN : ℕ := 12
def CHUNK_TYPE_RAW : ℕ := 0xCAC1
def CHUNK_TYPE_FILL : ℕ := 0xCAC2
def CHUNK_TYPE_DONT_CARE : ℕ := 0xCAC3
def CHUNK_TYPE_CRC32 : ℕ := 0xCAC4

structure SparseHeader where
  magic : ℕ
  majorVersion : ℕ
  chunkHdrSz : ℕ
  blkSz : ℕ
  totalBlks : ℕ
  totalChunks : ℕ
  deriving DecidableEq, Repr

def SparseHeader.load (m : Mem) (a : ℕ) : SparseHeader where
  magic := m.get32 a
  majorVersion := m.get16 (a + 4)
  chunkHdrSz := m.get16 (a + 10)
  blkSz := m.get32 (a + 12)
  totalBlks := m.get32 (a + 16)
  totalChunks := m.get32 (a + 20)

structure ChunkHeader where
  chunkType : ℕ
  chunkSz : ℕ
  totalSz : ℕ
  deriving DecidableEq, Repr

def ChunkHeader.load (m : Mem) (a : ℕ) : ChunkHeader where
  chunkType := m.get16 a
  chunkSz := m.get32 (a + 4)
  totalSz := m.get32 (a + 8)

/-- What a burn keeps fixed: the target with its block size, and the step of the source. -/
structure SparseConf where
  dev : ℤ
  blksz : ℕ
  step : ℕ

/-- What it moves on: the window over the stream, what remains of the stream and the source behind
it, the target offset and the running checksum. -/
structure SparseState (γ : Type) where
  copybuf : Mem
  index : ℕ
  deepth : ℕ
  remain : ℤ
  src : γ
  target : ℕ
  crc : ℕ

namespace SparseState

variable {γ : Type} (s : SparseState γ)

/-- `DATA_IN_BUFFER_NOW` -/
def inBuffer : ℕ := toU32 (s.deepth - s.index)

/-- `seek_buffer` -/
def seek (n : ℤ) : SparseState γ :=
  let index := toU32 (s.index + n)
  if index = s.deepth then { s with index := 0, deepth := 0 } else { s with index }

/-- `buffer.index += n`, which leaves a drained window where it is. -/
def skip (n : ℕ) : SparseState γ := { s with index := u32 (s.index + n) }

end SparseState

section Source

variable (c : SparseConf) {γ : Type} (getData : γ → Strat (ℤ × List UInt8 × γ))

/-- The loop of `get_data_from_source`; every round but the last shortens `stillto`. -/
def sparseFillLoop : ℕ → ℤ → SparseState γ → Strat (SparseState γ)
  | 0, _, s => pure s
  | n + 1, stillto, s => do
    let (step, data, src) ← getData s.src
    let s := { s with
      copybuf := s.copybuf.store s.deepth data
      deepth := toU32 (s.deepth + step)
      remain := s.remain - step
      src }
    if s.deepth > toU32 (CONFIG_SPARSE_BUF_SIZE - c.step) then return s
    if stillto > step ∧ step > 0 then sparseFillLoop n (stillto - step) s else return s

/-- Moves what the window holds to the front. -/
def SparseState.realign (s : SparseState γ) : SparseState γ :=
  { s with
    copybuf := s.copybuf.store 0 (s.copybuf.load s.index s.inBuffer)
    deepth := s.inBuffer
    index := 0 }

def getDataFromSource (len : ℕ) (s : SparseState γ) : Strat (ℤ × SparseState γ) := do
  let still := s.inBuffer
  if toU32 (CONFIG_SPARSE_BUF_SIZE - still) < c.step ∨ still ≥ c.blksz then
    return (s32 still, s)
  let len :=
    if u32 (still + len) > CONFIG_SPARSE_BUF_SIZE then toU32 (CONFIG_SPARSE_BUF_SIZE - still)
    else len
  let room := toU32 (CONFIG_SPARSE_BUF_SIZE - s.deepth)
  let s := if (room < len ∨ room < c.step) ∧ s.index ≠ 0 then s.realign else s
  let len := if len > c.step then andNot len (c.step - 1) else len
  let len := if len > toU32 s.remain then toU32 s.remain else len
  let stillto := s32 len
  let s ← if stillto ≠ 0 then sparseFillLoop c getData stillto.natAbs stillto s else pure s
  return (s32 s.inBuffer, s)

end Source

section Chunks

variable (c : SparseConf) {γ : Type} (getData : γ → Strat (ℤ × List UInt8 × γ))

/-- `write_data_to_disk` of the first `len` bytes of the window: its result, and how far the
target has moved. -/
def writeDataToDisk (buf : Mem) (index deepth target len : ℕ) : Strat (ℤ × ℕ) := do
  if deepth < u32 (index + len) then return (-1, target)
  let (ret, cur) ← vsAssignById c.dev false
  if ret ≠ 0 then return (s32 len, target + len)
  let len := andNot len (toU32 (c.blksz - 1))
  let _ ← vsWrite cur target (buf.load index len)
  return (s32 len, target + len)

def processRawLoop : ℕ → ℕ → SparseState γ → Strat (Option (Bool × SparseState γ))
  | 0, _, _ => pure none
  | n + 1, len, s => do
    if len = 0 then return some (true, s)
    let (ret, s) ← getDataFromSource c getData len s
    if ret = -1 then return some (false, s)
    let n' := min (toU32 ret) len
    let s := { s with crc := sparseCrc32 s.crc (s.copybuf.load s.index n') }
    let (ret, target) ← writeDataToDisk c s.copybuf s.index s.deepth s.target n'
    let s := { s with target }
    if ret = -1 then return some (false, s)
    processRawLoop n (toU32 (len - ret)) (s.seek ret)

/-- The block count the chunk adds, `-1` read as unsigned when it fails. -/
def processRawChunk (fuel blocks blkSz : ℕ) (s : SparseState γ) :
    Strat (Option (ℕ × SparseState γ)) := do
  let some (ok, s) ← processRawLoop c getData fuel (u32 (blocks * blkSz)) s | return none
  return some (if ok then blocks else toU32 (-1), s)

/-- The loop of `process_fill_chunk`, which writes from the filled buffer; `len` has 64 bits and
every round shortens it. -/
def processFillLoop (fillbuf : Mem) : ℕ → ℕ → ℕ → ℕ → Strat (ℕ × ℕ)
  | 0, _, target, crc => pure (target, crc)
  | n + 1, len, target, crc => do
    if len = 0 then return (target, crc)
    let chunk := if len > CONFIG_SPARSE_COPY_SIZE then CONFIG_SPARSE_COPY_SIZE else len
    let crc := sparseCrc32 crc (fillbuf.load 0 chunk)
    let (_, target) ← writeDataToDisk c fillbuf 0 CONFIG_SPARSE_COPY_SIZE target chunk
    processFillLoop fillbuf n (len - chunk) target crc

def processFillChunk (blocks blkSz : ℕ) (s : SparseState γ) : Strat (ℕ × SparseState γ) := do
  let (_, s) ←
    if s32 s.inBuffer < 4 then getDataFromSource c getData 4 s else pure (s32 s.inBuffer, s)
  let fillVal := s.copybuf.load s.index 4
  let s := s.skip 4
  let r ← Prog.op (.malloc CONFIG_SPARSE_COPY_SIZE)
  if r.ret = 0 then return (toU32 (-1), s)
  let fillbuf : Mem := fun i => fillVal.getD (i % 4) 0
  let len := blocks * blkSz
  let (target, crc) ← processFillLoop c fillbuf (len / CONFIG_SPARSE_COPY_SIZE + 1) len
    s.target s.crc
  return (blocks, { s with target, crc })

/-- The skipped length is kept in 32 bits. -/
def processSkipChunk (blocks blkSz : ℕ) (s : SparseState γ) : ℕ × SparseState γ :=
  (blocks, { s with target := s.target + u32 (blocks * blkSz) })

/-- The result says whether the checksum was read and agrees; the caller drops it. -/
def processCrc32Chunk (s : SparseState γ) : Strat (ℤ × SparseState γ) := do
  let (ret, s) ←
    if s32 s.inBuffer < 4 then getDataFromSource c getData 4 s else pure (s32 s.inBuffer, s)
  let fileCrc32 := s.copybuf.get32 s.index
  let s := s.skip 4
  return (if ret ≠ 4 then -1 else if fileCrc32 ≠ s.crc then -1 else 0, s)

/-- One chunk of the image: `none` in the second place when the header is refused, else the count
of blocks it adds. -/
def sparseChunk (fuel : ℕ) (h : SparseHeader) (s : SparseState γ) :
    Strat (Option (Option ℕ × SparseState γ)) := do
  let (ret, s) ←
    if s.inBuffer < CHUNK_HEADER_LEN then getDataFromSource c getData CHUNK_HEADER_LEN s
    else pure ((CHUNK_HEADER_LEN : ℤ), s)
  let ch := ChunkHeader.load s.copybuf s.index
  if toU32 ret < CHUNK_HEADER_LEN ∨ ret = -1 then return some (none, s)
  let s := s.seek CHUNK_HEADER_LEN
  if ch.chunkType = CHUNK_TYPE_RAW then
    if ch.totalSz ≠ u32 (h.chunkHdrSz + ch.chunkSz * h.blkSz) then return some (none, s)
    let some (n, s) ← processRawChunk c getData fuel ch.chunkSz h.blkSz s | return none
    return some (some n, s)
  else if ch.chunkType = CHUNK_TYPE_FILL then
    if ch.totalSz ≠ h.chunkHdrSz + 4 then return some (none, s)
    let (n, s) ← processFillChunk c getData ch.chunkSz h.blkSz s
    return some (some n, s)
  else if ch.chunkType = CHUNK_TYPE_DONT_CARE then
    if ch.totalSz ≠ h.chunkHdrSz then return some (none, s)
    let (n, s) := processSkipChunk ch.chunkSz h.blkSz s
    return some (some n, s)
  else if ch.chunkType = CHUNK_TYPE_CRC32 then
    let (_, s) ← processCrc32Chunk c getData s
    return some (some 0, s)
  else return some (some 0, s)

/-- The chunk loop: `none` in the second place when a chunk is refused, else the total of blocks. -/
def sparseChunks (fuel : ℕ) (h : SparseHeader) : ℕ → ℕ → SparseState γ →
    Strat (Option (Option ℕ × SparseState γ))
  | 0, total, s => pure (some (some total, s))
  | n + 1, total, s => do
    let some (r, s) ← sparseChunk c getData fuel h s | return none
    let some blks := r | return some (none, s)
    sparseChunks fuel h n (u32 (total + blks)) s

end Chunks

section Burn

variable (B : Board) {γ : Type} (getData : γ → Strat (ℤ × List UInt8 × γ))

def issparse (cur : Option Dev) (h : SparseHeader) : Bool :=
  h.magic = SPARSE_HEADER_MAGIC ∧ h.majorVersion = SPARSE_HEADER_MAJOR_VER ∧
    h.blkSz &&& toU32 (vsAlign B cur B.storageDevice - 1) = 0

/-- `sparse_burn`, where a step of 0 stands for the default: its result, and the current device
afterwards. -/
def sparseBurn (fuel : ℕ) (dev : ℤ) (offs : ℕ) (size : ℤ) (step : ℕ) (src : γ)
    (cur : Option Dev) : Strat (Option (ℤ × Option Dev)) := do
  let step := if step = 0 then CONFIG_SPARSE_COPY_SIZE else step
  let c : SparseConf := { dev, blksz := vsAlign B cur dev, step }
  let r ← Prog.op (.malloc CONFIG_SPARSE_BUF_SIZE)
  if r.ret = 0 then return some (-1, cur)
  let s : SparseState γ :=
    { copybuf := r.mem, index := 0, deepth := 0, remain := size, src, target := offs, crc := 0 }
  let (_, cur) ← vsAssignById dev true
  let (_, s) ← getDataFromSource c getData CONFIG_SPARSE_COPY_SIZE s
  let h := SparseHeader.load s.copybuf s.index
  let s := s.seek SPARSE_HEADER_LEN
  if ¬ issparse B cur h then return some (-1, cur)
  if vsDeviceErasable dev then do
    let _ ← vsErase cur s.target (u32 (h.totalBlks * h.blkSz))
  let some (r, _) ← sparseChunks c getData fuel h h.totalChunks 0 s | return none
  -- whether the totals agree makes no difference to the result
  return some (if r = none then -1 else 0, cur)

end Burn

end InfotmUboot
