import InfotmUboot.Lib.Noted
import InfotmUboot.Sparse

/-!
# The window over a sparse stream

The functions of `sparse_burn` once more, each noting its steps on the window: a call of the source,
the end of `get_data_from_source`, a move of `buffer.index` and a write to the target. A note holds
`buffer` as the step leaves it, and where the step changes it as the step finds it.
-/

namespace InfotmUboot

open Lib Lib.Noted

/-- `struct buffer` -/
structure SparseBuffer where
  copybuf : Mem
  size : ℕ
  index : ℕ
  deepth : ℕ

def SparseState.buffer {γ : Type} (s : SparseState γ) : SparseBuffer where
  copybuf := s.copybuf
  size := CONFIG_SPARSE_BUF_SIZE
  index := s.index
  deepth := s.deepth

/-- `buffer` while a fill chunk is written: the window is put aside and the fill buffer stands in
for it, in a structure that was cleared. -/
def fillBuffer (fillbuf : Mem) : SparseBuffer where
  copybuf := fillbuf
  size := 0
  index := 0
  deepth := CONFIG_SPARSE_COPY_SIZE

/-- What moves `buffer.index` or is written. -/
inductive SparsePart where
  | header
  | chunk
  | raw
  | fill
  | crc
  deriving DecidableEq, Repr

inductive SparseStep where
  /-- A call of the source with its result, the bytes it stored and the window with them. -/
  | ask (step : ℕ) (b : SparseBuffer) (ret : ℤ) (data : List UInt8) (b' : SparseBuffer)
  | got (b : SparseBuffer)
  | moved (part : SparsePart) (n : ℤ) (b b' : SparseBuffer)
  | wrote (part : SparsePart) (b : SparseBuffer)

/-- A piece of `sparse_burn` with its notes. -/
abbrev SparseNoted := Noted SparseStep Op Reply

section Source

variable (c : SparseConf) {γ : Type} (getData : γ → Strat (ℤ × List UInt8 × γ))

/-- What a call of the source leaves: its result, the bytes it stored and its state. -/
def SparseState.add (s : SparseState γ) (ret : ℤ) (data : List UInt8) (src : γ) : SparseState γ :=
  { s with
    copybuf := s.copybuf.store s.deepth data
    deepth := toU32 (s.deepth + ret)
    remain := s.remain - ret
    src }

def sparseFillLoopNoted : ℕ → ℤ → SparseState γ → SparseNoted (SparseState γ)
  | 0, _, s => pure s
  | n + 1, stillto, s => do
    let (step, data, src) ← liftM (getData s.src)
    let s' := s.add step data src
    note (.ask c.step s.buffer step data s'.buffer)
    if s'.deepth > toU32 (CONFIG_SPARSE_BUF_SIZE - c.step) then return s'
    if stillto > step ∧ step > 0 then sparseFillLoopNoted n (stillto - step) s' else return s'

/-- The length `get_data_from_source` settles on while it still looks at the room. -/
def SparseState.cut (s : SparseState γ) (len : ℕ) : ℕ :=
  if u32 (s.inBuffer + len) > CONFIG_SPARSE_BUF_SIZE then
    toU32 (CONFIG_SPARSE_BUF_SIZE - s.inBuffer)
  else len

/-- The window before the source is called. -/
def SparseState.readied (s : SparseState γ) (len : ℕ) : SparseState γ :=
  let room := toU32 (CONFIG_SPARSE_BUF_SIZE - s.deepth)
  if (room < len ∨ room < c.step) ∧ s.index ≠ 0 then s.realign else s

/-- `stillto` -/
def SparseState.stillto (s : SparseState γ) (len : ℕ) : ℤ :=
  let len := if len > c.step then andNot len (c.step - 1) else len
  s32 (if len > toU32 s.remain then toU32 s.remain else len : ℕ)

def getDataFromSourceNoted (len : ℕ) (s : SparseState γ) : SparseNoted (ℤ × SparseState γ) := do
  if toU32 (CONFIG_SPARSE_BUF_SIZE - s.inBuffer) < c.step ∨ s.inBuffer ≥ c.blksz then
    note (.got s.buffer)
    return (s32 s.inBuffer, s)
  let len := s.cut len
  let s := s.readied c len
  let stillto := s.stillto c len
  let s ←
    if stillto ≠ 0 then sparseFillLoopNoted c getData stillto.natAbs stillto s else pure s
  note (.got s.buffer)
  return (s32 s.inBuffer, s)

end Source

section Chunks

variable (c : SparseConf) {γ : Type} (getData : γ → Strat (ℤ × List UInt8 × γ))

/-- What writing the first `n` bytes of the window leaves: the checksum and the target move on. -/
def SparseState.burnt (s : SparseState γ) (n target : ℕ) : SparseState γ :=
  { s with crc := sparseCrc32 s.crc (s.copybuf.load s.index n), target }

def processRawLoopNoted :
    ℕ → ℕ → SparseState γ → SparseNoted (Option (Bool × SparseState γ))
  | 0, _, _ => pure none
  | n + 1, len, s => do
    if len = 0 then return some (true, s)
    let (ret, s) ← getDataFromSourceNoted c getData len s
    if ret = -1 then return some (false, s)
    let n' := min (toU32 ret) len
    let (ret, target) ← liftM (writeDataToDisk c s.copybuf s.index s.deepth s.target n')
    let s := s.burnt n' target
    note (.wrote .raw s.buffer)
    if ret = -1 then return some (false, s)
    note (.moved .raw ret s.buffer (s.seek ret).buffer)
    processRawLoopNoted n (toU32 (len - ret)) (s.seek ret)

def processRawChunkNoted (fuel blocks blkSz : ℕ) (s : SparseState γ) :
    SparseNoted (Option (ℕ × SparseState γ)) := do
  let some (ok, s) ← processRawLoopNoted c getData fuel (u32 (blocks * blkSz)) s | return none
  return some (if ok then blocks else toU32 (-1), s)

def processFillLoopNoted (fillbuf : Mem) : ℕ → ℕ → ℕ → ℕ → SparseNoted (ℕ × ℕ)
  | 0, _, target, crc => pure (target, crc)
  | n + 1, len, target, crc => do
    if len = 0 then return (target, crc)
    let chunk := if len > CONFIG_SPARSE_COPY_SIZE then CONFIG_SPARSE_COPY_SIZE else len
    let crc := sparseCrc32 crc (fillbuf.load 0 chunk)
    let (_, target) ← liftM
      (writeDataToDisk c fillbuf 0 CONFIG_SPARSE_COPY_SIZE target chunk)
    note (.wrote .fill (fillBuffer fillbuf))
    processFillLoopNoted fillbuf n (len - chunk) target crc

/-- The bytes of a value the window does not hold are fetched; what the fetch brought is not
looked at. -/
def fetchNoted (s : SparseState γ) : SparseNoted (ℤ × SparseState γ) :=
  if s32 s.inBuffer < 4 then getDataFromSourceNoted c getData 4 s else pure (s32 s.inBuffer, s)

def processFillChunkNoted (blocks blkSz : ℕ) (s : SparseState γ) :
    SparseNoted (ℕ × SparseState γ) := do
  let (_, s) ← fetchNoted c getData s
  let fillVal := s.copybuf.load s.index 4
  note (.moved .fill 4 s.buffer (s.skip 4).buffer)
  let s := s.skip 4
  let r ← liftM (Prog.op (.malloc CONFIG_SPARSE_COPY_SIZE) : Strat Reply)
  if r.ret = 0 then return (toU32 (-1), s)
  let fillbuf : Mem := fun i => fillVal.getD (i % 4) 0
  let len := blocks * blkSz
  let (target, crc) ← processFillLoopNoted c fillbuf (len / CONFIG_SPARSE_COPY_SIZE + 1) len
    s.target s.crc
  return (blocks, { s with target, crc })

def processCrc32ChunkNoted (s : SparseState γ) : SparseNoted (ℤ × SparseState γ) := do
  let (ret, s) ← fetchNoted c getData s
  let fileCrc32 := s.copybuf.get32 s.index
  note (.moved .crc 4 s.buffer (s.skip 4).buffer)
  let s := s.skip 4
  return (if ret ≠ 4 then -1 else if fileCrc32 ≠ s.crc then -1 else 0, s)

/-- The chunk with the header `ch`, which the window is past. -/
def sparseBodyNoted (fuel : ℕ) (h : SparseHeader) (ch : ChunkHeader) (s : SparseState γ) :
    SparseNoted (Option (Option ℕ × SparseState γ)) :=
  if ch.chunkType = CHUNK_TYPE_RAW then do
    if ch.totalSz ≠ u32 (h.chunkHdrSz + ch.chunkSz * h.blkSz) then return some (none, s)
    let some (n, s) ← processRawChunkNoted c getData fuel ch.chunkSz h.blkSz s | return none
    return some (some n, s)
  else if ch.chunkType = CHUNK_TYPE_FILL then do
    if ch.totalSz ≠ h.chunkHdrSz + 4 then return some (none, s)
    let (n, s) ← processFillChunkNoted c getData ch.chunkSz h.blkSz s
    return some (some n, s)
  else if ch.chunkType = CHUNK_TYPE_DONT_CARE then do
    if ch.totalSz ≠ h.chunkHdrSz then return some (none, s)
    let (n, s) := processSkipChunk ch.chunkSz h.blkSz s
    return some (some n, s)
  else if ch.chunkType = CHUNK_TYPE_CRC32 then do
    let (_, s) ← processCrc32ChunkNoted c getData s
    return some (some 0, s)
  else return some (some 0, s)

def sparseChunkNoted (fuel : ℕ) (h : SparseHeader) (s : SparseState γ) :
    SparseNoted (Option (Option ℕ × SparseState γ)) := do
  let (ret, s) ←
    if s.inBuffer < CHUNK_HEADER_LEN then getDataFromSourceNoted c getData CHUNK_HEADER_LEN s
    else pure ((CHUNK_HEADER_LEN : ℤ), s)
  let ch := ChunkHeader.load s.copybuf s.index
  if toU32 ret < CHUNK_HEADER_LEN ∨ ret = -1 then return some (none, s)
  note (.moved .chunk CHUNK_HEADER_LEN s.buffer (s.seek CHUNK_HEADER_LEN).buffer)
  sparseBodyNoted c getData fuel h ch (s.seek CHUNK_HEADER_LEN)

def sparseChunksNoted (fuel : ℕ) (h : SparseHeader) : ℕ → ℕ → SparseState γ →
    SparseNoted (Option (Option ℕ × SparseState γ))
  | 0, total, s => pure (some (some total, s))
  | n + 1, total, s => do
    let some (r, s) ← sparseChunkNoted c getData fuel h s | return none
    let some blks := r | return some (none, s)
    sparseChunksNoted fuel h n (u32 (total + blks)) s

end Chunks

section Burn

variable (B : Board) {γ : Type} (getData : γ → Strat (ℤ × List UInt8 × γ))

/-- `sparse_burn` once its window is set up: the first reading and the chunks. -/
def sparseImageNoted (c : SparseConf) (fuel : ℕ) (cur : Option Dev) (s : SparseState γ) :
    SparseNoted (Option (ℤ × Option Dev)) := do
  let (_, s) ← getDataFromSourceNoted c getData CONFIG_SPARSE_COPY_SIZE s
  let h := SparseHeader.load s.copybuf s.index
  note (.moved .header SPARSE_HEADER_LEN s.buffer (s.seek SPARSE_HEADER_LEN).buffer)
  let s := s.seek SPARSE_HEADER_LEN
  if ¬ issparse B cur h then return some (-1, cur)
  if vsDeviceErasable c.dev then do
    let _ ← liftM (vsErase cur s.target (u32 (h.totalBlks * h.blkSz)))
  let some (r, _) ← sparseChunksNoted c getData fuel h h.totalChunks 0 s | return none
  return some (if r = none then -1 else 0, cur)

def sparseBurnNoted (fuel : ℕ) (dev : ℤ) (offs : ℕ) (size : ℤ) (step : ℕ) (src : γ)
    (cur : Option Dev) : SparseNoted (Option (ℤ × Option Dev)) := do
  let step := if step = 0 then CONFIG_SPARSE_COPY_SIZE else step
  let c : SparseConf := { dev, blksz := vsAlign B cur dev, step }
  let r ← liftM (Prog.op (.malloc CONFIG_SPARSE_BUF_SIZE) : Strat Reply)
  if r.ret = 0 then return some (-1, cur)
  let s : SparseState γ :=
    { copybuf := r.mem, index := 0, deepth := 0, remain := size, src, target := offs, crc := 0 }
  let (_, cur) ← liftM (vsAssignById dev true)
  sparseImageNoted B getData c fuel cur s

/-- The steps of a run of `sparse_burn`. -/
def sparseSteps (fuel : ℕ) (dev : ℤ) (offs : ℕ) (size : ℤ) (step : ℕ) (src : γ)
    (cur : Option Dev) {σ : Type} (env : σ → Op → Reply × σ) (st : σ) : List SparseStep :=
  (Prog.run env (sparseBurnNoted B getData fuel dev offs size step src cur).run st).val.2

end Burn

section Right

/-- The bytes of the stream received so far. -/
def received (l : List SparseStep) : List UInt8 :=
  l.flatMap fun e => match e with
    | .ask _ _ _ data _ => data
    | _ => []

/-- How many of them have been read. -/
def consumed (l : List SparseStep) : ℕ :=
  (l.map fun e => match e with
    | .moved _ n _ _ => n.toNat
    | _ => 0).sum

/-- After the steps `l` the buffer is a window over the stream: it holds the bytes received and not
yet read, between `index` and `deepth` and inside its size. -/
structure IsWindow (l : List SparseStep) (b : SparseBuffer) : Prop where
  index_le : b.index ≤ b.deepth
  deepth_le : b.deepth ≤ b.size
  consumed_le : consumed l ≤ (received l).length
  bytes : b.copybuf.load b.index (b.deepth - b.index) = (received l).drop (consumed l)

/-- What is asked of a step after the steps `l`: it leaves a window over the stream, and it calls
the source only where its step still fits. -/
def SparseStepRight (l : List SparseStep) : SparseStep → Prop
  | .ask step b ret data b' =>
    b.deepth + step ≤ b.size ∧ IsWindow (l ++ [.ask step b ret data b']) b'
  | .got b => IsWindow (l ++ [.got b]) b
  | .moved part n b b' => IsWindow (l ++ [.moved part n b b']) b'
  | .wrote part b => IsWindow (l ++ [.wrote part b]) b

/-- The steps that do leave one: a call of the source that returns the number of the bytes it stored
and finds room for them, the move past a header, a fill value or a checksum that the window holds,
the moves past a chunk header and past raw data, and every write but those of the fill buffer. -/
def SparseStepFits : SparseStep → Prop
  | .ask _ b ret data _ => toU32 ret = data.length ∧ b.deepth + data.length ≤ b.size
  | .got _ => True
  | .moved part n b _ => part = .chunk ∨ part = .raw ∨ b.index + n ≤ b.deepth
  | .wrote part _ => part ≠ .fill

/-- A fill chunk puts the window back after its writes, so these do not harm the later steps. -/
def SparseStepKeeps (e : SparseStep) : Prop :=
  SparseStepFits e ∨ ∃ b, e = .wrote .fill b

/-- Every step of a run is right. -/
def SparseRunRight (steps : List SparseStep) : Prop :=
  ∀ l₁ e l₂, steps = l₁ ++ e :: l₂ → SparseStepRight l₁ e

end Right

end InfotmUboot
