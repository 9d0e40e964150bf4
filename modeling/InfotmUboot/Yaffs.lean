import InfotmUboot.Burn

/-!
# Yaffs images

`yaffs_conv` turns pages of 2048 + 16 bytes into the pages of the chip and `yaffs_put_page` places
them past the bad blocks of the partition. A source is a `getPage` over a state of its own; the
conversion runs while it delivers, so its rounds are bounded by a fuel and a run that is cut short
has no result.
-/

namespace InfotmUboot

open Lib

/-- `yaffs_offs` and `yaffs_part`. -/
structure YaffsPos where
  offs : ℕ
  part : ℤ

section PutPage

variable (B : Board)

/-- `yaffs_put_page` of the page at `a`. -/
def yaffsPutPage (buf : Mem) (a : ℕ) (p : YaffsPos) : Strat (ℤ × YaffsPos) := do
  if p.part ≤ 0 then return (-1, p)
  let some nc := B.nand.getConfig .normal | return (-1, p)
  let (_, cur) ← vsAssignById DEV_FND false
  let (good, offs, part) ←
    if p.offs &&& (nc.blocksize - 1) = 0 then
      skipBad cur nc.blocksize p.part.toNat p.offs p.part
    else pure (true, p.offs, p.part)
  if ¬ good then return (-EBADBLK, { offs, part })
  let _ ← vsWrite cur offs (buf.load a (fndAlign B.nand))
  let step := vsAlign B cur DEV_FND
  return (0, { offs := offs + step, part := part - step })

end PutPage

section Tags

/-- `YTAG(x)->chunkId` -/
def chunkId (m : Mem) (x : ℕ) : ℕ := m.get32 (x + 8)

def setChunkId (m : Mem) (x v : ℕ) : Mem := m.store (x + 8) (bytes32 v)

/-- `YTAG(x)->byteCount` -/
def byteCount (m : Mem) (x : ℕ) : ℕ := m.get32 (x + 12)

def setByteCount (m : Mem) (x v : ℕ) : Mem := m.store (x + 12) (bytes32 v)

end Tags

/-- `yaffs_conv_info`: main, spare and full size of the pages put out and of the pages taken in. -/
structure YaffsConvInfo where
  om : ℕ
  os : ℕ
  oo : ℕ
  im : ℕ
  is : ℕ
  ii : ℕ
  iodiv : ℕ

section Fit

variable (conv : YaffsConvInfo)

def memcpy (m : Mem) (dst src n : ℕ) : Mem := m.store dst (m.load src n)

/-- `page_fit`, whose two page pointers may be null. -/
def pageFit (m : Mem) : Option ℕ → Option ℕ → Mem
  | none, none => m
  | none, some p2 => memcpy m (p2 + conv.oo) (p2 + conv.im) conv.is
  | some p1, some p2 =>
    memcpy (memcpy m (p2 + conv.om) (p2 + conv.im) conv.is) (p1 + conv.om) (p1 + conv.oo) conv.is
  | some p1, none => memcpy m (p1 + conv.om) (p1 + conv.im) conv.is

end Fit

/-- What `yaffs_conv` moves on: the buffer, the page in it that is filled next, how many pages of
a chunk it holds and their bytes, where the chip's pages go and what the source has left. -/
structure YaffsState (γ : Type) where
  buf : Mem
  p : ℕ
  sub : ℕ
  bytes : ℕ
  pos : YaffsPos
  src : γ

section Conv

variable (B : Board) (conv : YaffsConvInfo) {γ : Type}
  (getPage : γ → Mem → ℕ → Strat (ℤ × Mem × γ))

/-- `conv->put_page` of the page at `a`; its result is dropped. -/
def yaffsPut (s : YaffsState γ) (a : ℕ) : Strat (YaffsState γ) := do
  let (_, pos) ← yaffsPutPage B s.buf a s.pos
  return { s with pos }

def chunkNo (m : Mem) (x : ℕ) : ℕ := u32 (m.get32 (x + 8) + (2 ^ 32 - 1)) / conv.iodiv + 1

/-- What a round does with the page it got. -/
def yaffsRound (s : YaffsState γ) : Strat (YaffsState γ) := do
  if conv.im = conv.om then return ← yaffsPut B s s.p
  if chunkId s.buf (s.p + conv.im) = 0 then
    if s.sub ≠ 0 then
      -- an object header comes while file pages are waiting: these go out first
      let buf := pageFit conv s.buf (some 0) (some s.p)
      let buf := setChunkId buf conv.om (chunkNo conv buf conv.om)
      let buf := setByteCount buf conv.om s.bytes
      let s' ← yaffsPut B { s with buf } 0
      let s' ← yaffsPut B s' s'.p
      return { s' with sub := 0, bytes := 0, p := 0 }
    else yaffsPut B { s with buf := pageFit conv s.buf (some s.p) none } s.p
  else
    let buf := if s.sub = 0 then pageFit conv s.buf none (some 0) else s.buf
    let sub := s.sub + 1
    let tag := s.p + conv.im
    if sub = conv.iodiv then
      let buf := setChunkId buf tag (chunkNo conv buf tag)
      let buf := setByteCount buf tag (u32 (byteCount buf tag + s.bytes))
      let s' ← yaffsPut B { s with buf } 0
      return { s' with sub := 0, bytes := 0, p := 0 }
    else
      return { s with buf, sub, bytes := u32 (s.bytes + byteCount buf tag), p := s.p + conv.im }

def yaffsConvLoop : ℕ → YaffsState γ → Strat (Option (YaffsState γ))
  | 0, _ => pure none
  | n + 1, s => do
    let (ret, buf, src) ← getPage s.src s.buf s.p
    if ret ≠ 0 then return some { s with buf, src }
    let s' ← yaffsRound B conv { s with buf, src }
    yaffsConvLoop n s'

/-- `yaffs_conv`, with at most `fuel` calls of `getPage`. -/
def yaffsConv (fuel : ℕ) (s : YaffsState γ) : Strat (Option ℤ) := do
  let some s' ← yaffsConvLoop B conv getPage fuel s | return none
  if s'.sub ≠ 0 then do
    let _ ← yaffsPut B { s' with buf := pageFit conv s'.buf (some 0) (some s'.p) } 0
  return some 0

end Conv

section Burn

variable (B : Board) {γ : Type} (getPage : γ → Mem → ℕ → Strat (ℤ × Mem × γ))

/-- The sizes `yaffs_burn` converts by. -/
def yaffsInfo : YaffsConvInfo :=
  let om := fndVsAlign B.nand
  { om, os := fndAlign B.nand - om, oo := fndAlign B.nand, im := 2048, is := 16, ii := 2048 + 16,
    iodiv := om / 2048 }

def yaffsBurn (fuel : ℕ) (offs : ℕ) (partSize : ℤ) (src : γ) : Strat (Option ℤ) := do
  let (_, cur) ← vsAssignById DEV_FND true
  let r ← Prog.op (.malloc (fndAlign B.nand * 2))
  let _ ← vsErase cur offs (toU32 partSize)
  yaffsConv B (yaffsInfo B) getPage fuel
    { buf := r.mem, p := 0, sub := 0, bytes := 0, pos := { offs, part := partSize }, src }

end Burn

section Source

/-- `ius_id`, `ius_remain` and `ius_offs`. -/
structure IusSource where
  id : ℤ
  remain : ℤ
  offs : ℕ

def iusGetPage (s : IusSource) (buf : Mem) (a : ℕ) : Strat (ℤ × Mem × IusSource) := do
  if s.remain = 0 then return (-1, buf, s)
  let (_, cur) ← vsAssignById s.id false
  let r ← vsRead cur s.offs 2064
  return (0, buf.store a (r.2.take 2064),
    { s with remain := s32 (s.remain - 2064), offs := s.offs + 2064 })

/-- `iuw_get_page`, over `iuw_remain`. -/
def iuwGetPage (remain : ℤ) (buf : Mem) (a : ℕ) : Strat (ℤ × Mem × ℤ) := do
  if remain = 0 then return (-1, buf, remain)
  let r ← Prog.op (.recv 2064)
  return (0, buf.store a (r.data.take 2064), s32 (remain - 2064))

end Source

end InfotmUboot
