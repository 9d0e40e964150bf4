import InfotmUboot.Sparse
import InfotmUboot.Yaffs

/-!
# The IUW server

The packets of the IUW protocol, the hand shakes, the command handlers and `iuw_server`. The
packet buffer `pack` is shared by all of them and `cur` is the current device, which one command
leaves to the next. `serverRound` is one round of the server's loop.
-/

namespace InfotmUboot

open Lib

def IUW_CMD_VSWR : ℕ := 0x10
def IUW_CMD_VSRD : ℕ := 0x11
def IUW_CMD_NBWR : ℕ := 0x12
def IUW_CMD_NBRD : ℕ := 0x13
def IUW_CMD_NRWR : ℕ := 0x14
def IUW_CMD_NRRD : ℕ := 0x15
def IUW_CMD_NFWR : ℕ := 0x16
def IUW_CMD_NFRD : ℕ := 0x17
def IUW_CMD_MMWR : ℕ := 0x20
def IUW_CMD_MMRD : ℕ := 0x21
def IUW_CMD_CONFIG : ℕ := 0x30
def IUW_CMD_JUMP : ℕ := 0x31
def IUW_CMD_IDENTIFY : ℕ := 0x33
def IUW_CMD_ENC : ℕ := 0x42
def IUW_CMD_DEC : ℕ := 0x44
def IUW_CMD_HASH : ℕ := 0x46
def IUW_CMD_MISC : ℕ := 0x50
def IUW_CMD_SYSM : ℕ := 0x52
def IUW_CMD_CACH : ℕ := 0x54
def IUW_CMD_USER : ℕ := 0x56
def IUW_CMD_READY : ℕ := 0x02
def IUW_CMD_FINISH : ℕ := 0xe0
def IUW_CMD_ERROR : ℕ := 0xf0
def IUW_SUB_STEP : ℕ := 0x40
def IUW_CMD_MAGIC : ℕ := 0xaa
def IUW_CMD_LEN : ℕ := 0x20
def IUW_AES_KEYLEN : ℕ := 0x20
def IUW_RETRY : ℕ := 100
def EXTRA_BUFFER_SIZE : ℕ := 0x40000

section Packet

variable (m : Mem)

def iuwCmdCmd : ℕ := m.get32 0 &&& 0xffffff

def iuwCmdPara (num : ℕ) : ℕ := m.get32 (4 + num <<< 2)

def iuwCmdId : ℤ := m.get16 10

def iuwCmdOffs : ℕ := m.get16 8 <<< 32 ||| m.get32 4

def iuwCmdAddr : ℕ := m.get32 4

def iuwCmdCryptIsk : Bool := m.get32 4 = 0

def iuwCmdHashType : ℤ := s32 (m.get32 4)

def iuwCmdHashLen : ℕ := m.get32 8

def iuwCmdMax : ℕ := andNot (m.get32 8) 0xffff

def iuwCmdLen : ℤ := s32 (m.get32 0xc)

/-- The sum of the first `n` bytes. -/
def byteSum (n : ℕ) : ℕ := ((m.load 0 n).map UInt8.toNat).sum

def iuwIsCmd : Bool :=
  m 3 = UInt8.ofNat IUW_CMD_MAGIC ∧ byteSum m (IUW_CMD_LEN - 4) = m.get32 (IUW_CMD_LEN - 4)

/-- A packet before its sum is filled in. -/
def packBody (cmd para0 para1 : ℕ) : List UInt8 :=
  bytes32 (cmd ||| IUW_CMD_MAGIC <<< 24) ++ bytes32 para0 ++ bytes32 para1 ++
    List.replicate (IUW_CMD_LEN - 12) 0

def iuwPackCmd (cmd para0 para1 : ℕ) : Mem :=
  let buf := m.store 0 (packBody cmd para0 para1)
  buf.store (IUW_CMD_LEN - 4) (bytes32 (byteSum buf (IUW_CMD_LEN - 4)))

end Packet

def optIsRead (opt : ℕ) : Bool := opt % 2 = 1

def optIsWrite (opt : ℕ) : Bool := opt % 2 = 0

section Transport

/-- `ptdev->read` into the packet buffer. -/
def ptdevRead (pack : Mem) (len : ℕ) : Strat (ℤ × Mem) := do
  let r ← Prog.op (.recv len)
  return (r.ret, pack.store 0 (r.data.take len))

/-- `ptdev->write` from `a` on. -/
def ptdevWrite (pack : Mem) (a len : ℕ) : Strat ℤ := do
  let r ← Prog.op (.send (pack.load a len))
  return r.ret

def iuwSendCmd (cmd para0 para1 : ℕ) (pack : Mem) : Strat (ℤ × Mem) := do
  let pack := iuwPackCmd pack cmd para0 para1
  let ret ← ptdevWrite pack 0 IUW_CMD_LEN
  return (if ret < 0 then -1 else 0, pack)

def iuwShakeHand (subcmd para : ℕ) (pack : Mem) : Strat (ℤ × Mem) := do
  let (ret, pack) ← iuwSendCmd IUW_CMD_READY subcmd para pack
  if ret < 0 then return (-1, pack)
  let (ret, pack) ← ptdevRead pack IUW_CMD_LEN
  if ret < IUW_CMD_LEN then return (ret, pack)
  return (if iuwIsCmd pack ∧ iuwCmdCmd pack = IUW_CMD_READY then 0 else -1, pack)

end Transport

section Identity

/-- `iuw_check_identity`: its result, whether the header passed, the buffer and the secure-burn
state afterwards. -/
def iuwCheckIdentity (pack : Mem) (sec : SecureBurn) : Strat (ℤ × Bool × Mem × SecureBurn) := do
  let (ret, pack) ← iuwShakeHand IUW_SUB_STEP IUS_HDR_SIZE pack
  if ret ≠ 0 then return (-2, false, pack, sec)
  let (_, pack) ← ptdevRead pack IUS_HDR_SIZE
  let (ret, pack) ← iusCheckHeader sec pack
  if ret ≠ 0 then do
    let (_, pack) ← iuwSendCmd IUW_CMD_ERROR 2 0 pack
    return (0, false, pack, sec)
  let sec := { sec with enabled := false }
  let (ret, pack) ← iuwShakeHand 0 0 pack
  return (if ret ≠ 0 then -2 else 0, true, pack, sec)

end Identity

section Rw

variable (B : Board)

/-- `iuw_local_rw` between the packet buffer and what the command is about. -/
def iuwLocalRw (cur : Option Dev) (pack : Mem) (offs : ℕ) (len opt : ℕ) : Strat Mem := do
  if opt = IUW_CMD_VSRD ∨ opt = IUW_CMD_NBRD ∨ opt = IUW_CMD_NRRD then
    let r ← vsRead cur offs len
    return pack.store 0 (r.2.take len)
  if opt = IUW_CMD_VSWR ∨ opt = IUW_CMD_NBWR ∨ opt = IUW_CMD_NRWR ∨ opt = IUW_CMD_NFWR then
    let _ ← vsWrite cur offs (pack.load 0 len)
    return pack
  if opt = IUW_CMD_MMRD then
    let r ← Prog.op (.memRead (u32 offs) len)
    return pack.store 0 (r.data.take len)
  if opt = IUW_CMD_MMWR then
    let _ ← Prog.op (.memWrite (u32 offs) (pack.load 0 len))
    return pack
  if opt = IUW_CMD_HASH then
    let _ ← Prog.op (.hashData (pack.load 0 len))
    return pack
  if opt = IUW_CMD_ENC ∨ opt = IUW_CMD_DEC then
    let r ← Prog.op (.aesData (pack.load 0 len))
    return pack.store (IR_MAX_BUFFER >>> 1) (r.data.take len)
  return pack

/-- What the loop of `iuw_process_rw` keeps fixed. -/
structure RwConf where
  opt : ℕ
  size : ℤ
  step : ℕ
  exstep : ℕ
  skip : ℕ
  hash : ℤ
  crypt : ℤ

/-- What it moves on. -/
structure RwPos where
  pack : Mem
  offs : ℕ
  remain : ℤ
  leeway : ℤ
  encrypt : Bool

section Loop

variable (c : RwConf) (cur : Option Dev)

/-- The data of a round from the PC, and whether the first of it asks for encryption. -/
def rwFetch (p : RwPos) (len : ℕ) : Strat RwPos := do
  let p ←
    if optIsWrite c.opt then do
      let (_, pack) ← ptdevRead p.pack len
      if c.size = p.remain ∧ isiCheckHeader pack 0 = 0 ∧ isiIsSecure pack 0 then do
        let _ ← Prog.op (.aesInit ENCRYPTION none)
        pure { p with pack, encrypt := true }
      else pure { p with pack }
    else pure p
  if p.encrypt then do
    let pack ← ssAesData p.pack 0 len
    return { p with pack }
  else return p

/-- The data of a round to the PC. -/
def rwReturn (pack : Mem) (len : ℕ) : Strat Mem := do
  if optIsRead c.opt then do
    let _ ← ptdevWrite pack 0 len
  if c.crypt > 0 then do
    let (_, pack) ← iuwShakeHand 0 0 pack
    let _ ← ptdevWrite pack (IR_MAX_BUFFER >>> 1) len
    let (_, pack) ← iuwShakeHand 0 0 pack
    return pack
  else return pack

/-- The loop of `iuw_process_rw`: whether it came to its end. Every round shortens `remain`. -/
def rwLoop : ℕ → RwPos → Strat (Bool × Mem)
  | 0, p => pure (true, p.pack)
  | n + 1, p => do
    if p.remain ≤ 0 then return (true, p.pack)
    let len := (min p.remain c.exstep).toNat
    let p ← rwFetch c p len
    let (good, offs, leeway) ←
      if c.skip ≠ 0 ∧ p.offs &&& (c.skip - 1) = 0 then
        skipBad cur c.skip p.leeway.toNat p.offs p.leeway
      else pure (true, p.offs, p.leeway)
    if ¬ good then return (false, p.pack)
    let pack ← iuwLocalRw cur p.pack offs (if c.hash ≥ 0 then len else c.exstep) c.opt
    let pack ← rwReturn c pack len
    rwLoop n { p with pack, offs := offs + c.step, remain := p.remain - len, leeway }

end Loop

/-- The device of a command, `DEV_NONE` when it is not about one. -/
def rwDevice (pack : Mem) : ℤ :=
  let opt := iuwCmdCmd pack
  if opt = IUW_CMD_VSRD ∨ opt = IUW_CMD_VSWR then iuwCmdId pack
  else if opt = IUW_CMD_NBRD ∨ opt = IUW_CMD_NBWR then DEV_BND
  else if opt = IUW_CMD_NRRD ∨ opt = IUW_CMD_NRWR then DEV_NAND
  else if opt = IUW_CMD_NFWR ∨ opt = IUW_CMD_NFRD then DEV_FND
  else DEV_NONE

def rwExitError (pack : Mem) (cur : Option Dev) : Strat (ℤ × Mem × Option Dev) := do
  let (_, pack) ← iuwSendCmd IUW_CMD_ERROR 0 0 pack
  return (-1, pack, cur)

/-- The part of `iuw_process_rw` after the first hand shake. -/
def rwTransfer (c : RwConf) (p : RwPos) (cur : Option Dev) : Strat (ℤ × Mem × Option Dev) := do
  let (done, pack) ← rwLoop c cur p.remain.toNat p
  if ¬ done then return ← rwExitError pack cur
  let pack ←
    if c.hash ≥ 0 then do
      let l ← Prog.op .hashLen
      let (_, pack) ← iuwShakeHand IUW_SUB_STEP (toU32 l.ret) pack
      let r ← Prog.op .hashValue
      let pack := pack.store 0 r.data
      if r.ret < 0 then return ← rwExitError pack cur
      let l ← Prog.op .hashLen
      let _ ← ptdevWrite pack 0 l.ret.toNat
      pure pack
    else pure pack
  -- crypt mode does not need the final shake
  if c.crypt < 0 then do
    let (_, pack) ← iuwShakeHand 0 0 pack
    return (0, pack, cur)
  else return (0, pack, cur)

/-- `iuw_process_rw` of the command in the packet buffer: its result, the buffer and the current
device afterwards. -/
def iuwProcessRw (pack : Mem) (cur : Option Dev) : Strat (ℤ × Mem × Option Dev) := do
  let opt := iuwCmdCmd pack
  let max := iuwCmdMax pack
  let mem := opt = IUW_CMD_MMRD ∨ opt = IUW_CMD_MMWR
  let isCrypt := opt = IUW_CMD_ENC ∨ opt = IUW_CMD_DEC
  let isHash := opt = IUW_CMD_HASH
  let offs := if mem then iuwCmdAddr pack else iuwCmdOffs pack
  let remain := if mem ∨ isCrypt ∨ isHash then s32 (iuwCmdPara pack 1) else iuwCmdLen pack
  let hash := if isHash then iuwCmdHashType pack else -1
  let crypt : ℤ := if isCrypt then 1 else -1
  let id := rwDevice pack
  if isHash then do
    let _ ← Prog.op (.hashInit hash (iuwCmdHashLen pack))
  let (ret, cur) ← if id ≠ DEV_NONE then vsAssignById id true else pure (0, cur)
  if ret < 0 then return ← rwExitError pack cur
  let nand := (Dev.ofId id).elim false Dev.isNand
  let some skip := (if nand then
      (B.nand.getConfig (if id = DEV_BND then .boot else .normal)).map (·.blocksize)
    else some 0) | return (-ENOCFG, pack, cur)
  if id = DEV_FND ∧ ¬ fndSizeMatch B.nand (toU32 remain) then return ← rwExitError pack cur
  let exstep :=
    if id = DEV_FND then fndAlign B.nand
    else if isCrypt then IR_MAX_BUFFER >>> 1
    else IR_MAX_BUFFER
  let step := if id = DEV_FND then vsAlign B cur id else IR_MAX_BUFFER
  if optIsWrite opt ∧ vsDeviceErasable id then do
    let _ ← vsErase cur offs max
  let (ret, pack) ←
    if isCrypt then do
      let (key, pack) ←
        if iuwCmdCryptIsk pack then pure (none, pack)
        else do
          let (_, pack) ← ptdevRead pack IUW_AES_KEYLEN
          pure (some (pack.load 0 IUW_AES_KEYLEN), pack)
      let r ← Prog.op (.aesInit (if opt = IUW_CMD_ENC then 0 else 1) key)
      pure (r.ret, pack)
    else pure (0, pack)
  if ret < 0 then return ← rwExitError pack cur
  let (ret, pack) ← iuwShakeHand IUW_SUB_STEP exstep pack
  if ret ≠ 0 then return (-2, pack, cur)
  rwTransfer { opt, size := remain, step, exstep, skip, hash, crypt }
    { pack, offs, remain, leeway := s32 (max - remain), encrypt := false } cur

end Rw

section Extra

variable (B : Board)

def iuw2part (cmd : ℕ) : Option Part :=
  if cmd = IUW_CMD_MISC then some .misc
  else if cmd = IUW_CMD_SYSM then some .system
  else if cmd = IUW_CMD_CACH then some .cache
  else if cmd = IUW_CMD_USER then some .user
  else none

def Part.name : Part → List UInt8
  | .misc => [0x6d, 0x69, 0x73, 0x63]
  | .system => [0x73, 0x79, 0x73, 0x74, 0x65, 0x6d]
  | .cache => [0x63, 0x61, 0x63, 0x68, 0x65]
  | .user => [0x75, 0x73, 0x65, 0x72]

/-- `block_get_base`: the partition's entry in the table on the disk's second block. -/
def blockGetBase (part : Part) (cur : Option Dev) : Strat (ℤ × Option Dev) := do
  let blksz := vsAlign B cur B.storageDevice
  let r ← Prog.op (.malloc blksz)
  if r.ret = 0 then return (-1, cur)
  let (_, cur) ← vsAssignById B.storageDevice true
  let t ← vsRead cur blksz blksz
  let buffer := r.mem.store 0 (t.2.take blksz)
  let named (i : ℕ) : Bool := buffer.load (20 * i) (part.name.length + 1) = part.name ++ [0]
  let base : ℤ :=
    match (List.range (INFO_MAX_PARTITIONS + INFO_SPARE_IMAGES)).find? named with
    | none => 0
    | some i =>
      s32 (buffer.get32 (20 * i + 12)) * if i < INFO_SPARE_IMAGES then 2 ^ 20 else blksz
  return (if base > cur.elim 0 B.capacity * blksz then -1 else base, cur)

/-- `storage_offset` of a partition, 0 for no partition. -/
def storageOffset (part : Option Part) (cur : Option Dev) : Strat (ℤ × Option Dev) :=
  match part with
  | none => pure (0, cur)
  | some part =>
    if B.storageDevice = DEV_NAND then pure (B.nandPartOffset part, cur)
    else if Dev.mmc0.id ≤ B.storageDevice ∧ B.storageDevice ≤ Dev.udisk1.id then
      blockGetBase B part cur
    else pure (0, cur)

def storageSize (part : Option Part) : ℤ := part.elim 0 B.partSize

/-- `iuw_sparse_data`, over `iuw_remain`. -/
def iuwSparseData (remain : ℤ) : Strat (ℤ × List UInt8 × ℤ) := do
  if remain = 0 then return (0, [], remain)
  let n := min remain EXTRA_BUFFER_SIZE
  let r ← Prog.op (.recv n)
  return (r.ret, r.placed n, remain - n)

/-- `iuw_extra`: its result, the buffer and the current device afterwards. -/
def iuwExtra (fuel : ℕ) (pack : Mem) (cur : Option Dev) :
    Strat (Option (ℤ × Mem × Option Dev)) := do
  let r ← Prog.op (.malloc EXTRA_BUFFER_SIZE)
  if r.ret = 0 then return some (-1, pack, cur)
  let part := iuw2part (iuwCmdCmd pack)
  let (offs, cur) ← storageOffset B part cur
  let size := storageSize B part
  if offs = 0 ∨ size = 0 then return some (-2, pack, cur)
  let (ret, pack) ← iuwShakeHand IUW_SUB_STEP EXTRA_BUFFER_SIZE pack
  if ret ≠ 0 then return some (-2, pack, cur)
  -- from here on the buffer holds the answer of the PC, not the command
  let remain := iuwCmdLen pack
  if B.storageDevice = DEV_NAND then do
    let some ret ← yaffsBurn B iuwGetPage fuel (toU64 offs) (s32 (iuwCmdMax pack)) remain
      | return none
    let (ret, pack) ← if ret = 0 then iuwShakeHand 0 0 pack else pure (ret, pack)
    return some (ret, pack, some .fnd)
  else do
    let some (ret, cur) ← sparseBurn B iuwSparseData fuel B.storageDevice (toU64 offs) remain
      EXTRA_BUFFER_SIZE remain cur | return none
    let (ret, pack) ← if ret = 0 then iuwShakeHand 0 0 pack else pure (ret, pack)
    return some (ret, pack, cur)

end Extra

section Server

variable (B : Board)

structure ServerState where
  pack : Mem
  cur : Option Dev
  retry : ℕ
  sec : SecureBurn

/-- What the two switches of `iuw_server` make of a command. -/
inductive Dispatch where
  | unexpected
  | identify
  | finish
  | denied
  | rw
  | unsupported
  | extra
  deriving DecidableEq, Repr

/-- The commands of `iuw_process_rw`. -/
def rwCmds : List ℕ :=
  [IUW_CMD_VSRD, IUW_CMD_VSWR, IUW_CMD_MMRD, IUW_CMD_MMWR, IUW_CMD_NBWR, IUW_CMD_NBRD,
    IUW_CMD_NRWR, IUW_CMD_NRRD, IUW_CMD_NFWR, IUW_CMD_HASH, IUW_CMD_ENC, IUW_CMD_DEC]

def dispatch (secure : Bool) (cmd : ℕ) : Dispatch :=
  if cmd = IUW_CMD_READY ∨ cmd = IUW_CMD_ERROR then .unexpected
  else if cmd = IUW_CMD_IDENTIFY then .identify
  else if cmd = IUW_CMD_FINISH then .finish
  else if secure then .denied
  else if cmd ∈ rwCmds then .rw
  else if cmd = IUW_CMD_JUMP ∨ cmd = IUW_CMD_CONFIG then .unsupported
  else .extra

/-- How a round of the server's loop ends: with the next round, with the server's result, or not
at all. -/
inductive RoundEnd where
  | next (s : ServerState)
  | finished (ret : ℤ)
  | stuck

/-- What a round leaves for the reader of a session: how it ended, the packet it looked at with
what the switches made of it, and whether a header passed in it. -/
structure Round where
  ending : RoundEnd
  packet : Option Mem
  kind : Option Dispatch
  passed : Bool

def serverDispatch (fuel : ℕ) (s : ServerState) : Strat Round := do
  let kind := dispatch s.sec.enabled (iuwCmdCmd s.pack)
  let round (ending : RoundEnd) (passed : Bool) : Round :=
    { ending, packet := some s.pack, kind := some kind, passed }
  match kind with
  | .unexpected | .denied | .unsupported => do
    let (_, pack) ← iuwSendCmd IUW_CMD_ERROR 0 0 s.pack
    return round (.next { s with pack }) false
  | .identify => do
    let (_, passed, pack, sec) ← iuwCheckIdentity s.pack s.sec
    return round (.next { s with pack, sec }) passed
  | .finish => return round (.finished (iuwCmdPara s.pack 0)) false
  | .rw => do
    let (_, pack, cur) ← iuwProcessRw B s.pack s.cur
    return round (.next { s with pack, cur }) false
  | .extra => do
    let some (ret, pack, cur) ← iuwExtra B fuel s.pack s.cur | return round .stuck false
    if ret = 0 then return round (.next { s with pack, cur }) false
    let (_, pack) ← iuwSendCmd IUW_CMD_ERROR 0 0 pack
    return round (.next { s with pack, cur }) false

/-- One round of `iuw_server`: a packet is read, and whatever `iuw_is_cmd` says of it is only
printed. -/
def serverRound (fuel : ℕ) (s : ServerState) : Strat Round := do
  let (ret, pack) ← ptdevRead s.pack IUW_CMD_LEN
  let s := { s with pack }
  if ret < 0 then
    if s.retry < IUW_RETRY then
      return ⟨.next { s with retry := s.retry + 1 }, none, none, false⟩
    return ⟨.finished (iuwCmdPara pack 0), none, none, false⟩
  serverDispatch B fuel s

end Server

section Session

/-- A round of a session: the state it starts from and what its run leaves. -/
abbrev SessionRound (σ : Type) := ServerState × Prog.Out Op Reply σ Round

variable (B : Board) {σ : Type} (h : σ → Op → Reply × σ) (fuel : ℕ)

/-- The rounds of a session against the environment `h`, up to `n` of them. -/
def session : ℕ → ServerState → σ → List (SessionRound σ)
  | 0, _, _ => []
  | n + 1, s, e =>
    let out := Prog.run h (serverRound B fuel s) e
    (s, out) ::
      match out.val.ending with
      | .next s' => session n s' out.env
      | _ => []

end Session

end InfotmUboot
