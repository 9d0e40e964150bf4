import InfotmUboot.Mmc

/-!
# The polls and the bounds of the block access

`mmc_send_status` tells a card that was ready on its last poll from one that never was the wrong way
round. The bounds of a write are checked chunk by chunk, so the chunks in front of one that is
refused are on the card by then.
-/

namespace InfotmUboot

open Lib

section Status

namespace MmcReply

variable (r : MmcReply)

/-- The answer of a card that is still busy. -/
def Quiet : Prop :=
  r.err = 0 ∧ r.response &&& MMC_STATUS_RDY_FOR_DATA = 0 ∧ r.response &&& MMC_STATUS_MASK = 0

/-- The answer of a card that takes data again, and has no error to report. -/
def Ready : Prop :=
  r.err = 0 ∧ r.response &&& MMC_STATUS_RDY_FOR_DATA ≠ 0 ∧ r.response &&& MMC_STATUS_MASK = 0

/-- The answer of a card with an error that ends the polls. -/
def Fails : Prop :=
  r.err ≠ 0 ∧ r.err ≠ TIMEOUT ∨
    r.err = 0 ∧ r.response &&& MMC_STATUS_RDY_FOR_DATA = 0 ∧ r.response &&& MMC_STATUS_MASK ≠ 0

instance : DecidablePred Quiet := fun _ => inferInstanceAs (Decidable (_ ∧ _))

instance : DecidablePred Ready := fun _ => inferInstanceAs (Decidable (_ ∧ _))

instance : DecidablePred Fails := fun _ => inferInstanceAs (Decidable (_ ∨ _))

/-- What a poll with this answer ends the loop with. -/
def ends (timeout : ℕ) : Except ℤ ℤ :=
  if r.err ≠ 0 then .error r.err
  else if r.response &&& MMC_STATUS_RDY_FOR_DATA ≠ 0 then .ok (s32 timeout)
  else .error COMM_ERR

end MmcReply

/-- A card with these answers, one after the other. -/
def answers (resp : ℕ → MmcReply) (i : ℕ) (_ : MmcOp) : MmcReply × ℕ := (resp i, i + 1)

variable (resp : ℕ → MmcReply)

def statusRet (timeout : ℤ) : ℤ := (Prog.run (answers resp) (mmcSendStatus timeout) 0).val

/-- 0 is only returned once the card was ready without an error, and the timeout just when all polls
were used up. -/
structure StatusRight (timeout : ℤ) : Prop where
  ready : statusRet resp timeout = 0 →
    ∃ i ≤ toU32 timeout, (∀ j < i, (resp j).Quiet) ∧ (resp i).Ready
  timeout : statusRet resp timeout = TIMEOUT ↔ ∀ i ≤ toU32 timeout, (resp i).Quiet

/-- The first answer that is not that of a busy card comes in time, and is an error, or comes before
the last poll and is that of a ready card. -/
def StatusSettles (timeout : ℤ) : Prop :=
  ∃ i ≤ toU32 timeout, (∀ j < i, (resp j).Quiet) ∧
    ((resp i).Fails ∨ (resp i).Ready ∧ i < toU32 timeout)

variable {resp}

theorem MmcReply.Quiet.pollEnds {r : MmcReply} (h : r.Quiet) (t : ℕ) : mmcPollEnds t r = none := by
  obtain ⟨he, hr, hm⟩ := h
  simp [mmcPollEnds, he, hr, hm]

theorem MmcReply.pollEnds {r : MmcReply} (h : ¬r.Quiet) (t : ℕ) :
    mmcPollEnds t r = some (r.ends t) := by
  unfold mmcPollEnds MmcReply.ends
  split_ifs with he hr hm
  · rfl
  · rfl
  · rfl
  · exact absurd ⟨not_not.1 he, not_not.1 hr, not_not.1 hm⟩ h

/-- The loop over answers that never end it, -/
theorem statusLoop_quiet : ∀ {t k : ℕ}, (∀ i ≤ t, (resp (k + i)).Quiet) →
    (Prog.run (answers resp) (mmcStatusLoop t) k).val = .ok (-1)
  | 0, k, h => by
    have hk : mmcPollEnds 0 (resp k) = none := (h 0 le_rfl).pollEnds 0
    rw [mmcStatusLoop, Prog.run_bind_val]
    change (mmcPollEnds 0 (resp k)).getD _ = _
    rw [hk]
    rfl
  | t + 1, k, h => by
    have hk : mmcPollEnds (t + 1) (resp k) = none := (h 0 (Nat.zero_le _)).pollEnds (t + 1)
    rw [mmcStatusLoop, Prog.run_bind_val]
    simp only [Prog.run_op, answers, hk]
    refine statusLoop_quiet fun i hi => ?_
    rw [show k + 1 + i = k + (i + 1) by omega]
    exact h (i + 1) (by omega)

/-- and over those in front of the one that does. -/
theorem statusLoop_ends : ∀ {t k i : ℕ}, i ≤ t → (∀ j < i, (resp (k + j)).Quiet) →
    ¬(resp (k + i)).Quiet →
    (Prog.run (answers resp) (mmcStatusLoop t) k).val = (resp (k + i)).ends (t - i)
  | 0, k, i, hi, _, hend => by
    obtain rfl := Nat.le_zero.1 hi
    have hk : mmcPollEnds 0 (resp k) = _ := MmcReply.pollEnds hend 0
    rw [mmcStatusLoop, Prog.run_bind_val]
    change (mmcPollEnds 0 (resp k)).getD _ = _
    rw [hk]
    rfl
  | t + 1, k, 0, _, _, hend => by
    have hk : mmcPollEnds (t + 1) (resp k) = _ := MmcReply.pollEnds hend (t + 1)
    rw [mmcStatusLoop, Prog.run_bind_val]
    simp only [Prog.run_op, answers, hk]
    rfl
  | t + 1, k, i + 1, hi, h, hend => by
    have hk : mmcPollEnds (t + 1) (resp k) = none := (h 0 (Nat.succ_pos i)).pollEnds (t + 1)
    rw [mmcStatusLoop, Prog.run_bind_val, Nat.add_sub_add_right]
    simp only [Prog.run_op, answers, hk]
    rw [show k + (i + 1) = k + 1 + i by omega] at hend ⊢
    refine statusLoop_ends (Nat.le_of_succ_le_succ hi) (fun j hj => ?_) hend
    rw [show k + 1 + j = k + (j + 1) by omega]
    exact h (j + 1) (by omega)

/-- What is made of the end of the loop. -/
theorem statusRet_eq (timeout : ℤ) : statusRet resp timeout =
    match (Prog.run (answers resp) (mmcStatusLoop (toU32 timeout)) 0).val with
    | .error err => err
    | .ok timeout => if timeout = 0 then TIMEOUT else 0 := by
  unfold statusRet mmcSendStatus
  rw [Prog.run_bind_val]
  rcases (Prog.run (answers resp) (mmcStatusLoop (toU32 timeout)) 0).val with _ | _ <;> rfl

theorem statusRet_quiet {timeout : ℤ} (h : ∀ i ≤ toU32 timeout, (resp i).Quiet) :
    statusRet resp timeout = 0 := by
  rw [statusRet_eq, statusLoop_quiet (by simpa using h)]
  rfl

theorem s32_eq_zero {n : ℕ} (h : n < 2 ^ 32) : s32 n = 0 ↔ n = 0 := by
  unfold s32
  rw [Int.bmod_def]
  split_ifs <;> omega

theorem statusRet_ends {timeout : ℤ} {i : ℕ} (hi : i ≤ toU32 timeout) (h : ∀ j < i, (resp j).Quiet)
    (hend : ¬(resp i).Quiet) : statusRet resp timeout =
      if (resp i).err ≠ 0 then (resp i).err
      else if (resp i).response &&& MMC_STATUS_RDY_FOR_DATA ≠ 0 then
        if i = toU32 timeout then TIMEOUT else 0
      else COMM_ERR := by
  have hlt : toU32 timeout < 2 ^ 32 := by
    unfold toU32
    omega
  have hloop := @statusLoop_ends resp (toU32 timeout) 0 i hi (by simpa using h)
    (by simpa using hend)
  rw [Nat.zero_add] at hloop
  have hz : s32 (toU32 timeout - i : ℕ) = 0 ↔ i = toU32 timeout := by
    rw [s32_eq_zero (by omega)]
    omega
  rw [statusRet_eq, hloop]
  unfold MmcReply.ends
  by_cases he : (resp i).err ≠ 0
  · rw [if_pos he, if_pos he]
  · rw [if_neg he, if_neg he]
    by_cases hr : (resp i).response &&& MMC_STATUS_RDY_FOR_DATA ≠ 0
    · rw [if_pos hr, if_pos hr]
      dsimp only
      simp only [hz]
    · rw [if_neg hr, if_neg hr]

/-- `mmc_send_status` is right just where the answers settle it before the last poll, or with an
error. -/
theorem status_right_iff (resp : ℕ → MmcReply) (timeout : ℤ) :
    StatusRight resp timeout ↔ StatusSettles resp timeout := by
  by_cases hall : ∀ i ≤ toU32 timeout, (resp i).Quiet
  · have hret := statusRet_quiet hall
    refine iff_of_false (fun h => ?_) ?_
    · exact absurd (hret.symm.trans (h.timeout.2 hall)) (by decide)
    · rintro ⟨i, hi, -, hf | ⟨hr, -⟩⟩
      · obtain ⟨he, hq, hm⟩ := hall i hi
        rcases hf with hf | hf
        · exact hf.1 he
        · exact hf.2.2 hm
      · exact hr.2.1 (hall i hi).2.1
  · simp only [not_forall, exists_prop] at hall
    classical
    obtain ⟨hi, hend⟩ := Nat.find_spec hall
    have hbefore (j : ℕ) (hj : j < Nat.find hall) : (resp j).Quiet := by
      have := Nat.find_min hall hj
      simp only [not_and, not_not] at this
      exact this (by omega)
    generalize Nat.find hall = i at hi hend hbefore
    have hret := statusRet_ends hi hbefore hend
    -- no other answer can be the first that is not quiet
    have huniq {k : ℕ} (hk : ∀ j < k, (resp j).Quiet) (hkend : ¬(resp k).Quiet) : k = i := by
      rcases Nat.lt_trichotomy k i with h | h | h
      · exact absurd (hbefore k h) hkend
      · exact h
      · exact absurd (hk i h) hend
    have hnot : ¬∀ j ≤ toU32 timeout, (resp j).Quiet := fun h => hend (h i hi)
    constructor
    · intro h
      refine ⟨i, hi, hbefore, ?_⟩
      by_cases he : (resp i).err ≠ 0
      · refine Or.inl (Or.inl ⟨he, fun heq => hnot (h.timeout.1 ?_)⟩)
        rw [hret, if_pos he, heq]
      · by_cases hr : (resp i).response &&& MMC_STATUS_RDY_FOR_DATA ≠ 0
        · rw [if_neg he, if_pos hr] at hret
          by_cases hlast : i = toU32 timeout
          · rw [if_pos hlast] at hret
            exact absurd (h.timeout.1 hret) hnot
          · rw [if_neg hlast] at hret
            obtain ⟨k, -, hk, hready⟩ := h.ready hret
            obtain rfl := huniq hk fun hq => hready.2.1 hq.2.1
            exact Or.inr ⟨hready, by omega⟩
        · have he0 := not_not.1 he
          have hr0 := not_not.1 hr
          exact Or.inl (Or.inr ⟨he0, hr0, fun hm => hend ⟨he0, hr0, hm⟩⟩)
    · rintro ⟨k, hk, hkq, hcase⟩
      have hkend : ¬(resp k).Quiet := by
        rintro ⟨he, hr, hm⟩
        rcases hcase with (hf | hf) | ⟨hready, -⟩
        · exact hf.1 he
        · exact hf.2.2 hm
        · exact hready.2.1 hr
      obtain rfl := huniq hkq hkend
      rcases hcase with (hf | hf) | ⟨hready, hlt⟩
      · rw [if_pos hf.1] at hret
        refine ⟨fun h0 => absurd (hret.symm.trans h0) hf.1, iff_of_false (fun h => ?_) hnot⟩
        exact hf.2 (hret.symm.trans h)
      · rw [if_neg (not_not.2 hf.1), if_neg (not_not.2 hf.2.1)] at hret
        refine ⟨fun h0 => absurd (hret.symm.trans h0) (by decide), iff_of_false (fun h => ?_) hnot⟩
        exact absurd (hret.symm.trans h) (by decide)
      · rw [if_neg (not_not.2 hready.1), if_pos hready.2.1, if_neg (by omega)] at hret
        refine ⟨fun _ => ⟨k, hk, hkq, hready⟩, iff_of_false (fun h => ?_) hnot⟩
        exact absurd (hret.symm.trans h) (by decide)

/-- A card that stays busy over both polls of a `timeout` of 1. -/
theorem status_right_fails :
    ¬∀ (resp : ℕ → MmcReply) (timeout : ℤ), StatusRight resp timeout := by
  intro h
  have hret : statusRet (fun _ => ⟨0, 0⟩) 1 = 0 := by decide
  obtain ⟨i, -, -, hready⟩ := (h (fun _ => ⟨0, 0⟩) 1).ready hret
  exact hready.2.1 (by decide)

end Status


section Blocks

variable (m : Mmc)

namespace Mmc

/-- The first block that a command with the address of `start` goes to. -/
def addr (start : ℕ) : ℕ := if m.highCapacity then start else u32 (start * m.writeBlLen) /
    m.writeBlLen

/-- How many blocks the next command takes. -/
def chunk (todo : ℕ) : ℕ := if todo > m.bMax then m.bMax else todo

/-- Some block of the range is not on the card. -/
def Outside (start blkcnt : ℕ) : Prop := 0 < blkcnt ∧ m.lba < start + blkcnt

/-- A chunk is refused, and none of those before it goes to a block of the card. -/
def RefusedEarly : ℕ → ℕ → ℕ → Prop
  | 0, _, _ => False
  | n + 1, start, todo =>
    m.lba < u32 (start + m.chunk todo) ∨
      (∀ b < m.lba, ¬(m.addr start ≤ b ∧ b < m.addr start + m.chunk todo)) ∧
        m.chunk todo < todo ∧ RefusedEarly n (u32 (start + m.chunk todo)) (todo - m.chunk todo)

end Mmc

variable (mem : Mem)

/-- A card that writes the data to the blocks of a command that it takes, and to no others; it may
refuse any command, and leave the blocks of that in any state. -/
structure MmcCard where
  σ : Type
  step : σ → MmcOp → MmcReply × σ
  contents : σ → ℕ → List UInt8
  write_ok : ∀ s mult arg n len src, (step s (.write mult arg n len src)).1.err = 0 → ∀ b < m.lba,
    contents (step s (.write mult arg n len src)).2 b =
      let a := if m.highCapacity then arg else arg / len
      if a ≤ b ∧ b < a + n then mem.load (src + (b - a) * len) len else contents s b
  write_rest : ∀ s mult arg n len src, ∀ b < m.lba,
    let a := if m.highCapacity then arg else arg / len
    ¬(a ≤ b ∧ b < a + n) → contents (step s (.write mult arg n len src)).2 b = contents s b
  rest : ∀ s op, (∀ mult arg n len src, op ≠ .write mult arg n len src) →
    ∀ b < m.lba, contents (step s op).2 b = contents s b

/-- A host on which every command works. -/
def working (_ : Unit) (_ : MmcOp) : MmcReply × Unit := (⟨0, MMC_STATUS_RDY_FOR_DATA⟩, ())

def AcceptsWrite (start blkcnt : ℕ) : Prop :=
  (Prog.run working (mmcBwrite m start blkcnt 0) ()).val = blkcnt

def AcceptsRead (start blkcnt : ℕ) : Prop :=
  (Prog.run working (Mmc.mmcBread m start blkcnt 0) ()).val = blkcnt

/-- What the block access promises for a range: it leaves the card alone if the range is not on it,
the blocks of the range have the data once it succeeds, and reads accept what writes do. -/
structure BwriteRight (start blkcnt : ℕ) : Prop where
  outside : m.Outside start blkcnt → ∀ (mem : Mem) (C : MmcCard m mem) (s : C.σ) (src : ℕ),
    let out := Prog.run C.step (mmcBwrite m start blkcnt src) s
    out.val ≠ blkcnt ∧ ∀ b < m.lba, C.contents out.env b = C.contents s b
  inside : ¬m.Outside start blkcnt → ∀ (mem : Mem) (C : MmcCard m mem) (s : C.σ) (src : ℕ),
    let out := Prog.run C.step (mmcBwrite m start blkcnt src) s
    out.val = blkcnt → ∀ b < m.lba, C.contents out.env b =
      if start ≤ b ∧ b < start + blkcnt then mem.load (src + (b - start) * m.writeBlLen)
        m.writeBlLen
      else C.contents s b
  bounds : AcceptsRead m start blkcnt ↔ AcceptsWrite m start blkcnt

variable {m}

namespace Mmc

theorem chunk_le (todo : ℕ) : m.chunk todo ≤ todo := by
  unfold chunk
  split_ifs <;> omega

theorem chunk_pos {todo : ℕ} (h : 0 < todo) : 0 < m.chunk todo := by
  have := m.bMax_pos
  unfold chunk
  split_ifs <;> omega

theorem addr_eq {start : ℕ} (h : start < m.lba) : m.addr start = start := by
  have hlba := m.lba_lt
  unfold addr
  rw [m.write_len]
  rcases hc : m.highCapacity with _ | _
  · have hfit := m.bytes_fit hc
    rw [if_neg (by decide), u32_of_lt (by omega), Nat.mul_div_cancel _ (by norm_num)]
  · rw [if_pos rfl]

end Mmc

section Asks

/-- The operations that leave the blocks of the card as they are. -/
def MmcOp.Rests (o : MmcOp) : Prop := ∀ mult arg n len src, o ≠ .write mult arg n len src

theorem statusLoop_asks : ∀ t, Prog.Asks MmcOp.Rests (mmcStatusLoop t)
  | 0 => Prog.Asks.bind ((Prog.asks_op _).2 nofun) fun _ => trivial
  | t + 1 => by
    rw [mmcStatusLoop]
    refine Prog.Asks.bind ((Prog.asks_op _).2 nofun) fun r => ?_
    rcases mmcPollEnds (t + 1) r with _ | _
    · exact statusLoop_asks t
    · trivial

theorem sendStatus_asks (timeout : ℤ) : Prog.Asks MmcOp.Rests (mmcSendStatus timeout) := by
  unfold mmcSendStatus
  refine Prog.Asks.bind (statusLoop_asks _) fun r => ?_
  rcases r with _ | _ <;> trivial

theorem finish_asks (n : ℕ) : Prog.Asks MmcOp.Rests (mmcFinish n) := by
  have hwait : Prog.Asks MmcOp.Rests (do let _ ← mmcSendStatus 1000; return n) :=
    Prog.Asks.bind (sendStatus_asks 1000) fun _ => trivial
  unfold mmcFinish
  refine Prog.Asks.ite (fun _ => Prog.Asks.bind ((Prog.asks_op _).2 nofun) fun r => ?_) fun _ =>
    hwait
  exact Prog.Asks.ite (fun _ => trivial) fun _ => hwait

end Asks

section Write

variable {start n src : ℕ}

theorem writeBlocks_refused {σ : Type} (step : σ → MmcOp → MmcReply × σ) (s : σ)
    (h : m.lba < u32 (start + n)) : Prog.run step (mmcWriteBlocks m start n src) s =
      ⟨0, s, []⟩ := by
  unfold mmcWriteBlocks
  rw [if_pos h]
  rfl

variable {mem} (C : MmcCard m mem) (s : C.σ)

theorem MmcCard.keeps {α : Type} {p : MmcHost α} (hp : Prog.Asks MmcOp.Rests p) {b : ℕ}
    (hb : b < m.lba) : C.contents (Prog.run C.step p s).env b = C.contents s b :=
  hp.env (I := fun s' => C.contents s' b = C.contents s b)
    (fun s' o ho heq => (C.rest s' o ho b hb).trans heq) rfl

theorem afterWrite_asks (r : MmcReply) :
    Prog.Asks MmcOp.Rests (if r.err ≠ 0 then return 0 else mmcFinish n : MmcHost ℕ) :=
  Prog.Asks.ite (fun _ => trivial) fun _ => finish_asks n

/-- A chunk reaches no block but its own, -/
theorem writeBlocks_rest {b : ℕ} (hb : b < m.lba) (h : ¬(m.addr start ≤ b ∧ b < m.addr start + n)) :
    C.contents (Prog.run C.step (mmcWriteBlocks m start n src) s).env b = C.contents s b := by
  by_cases hr : m.lba < u32 (start + n)
  · rw [writeBlocks_refused C.step s hr]
  · unfold mmcWriteBlocks
    rw [if_neg hr, Prog.run_bind_env, Prog.run_op, C.keeps _ (afterWrite_asks _) hb]
    refine C.write_rest s _ _ n _ src b hb ?_
    unfold Mmc.addr at h
    rcases hc : m.highCapacity with _ | _ <;> simpa [hc] using h

/-- and where it works those have the data. -/
theorem writeBlocks_ok {b : ℕ} (hb : b < m.lba) (h : m.addr start ≤ b ∧ b < m.addr start + n)
    (hr : ¬m.lba < u32 (start + n))
    (hval : (Prog.run C.step (mmcWriteBlocks m start n src) s).val = n) :
    C.contents (Prog.run C.step (mmcWriteBlocks m start n src) s).env b =
      mem.load (src + (b - m.addr start) * m.writeBlLen) m.writeBlLen := by
  unfold mmcWriteBlocks at hval ⊢
  rw [if_neg hr, Prog.run_bind_val, Prog.run_op] at hval
  rw [if_neg hr, Prog.run_bind_env, Prog.run_op, C.keeps _ (afterWrite_asks _) hb]
  dsimp only at hval ⊢
  have herr : (C.step s (.write (n > 1)
      (if m.highCapacity then start else u32 (start * m.writeBlLen)) n m.writeBlLen src)).1.err =
        0 := by
    by_contra hne
    rw [if_pos hne] at hval
    have : (0 : ℕ) = n := hval
    omega
  rw [C.write_ok s _ _ n _ src herr b hb]
  unfold Mmc.addr at h ⊢
  rcases hc : m.highCapacity with _ | _ <;> simp only [hc] at h ⊢
  · exact if_pos h
  · exact if_pos h

end Write

section Loop

/-- The round of the loop, with its chunk by name. -/
theorem bwriteLoop_succ (n start todo src : ℕ) : mmcBwriteLoop m (n + 1) start todo src = (do
    let w ← mmcWriteBlocks m start (m.chunk todo) src
    if w ≠ m.chunk todo then return false
    if todo - m.chunk todo > 0 then
      mmcBwriteLoop m n (u32 (start + m.chunk todo)) (todo - m.chunk todo)
        (src + m.chunk todo * m.writeBlLen)
    else return true) := rfl

/-- A chunk that is refused ends the loop. -/
theorem loop_refused_val {σ : Type} (step : σ → MmcOp → MmcReply × σ) :
    ∀ {n start todo src : ℕ} (s : σ), 0 < todo → m.RefusedEarly n start todo →
      (Prog.run step (mmcBwriteLoop m n start todo src) s).val = false
  | n + 1, start, todo, src, s, hpos, h => by
    rw [bwriteLoop_succ, Prog.run_bind_val]
    rcases h with h | ⟨-, hlt, h⟩
    · rw [writeBlocks_refused step s h]
      have := Mmc.chunk_pos (m := m) hpos
      dsimp only
      rw [if_pos (by omega)]
      rfl
    · by_cases hw : (Prog.run step (mmcWriteBlocks m start (m.chunk todo) src) s).val ≠ m.chunk todo
      · rw [if_pos hw]
        rfl
      · rw [if_neg hw, if_pos (by omega)]
        exact loop_refused_val step _ (by omega) h

variable {mem} (C : MmcCard m mem)

theorem loop_refused_env : ∀ {n start todo src : ℕ} (s : C.σ), 0 < todo →
    m.RefusedEarly n start todo →
    ∀ b < m.lba, C.contents (Prog.run C.step (mmcBwriteLoop m n start todo src) s).env b =
      C.contents s b
  | n + 1, start, todo, src, s, hpos, h, b, hb => by
    rw [bwriteLoop_succ, Prog.run_bind_env]
    rcases h with h | ⟨hno, hlt, h⟩
    · rw [writeBlocks_refused C.step s h]
      have := Mmc.chunk_pos (m := m) hpos
      dsimp only
      rw [if_pos (by omega)]
      rfl
    · have hrest : C.contents (Prog.run C.step (mmcWriteBlocks m start (m.chunk todo) src) s).env
        b =
          C.contents s b := writeBlocks_rest C s hb (hno b hb)
      by_cases hw : (Prog.run C.step (mmcWriteBlocks m start (m.chunk todo) src) s).val ≠ m.chunk
        todo
      · rw [if_pos hw]
        exact hrest
      · rw [if_neg hw, if_pos (by omega), loop_refused_env _ (by omega) h b hb]
        exact hrest

/-- On the card, the chunks put the data where it belongs. -/
theorem loop_inside : ∀ {n start todo src : ℕ} (s : C.σ), todo < n → start + todo ≤ m.lba →
    (Prog.run C.step (mmcBwriteLoop m n start todo src) s).val = true → ∀ b < m.lba,
      C.contents (Prog.run C.step (mmcBwriteLoop m n start todo src) s).env b =
        if start ≤ b ∧ b < start + todo then
          mem.load (src + (b - start) * m.writeBlLen) m.writeBlLen
        else C.contents s b
  | n + 1, start, todo, src, s, hn, hin, hval, b, hb => by
    have hlba := m.lba_lt
    have hle := Mmc.chunk_le (m := m) todo
    rw [bwriteLoop_succ, Prog.run_bind_val] at hval
    rw [bwriteLoop_succ, Prog.run_bind_env]
    have hfits : ¬m.lba < u32 (start + m.chunk todo) := by
      rw [u32_of_lt (by omega)]
      omega
    by_cases hw : (Prog.run C.step (mmcWriteBlocks m start (m.chunk todo) src) s).val ≠ m.chunk todo
    · rw [if_pos hw] at hval
      exact absurd hval (by simp)
    rw [if_neg hw] at hval ⊢
    -- what the chunk leaves in the block
    have hchunk : C.contents (Prog.run C.step (mmcWriteBlocks m start (m.chunk todo) src) s).env b =
        if start ≤ b ∧ b < start + m.chunk todo then
          mem.load (src + (b - start) * m.writeBlLen) m.writeBlLen
        else C.contents s b := by
      rcases Nat.eq_zero_or_pos todo with h0 | hpos
      · have hc0 : m.chunk todo = 0 := by omega
        rw [if_neg (by omega)]
        exact writeBlocks_rest C s hb (by omega)
      · have haddr : m.addr start = start := Mmc.addr_eq (by omega)
        by_cases hb' : start ≤ b ∧ b < start + m.chunk todo
        · rw [if_pos hb']
          have := writeBlocks_ok C s hb (by rwa [haddr]) hfits (not_not.1 hw)
          rwa [haddr] at this
        · rw [if_neg hb']
          exact writeBlocks_rest C s hb (by rwa [haddr])
    by_cases hmore : todo - m.chunk todo > 0
    · rw [if_pos hmore] at hval ⊢
      have hpos := Mmc.chunk_pos (m := m) (show 0 < todo by omega)
      rw [u32_of_lt (by omega)] at hval ⊢
      rw [loop_inside _ (by omega) (by omega) hval b hb, hchunk]
      by_cases h1 : start ≤ b ∧ b < start + m.chunk todo
      · rw [if_neg (by omega), if_pos h1, if_pos (by omega)]
      · by_cases h2 : start + m.chunk todo ≤ b ∧ b < start + m.chunk todo + (todo - m.chunk todo)
        · obtain ⟨k, rfl⟩ := Nat.exists_eq_add_of_le h2.1
          rw [if_pos h2, if_pos (by omega), show start + m.chunk todo + k - (start + m.chunk todo) =
            k by
            omega, show start + m.chunk todo + k - start = m.chunk todo + k by omega, Nat.add_mul,
            Nat.add_assoc]
        · rw [if_neg h2, if_neg h1, if_neg (by omega)]
    · have heq : m.chunk todo = todo := by omega
      rw [if_neg hmore, Prog.run_pure]
      rw [heq] at hchunk ⊢
      exact hchunk

theorem loop_none {n start src b : ℕ} (s : C.σ) (hb : b < m.lba) :
    C.contents (Prog.run C.step (mmcBwriteLoop m (n + 1) start 0 src) s).env b =
      C.contents s b := by
  have h0 : m.chunk 0 = 0 := Nat.le_zero.1 (Mmc.chunk_le 0)
  have hrest : C.contents (Prog.run C.step (mmcWriteBlocks m start 0 src) s).env b =
      C.contents s b := writeBlocks_rest C s hb (by omega)
  rw [bwriteLoop_succ, Prog.run_bind_env, h0]
  split_ifs
  · exact hrest
  · omega
  · exact hrest

end Loop

section Working

/-- The block of ones. -/
def onesBlock : List UInt8 := List.replicate 512 1

theorem load_ones (a : ℕ) : Mem.load (fun _ => 1) a 512 = onesBlock := by
  simp [Mem.load, onesBlock, List.map_const']

variable (m)

/-- A card that takes every command, with data of ones. -/
def onesCard : MmcCard m fun _ => 1 where
  σ := ℕ → List UInt8
  step c
    | .write _ arg n len src => (⟨0, MMC_STATUS_RDY_FOR_DATA⟩, fun b =>
        let a := if m.highCapacity then arg else arg / len
        if a ≤ b ∧ b < a + n then Mem.load (fun _ => 1) (src + (b - a) * len) len else c b)
    | _ => (⟨0, MMC_STATUS_RDY_FOR_DATA⟩, c)
  contents c := c
  write_ok _ _ _ _ _ _ _ _ _ := rfl
  write_rest _ _ _ _ _ _ _ _ h := if_neg h
  rest _ op hop b hb := by
    cases op with
    | write mult arg n len src => exact absurd rfl (hop mult arg n len src)
    | _ => rfl

/-- Nothing but zeros on it. -/
def zeros : (onesCard m).σ := (fun _ => List.replicate 512 0 : ℕ → List UInt8)

variable {m}

/-- All commands work, whatever is behind them. -/
def AllWork {σ : Type} (step : σ → MmcOp → MmcReply × σ) : Prop := ∀ s o, (step s o).1.err = 0

theorem allWork_working : AllWork working := fun _ _ => rfl

theorem allWork_onesCard : AllWork (onesCard m).step := fun _ o => by
  cases o <;> rfl

theorem finish_works {σ : Type} {step : σ → MmcOp → MmcReply × σ} (h : AllWork step)
    (n : ℕ) (s : σ) :
    (Prog.run step (mmcFinish n) s).val = n := by
  unfold mmcFinish
  by_cases hn : n > 1
  · rw [if_pos hn, Prog.run_bind_val, Prog.run_op, if_neg (not_not.2 (h _ _))]
    simp
  · rw [if_neg hn]
    simp

theorem writeBlocks_works {σ : Type} {step : σ → MmcOp → MmcReply × σ} (h : AllWork step)
    {start n src : ℕ} (s : σ) (hr : ¬m.lba < u32 (start + n)) :
    (Prog.run step (mmcWriteBlocks m start n src) s).val = n := by
  unfold mmcWriteBlocks
  rw [if_neg hr, Prog.run_bind_val, Prog.run_op, if_neg (not_not.2 (h _ _))]
  exact finish_works h n _

theorem loop_works {σ : Type} {step : σ → MmcOp → MmcReply × σ} (h : AllWork step) :
    ∀ {n start todo src : ℕ} (s : σ), start + todo ≤ m.lba →
      (Prog.run step (mmcBwriteLoop m n start todo src) s).val = true
  | 0, _, _, _, _, _ => rfl
  | n + 1, start, todo, src, s, hin => by
    have hlba := m.lba_lt
    have hle := Mmc.chunk_le (m := m) todo
    have hfits : ¬m.lba < u32 (start + m.chunk todo) := by
      rw [u32_of_lt (by omega)]
      omega
    rw [bwriteLoop_succ, Prog.run_bind_val, writeBlocks_works h s hfits, if_neg (not_not.2 rfl)]
    split_ifs with hmore
    · rw [u32_of_lt (by omega)]
      exact loop_works h _ (by omega)
    · rfl

theorem breadLoop_works {σ : Type} {step : σ → MmcOp → MmcReply × σ} (h : AllWork step) :
    ∀ {n start todo dst : ℕ} (s : σ), (Prog.run step (Mmc.mmcBreadLoop m n start todo dst) s).val =
      true
  | 0, _, _, _, _ => rfl
  | n + 1, start, todo, dst, s => by
    have hread : (Prog.run step (mmcReadBlocks m dst start (m.chunk todo)) s).val =
      m.chunk todo := by
      unfold mmcReadBlocks
      rw [Prog.run_bind_val, Prog.run_op, if_neg (not_not.2 (h _ _))]
      exact finish_works h _ _
    unfold Mmc.chunk at hread
    rw [Mmc.mmcBreadLoop, Prog.run_bind_val, hread, if_neg (not_not.2 rfl)]
    split_ifs
    · exact breadLoop_works h _
    · rfl
    · exact breadLoop_works h _
    · rfl

theorem acceptsRead_iff {start blkcnt : ℕ} :
    AcceptsRead m start blkcnt ↔ blkcnt = 0 ∨ u32 (start + blkcnt) ≤ m.lba := by
  unfold AcceptsRead Mmc.mmcBread
  by_cases h0 : blkcnt = 0
  · rw [if_pos h0]
    exact iff_of_true h0.symm (Or.inl h0)
  · rw [if_neg h0]
    by_cases hr : u32 (start + blkcnt) > m.lba
    · rw [if_pos hr]
      refine iff_of_false (Ne.symm h0) (not_or.2 ⟨h0, by omega⟩)
    · rw [if_neg hr, Prog.run_bind_val, Prog.run_op, if_neg (not_not.2 (allWork_working _ _)),
        Prog.run_bind_val, breadLoop_works allWork_working]
      exact iff_of_true rfl (Or.inr (by omega))

/-- What was written as ones stays so, -/
theorem ones_chunk {start n src b : ℕ} (c : (onesCard m).σ) (hb : b < m.lba)
    (hr : ¬m.lba < u32 (start + n)) (h : c b = onesBlock ∨ m.addr start ≤ b ∧ b <
      m.addr start + n) :
    (onesCard m).contents (Prog.run (onesCard m).step (mmcWriteBlocks m start n src) c).env b =
      onesBlock := by
  by_cases hin : m.addr start ≤ b ∧ b < m.addr start + n
  · rw [writeBlocks_ok (onesCard m) c hb hin hr (writeBlocks_works allWork_onesCard c hr),
      m.write_len]
    exact load_ones _
  · rw [writeBlocks_rest (onesCard m) c hb hin]
    exact h.resolve_right hin

theorem ones_loop : ∀ {n start todo src b : ℕ} (c : (onesCard m).σ), b < m.lba → c b = onesBlock →
    (onesCard m).contents (Prog.run (onesCard m).step (mmcBwriteLoop m n start todo src) c).env b =
      onesBlock
  | 0, _, _, _, _, _, _, h => h
  | n + 1, start, todo, src, b, c, hb, h => by
    rw [bwriteLoop_succ, Prog.run_bind_env]
    by_cases hr : m.lba < u32 (start + m.chunk todo)
    · rw [writeBlocks_refused _ c hr]
      split_ifs
      · exact h
      · exact ones_loop c hb h
      · exact h
    · have hones := @ones_chunk m start (m.chunk todo) src b c hb hr (Or.inl h)
      split_ifs
      · exact hones
      · exact ones_loop _ hb hones
      · exact hones

/-- so on this card a range that is not refused early succeeds, or leaves ones. -/
theorem ones_reach : ∀ {n start todo src : ℕ} (c : (onesCard m).σ), todo < n → 0 < todo →
    ¬m.RefusedEarly n start todo →
    (Prog.run (onesCard m).step (mmcBwriteLoop m n start todo src) c).val = true ∨
      ∃ b < m.lba, (onesCard m).contents
        (Prog.run (onesCard m).step (mmcBwriteLoop m n start todo src) c).env b = onesBlock
  | n + 1, start, todo, src, c, hn, hpos, h => by
    have hcpos := Mmc.chunk_pos (m := m) hpos
    rw [Mmc.RefusedEarly, not_or] at h
    obtain ⟨hr, h⟩ := h
    rw [bwriteLoop_succ, Prog.run_bind_val, Prog.run_bind_env,
      writeBlocks_works allWork_onesCard c hr, if_neg (not_not.2 rfl)]
    by_cases hno : ∀ b < m.lba, ¬(m.addr start ≤ b ∧ b < m.addr start + m.chunk todo)
    · by_cases hmore : todo - m.chunk todo > 0
      · rw [if_pos hmore]
        exact ones_reach _ (by omega) hmore fun hrest => h ⟨hno, by omega, hrest⟩
      · rw [if_neg hmore]
        exact Or.inl rfl
    · simp only [not_forall, not_not] at hno
      obtain ⟨b, hb, hin⟩ := hno
      refine Or.inr ⟨b, hb, ?_⟩
      have hones := @ones_chunk m start (m.chunk todo) src b c hb hr (Or.inr hin)
      split_ifs
      · exact ones_loop _ hb hones
      · exact hones

end Working

section Bwrite

variable {start blkcnt src : ℕ}

theorem bwrite_val {σ : Type} (step : σ → MmcOp → MmcReply × σ) (s : σ) :
    (Prog.run step (mmcBwrite m start blkcnt src) s).val =
      if (step s (.setBlocklen m.writeBlLen)).1.err = 0 ∧
        (Prog.run step (mmcBwriteLoop m (blkcnt + 1) start blkcnt src)
          (step s (.setBlocklen m.writeBlLen)).2).val = true
      then blkcnt else 0 := by
  unfold mmcBwrite
  rw [Prog.run_bind_val, Prog.run_op]
  by_cases he : (step s (.setBlocklen m.writeBlLen)).1.err = 0
  · rw [if_neg (not_not.2 he), Prog.run_bind_val]
    rcases hv : (Prog.run step (mmcBwriteLoop m (blkcnt + 1) start blkcnt src)
      (step s (.setBlocklen m.writeBlLen)).2).val with _ | _
    · simp
    · simp [he]
  · rw [if_pos he, if_neg fun h => he h.1]
    rfl

theorem bwrite_env {mem : Mem} (C : MmcCard m mem) (s : C.σ) {b : ℕ} :
    C.contents (Prog.run C.step (mmcBwrite m start blkcnt src) s).env b =
      if (C.step s (.setBlocklen m.writeBlLen)).1.err = 0 then
        C.contents (Prog.run C.step (mmcBwriteLoop m (blkcnt + 1) start blkcnt src)
          (C.step s (.setBlocklen m.writeBlLen)).2).env b
      else C.contents (C.step s (.setBlocklen m.writeBlLen)).2 b := by
  unfold mmcBwrite
  rw [Prog.run_bind_env, Prog.run_op]
  by_cases he : (C.step s (.setBlocklen m.writeBlLen)).1.err = 0
  · rw [if_neg (not_not.2 he), if_pos he, Prog.run_bind_env]
    split_ifs <;> rfl
  · rw [if_pos he, if_neg he]
    rfl

theorem acceptsWrite_iff : AcceptsWrite m start blkcnt ↔
    blkcnt = 0 ∨ (Prog.run working (mmcBwriteLoop m (blkcnt + 1) start blkcnt 0) ()).val =
      true := by
  unfold AcceptsWrite
  rw [bwrite_val]
  have hset : (working () (.setBlocklen m.writeBlLen)).1.err = 0 := rfl
  have hunit : (working () (.setBlocklen m.writeBlLen)).2 = () := rfl
  rw [hunit]
  split_ifs with h
  · exact iff_of_true rfl (Or.inr h.2)
  · constructor
    · exact fun h0 => Or.inl h0.symm
    · rintro (h0 | hv)
      · exact h0.symm
      · exact absurd ⟨hset, hv⟩ h

/-- Where the range is not on the card and a chunk gets to it, the card has changed or there was no
error. -/
theorem BwriteRight.early (h : BwriteRight m start blkcnt) (hout : m.Outside start blkcnt) :
    m.RefusedEarly (blkcnt + 1) start blkcnt := by
  by_contra hno
  obtain ⟨hval, henv⟩ := h.outside hout _ (onesCard m) (zeros m) 0
  rw [bwrite_val] at hval
  rcases @ones_reach m (blkcnt + 1) start blkcnt 0 (zeros m) (Nat.lt_succ_self _) hout.1 hno with
    hv | ⟨b, hb, hones⟩
  · exact hval (if_pos ⟨rfl, hv⟩)
  · have heq := henv b hb
    rw [bwrite_env, if_pos (allWork_onesCard _ _)] at heq
    have hne : onesBlock = List.replicate 512 0 := hones.symm.trans heq
    exact absurd (congrArg (fun l => l.head?) hne) (by decide)

/-- The block access keeps its promise for a range just where that is on the card, or is refused
before any of its chunks gets to the card, and the reads refuse it as well. -/
theorem bwrite_right_iff (m : Mmc) (start blkcnt : ℕ) :
    BwriteRight m start blkcnt ↔ ¬m.Outside start blkcnt ∨
      m.RefusedEarly (blkcnt + 1) start blkcnt ∧ m.lba < u32 (start + blkcnt) := by
  constructor
  · intro h
    by_cases hout : m.Outside start blkcnt
    · have hearly := h.early hout
      refine Or.inr ⟨hearly, ?_⟩
      by_contra hread
      have hw := acceptsWrite_iff.1 (h.bounds.1 (acceptsRead_iff.2 (Or.inr (by omega))))
      rcases hw with h0 | hv
      · exact absurd hout.1 (by omega)
      · rw [loop_refused_val working () hout.1 hearly] at hv
        exact absurd hv (by decide)
    · exact Or.inl hout
  · intro h
    have hcase : m.Outside start blkcnt →
        m.RefusedEarly (blkcnt + 1) start blkcnt ∧ m.lba < u32 (start + blkcnt) := fun hout =>
      h.resolve_left (not_not.2 hout)
    refine ⟨fun hout mem C s src => ?_, fun hin mem C s src hval b hb => ?_, ?_⟩
    · obtain ⟨hearly, -⟩ := hcase hout
      have hpos := hout.1
      refine ⟨?_, fun b hb => ?_⟩
      · rw [bwrite_val, loop_refused_val C.step _ hpos hearly, if_neg (by simp)]
        omega
      · have hset := C.rest s (.setBlocklen m.writeBlLen) nofun b hb
        rw [bwrite_env]
        split_ifs
        · rw [loop_refused_env C _ hpos hearly b hb, hset]
        · exact hset
    · have hset := C.rest s (.setBlocklen m.writeBlLen) nofun b hb
      rw [bwrite_val] at hval
      rcases Nat.eq_zero_or_pos blkcnt with rfl | hpos
      · rw [if_neg (by omega), bwrite_env]
        split_ifs with he
        · rw [loop_none C _ hb, hset]
        · exact hset
      · have hon : start + blkcnt ≤ m.lba := by
          unfold Mmc.Outside at hin
          omega
        split_ifs at hval with hok
        · rw [bwrite_env, if_pos hok.1, loop_inside C _ (Nat.lt_succ_self _) hon hok.2 b hb, hset]
        · omega
    · rw [acceptsRead_iff, acceptsWrite_iff]
      by_cases hout : m.Outside start blkcnt
      · obtain ⟨hearly, hread⟩ := hcase hout
        have hpos := hout.1
        rw [loop_refused_val working () hpos hearly]
        refine iff_of_false ?_ ?_
        · omega
        · simp only [Bool.false_eq_true, or_false]
          omega
      · rcases Nat.eq_zero_or_pos blkcnt with h0 | hpos
        · exact iff_of_true (Or.inl h0) (Or.inl h0)
        · have hlba := m.lba_lt
          have hon : start + blkcnt ≤ m.lba := by
            unfold Mmc.Outside at hout
            omega
          refine iff_of_true (Or.inr ?_) (Or.inr (loop_works allWork_working () hon))
          rwa [u32_of_lt (by omega)]

end Bwrite

/-- A card of four blocks behind a controller that takes two of them at a time. -/
def smallCard : Mmc where
  highCapacity := true
  lba := 4
  readBlLen := 512
  writeBlLen := 512
  bMax := 2
  lba_lt := by norm_num
  bMax_pos := by norm_num
  read_len := rfl
  write_len := rfl
  bytes_fit := by simp

/-- Two blocks at the end of it, and one behind. -/
theorem bwrite_right_fails : ¬∀ (m : Mmc) (start blkcnt : ℕ), BwriteRight m start blkcnt := by
  intro h
  rcases (h smallCard 2 3).early ⟨by decide, by decide⟩ with hr | ⟨hno, -⟩
  · exact absurd hr (by decide)
  · exact hno 2 (by decide) (by decide)

end Blocks

end InfotmUboot
