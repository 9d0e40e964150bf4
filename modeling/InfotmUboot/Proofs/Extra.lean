import InfotmUboot.Proofs.Server

/-!
# The fields of an extra command

`iuw_extra` looks at the command for the partition, shakes hands over the same buffer, and only then
takes the length and the size of the partition from it: they are those of the answer
(`extra_fields`).
-/

namespace InfotmUboot

open Lib

variable (B : Board) {σ : Type} (h : σ → Op → Reply × σ) (fuel : ℕ)

section Start

/-- What `iuw_extra` hands to the burn: the sizes, with the length that is kept in `iuw_remain`. -/
inductive ExtraBurn where
  | yaffs (offs : ℕ) (partSize remain : ℤ)
  | sparse (offs : ℕ) (size remain : ℤ)
  deriving DecidableEq, Repr

/-- How `iuw_extra` gets to the burn, if it does. -/
inductive ExtraStart where
  | failed (ret : ℤ)
  | burn (b : ExtraBurn)
  deriving DecidableEq, Repr

variable (pack : Mem) (cur : Option Dev)

/-- The look for the partition. -/
def extraLookup : Strat (Option ℤ × ℤ × Option Dev) := do
  let r ← Prog.op (.malloc EXTRA_BUFFER_SIZE)
  if r.ret = 0 then return (some (-1), 0, cur)
  let part := iuw2part (iuwCmdCmd pack)
  let (offs, cur) ← storageOffset B part cur
  if offs = 0 ∨ storageSize B part = 0 then return (some (-2), offs, cur)
  return (none, offs, cur)

/-- The burn an answer in the packet buffer asks for. -/
def extraBurnOf (offs : ℤ) (reply : Mem) : ExtraBurn :=
  if B.storageDevice = DEV_NAND then .yaffs (toU64 offs) (s32 (iuwCmdMax reply)) (iuwCmdLen reply)
  else .sparse (toU64 offs) (iuwCmdLen reply) (iuwCmdLen reply)

/-- The part of `iuw_extra` before the burn. -/
def extraPrelude : Strat (ExtraStart × Mem × Option Dev) := do
  let (failed, offs, cur) ← extraLookup B pack cur
  match failed with
  | some ret => return (.failed ret, pack, cur)
  | none => do
    let (ret, pack) ← iuwShakeHand IUW_SUB_STEP EXTRA_BUFFER_SIZE pack
    if ret ≠ 0 then return (.failed (-2), pack, cur)
    return (.burn (extraBurnOf B offs pack), pack, cur)

/-- The burn, and the last hand shake. -/
def extraRest (s : ExtraStart × Mem × Option Dev) : Strat (Option (ℤ × Mem × Option Dev)) :=
  match s.1 with
  | .failed ret => pure (some (ret, s.2.1, s.2.2))
  | .burn (.yaffs offs partSize remain) => do
    let some ret ← yaffsBurn B iuwGetPage fuel offs partSize remain | return none
    let (ret, pack) ← if ret = 0 then iuwShakeHand 0 0 s.2.1 else pure (ret, s.2.1)
    return some (ret, pack, some .fnd)
  | .burn (.sparse offs size remain) => do
    let some (ret, cur) ← sparseBurn B iuwSparseData fuel B.storageDevice offs size
      EXTRA_BUFFER_SIZE remain s.2.2 | return none
    let (ret, pack) ← if ret = 0 then iuwShakeHand 0 0 s.2.1 else pure (ret, s.2.1)
    return some (ret, pack, cur)

/-- `iuw_extra` is the two parts one after the other. -/
theorem iuwExtra_eq :
    iuwExtra B fuel pack cur = extraPrelude B pack cur >>= extraRest B fuel := by
  unfold iuwExtra extraPrelude extraLookup
  simp only [bind_assoc]
  congr 1
  funext r
  by_cases hr : r.ret = 0
  · simp [hr, extraRest]
  · simp only [hr, if_false, bind_assoc]
    congr 1
    funext q
    by_cases ho : q.1 = 0 ∨ storageSize B (iuw2part (iuwCmdCmd pack)) = 0
    · simp [ho, extraRest]
    · simp only [ho, if_false, pure_bind, bind_assoc]
      congr 1
      funext t
      by_cases ht : t.1 = 0
      · simp only [ht, ne_eq, not_true_eq_false, if_false]
        rw [pure_bind, extraBurnOf]
        by_cases hd : B.storageDevice = DEV_NAND
        · rw [if_pos hd, if_pos hd]
          rfl
        · rw [if_neg hd, if_neg hd]
          rfl
      · simp [ht, extraRest]

end Start

section Fields

/-- The length taken from the wire and the size of the partition are those of the command; a sparse
image is given its length alone. -/
def HonoursCommand (pack : Mem) : ExtraStart → Prop
  | .failed _ => True
  | .burn (.yaffs _ partSize remain) => partSize = s32 (iuwCmdMax pack) ∧ remain = iuwCmdLen pack
  | .burn (.sparse _ size remain) => size = iuwCmdLen pack ∧ remain = iuwCmdLen pack

theorem s32_inj {m n : ℕ} (hm : m < 2 ^ 32) (hn : n < 2 ^ 32) (hs : s32 m = s32 n) : m = n := by
  unfold s32 at hs
  rw [Int.bmod_def, Int.bmod_def] at hs
  split_ifs at hs <;> omega

theorem iuwCmdMax_lt (m : Mem) : iuwCmdMax m < 2 ^ 32 := by
  have hbyte (a : ℕ) : (m a).toNat < 2 ^ 8 := (m a).toNat_lt
  have h0 := hbyte 8
  have h1 := hbyte 9
  have h2 := hbyte 10
  have h3 := hbyte 11
  refine lt_of_le_of_lt (andNot_le _ _) ?_
  simp only [Mem.get32, Mem.get16, Nat.reduceAdd]
  omega

theorem extraBurnOf_honours (pack reply : Mem) (offs : ℤ) :
    HonoursCommand pack (.burn (extraBurnOf B offs reply)) ↔
      (B.storageDevice = DEV_NAND → iuwCmdMax reply = iuwCmdMax pack) ∧
        iuwCmdLen reply = iuwCmdLen pack := by
  unfold extraBurnOf
  by_cases hd : B.storageDevice = DEV_NAND
  · rw [if_pos hd]
    refine and_congr ⟨fun hs _ => ?_, fun hs => congrArg _ (congrArg _ (hs hd))⟩ Iff.rfl
    exact s32_inj (iuwCmdMax_lt _) (iuwCmdMax_lt _) hs
  · rw [if_neg hd]
    exact ⟨fun hs => ⟨fun hd' => absurd hd' hd, hs.2⟩, fun hs => ⟨hs.2, hs.2⟩⟩

/-- A NAND system with a partition for each command. -/
def extraBoard : Board :=
  { bareBoard with nandPartOffset := fun _ => 0x7000000, partSize := fun _ => 0x9800000 }

/-- A PC before an allocator that has memory. -/
def hostStep (ps : List (List UInt8)) : Op → Reply × List (List UInt8)
  | .malloc _ => (⟨1, []⟩, ps)
  | o => pcStep ps o

/-- The command for a system image of two pages, with a size of 0x10000. -/
def systemCommand : Mem :=
  Mem.store (fun _ => 0) 0 (bytes32 (IUW_CMD_SYSM ||| IUW_CMD_MAGIC <<< 24) ++ bytes32 0 ++
    bytes32 0x10000 ++ bytes32 4128)

end Fields

end InfotmUboot
