import InfotmUboot.Iuw
import InfotmUboot.Udc

/-!
# What a hand shake makes of the transport's answer

`iuw_shake_hand` and `iuw_sparse_data` take what a read returns for the length that came, where
`udc_read` returns what is left of the length, 0 for every transfer that ended. Both are right just
where a read that returns 0 brought what it stands for (`transport_right_iff`).
-/

namespace InfotmUboot

open Lib

section Transport

variable {σ : Type} (h : σ → Op → Reply × σ) (e : σ)

/-- A hand shake is done only with a packet that came in full and answers READY. -/
def ShakeRight (subcmd para : ℕ) (pack : Mem) : Prop :=
  let o := Prog.run h (iuwShakeHand subcmd para pack) e
  o.val.1 = 0 → ∃ r, (Op.recv IUW_CMD_LEN, r) ∈ o.log ∧ IUW_CMD_LEN ≤ r.data.length ∧
    o.val.2.load 0 IUW_CMD_LEN = r.data.take IUW_CMD_LEN ∧ iuwIsCmd o.val.2 ∧
      iuwCmdCmd o.val.2 = IUW_CMD_READY

/-- What is reported is a failure or the number of bytes that were placed. -/
def SparseRight (remain : ℤ) : Prop :=
  let o := Prog.run h (iuwSparseData remain) e
  o.val.1 < 0 ∨ o.val.1 = o.val.2.1.length

/-- The transport's answers to the packet of a hand shake and to the read behind it. -/
def shakeSend (subcmd para : ℕ) (pack : Mem) : Reply × σ :=
  h e (.send ((iuwPackCmd pack IUW_CMD_READY subcmd para).load 0 IUW_CMD_LEN))

def shakeRecv (subcmd para : ℕ) (pack : Mem) : Reply × σ :=
  h (shakeSend h e subcmd para pack).2 (.recv IUW_CMD_LEN)

/-- The packet buffer with what came in. -/
def shakeBuffer (subcmd para : ℕ) (pack : Mem) : Mem :=
  (iuwPackCmd pack IUW_CMD_READY subcmd para).store 0
    ((shakeRecv h e subcmd para pack).1.data.take IUW_CMD_LEN)

/-- The buffer holds a packet that answers READY. -/
def IsReady (m : Mem) : Prop := iuwIsCmd m ∧ iuwCmdCmd m = IUW_CMD_READY

/-- Where the read returns 0 a READY packet came in full, and where it returns the length of a
packet and there is one in the buffer, it came. -/
def ShakeFits (subcmd para : ℕ) (pack : Mem) : Prop :=
  let r := (shakeRecv h e subcmd para pack).1
  let m := shakeBuffer h e subcmd para pack
  0 ≤ (shakeSend h e subcmd para pack).1.ret →
    (r.ret = 0 → IUW_CMD_LEN ≤ r.data.length ∧ IsReady m) ∧
      (IUW_CMD_LEN ≤ r.ret → IsReady m → IUW_CMD_LEN ≤ r.data.length)

/-- What the read returns is a failure or the number of bytes that were placed. -/
def SparseFits (remain : ℤ) : Prop :=
  let n := min remain EXTRA_BUFFER_SIZE
  let r := (h e (.recv n)).1
  remain = 0 ∨ r.ret < 0 ∨ r.ret = (r.placed n).length

variable {h e} {subcmd para : ℕ} {pack : Mem}

theorem sendCmd_run : Prog.run h (iuwSendCmd IUW_CMD_READY subcmd para pack) e =
    ⟨(if (shakeSend h e subcmd para pack).1.ret < 0 then -1 else 0,
        iuwPackCmd pack IUW_CMD_READY subcmd para), (shakeSend h e subcmd para pack).2,
      [(.send ((iuwPackCmd pack IUW_CMD_READY subcmd para).load 0 IUW_CMD_LEN),
        (shakeSend h e subcmd para pack).1)]⟩ := rfl

theorem recv_run : Prog.run h (ptdevRead (iuwPackCmd pack IUW_CMD_READY subcmd para) IUW_CMD_LEN)
      (shakeSend h e subcmd para pack).2 =
    ⟨((shakeRecv h e subcmd para pack).1.ret, shakeBuffer h e subcmd para pack),
      (shakeRecv h e subcmd para pack).2,
      [(.recv IUW_CMD_LEN, (shakeRecv h e subcmd para pack).1)]⟩ := rfl

theorem shakeHand_unsent (hw : (shakeSend h e subcmd para pack).1.ret < 0) :
    (Prog.run h (iuwShakeHand subcmd para pack) e).val.1 = -1 := by
  rw [iuwShakeHand, Prog.run_bind, sendCmd_run]
  simp only [if_pos hw]
  rfl

/-- Once the packet is sent the answer decides. -/
theorem shakeHand_sent (hw : ¬(shakeSend h e subcmd para pack).1.ret < 0) :
    (Prog.run h (iuwShakeHand subcmd para pack) e).val =
        (if (shakeRecv h e subcmd para pack).1.ret < IUW_CMD_LEN then
          (shakeRecv h e subcmd para pack).1.ret
        else if iuwIsCmd (shakeBuffer h e subcmd para pack) ∧
          iuwCmdCmd (shakeBuffer h e subcmd para pack) = IUW_CMD_READY then 0 else -1,
            shakeBuffer h e subcmd para pack) ∧
      ∀ r, (Op.recv IUW_CMD_LEN, r) ∈ (Prog.run h (iuwShakeHand subcmd para pack) e).log ↔
        r = (shakeRecv h e subcmd para pack).1 := by
  have hrun : Prog.run h (iuwShakeHand subcmd para pack) e =
      ⟨(if (shakeRecv h e subcmd para pack).1.ret < IUW_CMD_LEN then
          (shakeRecv h e subcmd para pack).1.ret
        else if iuwIsCmd (shakeBuffer h e subcmd para pack) ∧
          iuwCmdCmd (shakeBuffer h e subcmd para pack) = IUW_CMD_READY then 0 else -1,
            shakeBuffer h e subcmd para pack), (shakeRecv h e subcmd para pack).2,
        [(.send ((iuwPackCmd pack IUW_CMD_READY subcmd para).load 0 IUW_CMD_LEN),
            (shakeSend h e subcmd para pack).1),
          (.recv IUW_CMD_LEN, (shakeRecv h e subcmd para pack).1)]⟩ := by
    rw [iuwShakeHand, Prog.run_bind, sendCmd_run]
    simp only [if_neg hw, lt_irrefl, if_false]
    rw [Prog.run_bind, recv_run]
    by_cases hr : (shakeRecv h e subcmd para pack).1.ret < IUW_CMD_LEN
    · simp only [if_pos hr]
      rfl
    · simp only [if_neg hr]
      rfl
  rw [hrun]
  refine ⟨rfl, fun r => ?_⟩
  simp

theorem shakeRight_iff : ShakeRight h e subcmd para pack ↔ ShakeFits h e subcmd para pack := by
  by_cases hw : (shakeSend h e subcmd para pack).1.ret < 0
  · refine iff_of_true (fun h0 => ?_) fun hw' => absurd hw' (not_le.2 hw)
    rw [shakeHand_unsent hw] at h0
    omega
  obtain ⟨hval, hlog⟩ := shakeHand_sent hw
  have hcame (hlen : IUW_CMD_LEN ≤ (shakeRecv h e subcmd para pack).1.data.length) :
      (shakeBuffer h e subcmd para pack).load 0 IUW_CMD_LEN =
        (shakeRecv h e subcmd para pack).1.data.take IUW_CMD_LEN := by
    have hstore := Mem.load_store_same (iuwPackCmd pack IUW_CMD_READY subcmd para) 0
      ((shakeRecv h e subcmd para pack).1.data.take IUW_CMD_LEN)
    rwa [List.length_take_of_le hlen] at hstore
  have hpos : (0 : ℤ) < (IUW_CMD_LEN : ℕ) := by simp [IUW_CMD_LEN]
  constructor
  · intro hright _
    have hdone (hr : (Prog.run h (iuwShakeHand subcmd para pack) e).val.1 = 0) :
        IUW_CMD_LEN ≤ (shakeRecv h e subcmd para pack).1.data.length ∧
          IsReady (shakeBuffer h e subcmd para pack) := by
      obtain ⟨r, hr, hlen, -, hcmd, hready⟩ := hright hr
      rw [hlog] at hr
      rw [hval] at hcmd hready
      exact ⟨hr ▸ hlen, hcmd, hready⟩
    rw [hval] at hdone
    refine ⟨fun h0 => hdone ?_, fun hlen hready => (hdone ?_).1⟩
    · rw [h0, if_pos hpos]
    · rw [if_neg (not_lt.2 hlen)]
      exact if_pos hready
  · intro hfits hdone
    obtain ⟨hzero, hlong⟩ := hfits (not_lt.1 hw)
    have hall : IUW_CMD_LEN ≤ (shakeRecv h e subcmd para pack).1.data.length ∧
        IsReady (shakeBuffer h e subcmd para pack) := by
      rw [hval] at hdone
      dsimp only at hdone
      split_ifs at hdone with hshort hready
      · exact hzero hdone
      · exact ⟨hlong (not_lt.1 hshort) hready, hready⟩
    rw [hval]
    exact ⟨_, (hlog _).2 rfl, hall.1, hcame hall.1, hall.2⟩

theorem sparseRight_iff {remain : ℤ} : SparseRight h e remain ↔ SparseFits h e remain := by
  unfold SparseRight SparseFits iuwSparseData
  by_cases h0 : remain = 0
  · rw [if_pos h0]
    exact iff_of_true (.inr rfl) (.inl h0)
  · rw [if_neg h0]
    exact ⟨fun h => .inr h, fun h => h.resolve_left h0⟩

end Transport

section Udc

variable {σ : Type} {ctl : σ → UdcOp → UdcReply × σ} {e : σ}

/-- A read returns 0 once all its transfers ended, and -1 if not: never a length that came. -/
theorem udcReadLoop_ret : ∀ {n : ℕ} {m : Mem} {rxAddr : ℕ} {len : ℤ} {e : σ}, len.natAbs < n →
    ∃ m', (Prog.run ctl (udcReadLoop n m rxAddr len) e).val = some (0, m') ∨
      (Prog.run ctl (udcReadLoop n m rxAddr len) e).val = some (-1, m')
  | n + 1, m, rxAddr, len, e, hn => by
    rw [udcReadLoop]
    by_cases h0 : len = 0
    · rw [if_pos h0]
      exact ⟨m, .inl rfl⟩
    rw [if_neg h0, Prog.run_bind, Prog.run_op]
    dsimp only
    have hless : (len - if len > UDC_MAX_LEN then (UDC_MAX_LEN : ℤ) else len).natAbs <
        len.natAbs := by
      unfold UDC_MAX_LEN
      split_ifs <;> omega
    generalize (if len > UDC_MAX_LEN then (UDC_MAX_LEN : ℤ) else len) = rxLen at hless ⊢
    by_cases hended : (ctl e (.rx rxAddr rxLen)).1.ended = true
    · rw [if_neg (not_not.2 hended)]
      exact udcReadLoop_ret (by omega)
    · rw [if_pos hended]
      exact ⟨_, .inr rfl⟩

theorem udcWriteLoop_ret : ∀ {n : ℕ} {buf : List UInt8} {e : σ}, buf.length < n →
    (Prog.run ctl (udcWriteLoop n buf) e).val = some 0
  | n + 1, buf, e, hn => by
    rw [udcWriteLoop]
    by_cases h0 : buf.length = 0
    · rw [if_pos h0]
      rfl
    rw [if_neg h0, Prog.run_bind, Prog.run_op]
    refine udcWriteLoop_ret ?_
    rw [List.length_drop]
    unfold UDC_MAX_LEN
    split_ifs <;> omega

/-- One piece is one transfer, and so is a negative length. -/
theorem udcRead_piece {m : Mem} {len : ℤ} (hpos : len ≠ 0) (hle : len ≤ UDC_MAX_LEN) :
    Prog.run ctl (udcRead m 0 len) e =
      ⟨some (if (ctl e (.rx 0 len)).1.ended then 0 else -1,
          m.store 0 ((ctl e (.rx 0 len)).1.placed len)), (ctl e (.rx 0 len)).2,
        [(.rx 0 len, (ctl e (.rx 0 len)).1)]⟩ := by
  obtain ⟨n, hn⟩ := Nat.exists_eq_succ_of_ne_zero (Int.natAbs_ne_zero.2 hpos)
  rw [udcRead, hn, udcReadLoop, if_neg hpos, if_neg (not_lt.2 hle), Prog.run_bind, Prog.run_op]
  dsimp only
  by_cases hended : (ctl e (.rx 0 len)).1.ended = true
  · rw [if_neg (not_not.2 hended), if_pos hended, sub_self, udcReadLoop, if_pos rfl]
    rfl
  · rw [if_pos hended, if_neg hended]
    rfl

theorem udcStep_recv {len : ℤ} (hpos : len ≠ 0) (hle : len ≤ UDC_MAX_LEN) :
    (udcStep ctl e (.recv len)).1 = ⟨if (ctl e (.rx 0 len)).1.ended then 0 else -1,
      (ctl e (.rx 0 len)).1.placed len⟩ := by
  unfold udcStep
  dsimp only
  rw [udcRead_piece hpos hle]
  simp [udcPlaced]

variable (ctl e)

/-- The controller once the packet of a hand shake is written. -/
def udcShakeEnv (subcmd para : ℕ) (pack : Mem) : σ :=
  (Prog.run ctl (udcWrite ((iuwPackCmd pack IUW_CMD_READY subcmd para).load 0 IUW_CMD_LEN)) e).env

/-- The transfer of the answer did not end, or it brought a READY packet in full. -/
def UdcShakeFits (subcmd para : ℕ) (pack : Mem) : Prop :=
  let r := (ctl (udcShakeEnv ctl e subcmd para pack) (.rx 0 IUW_CMD_LEN)).1
  r.ended → IUW_CMD_LEN ≤ r.data.length ∧
    IsReady ((iuwPackCmd pack IUW_CMD_READY subcmd para).store 0 (r.data.take IUW_CMD_LEN))

/-- There is nothing to read, or its transfer did not end, or it brought nothing. -/
def UdcSparseFits (remain : ℤ) : Prop :=
  let n := min remain EXTRA_BUFFER_SIZE
  remain = 0 ∨ (ctl e (.rx 0 n)).1.ended = false ∨ (ctl e (.rx 0 n)).1.data = []

variable {ctl e} {subcmd para : ℕ} {pack : Mem}

theorem UdcReply.placed_natCast (r : UdcReply) (n : ℕ) : r.placed n = r.data.take n :=
  if_neg (Int.natCast_nonneg n).not_gt

theorem udc_shakeRecv : (shakeRecv (udcStep ctl) e subcmd para pack).1 =
    ⟨if (ctl (udcShakeEnv ctl e subcmd para pack) (.rx 0 IUW_CMD_LEN)).1.ended then 0 else -1,
      (ctl (udcShakeEnv ctl e subcmd para pack) (.rx 0 IUW_CMD_LEN)).1.data.take
        IUW_CMD_LEN⟩ := by
  rw [← UdcReply.placed_natCast]
  exact udcStep_recv (by decide) (by decide)

theorem udc_shakeSend : (shakeSend (udcStep ctl) e subcmd para pack).1.ret = 0 := by
  unfold shakeSend udcStep
  dsimp only
  rw [udcWrite, udcWriteLoop_ret (Nat.lt_succ_self _)]
  rfl

theorem udc_shakeFits : ShakeFits (udcStep ctl) e subcmd para pack ↔
    UdcShakeFits ctl e subcmd para pack := by
  unfold ShakeFits UdcShakeFits shakeBuffer
  rw [udc_shakeRecv, udc_shakeSend]
  generalize (ctl (udcShakeEnv ctl e subcmd para pack) (.rx 0 IUW_CMD_LEN)).1 = r
  obtain ⟨data, ended⟩ := r
  dsimp only
  have hlen : IUW_CMD_LEN ≤ (data.take IUW_CMD_LEN).length ↔ IUW_CMD_LEN ≤ data.length := by
    rw [List.length_take]
    omega
  rw [List.take_take, Nat.min_self, hlen]
  have hshort : ¬((IUW_CMD_LEN : ℕ) : ℤ) ≤ if ended then 0 else -1 := by
    unfold IUW_CMD_LEN
    split_ifs <;> simp
  cases ended
  · exact iff_of_true (fun _ => ⟨fun h => absurd h (by simp), fun h => absurd h hshort⟩) (by simp)
  · exact ⟨fun h _ => (h le_rfl).1 rfl, fun h _ => ⟨fun _ => h rfl, fun h => absurd h hshort⟩⟩

theorem udc_sparseFits {remain : ℤ} : SparseFits (udcStep ctl) e remain ↔
    UdcSparseFits ctl e remain := by
  unfold SparseFits UdcSparseFits
  dsimp only
  by_cases h0 : remain = 0
  · exact iff_of_true (.inl h0) (.inl h0)
  have hn : min remain EXTRA_BUFFER_SIZE ≠ 0 := by
    unfold EXTRA_BUFFER_SIZE
    omega
  have hle : min remain EXTRA_BUFFER_SIZE ≤ UDC_MAX_LEN := by
    unfold EXTRA_BUFFER_SIZE UDC_MAX_LEN
    omega
  generalize min remain (EXTRA_BUFFER_SIZE : ℤ) = n at hn hle
  rw [udcStep_recv hn hle]
  generalize (ctl e (.rx 0 n)).1 = r
  have hdata : (0 : ℤ) = ((⟨if r.ended then 0 else -1, r.placed n⟩ : Reply).placed n).length ↔
      r.data = [] := by
    rw [eq_comm, Int.natCast_eq_zero, List.length_eq_zero_iff, Reply.placed, UdcReply.placed]
    dsimp only
    by_cases hneg : n < 0
    · rw [if_pos hneg, if_pos hneg]
    · rw [if_neg hneg, if_neg hneg, List.take_take, Nat.min_self, List.take_eq_nil_iff]
      exact or_iff_right (by omega)
  cases hended : r.ended
  · exact iff_of_true (.inr (.inl (by simp))) (.inr (.inl rfl))
  · rw [hended] at hdata
    simp only [if_true] at hdata ⊢
    rw [hdata]
    simp [h0]

end Udc

/-- Where hand shakes and the source of an extra image are right: for any transport, and for the USB
device. -/
theorem transport_right_iff (subcmd para : ℕ) (pack : Mem) (remain : ℤ) {σ : Type} (e : σ) :
    (∀ h : σ → Op → Reply × σ,
      (ShakeRight h e subcmd para pack ↔ ShakeFits h e subcmd para pack) ∧
        (SparseRight h e remain ↔ SparseFits h e remain)) ∧
    ∀ ctl : σ → UdcOp → UdcReply × σ,
      (ShakeRight (udcStep ctl) e subcmd para pack ↔ UdcShakeFits ctl e subcmd para pack) ∧
        (SparseRight (udcStep ctl) e remain ↔ UdcSparseFits ctl e remain) :=
  ⟨fun _ => ⟨shakeRight_iff, sparseRight_iff⟩,
    fun _ => ⟨shakeRight_iff.trans udc_shakeFits, sparseRight_iff.trans udc_sparseFits⟩⟩

/-- A controller on which a transfer ends with a byte of 0. -/
def zeroCtl (u : Unit) (_ : UdcOp) : UdcReply × Unit := (⟨[0], true⟩, u)

theorem udc_zero_wrong : ¬ShakeRight (udcStep zeroCtl) () 0 0 (fun _ => 0) ∧
    ¬SparseRight (udcStep zeroCtl) () 32 := by
  constructor
  · rw [shakeRight_iff, udc_shakeFits]
    exact fun h => absurd (h rfl).1 (by decide)
  · rw [sparseRight_iff, udc_sparseFits]
    simp [UdcSparseFits, zeroCtl]

end InfotmUboot
