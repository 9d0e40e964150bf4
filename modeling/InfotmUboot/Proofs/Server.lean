import InfotmUboot.Iuw

/-!
# Sessions of the IUW server

A packet is dispatched whatever `iuw_is_cmd` says of it, so what keeps a bad packet harmless is the
dispatch alone (`serverRound_inert`). The secure-burn flag falls only in a round whose card passed
`ius_check_header` (`serverRound_sec`), and while it stands no round reaches the handlers of the
secure commands.
-/

namespace InfotmUboot

open Lib

variable (B : Board) {σ : Type} (h : σ → Op → Reply × σ) (fuel : ℕ)

section Pc

/-- A board without NAND. -/
def bareBoard : Board where
  nand :=
    { normal := none
      boot := none
      bndSizeShift := 0
      bndPageShift := 0
      nndPageShift := 0
      nndBlockShift := 0
      normal_page := by simp
      normal_block := by simp
      normal_chip := by simp
      normal_cycle := by simp
      boot_page := by simp
      boot_block := by simp
      size_shift := by simp }
  mmcBlksz _ := 512
  mmcCapacity _ := 0
  storageDevice := DEV_NAND
  nandPartOffset _ := 0
  partSize _ := 0

/-- A PC that sends these transfers one after the other, before a driver that returns 0 for a
transfer that succeeded and a crypto engine that is switched off. -/
def pcStep : List (List UInt8) → Op → Reply × List (List UInt8)
  | ps, .recv _ => (⟨0, ps.headD []⟩, ps.tail)
  | ps, .aesData data => (⟨0, data⟩, ps)
  | ps, _ => (⟨0, []⟩, ps)

def serverStart (secure : Bool) : ServerState where
  pack := fun _ => 0
  cur := some .udc
  retry := 0
  sec := ⟨secure, []⟩

end Pc

section Identity

/-- In a round with this log a card came in that passed `ius_check_header` in the state `sec`: the
check of the buffer the card was read into returned 0. -/
def CardPassed (sec : SecureBurn) (log : List (Op × Reply)) : Prop :=
  ∃ (pack : Mem) (r : Reply) (e : σ), (Op.recv IUS_HDR_SIZE, r) ∈ log ∧
    (Prog.run h (iusCheckHeader sec (pack.store 0 (r.data.take IUS_HDR_SIZE))) e).val.1 = 0

theorem ptdevRead_run (pack : Mem) (len : ℕ) (e : σ) :
    Prog.run h (ptdevRead pack len) e =
      ⟨((h e (.recv len)).1.ret, pack.store 0 ((h e (.recv len)).1.data.take len)),
        (h e (.recv len)).2, [(.recv len, (h e (.recv len)).1)]⟩ := rfl

/-- The secure-burn state falls, and the header counts as passed, only if the check of the card
that was read returned 0. -/
theorem iuwCheckIdentity_spec (pack : Mem) (sec : SecureBurn) (e : σ) :
    let out := Prog.run h (iuwCheckIdentity pack sec) e
    (out.val.2.1 = false ∧ out.val.2.2.2 = sec) ∨
      (out.val.2.1 = true ∧ CardPassed h sec out.log) := by
  simp only [iuwCheckIdentity, Prog.run_bind]
  set o1 := Prog.run h (iuwShakeHand IUW_SUB_STEP IUS_HDR_SIZE pack) e with ho1
  by_cases h1 : o1.val.1 = 0
  · simp only [h1, ne_eq, not_true_eq_false, if_false, Prog.run_bind, ptdevRead_run]
    set r := (h o1.env (.recv IUS_HDR_SIZE)).1 with hr
    set o2 := Prog.run h (iusCheckHeader sec (o1.val.2.store 0 (r.data.take IUS_HDR_SIZE)))
      (h o1.env (.recv IUS_HDR_SIZE)).2 with ho2
    by_cases h2 : o2.val.1 = 0
    · right
      simp only [h2, not_true_eq_false, if_false, Prog.run_bind, Prog.run_pure]
      refine ⟨trivial, o1.val.2, r, _, ?_, h2⟩
      simp
    · left
      simp only [h2, not_false_eq_true, if_true, Prog.run_bind, Prog.run_pure]
      exact ⟨trivial, trivial⟩
  · left
    simp only [h1, ne_eq, not_false_eq_true, if_true, Prog.run_pure]
    exact ⟨trivial, trivial⟩

end Identity

section Round

theorem serverDispatch_kind (s : ServerState) (e : σ) :
    (Prog.run h (serverDispatch B fuel s) e).val.packet = some s.pack ∧
      (Prog.run h (serverDispatch B fuel s) e).val.kind =
        some (dispatch s.sec.enabled (iuwCmdCmd s.pack)) := by
  unfold serverDispatch
  generalize dispatch s.sec.enabled (iuwCmdCmd s.pack) = kind
  cases kind with
  | unexpected => simp
  | identify => simp
  | finish => simp
  | denied => simp
  | rw => simp
  | unsupported => simp
  | extra =>
    simp only [Prog.run_bind_val]
    rcases (Prog.run h (iuwExtra B fuel s.pack s.cur) e).val with _ | ⟨ret, pack, cur⟩
    · exact ⟨rfl, rfl⟩
    · by_cases hr : ret = 0 <;> simp [hr]

/-- The secure-burn state a round hands on: it is the old one, unless a card passed. -/
theorem serverDispatch_sec (s : ServerState) (e : σ) {s' : ServerState}
    (hs : (Prog.run h (serverDispatch B fuel s) e).val.ending = .next s') :
    s'.sec = s.sec ∨
      ((Prog.run h (serverDispatch B fuel s) e).val.passed = true ∧
        CardPassed h s.sec (Prog.run h (serverDispatch B fuel s) e).log) := by
  unfold serverDispatch at hs ⊢
  generalize dispatch s.sec.enabled (iuwCmdCmd s.pack) = kind at hs ⊢
  cases kind with
  | unexpected =>
    simp only [Prog.run_bind_val, Prog.run_pure, RoundEnd.next.injEq] at hs
    exact Or.inl (by rw [← hs])
  | identify =>
    have hi := iuwCheckIdentity_spec h s.pack s.sec e
    simp only [Prog.run_bind_val, Prog.run_pure, RoundEnd.next.injEq] at hs
    simp only [Prog.run_bind, Prog.run_pure, List.append_nil]
    rcases hi with ⟨_, hsec⟩ | ⟨hp, hc⟩
    · exact Or.inl (by rw [← hs, hsec])
    · exact Or.inr ⟨hp, hc⟩
  | finish => simp at hs
  | denied =>
    simp only [Prog.run_bind_val, Prog.run_pure, RoundEnd.next.injEq] at hs
    exact Or.inl (by rw [← hs])
  | rw =>
    simp only [Prog.run_bind_val, Prog.run_pure, RoundEnd.next.injEq] at hs
    exact Or.inl (by rw [← hs])
  | unsupported =>
    simp only [Prog.run_bind_val, Prog.run_pure, RoundEnd.next.injEq] at hs
    exact Or.inl (by rw [← hs])
  | extra =>
    left
    simp only [Prog.run_bind_val] at hs
    rcases hx : (Prog.run h (iuwExtra B fuel s.pack s.cur) e).val with _ | ⟨ret, pack, cur⟩
    · simp [hx] at hs
    · by_cases hr : ret = 0
      · simp only [hx, hr, if_true, Prog.run_pure, RoundEnd.next.injEq] at hs
        rw [← hs]
      · simp only [hx, hr, if_false, Prog.run_bind_val, Prog.run_pure, RoundEnd.next.injEq] at hs
        rw [← hs]

/-- A round either has no packet to look at, or dispatches the packet it read. -/
theorem serverRound_run (s : ServerState) (e : σ) :
    let r := (h e (.recv IUW_CMD_LEN)).1
    let s' := { s with pack := s.pack.store 0 (r.data.take IUW_CMD_LEN) }
    let out := Prog.run h (serverRound B fuel s) e
    (r.ret < 0 ∧ out.val.packet = none ∧ out.val.kind = none ∧
        (out.val.ending = .next { s' with retry := s.retry + 1 } ∨
          out.val.ending = .finished (iuwCmdPara s'.pack 0))) ∨
      (0 ≤ r.ret ∧
        out = let d := Prog.run h (serverDispatch B fuel s') (h e (.recv IUW_CMD_LEN)).2
          ⟨d.val, d.env, (.recv IUW_CMD_LEN, r) :: d.log⟩) := by
  simp only [serverRound, Prog.run_bind, ptdevRead_run]
  by_cases hr : (h e (.recv IUW_CMD_LEN)).1.ret < 0
  · left
    by_cases ht : s.retry < IUW_RETRY
    · simp [hr, ht]
    · simp [hr, ht]
  · right
    exact ⟨by omega, by simp [hr]⟩

end Round

section Gate

theorem dispatch_secure {cmd : ℕ} :
    dispatch true cmd ≠ .rw ∧ dispatch true cmd ≠ .extra := by
  unfold dispatch
  split_ifs with h1 h2 h3 h4
  · simp
  · simp
  · simp
  · simp
  all_goals exact absurd rfl h4

theorem serverRound_kind (s : ServerState) (e : σ) (hs : s.sec.enabled = true) :
    (Prog.run h (serverRound B fuel s) e).val.kind ≠ some .rw ∧
      (Prog.run h (serverRound B fuel s) e).val.kind ≠ some .extra := by
  rcases serverRound_run B h fuel s e with ⟨_, _, hk, _⟩ | ⟨_, ho⟩
  · simp [hk]
  · rw [ho]
    simp only [(serverDispatch_kind B h fuel _ _).2, hs, ne_eq, Option.some.injEq]
    exact dispatch_secure

theorem serverRound_sec (s : ServerState) (e : σ) {s' : ServerState}
    (hs : (Prog.run h (serverRound B fuel s) e).val.ending = .next s') :
    s'.sec = s.sec ∨
      ((Prog.run h (serverRound B fuel s) e).val.passed = true ∧
        CardPassed h s.sec (Prog.run h (serverRound B fuel s) e).log) := by
  rcases serverRound_run B h fuel s e with ⟨_, _, _, he | he⟩ | ⟨_, ho⟩
  · rw [hs, RoundEnd.next.injEq] at he
    exact Or.inl (by rw [he])
  · rw [hs] at he
    exact absurd he (by simp)
  · rw [ho] at hs ⊢
    rcases serverDispatch_sec B h fuel _ _ hs with hk | ⟨hp, pack, r, e', hm, hc⟩
    · exact Or.inl hk
    · exact Or.inr ⟨hp, pack, r, e', List.mem_cons_of_mem _ hm, hc⟩

/-- While a session has its secure-burn state from the start, a secure command runs only after a
round in which a card passed under that state. -/
theorem session_gate :
    ∀ (n : ℕ) (s : ServerState) (e : σ), s.sec.enabled = true →
      ∀ (i : ℕ) (p : SessionRound σ), (session B h fuel n s e)[i]? = some p →
        (p.2.val.kind = some .rw ∨ p.2.val.kind = some .extra) →
          ∃ j < i, ∃ q : SessionRound σ, (session B h fuel n s e)[j]? = some q ∧
            q.2.val.passed = true ∧ CardPassed h s.sec q.2.log
  | 0, s, e, _, i, p, hp, _ => by simp [session] at hp
  | n + 1, s, e, hsec, 0, p, hp, hk => by
    have hn := serverRound_kind B h fuel s e hsec
    simp only [session, List.getElem?_cons_zero, Option.some.injEq] at hp
    rw [← hp] at hk
    rcases hk with hk | hk
    · exact absurd hk hn.1
    · exact absurd hk hn.2
  | n + 1, s, e, hsec, i + 1, p, hp, hk => by
    simp only [session, List.getElem?_cons_succ] at hp ⊢
    rcases he : (Prog.run h (serverRound B fuel s) e).val.ending with s' | ret | _
    · rw [he] at hp
      rcases serverRound_sec B h fuel s e he with hs' | hc
      · have hsec' : s'.sec.enabled = true := by rw [hs', hsec]
        obtain ⟨j, hj, q, hq, hpass, hcard⟩ := session_gate n s' _ hsec' i p hp hk
        refine ⟨j + 1, by omega, q, ?_, hpass, ?_⟩
        · rw [List.getElem?_cons_succ]
          exact hq
        · rw [← hs']
          exact hcard
      · exact ⟨0, by omega, _, rfl, hc⟩
    · rw [he] at hp
      simp at hp
    · rw [he] at hp
      simp at hp

/-- The fields before the checksum of an IUS header marked as encrypted. -/
def cardHead : List UInt8 := [0x2b, 0x69, 0x75, 0x73, 2, 0, 0, 0] ++ List.replicate 16 0

/-- The header with this checksum field. -/
def card (hcrc : ℕ) : List UInt8 := cardHead ++ bytes32 hcrc ++ List.replicate 484 0

theorem length_card (hcrc : ℕ) : (card hcrc).length = IUS_HDR_SIZE := by
  simp only [card, List.length_append, List.length_replicate]
  rfl

/-- The checksum of the header when the crypto engine is switched off. -/
theorem hashCrc_card : hashCrc (card 0) = 0x0e9b4eb7 := by
  decide +kernel

/-- The header passes the check in the secure-burn state, and takes nothing from the PC. -/
def Passes (hdr : List UInt8) : Prop :=
  ∀ (m : Mem) (ps : List (List UInt8)),
    (Prog.run pcStep (iusCheckHeader ⟨true, []⟩ (m.store 0 hdr)) ps).val.1 = 0 ∧
      (Prog.run pcStep (iusCheckHeader ⟨true, []⟩ (m.store 0 hdr)) ps).env = ps

theorem card_passes : Passes ((card 0x0e9b4eb7).take IUS_HDR_SIZE) := by
  rw [List.take_of_length_le (by rw [length_card])]
  intro m ps
  set hdr := m.store 0 (card 0x0e9b4eb7) with hhdr
  have hbyte (i : ℕ) (hi : i < 28) : hdr i = (card 0x0e9b4eb7).getD i 0 := by
    have hl : (card 0x0e9b4eb7).length = 512 := length_card _
    rw [hhdr, Mem.store, if_pos ⟨Nat.zero_le i, by omega⟩, Nat.sub_zero]
  have hword (a : ℕ) (ha : a + 3 < 28) : hdr.get32 a =
      ((card 0x0e9b4eb7).getD a 0).toNat + 2 ^ 8 * ((card 0x0e9b4eb7).getD (a + 1) 0).toNat +
        2 ^ 16 * (((card 0x0e9b4eb7).getD (a + 2) 0).toNat +
          2 ^ 8 * ((card 0x0e9b4eb7).getD (a + 3) 0).toNat) := by
    simp only [Mem.get32, Mem.get16, Nat.add_assoc, Nat.reduceAdd]
    rw [hbyte a (by omega), hbyte (a + 1) (by omega), hbyte (a + 2) (by omega),
      hbyte (a + 3) (by omega)]
  have hmagic : hdr.get32 0 = IUS_MAGIC := by
    rw [hword 0 (by decide)]
    decide
  have hflag : ¬hdr.get32 4 &&& IUS_FLAG_ENCRYPT = 0 := by
    rw [hword 4 (by decide)]
    decide
  have hcrc : hashCrc ((hdr.store 24 (bytes32 0)).load 0 IUS_HDR_SIZE) = hdr.get32 24 := by
    have hp : hdr.store 24 (bytes32 0) = m.store 0 (card 0) := Mem.store_patch m 0 cardHead _ rfl
    rw [hp, ← length_card 0, Mem.load_store_same, hashCrc_card, hword 24 (by decide)]
    decide
  have haes : hdr.store 16 ((hdr.load 16 (IUS_HDR_SIZE - 16)).take (IUS_HDR_SIZE - 16)) = hdr := by
    rw [List.take_of_length_le (by rw [Mem.length_load]), Mem.store_load_same]
  simp [iusCheckHeader, hmagic, hflag, ssAesData, pcStep, haes, hcrc, Prog.run_bind]

theorem pc_shakeHand (subcmd para : ℕ) (pack : Mem) (ps : List (List UInt8)) :
    (Prog.run pcStep (iuwShakeHand subcmd para pack) ps).val.1 = 0 ∧
      (Prog.run pcStep (iuwShakeHand subcmd para pack) ps).env = ps.tail := by
  simp [iuwShakeHand, iuwSendCmd, ptdevWrite, ptdevRead, pcStep, IUW_CMD_LEN]

theorem pc_checkIdentity {hdr : List UInt8} (hp : Passes (hdr.take IUS_HDR_SIZE)) (pack : Mem)
    (ps : List (List UInt8)) :
    (Prog.run pcStep (iuwCheckIdentity pack ⟨true, []⟩) ([] :: hdr :: [] :: ps)).val.2.2.2 =
        ⟨false, []⟩ ∧
      (Prog.run pcStep (iuwCheckIdentity pack ⟨true, []⟩) ([] :: hdr :: [] :: ps)).env = ps := by
  simp only [iuwCheckIdentity, Prog.run_bind, (pc_shakeHand _ _ _ _).1, (pc_shakeHand _ _ _ _).2,
    ptdevRead_run, pcStep, List.headD_cons, List.tail_cons, (hp _ _).1, (hp _ _).2, ne_eq,
    not_true_eq_false, if_false, Prog.run_pure]
  exact ⟨trivial, trivial⟩

/-- The packets of a PC that identifies itself with a header and goes on with `ps`. -/
def identifyPackets (hdr : List UInt8) (ps : List (List UInt8)) : List (List UInt8) :=
  bytes32 IUW_CMD_IDENTIFY :: [] :: hdr :: [] :: ps

/-- The round of a header that passes: the secure-burn state falls. -/
theorem identify_round {hdr : List UInt8} (hp : Passes (hdr.take IUS_HDR_SIZE))
    (ps : List (List UInt8)) :
    ∃ s', (Prog.run pcStep (serverRound bareBoard 0 (serverStart true))
        (identifyPackets hdr ps)).val.ending = .next s' ∧ s'.sec.enabled = false ∧
      (Prog.run pcStep (serverRound bareBoard 0 (serverStart true))
        (identifyPackets hdr ps)).env = ps := by
  have hk : dispatch true (iuwCmdCmd (Mem.store (fun _ => 0) 0
      ((bytes32 IUW_CMD_IDENTIFY).take IUW_CMD_LEN))) = .identify := by decide
  rcases serverRound_run bareBoard pcStep 0 (serverStart true) (identifyPackets hdr ps) with
    ⟨hr, _⟩ | ⟨_, ho⟩
  · exact absurd hr (by simp [pcStep])
  · have hid := pc_checkIdentity hp (Mem.store (fun _ => 0) 0
      ((bytes32 IUW_CMD_IDENTIFY).take IUW_CMD_LEN)) ps
    rw [ho]
    simp only [serverDispatch, identifyPackets, pcStep, serverStart, List.headD_cons,
      List.tail_cons, hk, Prog.run_bind, Prog.run_pure]
    generalize Prog.run pcStep (iuwCheckIdentity _ _) _ = out at hid ⊢
    exact ⟨_, rfl, congrArg SecureBurn.enabled hid.1, hid.2⟩

/-- The command of a packet that begins with a small number. -/
theorem iuwCmdCmd_store (m : Mem) {cmd : ℕ} (h : cmd < 2 ^ 24) :
    iuwCmdCmd (m.store 0 ((bytes32 cmd).take IUW_CMD_LEN)) = cmd := by
  rw [List.take_of_length_le (by rw [length_bytes32]; decide), iuwCmdCmd,
    Mem.get32_store, show 0xffffff = 2 ^ 24 - 1 from rfl, Nat.and_two_pow_sub_one_eq_mod]
  omega

/-- After the header a packet of a secure command is handled. -/
theorem identified_round {hdr : List UInt8} (hp : Passes (hdr.take IUS_HDR_SIZE)) :
    ∃ p : SessionRound (List (List UInt8)),
      (session bareBoard pcStep 0 2 (serverStart true)
        (identifyPackets hdr [bytes32 IUW_CMD_MMRD]))[1]? = some p ∧ p.2.val.kind = some .rw := by
  obtain ⟨s', hend, hsec, henv⟩ := identify_round hp [bytes32 IUW_CMD_MMRD]
  refine ⟨(s', Prog.run pcStep (serverRound bareBoard 0 s') [bytes32 IUW_CMD_MMRD]), ?_, ?_⟩
  · simp only [session, hend, henv, List.getElem?_cons_succ, List.getElem?_cons_zero]
  · rcases serverRound_run bareBoard pcStep 0 s' [bytes32 IUW_CMD_MMRD] with ⟨hr, _⟩ | ⟨_, ho⟩
    · exact absurd hr (by simp [pcStep])
    · rw [ho]
      simp only [(serverDispatch_kind _ _ _ _ _).2, hsec, pcStep, List.headD_cons]
      rw [iuwCmdCmd_store _ (by decide)]
      decide

theorem session_gate_card :
    ∃ p : SessionRound (List (List UInt8)), p.2.val.kind = some .rw ∧
      (session bareBoard pcStep 0 2 (serverStart true)
        (identifyPackets (card 0x0e9b4eb7) [bytes32 IUW_CMD_MMRD]))[1]? = some p ∧
      ∃ j < 1, ∃ q : SessionRound (List (List UInt8)),
        (session bareBoard pcStep 0 2 (serverStart true)
          (identifyPackets (card 0x0e9b4eb7) [bytes32 IUW_CMD_MMRD]))[j]? = some q ∧
        q.2.val.passed = true ∧ CardPassed pcStep (serverStart true).sec q.2.log := by
  obtain ⟨p, hp, hk⟩ := identified_round card_passes
  exact ⟨p, hk, hp, session_gate bareBoard pcStep 0 2 (serverStart true) _ rfl 1 p hp (Or.inl hk)⟩

end Gate

section Packet

/-- The packet of `iuw_send_cmd(IUW_CMD_ERROR, 0, 0)`. -/
def errorPacket : List UInt8 := (iuwPackCmd (fun _ => 0) IUW_CMD_ERROR 0 0).load 0 IUW_CMD_LEN

/-- A packed command owes nothing to what the buffer held. -/
theorem iuwPackCmd_congr (m m' : Mem) (cmd para0 para1 : ℕ) {i : ℕ} (hi : i < IUW_CMD_LEN) :
    iuwPackCmd m cmd para0 para1 i = iuwPackCmd m' cmd para0 para1 i := by
  have hb (j : ℕ) (hj : j < IUW_CMD_LEN) :
      m.store 0 (packBody cmd para0 para1) j = m'.store 0 (packBody cmd para0 para1) j :=
    Mem.store_congr m m' (Nat.zero_le j) hj
  have hs : byteSum (m.store 0 (packBody cmd para0 para1)) (IUW_CMD_LEN - 4) =
      byteSum (m'.store 0 (packBody cmd para0 para1)) (IUW_CMD_LEN - 4) := by
    unfold byteSum
    rw [Mem.load_congr fun j hj => ?_]
    rw [Nat.zero_add]
    exact hb j (lt_of_lt_of_le hj (Nat.sub_le _ _))
  unfold iuwPackCmd
  rw [hs]
  by_cases h28 : i < IUW_CMD_LEN - 4
  · rw [Mem.store_of_lt _ _ h28, Mem.store_of_lt _ _ h28]
    exact hb i hi
  · exact Mem.store_congr _ _ (Nat.not_lt.1 h28) hi

theorem iuwSendCmd_error_log (pack : Mem) (e : σ) :
    ∃ r, (Prog.run h (iuwSendCmd IUW_CMD_ERROR 0 0 pack) e).log = [(.send errorPacket, r)] := by
  have hp : (iuwPackCmd pack IUW_CMD_ERROR 0 0).load 0 IUW_CMD_LEN = errorPacket :=
    Mem.load_congr fun i hi => by
      rw [Nat.zero_add]
      exact iuwPackCmd_congr pack _ _ _ _ hi
  refine ⟨(h e (.send errorPacket)).1, ?_⟩
  rw [← hp]
  rfl

end Packet

section Inert

/-- The server dismisses the command without a handler: an answer of the PC, a command the
secure-burn state denies, one it never supports or one nobody knows. -/
def Dismissed (secure : Bool) (cmd : ℕ) : Prop :=
  cmd = IUW_CMD_READY ∨ cmd = IUW_CMD_ERROR ∨
    (cmd ≠ IUW_CMD_IDENTIFY ∧ cmd ≠ IUW_CMD_FINISH ∧
      (secure = true ∨ cmd = IUW_CMD_JUMP ∨ cmd = IUW_CMD_CONFIG ∨
        (cmd ∉ rwCmds ∧ iuw2part cmd = none)))

/-- A round that does nothing but receive a packet, send an error back and go on in the same
state. -/
structure Inert (p : SessionRound σ) : Prop where
  ops : ∀ x ∈ p.2.log, x.1 = .recv IUW_CMD_LEN ∨ x.1 = .malloc EXTRA_BUFFER_SIZE ∨
    x.1 = .send errorPacket
  ending : ∃ pack, p.2.val.ending = .next { p.1 with pack }

theorem dispatch_dismissed {secure : Bool} {cmd : ℕ} (hd : Dismissed secure cmd) :
    dispatch secure cmd = .unexpected ∨ dispatch secure cmd = .denied ∨
      dispatch secure cmd = .unsupported ∨
      (dispatch secure cmd = .extra ∧ iuw2part cmd = none) := by
  unfold dispatch
  by_cases h1 : cmd = IUW_CMD_READY ∨ cmd = IUW_CMD_ERROR
  · simp [h1]
  · rcases hd with hr | he | ⟨hi, hf, hd⟩
    · exact absurd (Or.inl hr) h1
    · exact absurd (Or.inr he) h1
    · rw [if_neg h1, if_neg hi, if_neg hf]
      rcases hd with hs | hj | hc | ⟨hrw, hp⟩
      · simp [hs]
      · subst hj
        cases secure <;> decide
      · subst hc
        cases secure <;> decide
      · rw [if_neg hrw]
        cases secure
        · by_cases hu : cmd = IUW_CMD_JUMP ∨ cmd = IUW_CMD_CONFIG
          · simp [hu]
          · simp [hu, hp]
        · simp

/-- Without a partition `iuw_extra` refuses after its allocation. -/
theorem iuwExtra_none (pack : Mem) (cur : Option Dev) (e : σ)
    (hp : iuw2part (iuwCmdCmd pack) = none) :
    ∃ ret r, ret ≠ 0 ∧ (Prog.run h (iuwExtra B fuel pack cur) e).val = some (ret, pack, cur) ∧
      (Prog.run h (iuwExtra B fuel pack cur) e).log = [(.malloc EXTRA_BUFFER_SIZE, r)] := by
  by_cases hr : (h e (.malloc EXTRA_BUFFER_SIZE)).1.ret = 0
  · refine ⟨-1, (h e (.malloc EXTRA_BUFFER_SIZE)).1, by decide, ?_, ?_⟩
    · simp [iuwExtra, hr]
    · simp [iuwExtra, hr]
  · refine ⟨-2, (h e (.malloc EXTRA_BUFFER_SIZE)).1, by decide, ?_, ?_⟩
    · simp [iuwExtra, hr, hp, storageOffset]
    · simp [iuwExtra, hr, hp, storageOffset]

/-- A round that answers with the error packet and goes on. -/
theorem errorRound_inert (s : ServerState) (e : σ) (round : Mem → Round)
    (hr : ∀ pack, (round pack).ending = .next { s with pack }) :
    Inert (s, Prog.run h (iuwSendCmd IUW_CMD_ERROR 0 0 s.pack >>= fun r =>
      (pure (round r.2) : Strat Round)) e) := by
  obtain ⟨r, hlog⟩ := iuwSendCmd_error_log h s.pack e
  refine ⟨fun x hx => ?_, (Prog.run h (iuwSendCmd IUW_CMD_ERROR 0 0 s.pack) e).val.2, ?_⟩
  · simp only [Prog.run_bind_log, hlog, Prog.run_pure, List.append_nil, List.mem_singleton] at hx
    rw [hx]
    exact Or.inr (Or.inr rfl)
  · rw [Prog.run_bind_val, Prog.run_pure]
    exact hr _

theorem serverDispatch_inert (s : ServerState) (e : σ)
    (hd : Dismissed s.sec.enabled (iuwCmdCmd s.pack)) :
    Inert (s, Prog.run h (serverDispatch B fuel s) e) := by
  unfold serverDispatch
  rcases dispatch_dismissed hd with hk | hk | hk | ⟨hk, hp⟩
  · simp only [hk]
    exact errorRound_inert h s e
      (fun pack => ⟨.next { s with pack }, some s.pack, some .unexpected, false⟩) fun _ => rfl
  · simp only [hk]
    exact errorRound_inert h s e
      (fun pack => ⟨.next { s with pack }, some s.pack, some .denied, false⟩) fun _ => rfl
  · simp only [hk]
    exact errorRound_inert h s e
      (fun pack => ⟨.next { s with pack }, some s.pack, some .unsupported, false⟩) fun _ => rfl
  · simp only [hk]
    obtain ⟨ret, r, hret, hval, hlog⟩ := iuwExtra_none B h fuel s.pack s.cur e hp
    obtain ⟨r', hsend⟩ := iuwSendCmd_error_log h s.pack
      (Prog.run h (iuwExtra B fuel s.pack s.cur) e).env
    refine ⟨fun x hx => ?_, (Prog.run h (iuwSendCmd IUW_CMD_ERROR 0 0 s.pack)
        (Prog.run h (iuwExtra B fuel s.pack s.cur) e).env).val.2, ?_⟩
    · simp only [Prog.run_bind_log, hval, hlog, hret, if_false, hsend, Prog.run_pure,
        List.append_nil, List.mem_append, List.mem_singleton] at hx
      rcases hx with hx | hx
      · rw [hx]
        exact Or.inr (Or.inl rfl)
      · rw [hx]
        exact Or.inr (Or.inr rfl)
    · simp [hval, hret]

theorem serverRound_inert (s : ServerState) (e : σ) {m : Mem}
    (hm : (Prog.run h (serverRound B fuel s) e).val.packet = some m)
    (hd : Dismissed s.sec.enabled (iuwCmdCmd m)) :
    Inert (s, Prog.run h (serverRound B fuel s) e) := by
  rcases serverRound_run B h fuel s e with ⟨_, hp, _, _⟩ | ⟨_, ho⟩
  · rw [hp] at hm
    exact absurd hm (by simp)
  · rw [ho] at hm ⊢
    obtain rfl := Option.some.inj ((serverDispatch_kind B h fuel _ _).1.symm.trans hm)
    obtain ⟨hops, pack, hend⟩ := serverDispatch_inert B h fuel _ (h e (.recv IUW_CMD_LEN)).2 hd
    refine ⟨fun x hx => ?_, pack, hend⟩
    rcases List.mem_cons.1 hx with rfl | hx
    · exact Or.inl rfl
    · exact hops x hx

theorem mem_session :
    ∀ (n : ℕ) (s : ServerState) (e : σ) (p : SessionRound σ), p ∈ session B h fuel n s e →
      ∃ e', p.2 = Prog.run h (serverRound B fuel p.1) e'
  | 0, s, e, p, hp => by simp [session] at hp
  | n + 1, s, e, p, hp => by
    simp only [session, List.mem_cons] at hp
    rcases hp with rfl | hp
    · exact ⟨e, rfl⟩
    · rcases he : (Prog.run h (serverRound B fuel s) e).val.ending with s' | ret | _
      · rw [he] at hp
        exact mem_session n s' _ p hp
      · rw [he] at hp
        simp at hp
      · rw [he] at hp
        simp at hp

/-- A session in which every packet that fails `iuw_is_cmd` has a command the server dismisses:
no such packet does anything. -/
theorem session_inert (n : ℕ) (s : ServerState) (e : σ)
    (hd : ∀ p ∈ session B h fuel n s e, ∀ m, p.2.val.packet = some m → iuwIsCmd m = false →
      Dismissed p.1.sec.enabled (iuwCmdCmd m)) :
    ∀ p ∈ session B h fuel n s e, ∀ m, p.2.val.packet = some m → iuwIsCmd m = false →
      Inert p := by
  intro p hp m hm hb
  have hdp := hd p hp m hm hb
  obtain ⟨e', he⟩ := mem_session B h fuel n s e p hp
  rw [he] at hm
  have hi := serverRound_inert B h fuel p.1 e' hm hdp
  rw [← he] at hi
  exact hi

/-- A packet of zeros but for its command, as the first and only one of a session. -/
def bareRound (cmd : ℕ) : SessionRound (List (List UInt8)) :=
  (serverStart true, Prog.run pcStep (serverRound bareBoard 0 (serverStart true)) [bytes32 cmd])

def barePacket (cmd : ℕ) : Mem :=
  (serverStart true).pack.store 0 ((bytes32 cmd).take IUW_CMD_LEN)

theorem bareRound_packet (cmd : ℕ) :
    (bareRound cmd).2.val.packet = some (barePacket cmd) := by
  rcases serverRound_run bareBoard pcStep 0 (serverStart true) [bytes32 cmd] with ⟨hr, _⟩ | ⟨_, ho⟩
  · exact absurd hr (by simp [pcStep])
  · rw [bareRound, ho]
    exact (serverDispatch_kind _ _ _ _ _).1

theorem mem_bareSession {cmd : ℕ} {p : SessionRound (List (List UInt8))}
    (hp : p ∈ session bareBoard pcStep 0 1 (serverStart true) [bytes32 cmd]) :
    p = bareRound cmd := by
  simp only [session, List.mem_cons] at hp
  rcases hp with rfl | hp
  · rfl
  · split at hp <;> simp at hp

theorem bareRound_mem (cmd : ℕ) :
    bareRound cmd ∈ session bareBoard pcStep 0 1 (serverStart true) [bytes32 cmd] := by
  simp only [session]
  exact List.mem_cons_self

/-- A bad packet that looks like an answer of the PC. -/
theorem session_inert_ready : Inert (bareRound IUW_CMD_READY) := by
  refine session_inert bareBoard pcStep 0 1 (serverStart true) [bytes32 IUW_CMD_READY] ?_ _
    (bareRound_mem _) (barePacket IUW_CMD_READY) (bareRound_packet _) (by decide)
  intro p hp m hm _
  obtain rfl := mem_bareSession hp
  obtain rfl := Option.some.inj ((bareRound_packet _).symm.trans hm)
  exact Or.inl (iuwCmdCmd_store _ (by decide))

/-- A bad packet with the command to finish ends the session. -/
theorem session_bad_finish :
    ¬∀ p ∈ session bareBoard pcStep 0 1 (serverStart true) [bytes32 IUW_CMD_FINISH], ∀ m,
      p.2.val.packet = some m → iuwIsCmd m = false → Inert p := by
  intro hall
  obtain ⟨pack, hend⟩ := (hall (bareRound IUW_CMD_FINISH) (bareRound_mem _)
    (barePacket IUW_CMD_FINISH) (bareRound_packet _) (by decide)).ending
  have hfin : (bareRound IUW_CMD_FINISH).2.val.ending = .finished 0 := rfl
  rw [hfin] at hend
  exact absurd hend (by simp)

end Inert

end InfotmUboot
