import InfotmUboot.Proofs.Tftp

/-!
# Runs of a transfer

What holds of a transfer as long as it goes on (`TftpInv`), and what every event keeps of it that
does not bring a block back from an earlier wrap, or the one of count 0.
-/

namespace InfotmUboot

open Lib

section Defs

variable (srv : TftpServer)

/-- The request was sent, and the first block. -/
structure TftpStarted (s : TftpSession) : Prop where
  net : s.net = .continue_
  sent : s.sent = 1
  newest : s.newest = 0
  state : s.client.state = .rrq ∨ s.client.state = .oack
  port : s.client.state ≠ .rrq → s.client.serverPort = srv.port
  block : s.client.block = 0
  blkSize : s.client.blkSize = srv.blkSize
  xferSize : s.client.xferSize = 0
  fits : s.client.loadAddr + srv.file.length ≤ 2 ^ 32

/-- The block is the one behind the newest, or its count is that of the last one that was stored, or
it is of the wrap of the newest one; one that came before has not count 0. -/
def TftpEvent.Clean (s : TftpSession) : TftpEvent → Prop
  | .data i _ => i = s.newest + 1 ∨
      i % 2 ^ 16 ≠ 0 ∧ (i % 2 ^ 16 = s.client.lastBlock ∨ i / 2 ^ 16 = s.newest / 2 ^ 16)
  | .timeout _ => True

instance (s : TftpSession) : DecidablePred (TftpEvent.Clean s)
  | .data i _ => inferInstanceAs (Decidable (i = s.newest + 1 ∨
      i % 2 ^ 16 ≠ 0 ∧ (i % 2 ^ 16 = s.client.lastBlock ∨ i / 2 ^ 16 = s.newest / 2 ^ 16)))
  | .timeout _ => inferInstanceAs (Decidable True)

def TftpCleanRun : TftpSession → List TftpEvent → Prop
  | _, [] => True
  | s, e :: es => e.Clean s ∧ ∀ s' ∈ tftpStep srv s e, TftpCleanRun s' es

instance decTftpCleanRun : ∀ (es : List TftpEvent) (s : TftpSession),
    Decidable (TftpCleanRun srv s es)
  | [], _ => inferInstanceAs (Decidable True)
  | e :: es, s =>
    have : ∀ s', Decidable (TftpCleanRun srv s' es) := decTftpCleanRun es
    inferInstanceAs (Decidable (e.Clean s ∧ ∀ s' ∈ tftpStep srv s e, TftpCleanRun srv s' es))

/-- A transfer that goes on, of a client that loads to `addr`. -/
structure TftpInv (addr : ℕ) (s : TftpSession) : Prop where
  net : s.net = .continue_
  newest_lt : s.newest < srv.blocks
  sent_ge : s.newest ≤ s.sent
  sent_le : s.sent ≤ s.newest + 1
  sent_blocks : s.sent ≤ srv.blocks
  received : Received srv addr s.client s.newest
  port : s.client.state ≠ .rrq → s.client.serverPort = srv.port
  first : s.newest = 0 →
    (s.client.state = .rrq ∨ s.client.state = .oack) ∧ s.client.block = 0 ∧ s.sent = 1
  later : 0 < s.newest → s.client.state = .data ∧
    s.client.blockWrapOffset = u32 (srv.blkSize * 2 ^ 16 * (s.newest / 2 ^ 16)) ∧
    SameWrap s.newest s.client.lastBlock ∧ SameWrap s.newest s.client.block

end Defs

section Step

variable {srv : TftpServer} {addr : ℕ} {s s' : TftpSession}

/-- An acknowledgement of a block that was delivered in the newest wrap. -/
theorem receive_inv {newest sent count : ℕ} (h : SameWrap newest count) (h1 : newest ≤ sent)
    (h2 : sent ≤ newest + 1) (h3 : sent ≤ srv.blocks) :
    newest ≤ srv.receive sent (.ack count) ∧ srv.receive sent (.ack count) ≤ newest + 1 ∧
      srv.receive sent (.ack count) ≤ srv.blocks := by
  have hnext := sameWrap_next h
  rw [show srv.receive sent (.ack count) =
    if count = sent % 2 ^ 16 ∧ sent < srv.blocks then sent + 1 else sent from rfl]
  split_ifs with hack
  · obtain ⟨he, hlt⟩ := hack
    have hsent : sent = newest := by
      by_contra hne
      exact hnext (by rw [he, show sent = newest + 1 by omega])
    omega
  · exact ⟨h1, h2, h3⟩

theorem tftpStarted_inv (h : TftpStarted srv s) : TftpInv srv s.client.loadAddr s := by
  have hblocks : 0 < srv.blocks := Nat.succ_pos _
  have hzero : srv.upTo 0 = 0 := by
    unfold TftpServer.upTo
    omega
  have hnew := h.newest
  have hsent := h.sent
  refine ⟨h.net, by omega, by omega, by omega, by omega, ⟨rfl, h.blkSize, fun k hk => ?_, ?_⟩,
    h.port,
    fun _ => ⟨h.state, h.block, h.sent⟩, fun hpos => by omega⟩
  · rw [hnew, hzero] at hk
    omega
  · rw [hnew, hzero, h.xferSize]

/-- The state behind a block that was stored. -/
theorem tftpStore_inv {t : Tftp} {r i : ℕ} {acked : Bool} {sent : ℕ}
    (hlen : srv.file.length < 2 ^ 32) (hfits : addr + srv.file.length ≤ 2 ^ 32)
    (hrec : Received srv addr t r) (hr : r < srv.blocks) (hi1 : 1 ≤ i) (hi : i ≤ r + 1)
    (hin : i ≤ srv.blocks) (hstate : t.state = .data) (hport : t.serverPort = srv.port)
    (hblock : t.block = i % 2 ^ 16)
    (hoff : t.blockWrapOffset = u32 (srv.blkSize * 2 ^ 16 * (max r i / 2 ^ 16)))
    (hwrap : i / 2 ^ 16 = max r i / 2 ^ 16) (hzero : i % 2 ^ 16 = 0 → i = max r i)
    (h1 : max r i ≤ sent) (h2 : sent ≤ max r i + 1) (h3 : sent ≤ srv.blocks) :
    let out := tftpStore t (srv.payload i)
    let s' : TftpSession :=
      ⟨out.tftp, out.net, if acked then out.sent.foldl srv.receive sent else sent, max r i⟩
    TftpInv srv addr s' ∨ s'.net = .success ∧ Received srv addr s'.client srv.blocks := by
  set t' : Tftp := { t with lastBlock := t.block, timeoutCountMax := TIMEOUT_COUNT } with ht'
  have hplace : u32 (toU32 ((t'.block : ℤ) - 1) * t'.blkSize + t'.blockWrapOffset) =
      (i - 1) * srv.blkSize := by
    have hb : t'.block = i % 2 ^ 16 := hblock
    have hs : t'.blkSize = srv.blkSize := hrec.blkSize
    rw [hb, hs]
    refine place_eq hi1 ((mul_le_of_lt srv (by omega)).trans_lt hlen) ?_
    rw [hwrap]
    exact hoff
  have hrec' : Received srv addr t' r := ⟨hrec.loadAddr, hrec.blkSize, hrec.mem, hrec.xferSize⟩
  have hstored := storeBlock_received hlen hfits hrec' hi1 hi hin hplace
  set t'' := (storeBlock t' (toU32 ((t'.block : ℤ) - 1)) (srv.payload i)).1 with ht''
  have hout : tftpStore t (srv.payload i) = ⟨t'',
      if (srv.payload i).length < srv.blkSize then .success else .continue_,
      [.ack (i % 2 ^ 16)], [((i - 1) * srv.blkSize, (srv.payload i).length)]⟩ := by
    have hsend : tftpSend t'' = .ack (i % 2 ^ 16) := by
      have hst : t''.state = .data := hstate
      have hbl : t''.block = i % 2 ^ 16 := hblock
      unfold tftpSend
      rw [hst, hbl]
      dsimp only
      rw [Nat.mod_mod]
    unfold tftpStore
    dsimp only
    rw [← ht', ← ht'', hsend, hstored.blkSize,
      show (storeBlock t' (toU32 ((t'.block : ℤ) - 1)) (srv.payload i)).2 = (i - 1) * srv.blkSize
        from hplace]
  have hsame : SameWrap (max r i) (i % 2 ^ 16) := ⟨i, hi1, le_max_right _ _, hwrap, rfl, hzero⟩
  dsimp only
  rw [hout]
  by_cases hlast : i = srv.blocks
  · right
    rw [hlast, if_pos (payload_length_last srv).2]
    refine ⟨rfl, ?_⟩
    rw [hlast, max_eq_right hr.le] at hstored
    exact hstored
  · left
    have hlt : i < srv.blocks := by omega
    rw [if_neg (by rw [payload_length_of_lt srv hi1 hlt]; exact lt_irrefl _)]
    have hsent := receive_inv hsame h1 h2 h3
    have hs : max r i ≤ (if acked then srv.receive sent (.ack (i % 2 ^ 16)) else sent) ∧
        (if acked then srv.receive sent (.ack (i % 2 ^ 16)) else sent) ≤ max r i + 1 ∧
        (if acked then srv.receive sent (.ack (i % 2 ^ 16)) else sent) ≤ srv.blocks := by
      split_ifs
      · exact hsent
      · exact ⟨h1, h2, h3⟩
    refine ⟨rfl, max_lt hr hlt, hs.1, hs.2.1, hs.2.2, hstored, fun _ => hport, fun h => ?_,
      fun _ => ⟨hstate, hoff, ?_, ?_⟩⟩
    · exact absurd h (by dsimp only; omega)
    · change SameWrap (max r i) t.block
      rw [hblock]
      exact hsame
    · change SameWrap (max r i) t.block
      rw [hblock]
      exact hsame

theorem wrapped_eq (t : Tftp) (count : ℕ) : t.wrapped count = { t with
    block := count, blockWrap := (t.wrapped count).blockWrap,
    blockWrapOffset := (t.wrapped count).blockWrapOffset } := by
  unfold Tftp.wrapped
  split_ifs <;> rfl

theorem wrapped_offset (t : Tftp) (count : ℕ) : (t.wrapped count).blockWrapOffset =
    if count = 0 then u32 (t.blockWrapOffset + t.blkSize * TFTP_SEQUENCE_SIZE)
    else t.blockWrapOffset := by
  unfold Tftp.wrapped
  split_ifs <;> rfl

theorem tftpData_first {t : Tftp} (hs : t.state = .rrq ∨ t.state = .oack) (src : ℕ)
    (data : List UInt8) : tftpData t src 1 data = tftpStore { t with
      block := 1, state := .data, serverPort := src, lastBlock := 0, blockWrap := 0,
      blockWrapOffset := 0 } data := by
  have hw : t.wrapped 1 = { t with block := 1 } := rfl
  unfold tftpData
  rw [hw]
  dsimp only
  rw [if_pos hs, if_neg (show ¬ (1 ≠ 1) by simp), if_neg (show ¬ (1 = 0) by simp)]

theorem tftpData_later {t : Tftp} (hs : t.state = .data) (src count : ℕ) (data : List UInt8) :
    tftpData t src count data = if count = t.lastBlock then (t.wrapped count).idle .continue_
      else tftpStore (t.wrapped count) data := by
  have hw := wrapped_eq t count
  have hstate : (t.wrapped count).state = .data := by rw [hw]; exact hs
  have hlast : (t.wrapped count).lastBlock = t.lastBlock := by rw [hw]
  have hblock : (t.wrapped count).block = count := by rw [hw]
  have hnot : ¬ ((t.wrapped count).state = .rrq ∨ (t.wrapped count).state = .oack) := by
    rw [hstate]
    simp
  unfold tftpData
  rw [if_neg hnot, hblock, hlast]

/-- The offset for the wraps behind the newest block, when that is counted. -/
theorem wrapped_offset_next {t : Tftp} {newest : ℕ} (hb : t.blkSize = srv.blkSize)
    (h : t.blockWrapOffset = u32 (srv.blkSize * 2 ^ 16 * (newest / 2 ^ 16))) :
    (t.wrapped ((newest + 1) % 2 ^ 16)).blockWrapOffset =
      u32 (srv.blkSize * 2 ^ 16 * ((newest + 1) / 2 ^ 16)) := by
  rw [wrapped_offset]
  split_ifs with hz
  · rw [h, hb, show (newest + 1) / 2 ^ 16 = newest / 2 ^ 16 + 1 by omega, Nat.mul_add, Nat.mul_one]
    unfold u32 TFTP_SEQUENCE_SIZE
    omega
  · rw [h, show (newest + 1) / 2 ^ 16 = newest / 2 ^ 16 by omega]

theorem tftpStep_data {i : ℕ} {acked : Bool} (hlen : srv.file.length < 2 ^ 32)
    (hfits : addr + srv.file.length ≤ 2 ^ 32) (h : TftpInv srv addr s)
    (hclean : (TftpEvent.data i acked).Clean s)
    (hstep : tftpStep srv s (.data i acked) = some s') :
    TftpInv srv addr s' ∨ s'.net = .success ∧ Received srv addr s'.client srv.blocks := by
  have hsent_le := h.sent_le
  have hsent_ge := h.sent_ge
  have hsent_blocks := h.sent_blocks
  have hnewest := h.newest_lt
  unfold tftpStep at hstep
  dsimp only at hstep
  rcases em (s.net = .continue_ ∧ 1 ≤ i ∧ i ≤ s.sent) with hgo | hgo
  swap
  · rw [if_neg hgo] at hstep
    cases hstep
  rw [if_pos hgo] at hstep
  obtain ⟨-, hi1, hi⟩ := hgo
  rw [tftpHandler_data srv h.port] at hstep
  rw [← Option.some.inj hstep]
  rcases Nat.eq_zero_or_pos s.newest with hzero | hpos
  · -- the first block
    obtain ⟨hstate, -, hsent⟩ := h.first hzero
    have hi' : i = 1 := by omega
    subst hi'
    rw [show 1 % 2 ^ 16 = 1 from rfl, tftpData_first hstate]
    refine tftpStore_inv hlen hfits ⟨h.received.loadAddr, h.received.blkSize, h.received.mem,
      h.received.xferSize⟩ hnewest hi1 (by omega) (by omega) rfl rfl rfl ?_ ?_ ?_ ?_ ?_ (by omega)
    · rw [hzero, Nat.zero_max, Nat.div_eq_of_lt (by omega : 1 < 2 ^ 16), Nat.mul_zero]
      rfl
    · rw [hzero]
      rfl
    · omega
    · omega
    · omega
  · obtain ⟨hstate, hoff, hlast, hblock⟩ := h.later hpos
    have hrec : Received srv addr (s.client.wrapped (i % 2 ^ 16)) s.newest := by
      rw [wrapped_eq]
      exact ⟨h.received.loadAddr, h.received.blkSize, h.received.mem, h.received.xferSize⟩
    have hwst : (s.client.wrapped (i % 2 ^ 16)).state = .data := by rw [wrapped_eq]; exact hstate
    have hwport : (s.client.wrapped (i % 2 ^ 16)).serverPort = srv.port := by
      rw [wrapped_eq]
      exact h.port (by rw [hstate]; simp)
    have hwblock : (s.client.wrapped (i % 2 ^ 16)).block = i % 2 ^ 16 := by rw [wrapped_eq]
    rw [tftpData_later hstate]
    rcases Nat.lt_or_ge s.newest i with hnew | hold
    · -- the next block
      obtain rfl : i = s.newest + 1 := by omega
      rw [if_neg fun he => sameWrap_next hlast he.symm]
      refine tftpStore_inv hlen hfits hrec hnewest hi1 (le_refl _) (by omega) hwst hwport hwblock
        ?_ ?_ ?_ ?_ ?_ hsent_blocks
      · rw [max_eq_right (Nat.le_succ _)]
        exact wrapped_offset_next h.received.blkSize hoff
      · rw [max_eq_right (Nat.le_succ _)]
      · rw [max_eq_right (Nat.le_succ _)]
        exact fun _ => rfl
      · omega
      · omega
    · obtain ⟨hne, hcase⟩ := hclean.resolve_left (by omega)
      have hwoff : (s.client.wrapped (i % 2 ^ 16)).blockWrapOffset = s.client.blockWrapOffset := by
        rw [wrapped_offset, if_neg hne]
      by_cases hagain : i % 2 ^ 16 = s.client.lastBlock
      · -- the last stored one again
        left
        rw [if_pos hagain]
        dsimp only [Tftp.idle, List.foldl_nil]
        rw [ite_self, max_eq_left hold]
        refine ⟨rfl, hnewest, hsent_ge, hsent_le, hsent_blocks, hrec, fun _ => hwport,
          fun hz => absurd hz hpos.ne', fun _ => ⟨hwst, hwoff.trans hoff, ?_, ?_⟩⟩
        · dsimp only
          rw [wrapped_eq]
          exact hlast
        · dsimp only
          rw [hwblock, hagain]
          exact hlast
      · rw [if_neg hagain]
        refine tftpStore_inv hlen hfits hrec hnewest hi1 (by omega) (by omega) hwst hwport hwblock
          ?_ ?_ ?_ ?_ ?_ hsent_blocks
        · rw [max_eq_left hold, hwoff, hoff]
        · rw [max_eq_left hold]
          exact hcase.resolve_left hagain
        · exact fun hz => absurd hz hne
        · omega
        · omega

/-- What an expired timer sends again is no acknowledgement of a block that is still to come. -/
theorem tftpSend_receive {t : Tftp} (h : TftpInv srv addr s) (hstate : t.state = s.client.state)
    (hblock : t.block = s.client.block) :
    s.newest ≤ srv.receive s.sent (tftpSend t) ∧
      srv.receive s.sent (tftpSend t) ≤ s.newest + 1 ∧
      srv.receive s.sent (tftpSend t) ≤ srv.blocks ∧
      (s.newest = 0 → srv.receive s.sent (tftpSend t) = 1) := by
  have hle := h.sent_le
  have hge := h.sent_ge
  have hblocks := h.sent_blocks
  unfold tftpSend
  rcases Nat.eq_zero_or_pos s.newest with hzero | hpos
  · obtain ⟨hst, hb, hsent⟩ := h.first hzero
    rw [hstate, hblock, hb]
    rcases hst with hst | hst <;> rw [hst]
    · exact ⟨hge, hle, hblocks, fun _ => hsent⟩
    · dsimp only
      rw [hsent, show srv.receive 1 (.ack (0 % 2 ^ 16)) = 1 by simp [TftpServer.receive]]
      omega
  · obtain ⟨hst, -, -, hb⟩ := h.later hpos
    rw [hstate, hst, hblock]
    dsimp only
    rw [Nat.mod_eq_of_lt (sameWrap_lt hb)]
    obtain ⟨h1, h2, h3⟩ := receive_inv hb hge hle hblocks
    exact ⟨h1, h2, h3, fun hz => absurd hz hpos.ne'⟩

theorem tftpStep_timeout {acked : Bool} (h : TftpInv srv addr s)
    (hstep : tftpStep srv s (.timeout acked) = some s') :
    TftpInv srv addr s' ∨ s'.net = .restart := by
  unfold tftpStep at hstep
  dsimp only at hstep
  rw [if_pos h.net] at hstep
  rw [← Option.some.inj hstep]
  unfold tftpTimeout
  dsimp only
  split_ifs with hmax
  · exact .inr rfl
  · exact .inr rfl
  · left
    set t : Tftp := { s.client with timeoutCount := s.client.timeoutCount + 1 } with ht
    have hrec : Received srv addr t s.newest :=
      ⟨h.received.loadAddr, h.received.blkSize, h.received.mem, h.received.xferSize⟩
    have hsent := tftpSend_receive h (t := t) rfl rfl
    exact ⟨rfl, h.newest_lt, hsent.1, hsent.2.1, hsent.2.2.1, hrec, h.port,
      fun hz => ⟨(h.first hz).1, (h.first hz).2.1, hsent.2.2.2 hz⟩, h.later⟩
  · left
    exact ⟨rfl, h.newest_lt, h.sent_ge, h.sent_le, h.sent_blocks,
      ⟨h.received.loadAddr, h.received.blkSize, h.received.mem, h.received.xferSize⟩, h.port,
      h.first, h.later⟩

end Step

section Run

variable {srv : TftpServer} {addr : ℕ}

/-- The transfer is over. -/
theorem tftpStep_ended {s : TftpSession} (hend : s.net ≠ .continue_) (e : TftpEvent) :
    tftpStep srv s e = none := by
  rcases e with ⟨i, acked⟩ | ⟨acked⟩
  · exact if_neg fun hgo => hend hgo.1
  · exact if_neg hend

theorem tftpRun_ended {s s' : TftpSession} (hend : s.net ≠ .continue_) :
    ∀ {es : List TftpEvent}, tftpRun srv s es = some s' → s' = s
  | [], h => (Option.some.inj h).symm
  | e :: es, h => by
    unfold tftpRun at h
    rw [tftpStep_ended hend] at h
    cases h

theorem tftpRun_clean (hlen : srv.file.length < 2 ^ 32) (hfits : addr + srv.file.length ≤ 2 ^ 32) :
    ∀ {es : List TftpEvent} {s s' : TftpSession}, TftpInv srv addr s → TftpCleanRun srv s es →
      tftpRun srv s es = some s' → s'.net = .success → Received srv addr s'.client srv.blocks
  | [], s, s', h, _, hrun, hend => by
    obtain rfl := Option.some.inj hrun
    rw [h.net] at hend
    cases hend
  | e :: es, s, s', h, hclean, hrun, hend => by
    unfold tftpRun at hrun
    rcases hstep : tftpStep srv s e with _ | s₁
    · rw [hstep] at hrun
      cases hrun
    rw [hstep] at hrun
    dsimp only at hrun
    have hrest := hclean.2 s₁ hstep
    rcases e with ⟨i, acked⟩ | ⟨acked⟩
    · rcases tftpStep_data hlen hfits h hclean.1 hstep with h₁ | ⟨hnet, hrec⟩
      · exact tftpRun_clean hlen hfits h₁ hrest hrun hend
      · rw [tftpRun_ended (by rw [hnet]; simp) hrun]
        exact hrec
    · rcases tftpStep_timeout h hstep with h₁ | hnet
      · exact tftpRun_clean hlen hfits h₁ hrest hrun hend
      · rw [tftpRun_ended (by rw [hnet]; simp) hrun, hnet] at hend
        cases hend

/-- A transfer that is over has the whole file in the memory, and its size. -/
theorem tftp_right (s s' : TftpSession) (es : List TftpEvent) (hlen : srv.file.length < 2 ^ 32)
    (hstarted : TftpStarted srv s) (hclean : TftpCleanRun srv s es)
    (hrun : tftpRun srv s es = some s') (hend : s'.net = .success) :
    s'.client.xferSize = srv.file.length ∧
      ∀ k < srv.file.length, s'.client.mem (s.client.loadAddr + k) = srv.file.getD k 0 := by
  have hrec := tftpRun_clean hlen hstarted.fits (tftpStarted_inv hstarted) hclean hrun hend
  have hall : srv.upTo srv.blocks = srv.file.length := by
    have hpos : 0 < srv.blocks := Nat.succ_pos _
    have hmul := blocks_mul srv
    have hb : srv.blocks * srv.blkSize = (srv.blocks - 1) * srv.blkSize + srv.blkSize := by
      rw [← Nat.succ_mul, Nat.succ_eq_add_one, Nat.sub_add_cancel hpos]
    exact min_eq_right (by omega)
  refine ⟨by rw [hrec.xferSize, hall], fun k hk => hrec.mem k ?_⟩
  rw [hall]
  exact hk

/-- Two blocks of 8 bytes; the first arrives again, after the second was sent. -/
def tenBytes : TftpServer := ⟨List.replicate 10 7, 8, 69, by decide, by decide⟩

/-- A client that asked for blocks of `blkSize` bytes, before anything came. -/
def tftpClient (blkSize : ℕ) : Tftp where
  state := .rrq
  serverPort := 69
  ourPort := 1024
  block := 0
  lastBlock := 0
  blockWrap := 0
  blockWrapOffset := 0
  blkSize := blkSize
  timeoutCount := 0
  timeoutCountMax := 10
  loadAddr := 0x80008000
  xferSize := 0
  mem := fun _ => 0

def tftpBegin (blkSize : ℕ) : TftpSession := ⟨tftpClient blkSize, .continue_, 1, 0⟩

theorem tftpBegin_started (h : 0x80008000 + srv.file.length ≤ 2 ^ 32) :
    TftpStarted srv (tftpBegin srv.blkSize) :=
  ⟨rfl, rfl, rfl, .inl rfl, fun hne => absurd rfl hne, rfl, rfl, rfl, h⟩

theorem tftp_right_tenBytes :
    ∃ s', tftpRun tenBytes (tftpBegin 8) [.data 1 true, .data 1 true, .timeout true, .data 2 true] =
        some s' ∧
      s'.client.xferSize = 10 ∧ ∀ k < 10, s'.client.mem (0x80008000 + k) = 7 := by
  obtain ⟨s', hrun⟩ := Option.isSome_iff_exists.mp (show (tftpRun tenBytes (tftpBegin 8)
    [.data 1 true, .data 1 true, .timeout true, .data 2 true]).isSome by decide)
  have hend : (tftpRun tenBytes (tftpBegin 8)
      [.data 1 true, .data 1 true, .timeout true, .data 2 true]).map (·.net) = some .success := by
    decide
  have hstarted : TftpStarted tenBytes (tftpBegin 8) := tftpBegin_started (by decide)
  rw [hrun] at hend
  obtain ⟨hsize, hmem⟩ := tftp_right (tftpBegin 8) s' _ (by decide) hstarted (by decide)
    hrun (Option.some.inj hend)
  refine ⟨s', hrun, hsize, fun k hk => (hmem k hk).trans ?_⟩
  exact List.getD_replicate 7 hk

end Run

section Wraps

variable {srv : TftpServer} {addr : ℕ}

theorem tftpRun_append : ∀ (es es' : List TftpEvent) (s : TftpSession),
    tftpRun srv s (es ++ es') = (tftpRun srv s es).bind fun s' => tftpRun srv s' es'
  | [], _, _ => rfl
  | e :: es, es', s => by
    rw [List.cons_append, tftpRun, tftpRun]
    rcases tftpStep srv s e with _ | s'
    · rfl
    · exact tftpRun_append es es' s'

/-- The first blocks in their order. -/
def inOrder : ℕ → List TftpEvent
  | 0 => []
  | n + 1 => inOrder n ++ [.data (n + 1) true]

/-- The block behind the newest is stored. -/
theorem tftpData_next {s : TftpSession} (h : TftpInv srv addr s) (data : List UInt8) :
    ∃ t : Tftp, t.state = .data ∧ t.block = (s.newest + 1) % 2 ^ 16 ∧
      t.blkSize = s.client.blkSize ∧ tftpData s.client srv.port ((s.newest + 1) % 2 ^ 16) data =
        tftpStore t data := by
  rcases Nat.eq_zero_or_pos s.newest with hzero | hpos
  · rw [hzero]
    refine ⟨_, ?_, ?_, ?_, tftpData_first (h.first hzero).1 srv.port data⟩
    all_goals rfl
  · obtain ⟨hstate, -, hlast, -⟩ := h.later hpos
    refine ⟨s.client.wrapped ((s.newest + 1) % 2 ^ 16), ?_, ?_, ?_, ?_⟩
    · rw [wrapped_eq]
      exact hstate
    · rw [wrapped_eq]
    · rw [wrapped_eq]
    · rw [tftpData_later hstate, if_neg fun he => sameWrap_next hlast he.symm]

theorem tftpStore_sent {t : Tftp} (hstate : t.state = .data) (data : List UInt8) :
    (tftpStore t data).sent = [.ack (t.block % 2 ^ 16)] := by
  unfold tftpStore tftpSend storeBlock
  dsimp only
  rw [hstate]

theorem tftpStep_next {s : TftpSession} (hlen : srv.file.length < 2 ^ 32)
    (hfits : addr + srv.file.length ≤ 2 ^ 32) (h : TftpInv srv addr s)
    (hsent : s.sent = s.newest + 1) (hlt : s.newest + 1 < srv.blocks) :
    ∃ s', tftpStep srv s (.data (s.newest + 1) true) = some s' ∧ TftpInv srv addr s' ∧
      s'.newest = s.newest + 1 ∧ s'.sent = s'.newest + 1 ∧
      s'.client.lastBlock = s'.newest % 2 ^ 16 := by
  obtain ⟨t, hstate, hblock, hsize, hdata⟩ := tftpData_next h (srv.payload (s.newest + 1))
  have hack : srv.receive s.sent (.ack (t.block % 2 ^ 16)) = s.newest + 2 := by
    rw [hblock, Nat.mod_mod, ← hsent]
    refine (if_pos ⟨rfl, by omega⟩).trans (by omega)
  have hstep : tftpStep srv s (.data (s.newest + 1) true) = some
      ⟨(tftpStore t (srv.payload (s.newest + 1))).tftp,
        (tftpStore t (srv.payload (s.newest + 1))).net, s.newest + 2, s.newest + 1⟩ := by
    unfold tftpStep
    dsimp only
    rw [if_pos ⟨h.net, by omega, by omega⟩, tftpHandler_data srv h.port, hdata, if_pos rfl,
      max_eq_right (Nat.le_succ _), tftpStore_sent hstate, List.foldl_cons, hack, List.foldl_nil]
  refine ⟨_, hstep, ?_, rfl, rfl, hblock⟩
  rcases tftpStep_data hlen hfits h (.inl rfl) hstep with hinv | hend
  · exact hinv
  · have hnet : (tftpStore t (srv.payload (s.newest + 1))).net = .continue_ := by
      refine if_neg ?_
      rw [payload_length_of_lt srv (Nat.succ_pos _) hlt, ← h.received.blkSize, ← hsize]
      exact lt_irrefl _
    rw [hnet] at hend
    cases hend.1

theorem tftpRun_inOrder (hlen : srv.file.length < 2 ^ 32) {s : TftpSession}
    (hfits : addr + srv.file.length ≤ 2 ^ 32) (h : TftpInv srv addr s) (hnewest : s.newest = 0) :
    ∀ n, n + 1 < srv.blocks →
      ∃ s', tftpRun srv s (inOrder (n + 1)) = some s' ∧ TftpInv srv addr s' ∧ s'.newest = n + 1 ∧
        s'.sent = n + 2 ∧ s'.client.lastBlock = (n + 1) % 2 ^ 16
  | 0, hn => by
    have hsent := (h.first hnewest).2.2
    obtain ⟨s', hstep, hinv, h1, h2, h3⟩ := tftpStep_next hlen hfits h (by omega) (by omega)
    rw [hnewest] at hstep h1
    refine ⟨s', ?_, hinv, h1, by omega, by rw [h3, h1]⟩
    rw [show inOrder 1 = [.data (0 + 1) true] from rfl, tftpRun, hstep]
    rfl
  | n + 1, hn => by
    obtain ⟨s₁, hrun, hinv₁, h1, h2, -⟩ := tftpRun_inOrder hlen hfits h hnewest n (by omega)
    obtain ⟨s', hstep, hinv, h1', h2', h3⟩ := tftpStep_next hlen hfits hinv₁ (by omega) (by omega)
    rw [h1] at hstep h1'
    refine ⟨s', ?_, hinv, h1', by omega, by rw [h3, h1']⟩
    rw [inOrder, tftpRun_append, hrun, Option.bind_some, tftpRun, hstep]
    rfl

/-- A copy of the last block that was stored, with count 0, is counted as another wrap. -/
theorem tftpStep_zero {s : TftpSession} (h : TftpInv srv addr s) (hpos : 0 < s.newest)
    (hcount : s.newest % 2 ^ 16 = 0) (hlast : s.client.lastBlock = 0) :
    tftpStep srv s (.data s.newest false) =
      some ⟨s.client.wrapped 0, .continue_, s.sent, s.newest⟩ := by
  unfold tftpStep
  dsimp only
  rw [if_pos ⟨h.net, hpos, h.sent_ge⟩, tftpHandler_data srv h.port, tftpData_later (h.later hpos).1,
    hcount, hlast, if_pos rfl, max_self]
  rfl

/-- The block behind it is stored one wrap too far. -/
theorem tftp_wrap_again {s : TftpSession} (h : TftpInv srv addr s) (hn : s.newest = 2 ^ 16)
    (hblocks : srv.blocks = 2 ^ 16 + 1)
    (hsent : s.sent = s.newest + 1) (hlast : s.client.lastBlock = 0) 
    (hwide : 2 ^ 17 * srv.blkSize + srv.blkSize ≤ 2 ^ 32) :
    ∃ s', tftpRun srv s [.data (2 ^ 16) false, .data (2 ^ 16 + 1) false] = some s' ∧
      s'.net = .success ∧ s'.client.xferSize = srv.file.length + 2 ^ 16 * srv.blkSize := by
  have hpos : 0 < s.newest := by omega
  obtain ⟨hstate, hoff, -, -⟩ := h.later hpos
  have hlong := blocks_mul srv
  have hpay := payload_length_last srv
  rw [hblocks, Nat.add_sub_cancel] at hlong hpay
  set w := s.client.wrapped 0 with hw
  have hwst : w.state = .data := by rw [hw, wrapped_eq]; exact hstate
  have hwport : w.serverPort = srv.port := by
    rw [hw, wrapped_eq]
    exact h.port (by rw [hstate]; simp)
  have hwoff : w.blockWrapOffset = 2 ^ 17 * srv.blkSize := by
    rw [hw, wrapped_offset, if_pos rfl, hoff, h.received.blkSize, hn]
    unfold u32 TFTP_SEQUENCE_SIZE
    omega
  have hwlast : w.lastBlock = 0 := by rw [hw, wrapped_eq]; exact hlast
  have hwsize : w.blkSize = srv.blkSize := by rw [hw, wrapped_eq]; exact h.received.blkSize
  have hwxfer : w.xferSize = 2 ^ 16 * srv.blkSize := by
    rw [hw, wrapped_eq]
    refine h.received.xferSize.trans ?_
    rw [hn]
    exact min_eq_left hlong.1
  have hzero := tftpStep_zero h hpos (by rw [hn]; rfl) hlast
  rw [← hw, hn] at hzero
  have hone : w.wrapped 1 = { w with block := 1 } := rfl
  have hgo : 1 ≤ 2 ^ 16 + 1 ∧ 2 ^ 16 + 1 ≤ s.sent := by omega
  rw [tftpRun, hzero]
  dsimp only
  rw [tftpRun, tftpStep, if_pos ⟨rfl, hgo.1, hgo.2⟩]
  dsimp only
  rw [tftpHandler_data srv fun _ => hwport, tftpData_later hwst,
    show (2 ^ 16 + 1) % 2 ^ 16 = 1 from rfl, hwlast, if_neg (by simp), hone]
  refine ⟨_, rfl, ?_, ?_⟩
  · dsimp only
    refine if_pos ?_
    change (srv.payload (2 ^ 16 + 1)).length < w.blkSize
    rw [hwsize]
    exact hpay.2
  · have hzero : u32 (toU32 (((1 : ℕ) : ℤ) - 1) * w.blkSize + w.blockWrapOffset) =
        2 ^ 17 * srv.blkSize := by
      rw [hwoff, show toU32 (((1 : ℕ) : ℤ) - 1) = 0 from rfl, Nat.zero_mul, Nat.zero_add]
      exact u32_of_lt (by omega)
    unfold tftpStore storeBlock
    dsimp only
    rw [hzero, u32_of_lt (by omega), hwxfer]
    split_ifs <;> omega

theorem tftpRun_wrap_again {s : TftpSession} (hlen : srv.file.length < 2 ^ 32)
    (hstarted : TftpStarted srv s) (hblocks : srv.blocks = 2 ^ 16 + 1)
    (hwide : 2 ^ 17 * srv.blkSize + srv.blkSize ≤ 2 ^ 32) :
    ∃ s', tftpRun srv s
        (inOrder (65535 + 1) ++ [.data (2 ^ 16) false, .data (2 ^ 16 + 1) false]) = some s' ∧
      s'.net = .success ∧ s'.client.xferSize = srv.file.length + 2 ^ 16 * srv.blkSize := by
  obtain ⟨s₁, hrun, hinv, hnewest, hsent, hlast⟩ := tftpRun_inOrder hlen hstarted.fits
    (tftpStarted_inv hstarted) hstarted.newest 65535 (by omega)
  obtain ⟨s', hrun', hend⟩ := tftp_wrap_again hinv hnewest hblocks (by omega) hlast hwide
  refine ⟨s', ?_, hend⟩
  rw [tftpRun_append, hrun]
  exact hrun'

/-- A file of zeros, in blocks of 512. -/
def zeroFile (n : ℕ) : TftpServer := ⟨List.replicate n 0, 512, 69, by decide, by decide⟩

theorem zeroFile_wrap_again {n : ℕ} (hn : n = 2 ^ 25 + 1) :
    ∃ s', TftpStarted (zeroFile n) (tftpBegin 512) ∧
      tftpRun (zeroFile n) (tftpBegin 512)
        (inOrder (65535 + 1) ++ [.data (2 ^ 16) false, .data (2 ^ 16 + 1) false]) = some s' ∧
      s'.net = .success ∧ (zeroFile n).file.length = n ∧ s'.client.xferSize = n + 2 ^ 25 := by
  have hlength : (zeroFile n).file.length = n := List.length_replicate
  have hsize : (zeroFile n).blkSize = 512 := rfl
  have hblocks : (zeroFile n).blocks = 2 ^ 16 + 1 := by
    unfold TftpServer.blocks
    rw [hlength, hsize]
    omega
  have hstarted : TftpStarted (zeroFile n) (tftpBegin 512) :=
    tftpBegin_started (by rw [hlength]; omega)
  obtain ⟨s', hrun, hend, hxfer⟩ := tftpRun_wrap_again (by omega) hstarted hblocks (by omega)
  refine ⟨s', hstarted, hrun, hend, hlength, hxfer.trans ?_⟩
  rw [hlength, hsize]
  omega

/-- A file of 65537 blocks. -/
theorem tftp_wrap_counted_twice :
    ∃ s', TftpStarted (zeroFile (2 ^ 25 + 1)) (tftpBegin 512) ∧
      tftpRun (zeroFile (2 ^ 25 + 1)) (tftpBegin 512)
        (inOrder (65535 + 1) ++ [.data (2 ^ 16) false, .data (2 ^ 16 + 1) false]) = some s' ∧
      s'.net = .success ∧ (zeroFile (2 ^ 25 + 1)).file.length = 2 ^ 25 + 1 ∧
      s'.client.xferSize = 2 ^ 25 + 1 + 2 ^ 25 :=
  zeroFile_wrap_again rfl

end Wraps

end InfotmUboot
