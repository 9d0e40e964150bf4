import InfotmUboot.Fastboot

/-!
# Downloads by fastboot

In a run of packets every write is inside its buffer, a download ends when all its bytes are there,
and they are what was received, exactly if every packet of a download is right: as long as it was
asked for where `rx_handler` gets the length asked for, not longer than the rest of the buffer where
it gets the length received.
-/

namespace InfotmUboot

open Lib

/-- The state, and the bytes received since the command before them. -/
structure FastbootRun where
  state : FastbootState
  received : List UInt8

/-- A packet comes, or `fastboot` is called again, with another command buffer. -/
inductive FastbootEvent where
  | packet (w : FastbootWorld) (bytes : List UInt8)
  | again (cmdbuf : Mem)

section Run

variable (iface : FastbootInterface) (count : RxCount)

def FastbootRun.start (transfer cmdbuf : Mem) : FastbootRun := ⟨⟨0, 0, 0, 0, transfer, cmdbuf⟩, []⟩

/-- The bytes received when this packet is in. -/
def FastbootRun.with (r : FastbootRun) (bytes : List UInt8) : List UInt8 :=
  if r.state.downloadSize = 0 then [] else r.received ++ bytes.take r.state.downloadSize

def fastbootStep (r : FastbootRun) : FastbootEvent → FastbootRun
  | .packet w bytes => ⟨(fastbootPoll iface count w bytes r.state).state, r.with bytes⟩
  | .again cmdbuf => { r with state := { r.state with cmdbuf } }

/-- Inside the buffer it goes to. -/
def Written.Inside (w : Written) : Prop :=
  match w.buf with
  | .cmdbuf => w.start + w.len ≤ 0x40
  | .transfer => w.start + w.len ≤ iface.transferBufferSize

/-- What is asked of a packet's handling. -/
structure PacketRight (r : FastbootRun) (w : FastbootWorld) (bytes : List UInt8) : Prop where
  inside : ∀ wr ∈ (fastbootPoll iface count w bytes r.state).written, wr.Inside iface
  okay : .download (ascii "OKAY") ∈ (fastbootPoll iface count w bytes r.state).sent ↔
    r.state.downloadSize ≠ 0 ∧ r.state.downloadSize ≤ (r.with bytes).length
  content : .download (ascii "OKAY") ∈ (fastbootPoll iface count w bytes r.state).sent →
    (fastbootPoll iface count w bytes r.state).state.transfer.load 0 r.state.downloadSize =
      (r.with bytes).take r.state.downloadSize

def FastbootRight : List FastbootEvent → FastbootRun → Prop
  | [], _ => True
  | .packet w bytes :: evs, r =>
    PacketRight iface count r w bytes ∧ FastbootRight evs (fastbootStep iface count r
      (.packet w bytes))
  | ev :: evs, r => FastbootRight evs (fastbootStep iface count r ev)

/-- A packet of a download is as long as it was asked for, or fits in the buffer behind the bytes
that are there. -/
def PacketFits (r : FastbootRun) (bytes : List UInt8) : Prop :=
  r.state.downloadSize ≠ 0 →
    match count with
    | .asked => r.state.downloadSize ≤ bytes.length
    | .received =>
      r.state.downloadBytes + min r.state.downloadSize bytes.length ≤ iface.transferBufferSize

def FastbootFits : List FastbootEvent → FastbootRun → Prop
  | [], _ => True
  | .packet w bytes :: evs, r =>
    PacketFits iface count r bytes ∧ FastbootFits evs (fastbootStep iface count r (.packet w bytes))
  | ev :: evs, r => FastbootFits evs (fastbootStep iface count r ev)

/-- A download that is going on. -/
structure Downloading (r : FastbootRun) : Prop where
  size_le : r.state.downloadSize ≤ iface.transferBufferSize
  bytes_lt : r.state.downloadBytes < r.state.downloadSize
  length : r.received.length = r.state.downloadBytes
  transfer : r.state.transfer.load 0 r.state.downloadBytes = r.received
  asked : count = .asked → r.state.downloadBytes = 0

structure FastbootRun.Inv (r : FastbootRun) : Prop where
  error : r.state.downloadError = 0
  going : r.state.downloadSize ≠ 0 → Downloading iface count r

end Run

section Pad

variable (iface : FastbootInterface)

/-- Padding is inside the buffer, and behind the bytes of the download. -/
theorem padLoop_spec : ∀ (pad : ℕ) (s : FastbootState),
    (padLoop iface pad s).1.downloadSize = s.downloadSize ∧
    (padLoop iface pad s).1.downloadError = s.downloadError ∧
    (padLoop iface pad s).1.transfer.load 0 s.downloadBytes = s.transfer.load 0 s.downloadBytes ∧
    ∀ wr ∈ (padLoop iface pad s).2, wr.Inside iface
  | 0, s => ⟨rfl, rfl, rfl, fun _ h => absurd h List.not_mem_nil⟩
  | pad + 1, s => by
    unfold padLoop
    split_ifs with hfull
    · exact ⟨rfl, rfl, rfl, fun _ h => absurd h List.not_mem_nil⟩
    · obtain ⟨hsize, herr, hload, hin⟩ := padLoop_spec pad
        { s.put s.downloadBytes [0] .transfer with downloadBytes := s.downloadBytes + 1 }
      refine ⟨hsize, herr, ?_, fun wr hwr => ?_⟩
      · have hle : s.downloadBytes ≤ s.downloadBytes + 1 := by omega
        have htake := congrArg (List.take s.downloadBytes) hload
        rw [Mem.take_load _ _ hle, Mem.take_load _ _ hle] at htake
        exact htake.trans (Mem.load_store_after _ _ (by omega))
      · rcases List.mem_cons.1 hwr with rfl | hwr
        · have : s.downloadBytes + 1 ≤ iface.transferBufferSize := by omega
          exact this
        · exact hin wr hwr

theorem downloadDone_spec (s : FastbootState) (herr : s.downloadError = 0) :
    (downloadDone iface s).1.downloadSize = 0 ∧ (downloadDone iface s).1.downloadError = 0 ∧
    (downloadDone iface s).1.transfer.load 0 s.downloadBytes = s.transfer.load 0 s.downloadBytes ∧
    (∀ wr ∈ (downloadDone iface s).2.1, wr.Inside iface) ∧
    (downloadDone iface s).2.2 = [.download (ascii "OKAY")] := by
  unfold downloadDone
  rw [if_neg (not_not.2 herr)]
  dsimp only
  split_ifs with h2
  · obtain ⟨hsize, herr', hload, hin⟩ := padLoop_spec iface
      (iface.nandBlockSize - s.downloadBytes % iface.nandBlockSize)
      { s with downloadSize := 0, downloadBytesUnpadded := s.downloadBytes }
    exact ⟨hsize, herr'.trans herr, hload, hin, rfl⟩
  · exact ⟨rfl, herr, rfl, fun _ h => absurd h List.not_mem_nil, rfl⟩

end Pad

section Packet

variable {iface : FastbootInterface} {count : RxCount} {r : FastbootRun}

/-- A part of a download. -/
theorem downloadImage_part {s : FastbootState} {n : ℕ} (hn : n ≠ 0)
    (hsize : s.downloadSize < 2 ^ 32) (hlt : s.downloadBytes + n < s.downloadSize) :
    fastbootDownloadImage iface .transfer s.downloadBytes n s =
      ⟨{ s with downloadBytes := s.downloadBytes + n }, [], []⟩ := by
  have hroom : toU32 (s.downloadSize - s.downloadBytes) = s.downloadSize - s.downloadBytes := by
    unfold toU32
    omega
  unfold fastbootDownloadImage
  rw [if_neg hn, hroom]
  simp only [and_self, if_true, if_pos (show n < s.downloadSize - s.downloadBytes by omega),
    u32_of_lt (show s.downloadBytes + n < 2 ^ 32 by omega)]
  rw [if_neg (by omega)]

/-- The last part, or all of it. -/
theorem downloadImage_last {s : FastbootState} {n : ℕ} (hn : n ≠ 0)
    (hsize : s.downloadSize < 2 ^ 32) (hle : s.downloadBytes ≤ s.downloadSize)
    (hlast : s.downloadSize ≤ s.downloadBytes + n) :
    fastbootDownloadImage iface .transfer s.downloadBytes n s =
      ⟨(downloadDone iface { s with downloadBytes := s.downloadSize }).1,
        (downloadDone iface { s with downloadBytes := s.downloadSize }).2.1,
        (downloadDone iface { s with downloadBytes := s.downloadSize }).2.2⟩ := by
  have hroom : toU32 (s.downloadSize - s.downloadBytes) = s.downloadSize - s.downloadBytes := by
    unfold toU32
    omega
  have hsum : s.downloadBytes + (s.downloadSize - s.downloadBytes) = s.downloadSize := by omega
  unfold fastbootDownloadImage
  rw [if_neg hn, hroom]
  simp only [and_self, if_true, if_neg (show ¬n < s.downloadSize - s.downloadBytes by omega), hsum,
    u32_of_lt hsize, ge_iff_le, le_refl, List.nil_append]

/-- The size that `rx_handler` is told. -/
def RxCount.size (len : ℕ) (bs : List UInt8) : RxCount → ℕ
  | .asked => len
  | .received => bs.length

theorem poll_download (w : FastbootWorld) (bytes : List UInt8) (h : r.state.downloadSize ≠ 0) :
    fastbootPoll iface count w bytes r.state =
      let out := fastbootDownloadImage iface .transfer r.state.downloadBytes
        (count.size r.state.downloadSize (bytes.take r.state.downloadSize))
        (r.state.put r.state.downloadBytes (bytes.take r.state.downloadSize) .transfer)
      { out with written := ⟨.transfer, r.state.downloadBytes,
          (bytes.take r.state.downloadSize).length⟩ :: out.written } := by
  unfold fastbootPoll pollBuffer
  rw [if_neg h]
  have hput : (r.state.put r.state.downloadBytes (bytes.take r.state.downloadSize)
      .transfer).downloadSize ≠ 0 := h
  cases count <;> simp only [rxHandler, if_pos hput, RxCount.size]

/-- The bytes in the buffer after a packet of a download. -/
theorem put_load (h : Downloading iface count r) (bs : List UInt8) :
    (r.state.put r.state.downloadBytes bs .transfer).transfer.load 0
      (r.state.downloadBytes + bs.length) = r.received ++ bs := by
  have hload := Mem.load_add (r.state.transfer.store r.state.downloadBytes bs) 0
    r.state.downloadBytes bs.length
  refine hload.trans ?_
  rw [Mem.load_store_after _ _ (by omega), h.transfer, Nat.zero_add, Mem.load_store_same]

/-- A packet that ends a download. -/
theorem packet_last (h : Downloading iface count r) (herr : r.state.downloadError = 0)
    (w : FastbootWorld) (bytes : List UInt8)
    (hn : count.size r.state.downloadSize (bytes.take r.state.downloadSize) ≠ 0)
    (hlast : r.state.downloadSize ≤ r.state.downloadBytes +
      count.size r.state.downloadSize (bytes.take r.state.downloadSize)) :
    (fastbootPoll iface count w bytes r.state).state.downloadSize = 0 ∧
    (fastbootPoll iface count w bytes r.state).state.downloadError = 0 ∧
    (fastbootPoll iface count w bytes r.state).sent = [.download (ascii "OKAY")] ∧
    (fastbootPoll iface count w bytes r.state).state.transfer.load 0 r.state.downloadSize =
      (r.state.put r.state.downloadBytes (bytes.take r.state.downloadSize)
        .transfer).transfer.load 0 r.state.downloadSize ∧
    ((∀ wr ∈ (fastbootPoll iface count w bytes r.state).written, wr.Inside iface) ↔
      r.state.downloadBytes + (bytes.take r.state.downloadSize).length ≤
        iface.transferBufferSize) := by
  have hlt := iface.size_lt
  have hle := h.size_le
  have hb := h.bytes_lt
  have hne : r.state.downloadSize ≠ 0 := by omega
  rw [poll_download w bytes hne]
  have himage : fastbootDownloadImage iface .transfer r.state.downloadBytes
      (count.size r.state.downloadSize (bytes.take r.state.downloadSize))
      (r.state.put r.state.downloadBytes (bytes.take r.state.downloadSize) .transfer) = _ :=
    downloadImage_last
      (s := r.state.put r.state.downloadBytes (bytes.take r.state.downloadSize) .transfer) hn
      (lt_of_le_of_lt hle hlt) hb.le hlast
  obtain ⟨hsize, herr', hload, hin, hsent⟩ := downloadDone_spec iface
    { r.state.put r.state.downloadBytes (bytes.take r.state.downloadSize) .transfer with
      downloadBytes := r.state.downloadSize } herr
  dsimp only
  rw [himage]
  refine ⟨hsize, herr', hsent, hload, fun hall => hall _ List.mem_cons_self, fun hfit wr hwr => ?_⟩
  rcases List.mem_cons.1 hwr with rfl | hwr
  · exact hfit
  · exact hin wr hwr

/-- A packet after which a download goes on. -/
theorem packet_part (h : Downloading iface count r) (w : FastbootWorld) (bytes : List UInt8)
    (hlt : r.state.downloadBytes +
      count.size r.state.downloadSize (bytes.take r.state.downloadSize) < r.state.downloadSize) :
    (fastbootPoll iface count w bytes r.state).state =
      { r.state.put r.state.downloadBytes (bytes.take r.state.downloadSize) .transfer with
        downloadBytes := r.state.downloadBytes +
          count.size r.state.downloadSize (bytes.take r.state.downloadSize) } ∧
    (fastbootPoll iface count w bytes r.state).sent = [] ∧
    (fastbootPoll iface count w bytes r.state).written =
      [⟨.transfer, r.state.downloadBytes, (bytes.take r.state.downloadSize).length⟩] := by
  have hsize := lt_of_le_of_lt h.size_le iface.size_lt
  have hne : r.state.downloadSize ≠ 0 := by omega
  rw [poll_download w bytes hne]
  by_cases hn : count.size r.state.downloadSize (bytes.take r.state.downloadSize) = 0
  · -- an empty packet is passed over
    rw [hn]
    exact ⟨rfl, rfl, rfl⟩
  · have himage : fastbootDownloadImage iface .transfer r.state.downloadBytes
        (count.size r.state.downloadSize (bytes.take r.state.downloadSize))
        (r.state.put r.state.downloadBytes (bytes.take r.state.downloadSize) .transfer) = _ :=
      downloadImage_part
        (s := r.state.put r.state.downloadBytes (bytes.take r.state.downloadSize) .transfer)
        hn hsize hlt
    dsimp only
    rw [himage]
    exact ⟨rfl, rfl, rfl⟩

/-- What holds after a command: a download is at its beginning, if there is one, and no word of one
is sent. -/
structure CommandOut (iface : FastbootInterface) (out : FastbootOut) : Prop where
  error : out.state.downloadError = 0
  size : out.state.downloadSize ≠ 0 →
    out.state.downloadSize ≤ iface.transferBufferSize ∧ out.state.downloadBytes = 0
  sent : .download (ascii "OKAY") ∉ out.sent
  inside : ∀ wr ∈ out.written, wr.Inside iface

theorem preDownload_out (s : FastbootState) : CommandOut iface (fastbootPreDownload iface s) := by
  have hin : ∀ wr ∈ [(⟨.cmdbuf, 17, 8⟩ : Written)], wr.Inside iface :=
    List.forall_mem_singleton.2 (show 17 + 8 ≤ 0x40 by norm_num)
  have hsent : ∀ response, .download (ascii "OKAY") ∉ [FastbootTx.status response] := fun _ h =>
    FastbootTx.noConfusion (List.mem_singleton.1 h)
  unfold fastbootPreDownload
  dsimp only
  split_ifs with h0 hlarge
  · exact ⟨rfl, fun h => absurd h0 h, hsent _, hin⟩
  · exact ⟨rfl, fun h => absurd rfl h, hsent _, hin⟩
  · exact ⟨rfl, fun _ => ⟨Nat.not_lt.1 hlarge, rfl⟩, hsent _, hin⟩

theorem rxHandler_command (w : FastbootWorld) (buf : Buf) (start n : ℕ) {s : FastbootState}
    (h : s.downloadSize = 0) (herr : s.downloadError = 0) :
    CommandOut iface (rxHandler iface w buf start n s) := by
  have hsent : ∀ response, .download (ascii "OKAY") ∉ [FastbootTx.status response] := fun _ h =>
    FastbootTx.noConfusion (List.mem_singleton.1 h)
  have hworld : ∀ cmd, CommandOut iface ⟨{ s with transfer := w.memory cmd s.transfer }, [],
      (w.replies cmd s).map .status⟩ := by
    refine fun cmd => ⟨herr, fun hne => absurd h hne, fun hmem => ?_, fun _ hwr =>
      absurd hwr List.not_mem_nil⟩
    obtain ⟨response, -, heq⟩ := List.mem_map.1 hmem
    exact FastbootTx.noConfusion heq
  unfold rxHandler
  rw [if_neg (not_not.2 h)]
  split
  · exact preDownload_out s
  · refine ⟨herr, fun hne => absurd h hne, hsent _, ?_⟩
    exact List.forall_mem_singleton.2 (show 22 + 40 ≤ 0x40 by norm_num)
  · exact ⟨herr, fun hne => absurd h hne, hsent _, fun _ hwr => absurd hwr List.not_mem_nil⟩
  · exact ⟨herr, fun hne => absurd h hne, hsent _, fun _ hwr => absurd hwr List.not_mem_nil⟩
  · exact hworld _

theorem packet_command (w : FastbootWorld) (bytes : List UInt8) (h : r.state.downloadSize = 0)
    (herr : r.state.downloadError = 0) : CommandOut iface (fastbootPoll iface count w bytes
      r.state) := by
  have htake : 0 + (bytes.take 0x40).length ≤ 0x40 := by
    rw [List.length_take]
    omega
  unfold fastbootPoll pollBuffer
  rw [if_pos h]
  have hout : CommandOut iface (rxHandler iface w .cmdbuf 0 (count.size 0x40 (bytes.take 0x40))
      (r.state.put 0 (bytes.take 0x40) .cmdbuf)) := rxHandler_command w .cmdbuf 0 _ h herr
  refine ⟨?_, ?_, ?_, fun wr hwr => ?_⟩
  · cases count <;> exact hout.error
  · cases count <;> exact hout.size
  · cases count <;> exact hout.sent
  · rcases List.mem_cons.1 hwr with rfl | hwr
    · exact htake
    · cases count <;> exact hout.inside wr hwr

end Packet

section Right

variable {iface : FastbootInterface} {count : RxCount} {r : FastbootRun}

theorem with_length (hd : Downloading iface count r) (bytes : List UInt8) :
    r.with bytes = r.received ++ bytes.take r.state.downloadSize := by
  have := hd.bytes_lt
  unfold FastbootRun.with
  rw [if_neg (by omega)]

/-- What the handling of a last packet is right for. -/
theorem packet_last_right (hd : Downloading iface count r) (herr : r.state.downloadError = 0)
    (w : FastbootWorld) (bytes : List UInt8)
    (hn : count.size r.state.downloadSize (bytes.take r.state.downloadSize) ≠ 0)
    (hlast : r.state.downloadSize ≤ r.state.downloadBytes +
      count.size r.state.downloadSize (bytes.take r.state.downloadSize)) :
    PacketRight iface count r w bytes ↔
      r.state.downloadBytes + (bytes.take r.state.downloadSize).length ≤ iface.transferBufferSize ∧
      r.state.downloadSize ≤ r.state.downloadBytes + (bytes.take r.state.downloadSize).length := by
  obtain ⟨-, -, hsent, hload, hin⟩ := packet_last hd herr w bytes hn hlast
  have hb := hd.bytes_lt
  have hlen : (r.with bytes).length =
      r.state.downloadBytes + (bytes.take r.state.downloadSize).length := by
    rw [with_length hd, List.length_append, hd.length]
  have hmem : FastbootTx.download (ascii "OKAY") ∈
    (fastbootPoll iface count w bytes r.state).sent := by
    rw [hsent]
    exact List.mem_singleton_self _
  refine ⟨fun h => ⟨hin.1 h.inside, ?_⟩, fun ⟨hfit, hall⟩ => ⟨hin.2 hfit, ?_, fun _ => ?_⟩⟩
  · rw [← hlen]
    exact (h.okay.1 hmem).2
  · refine ⟨fun _ => ⟨by omega, ?_⟩, fun _ => hmem⟩
    rw [hlen]
    exact hall
  · rw [hload, ← Mem.take_load _ 0 hall, put_load hd, with_length hd]

theorem packet_right_iff (h : r.Inv iface count) (w : FastbootWorld) (bytes : List UInt8) :
    PacketRight iface count r w bytes ↔ PacketFits iface count r bytes := by
  by_cases h0 : r.state.downloadSize = 0
  · have hout : CommandOut iface (fastbootPoll iface count w bytes r.state) :=
      packet_command w bytes h0 h.error
    refine iff_of_true ⟨hout.inside, ?_, fun hmem => absurd hmem hout.sent⟩ fun hne => absurd h0 hne
    exact iff_of_false hout.sent fun hc => hc.1 h0
  · have hd := h.going h0
    have hsize := hd.size_le
    have hb := hd.bytes_lt
    have hlen : (bytes.take r.state.downloadSize).length = min r.state.downloadSize bytes.length :=
      List.length_take
    unfold PacketFits
    rw [forall_prop_of_true h0]
    rcases count with _ | _
    · have hzero := hd.asked rfl
      rw [packet_last_right hd h.error w bytes h0 (by simp only [RxCount.size]; omega), hlen, hzero]
      dsimp only
      omega
    · by_cases hlt : r.state.downloadBytes + (bytes.take r.state.downloadSize).length <
          r.state.downloadSize
      · obtain ⟨-, hsent, hwritten⟩ := packet_part hd w bytes hlt
        refine iff_of_true ⟨?_, iff_of_false ?_ ?_, ?_⟩ (by dsimp only; omega)
        · rw [hwritten]
          exact List.forall_mem_singleton.2 (by simp only [Written.Inside]; omega)
        · rw [hsent]
          exact List.not_mem_nil
        · rw [with_length hd, List.length_append, hd.length]
          omega
        · rw [hsent]
          exact fun hmem => absurd hmem List.not_mem_nil
      · have hn : (bytes.take r.state.downloadSize).length ≠ 0 := by omega
        rw [packet_last_right hd h.error w bytes hn (Nat.not_lt.1 hlt), hlen]
        dsimp only
        omega

theorem fastbootStep_inv (h : r.Inv iface count) (ev : FastbootEvent) :
    (fastbootStep iface count r ev).Inv iface count := by
  rcases ev with ⟨w, bytes⟩ | cmdbuf
  · by_cases h0 : r.state.downloadSize = 0
    · have hout : CommandOut iface (fastbootPoll iface count w bytes r.state) :=
        packet_command w bytes h0 h.error
      refine ⟨hout.error, fun hne => ?_⟩
      obtain ⟨hle, hzero⟩ := hout.size hne
      have hwith : r.with bytes = [] := if_pos h0
      refine ⟨hle, ?_, ?_, ?_, fun _ => hzero⟩
      · exact hzero ▸ Nat.pos_of_ne_zero hne
      · exact (congrArg List.length hwith).trans hzero.symm
      · refine Eq.trans ?_ hwith.symm
        change Mem.load _ 0 (fastbootPoll iface count w bytes r.state).state.downloadBytes = []
        rw [hzero, Mem.load_zero]
    · have hd := h.going h0
      have hb := hd.bytes_lt
      by_cases hlt : r.state.downloadBytes +
          count.size r.state.downloadSize (bytes.take r.state.downloadSize) < r.state.downloadSize
      · obtain ⟨hstate, -, -⟩ := packet_part hd w bytes hlt
        have hcount : count = .received := by
          rcases count with _ | _
          · simp only [RxCount.size] at hlt
            omega
          · rfl
        subst hcount
        refine ⟨(congrArg FastbootState.downloadError hstate).trans h.error, fun _ => ?_⟩
        have hbytes : (fastbootPoll iface .received w bytes r.state).state.downloadBytes =
            r.state.downloadBytes + (bytes.take r.state.downloadSize).length :=
          congrArg FastbootState.downloadBytes hstate
        have hsize : (fastbootPoll iface .received w bytes r.state).state.downloadSize =
            r.state.downloadSize := (congrArg FastbootState.downloadSize hstate).trans rfl
        refine ⟨hsize ▸ hd.size_le, ?_, ?_, ?_, fun hc => RxCount.noConfusion hc⟩
        · change (fastbootPoll iface .received w bytes r.state).state.downloadBytes <
            (fastbootPoll iface .received w bytes r.state).state.downloadSize
          rw [hbytes, hsize]
          exact hlt
        · change (r.with bytes).length =
            (fastbootPoll iface .received w bytes r.state).state.downloadBytes
          rw [hbytes, with_length hd, List.length_append, hd.length]
        · change (fastbootPoll iface .received w bytes r.state).state.transfer.load 0
            (fastbootPoll iface .received w bytes r.state).state.downloadBytes = r.with bytes
          rw [hbytes, with_length hd, ← put_load hd]
          exact congrArg (fun s => Mem.load s.transfer 0 _) hstate
      · have hn : count.size r.state.downloadSize (bytes.take r.state.downloadSize) ≠ 0 := by omega
        obtain ⟨hsize, herr, -⟩ := packet_last hd h.error w bytes hn (Nat.not_lt.1 hlt)
        exact ⟨herr, fun hne => absurd hsize hne⟩
  · exact ⟨h.error, fun hne =>
      let hd := h.going hne
      ⟨hd.size_le, hd.bytes_lt, hd.length, hd.transfer, hd.asked⟩⟩

theorem right_iff_of_inv : ∀ (evs : List FastbootEvent) {r : FastbootRun}, r.Inv iface count →
    (FastbootRight iface count evs r ↔ FastbootFits iface count evs r)
  | [], _, _ => Iff.rfl
  | .packet w bytes :: evs, _, h =>
    and_congr (packet_right_iff h w bytes) (right_iff_of_inv evs (fastbootStep_inv h _))
  | .again _ :: evs, _, h => right_iff_of_inv evs (fastbootStep_inv h _)

theorem start_inv (transfer cmdbuf : Mem) : (FastbootRun.start transfer cmdbuf).Inv iface count :=
  ⟨rfl, fun h => absurd rfl h⟩

end Right

/-- A run is right exactly if every packet of a download is. -/
theorem fastboot_right_iff (iface : FastbootInterface) (count : RxCount) (transfer cmdbuf : Mem)
    (evs : List FastbootEvent) :
    FastbootRight iface count evs (FastbootRun.start transfer cmdbuf) ↔
      FastbootFits iface count evs (FastbootRun.start transfer cmdbuf) :=
  right_iff_of_inv evs (start_inv transfer cmdbuf)

section Example

def plainFastboot : FastbootWorld := ⟨fun _ _ => [], fun _ m => m⟩

/-- Two bytes are announced, and one comes. -/
def shortPacket : List FastbootEvent :=
  [.packet plainFastboot (ascii "download:00000002"), .packet plainFastboot [1]]

/-- As much as the buffer holds is announced, and one byte comes. -/
def byteRun : FastbootRun :=
  fastbootStep fastbootInterface .received
    (fastbootStep fastbootInterface .received (FastbootRun.start (fun _ => 0) fun _ => 0)
      (.packet plainFastboot (ascii "download:18000000"))) (.packet plainFastboot [1])

/-- Then as much comes as the buffer holds. -/
def longPacket : List FastbootEvent :=
  [.packet plainFastboot (ascii "download:18000000"), .packet plainFastboot [1],
    .packet plainFastboot (List.replicate 0x18000000 1)]

theorem byteRun_state : (byteRun.state.downloadSize, byteRun.state.downloadBytes) =
    (0x18000000, 1) := by decide

/-- With the length asked for the download ends a byte early; with the length received the last byte
is written behind the buffer. -/
theorem fastboot_wrong :
    (¬∀ (iface : FastbootInterface) (transfer cmdbuf : Mem) (evs : List FastbootEvent),
      FastbootRight iface .asked evs (FastbootRun.start transfer cmdbuf)) ∧
    ¬∀ (iface : FastbootInterface) (transfer cmdbuf : Mem) (evs : List FastbootEvent),
      FastbootRight iface .received evs (FastbootRun.start transfer cmdbuf) := by
  constructor
  · intro h
    have hall := h fastbootInterface (fun _ => 0) (fun _ => 0) shortPacket
    have hfits := ((right_iff_of_inv _ (start_inv _ _)).1 hall).2.1
    exact absurd (hfits (by decide)) (by decide)
  · intro h
    have hall := h fastbootInterface (fun _ => 0) (fun _ => 0) longPacket
    have hfits : PacketFits fastbootInterface .received byteRun (List.replicate 0x18000000 1) :=
      ((right_iff_of_inv _ (start_inv _ _)).1 hall).2.2.1
    obtain ⟨hsize, hbytes⟩ := Prod.mk.inj byteRun_state
    have hlast := hfits (by rw [hsize]; decide)
    dsimp only at hlast
    rw [hsize, hbytes, List.length_replicate] at hlast
    exact absurd hlast (by decide)

end Example

end InfotmUboot
