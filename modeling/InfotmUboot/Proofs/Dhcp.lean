import InfotmUboot.Dhcp
import Mathlib.Tactic

/-!
# What the DHCP client goes by

Any packet of the transaction is taken for an offer while the client waits for one, and the search
for the type of a later one does not end with the packet. Where these make no difference, the client
asks for what it was offered and is bound to what was acknowledged.
-/

namespace InfotmUboot

open Lib

/-- The message type among these options, where 0 is a pad, 255 the end, and every other one has its
length behind it. -/
def messageType : ℕ → List UInt8 → Option UInt8
  | 0, _ => none
  | _ + 1, [] => none
  | n + 1, tag :: rest =>
    if tag = 0 then messageType n rest
    else if tag = 255 then none
    else match rest with
      | [] => none
      | len :: value =>
        if tag = 53 ∧ 0 < len then value.head? else messageType n (value.drop len.toNat)

/-- A message of this type from a server, in this transaction. -/
def IsDhcp (bootpID : List UInt8) (type : UInt8) (p : BootpPkt) : Prop :=
  p.bpOp = 2 ∧ p.bpId = bootpID ∧ bpVend + 4 ≤ p.len ∧
    p.bytes.load bpVend 4 = BOOTP_VENDOR_MAGIC ∧
    messageType p.len (p.bytes.load (bpVend + 4) (p.len - (bpVend + 4))) = some type

instance (bootpID : List UInt8) (type : UInt8) (p : BootpPkt) : Decidable (IsDhcp bootpID type p) :=
  inferInstanceAs (Decidable (_ ∧ _ ∧ _ ∧ _ ∧ _))

/-- The client after a discover. -/
def dhcpStart (bootpID : List UInt8) (net : NetParams) (autoload : Option (List UInt8)) :
    DhcpState :=
  ⟨.selecting, bootpID, net, autoload⟩

/-- The client sends a request for this packet. -/
def Requests (s : DhcpState) (p : BootpPkt) : Prop :=
  ∃ id offeredIP dhcpServerIP, .sendRequest id offeredIP dhcpServerIP ∈ (dhcpHandler s p).2

/-- A run in which a request answers an offer, the client is bound by an acknowledgement behind a
request and keeps its address, and nothing else changes its phase. -/
structure DhcpRight (s : DhcpState) (pkts : List BootpPkt) : Prop where
  requests : ∀ pre p post, pkts = pre ++ p :: post → Requests (dhcpRun s pre) p →
    IsDhcp s.bootpID DHCP_OFFER p
  bound : ∀ pre p post, pkts = pre ++ p :: post → (dhcpRun s pre).phase ≠ .bound →
    (dhcpRun s (pre ++ [p])).phase = .bound → IsDhcp s.bootpID DHCP_ACK p ∧
      (∃ as q bs, pre = as ++ q :: bs ∧ Requests (dhcpRun s as) q) ∧
      ∀ cs ds, post = cs ++ ds → (dhcpRun s (pre ++ p :: cs)).phase = .bound ∧
        (dhcpRun s (pre ++ p :: cs)).net.ourIP = p.bpYiaddr
  forward : ∀ pre p post, pkts = pre ++ p :: post →
    (dhcpRun s (pre ++ [p])).phase ≠ (dhcpRun s pre).phase →
      IsDhcp s.bootpID DHCP_OFFER p ∨ IsDhcp s.bootpID DHCP_ACK p

/-- If the packet is one of the transaction: while an offer is awaited it is one, and while an
acknowledgement is, it is one if there is the type of one somewhere behind it. -/
def PktFits (s : DhcpState) (p : BootpPkt) : Prop :=
  bootpCheckPkt s.bootpID p = 0 →
    (s.phase = .selecting → IsDhcp s.bootpID DHCP_OFFER p) ∧
      (s.phase = .requesting → dhcpMessageType p = some DHCP_ACK → IsDhcp s.bootpID DHCP_ACK p)

def PktsFit : DhcpState → List BootpPkt → Prop
  | _, [] => True
  | s, p :: pkts => PktFits s p ∧ PktsFit (dhcpHandler s p).1 pkts

section Options

variable {m : Mem} {net : NetParams}

/-- The options are stored behind the addresses only. -/
theorem dhcpOption_bytes (popt : ℕ) {x : ℕ} (hx : x < bpFile) :
    (dhcpOption popt net m).2 x = m x := by
  unfold dhcpOption
  dsimp only
  split_ifs
  all_goals first
    | rfl
    | exact (Mem.store_of_lt _ _ (by omega)).trans (Mem.store_of_lt _ _ hx)

theorem dhcpOptionsFrom_bytes (last : ℕ) {x : ℕ} (hx : x < bpFile) :
    ∀ (n popt : ℕ) (net : NetParams) (m : Mem), (dhcpOptionsFrom last n popt net m).2 x = m x
  | 0, _, _, _ => rfl
  | n + 1, popt, net, m => by
    rw [dhcpOptionsFrom]
    split_ifs
    · dsimp only
      rw [dhcpOptionsFrom_bytes last hx n, dhcpOption_bytes popt hx]
    · rfl

theorem dhcpOptionsProcess_yiaddr : (dhcpOptionsProcess net m).2.load 16 4 = m.load 16 4 := by
  refine Mem.load_congr fun i hi => ?_
  unfold dhcpOptionsProcess
  split_ifs
  · exact dhcpOptionsFrom_bytes _ (by unfold bpFile; omega) _ _ _ _
  · rfl

theorem bootpCopyNetParams_ourIP : (bootpCopyNetParams net m).1.ourIP = m.load 16 4 := by
  unfold bootpCopyNetParams
  dsimp only
  split_ifs <;> rfl

end Options

section Handler

variable {s : DhcpState} {p : BootpPkt}

theorem handler_ignored (h : bootpCheckPkt s.bootpID p ≠ 0) : dhcpHandler s p = (s, []) := if_pos h

theorem handler_selecting (h : bootpCheckPkt s.bootpID p = 0) (hs : s.phase = .selecting) :
    (dhcpHandler s p).1.phase = .requesting ∧ Requests s p := by
  unfold Requests dhcpHandler
  rw [if_neg (not_not.2 h), hs]
  exact ⟨rfl, _, _, _, List.mem_cons_of_mem _ List.mem_cons_self⟩

theorem handler_ack (h : bootpCheckPkt s.bootpID p = 0) (hs : s.phase = .requesting)
    (ha : dhcpMessageType p = some DHCP_ACK) :
    (dhcpHandler s p).1.phase = .bound ∧ (dhcpHandler s p).1.net.ourIP = p.bpYiaddr := by
  unfold dhcpHandler
  rw [if_neg (not_not.2 h), hs]
  dsimp only
  rw [if_pos ha]
  exact ⟨rfl, bootpCopyNetParams_ourIP.trans dhcpOptionsProcess_yiaddr⟩

theorem handler_other (hs : s.phase = .requesting) (ha : dhcpMessageType p ≠ some DHCP_ACK) :
    dhcpHandler s p = (s, []) := by
  unfold dhcpHandler
  rw [hs]
  dsimp only
  rw [if_neg ha]
  split_ifs <;> rfl

theorem handler_bound (hs : s.phase = .bound) : dhcpHandler s p = (s, []) := by
  unfold dhcpHandler
  rw [hs]
  dsimp only
  split_ifs <;> rfl

/-- The handler does nothing but take an offer or an acknowledgement. -/
theorem handler_cases (s : DhcpState) (p : BootpPkt) (hs : s.phase ≠ .other) :
    dhcpHandler s p = (s, []) ∨ bootpCheckPkt s.bootpID p = 0 ∧ (s.phase = .selecting ∨
      s.phase = .requesting ∧ dhcpMessageType p = some DHCP_ACK) := by
  by_cases h : bootpCheckPkt s.bootpID p = 0
  · rcases hp : s.phase with _ | _ | _ | _
    · exact Or.inr ⟨h, Or.inl rfl⟩
    · by_cases ha : dhcpMessageType p = some DHCP_ACK
      · exact Or.inr ⟨h, Or.inr ⟨rfl, ha⟩⟩
      · exact Or.inl (handler_other hp ha)
    · exact Or.inl (handler_bound hp)
    · exact absurd hp hs
  · exact Or.inl (handler_ignored h)

theorem handler_id (s : DhcpState) (p : BootpPkt) : (dhcpHandler s p).1.bootpID = s.bootpID := by
  unfold dhcpHandler
  by_cases h : bootpCheckPkt s.bootpID p = 0
  · rw [if_neg (not_not.2 h)]
    rcases s.phase with _ | _ | _ | _
    · rfl
    · dsimp only
      split_ifs <;> rfl
    · rfl
    · rfl
  · rw [if_pos h]

/-- What follows an acknowledgement. -/
theorem no_request {net : NetParams} {m : Mem} {autoload : Option (List UInt8)}
    {id ip server : List UInt8} : DhcpCall.sendRequest id ip server ∉
      (bootpCopyNetParams net m).2 ++ [dhcpAutoload autoload] := by
  have hnext : dhcpAutoload autoload ≠ .sendRequest id ip server := by
    unfold dhcpAutoload
    split
    · split_ifs <;> simp
    · simp
  unfold bootpCopyNetParams
  dsimp only
  split_ifs <;> simp [hnext.symm]

/-- Requests are sent for what is taken for an offer only. -/
theorem Requests.selecting (h : Requests s p) :
    bootpCheckPkt s.bootpID p = 0 ∧ s.phase = .selecting := by
  obtain ⟨id, ip, server, hmem⟩ := h
  by_cases hc : bootpCheckPkt s.bootpID p = 0
  · refine ⟨hc, ?_⟩
    unfold dhcpHandler at hmem
    rw [if_neg (not_not.2 hc)] at hmem
    rcases hp : s.phase with _ | _ | _ | _ <;> rw [hp] at hmem
    · dsimp only at hmem
      split_ifs at hmem
      · exact absurd hmem no_request
      · exact absurd hmem List.not_mem_nil
    · exact absurd hmem List.not_mem_nil
    · exact absurd hmem List.not_mem_nil
  · rw [handler_ignored hc] at hmem
    exact absurd hmem List.not_mem_nil

end Handler

section Run

variable {s : DhcpState} {pkts pre post : List BootpPkt} {p : BootpPkt}

theorem dhcpRun_append (s : DhcpState) (as bs : List BootpPkt) :
    dhcpRun s (as ++ bs) = dhcpRun (dhcpRun s as) bs := List.foldl_append

theorem dhcpRun_one (s : DhcpState) (as : List BootpPkt) (p : BootpPkt) :
    dhcpRun s (as ++ [p]) = (dhcpHandler (dhcpRun s as) p).1 := dhcpRun_append s as [p]

theorem dhcpRun_id : ∀ (pkts : List BootpPkt) (s : DhcpState), (dhcpRun s pkts).bootpID = s.bootpID
  | [], _ => rfl
  | p :: pkts, s => (dhcpRun_id pkts (dhcpHandler s p).1).trans (handler_id s p)

theorem dhcpRun_bound : ∀ {pkts : List BootpPkt} {s : DhcpState}, s.phase = .bound →
    dhcpRun s pkts = s
  | [], _, _ => rfl
  | p :: pkts, s, h => by
    have hstep : dhcpRun s (p :: pkts) = dhcpRun (dhcpHandler s p).1 pkts := rfl
    rw [hstep, handler_bound h]
    exact dhcpRun_bound h

theorem pktsFit_iff : ∀ {pkts : List BootpPkt} {s : DhcpState}, PktsFit s pkts ↔
    ∀ pre p post, pkts = pre ++ p :: post → PktFits (dhcpRun s pre) p
  | [], s => by simp [PktsFit]
  | q :: pkts, s => by
    rw [PktsFit, pktsFit_iff]
    constructor
    · rintro ⟨hq, hrest⟩ pre p post heq
      rcases pre with _ | ⟨a, pre⟩
      · obtain ⟨rfl, -⟩ := List.cons.inj heq
        exact hq
      · obtain ⟨rfl, htail⟩ := List.cons.inj heq
        exact hrest pre p post htail
    · intro h
      exact ⟨h [] q pkts rfl, fun pre p post heq => h (q :: pre) p post (congrArg (q :: ·) heq)⟩

/-- What a run leads to: the client waits for an offer, or has sent a request. -/
structure DhcpReached (s : DhcpState) (pre : List BootpPkt) : Prop where
  phase : (dhcpRun s pre).phase ≠ .other
  asked : (dhcpRun s pre).phase ≠ .selecting →
    ∃ as q bs, pre = as ++ q :: bs ∧ Requests (dhcpRun s as) q

theorem DhcpReached.next (h : DhcpReached s pre) (p : BootpPkt) : DhcpReached s (pre ++ [p]) := by
  have hbefore (hsel : (dhcpRun s pre).phase ≠ .selecting) :
      ∃ as q bs, pre ++ [p] = as ++ q :: bs ∧ Requests (dhcpRun s as) q := by
    obtain ⟨as, q, bs, rfl, hq⟩ := h.asked hsel
    exact ⟨as, q, bs ++ [p], by rw [List.append_assoc, List.cons_append], hq⟩
  rcases handler_cases (dhcpRun s pre) p h.phase with hsame | ⟨hc, hsel | ⟨hreq, ha⟩⟩
  · refine ⟨?_, ?_⟩ <;> rw [dhcpRun_one, hsame]
    · exact h.phase
    · exact hbefore
  · obtain ⟨hphase, hq⟩ := handler_selecting hc hsel
    refine ⟨?_, fun _ => ⟨pre, p, [], rfl, hq⟩⟩
    rw [dhcpRun_one, hphase]
    exact DhcpPhase.noConfusion
  · refine ⟨?_, fun _ => hbefore (by rw [hreq]; exact DhcpPhase.noConfusion)⟩
    rw [dhcpRun_one, (handler_ack hc hreq ha).1]
    exact DhcpPhase.noConfusion

theorem dhcpReached (hs : s.phase = .selecting) (pre : List BootpPkt) : DhcpReached s pre := by
  induction pre using List.reverseRecOn with
  | nil => exact ⟨by rw [dhcpRun, List.foldl_nil, hs]; exact DhcpPhase.noConfusion, fun h =>
      absurd hs h⟩
  | append_singleton pre p ih => exact ih.next p

theorem right_of_fit (hs : s.phase = .selecting) (h : PktsFit s pkts) : DhcpRight s pkts := by
  have hfit := pktsFit_iff.1 h
  refine ⟨fun pre p post heq hreq => ?_, fun pre p post heq hnot hbound => ?_,
    fun pre p post heq hmoved => ?_⟩
  · obtain ⟨hc, hsel⟩ := hreq.selecting
    exact dhcpRun_id pre s ▸ (hfit pre p post heq hc).1 hsel
  · have hreached := dhcpReached hs pre
    rw [dhcpRun_one] at hbound
    rcases handler_cases (dhcpRun s pre) p hreached.phase with hsame | ⟨hc, hsel | ⟨hreq, ha⟩⟩
    · rw [hsame] at hbound
      exact absurd hbound hnot
    · rw [(handler_selecting hc hsel).1] at hbound
      exact DhcpPhase.noConfusion hbound
    · refine ⟨dhcpRun_id pre s ▸ (hfit pre p post heq hc).2 hreq ha,
        hreached.asked (by rw [hreq]; exact DhcpPhase.noConfusion), fun cs ds _ => ?_⟩
      obtain ⟨hphase, hip⟩ := handler_ack hc hreq ha
      rw [dhcpRun_append]
      change (dhcpRun (dhcpHandler (dhcpRun s pre) p).1 cs).phase = _ ∧
        (dhcpRun (dhcpHandler (dhcpRun s pre) p).1 cs).net.ourIP = _
      rw [dhcpRun_bound hphase]
      exact ⟨hphase, hip⟩
  · rw [dhcpRun_one] at hmoved
    rcases handler_cases (dhcpRun s pre) p (dhcpReached hs pre).phase with
      hsame | ⟨hc, hsel | ⟨hreq, ha⟩⟩
    · rw [hsame] at hmoved
      exact absurd rfl hmoved
    · exact Or.inl (dhcpRun_id pre s ▸ (hfit pre p post heq hc).1 hsel)
    · exact Or.inr (dhcpRun_id pre s ▸ (hfit pre p post heq hc).2 hreq ha)

theorem fit_of_right (h : DhcpRight s pkts) : PktsFit s pkts := by
  refine pktsFit_iff.2 fun pre p post heq hc => ⟨fun hsel => ?_, fun hreq ha => ?_⟩
  · rw [dhcpRun_id pre s]
    exact h.requests pre p post heq (handler_selecting hc hsel).2
  · rw [dhcpRun_id pre s]
    refine (h.bound pre p post heq (by rw [hreq]; exact DhcpPhase.noConfusion) ?_).1
    rw [dhcpRun_one]
    exact (handler_ack hc hreq ha).1

end Run

/-- The client goes by offers and acknowledgements alone in just the runs whose packets fit. -/
theorem dhcp_right_iff (bootpID : List UInt8) (net : NetParams) (autoload : Option (List UInt8))
    (pkts : List BootpPkt) : DhcpRight (dhcpStart bootpID net autoload) pkts ↔
      PktsFit (dhcpStart bootpID net autoload) pkts :=
  ⟨fit_of_right, right_of_fit rfl⟩

/-- A reply to a bootp request, without options, in the transaction 0. -/
def bootpReply : BootpPkt where
  bytes := fun i => if i = 0 then 2 else if i = 1 then 1 else if i = 2 then 6 else 0
  ram := 300
  dest := PORT_BOOTPC
  src := PORT_BOOTPS
  len := 300

theorem bootpReply_fails (net : NetParams) (autoload : Option (List UInt8)) :
    ¬PktsFit (dhcpStart [0, 0, 0, 0] net autoload) [bootpReply] := fun h => by
  have hoffer := (h.1 (show bootpCheckPkt [0, 0, 0, 0] bootpReply = 0 by decide)).1 rfl
  exact absurd hoffer.2.2.2.1 (by decide)

theorem dhcp_right_fails : ¬∀ (bootpID : List UInt8) (net : NetParams)
    (autoload : Option (List UInt8)) (pkts : List BootpPkt),
    DhcpRight (dhcpStart bootpID net autoload) pkts := fun h =>
  bootpReply_fails ⟨[], [], [], [], [], [], [], [], [], []⟩ none
    (fit_of_right (h [0, 0, 0, 0] ⟨[], [], [], [], [], [], [], [], [], []⟩ none [bootpReply]))

end InfotmUboot
