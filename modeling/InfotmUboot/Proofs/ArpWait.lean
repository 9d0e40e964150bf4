import InfotmUboot.Lib.Past
import InfotmUboot.NetSend
import InfotmUboot.Proofs.Net

/-!
# The packet that waits for an ARP reply

There is one place for it. Whatever is sent, received or timed out, what leaves that place is the
packet that was put there last, it leaves once, and it goes to the Ethernet address in a reply of
the host that was asked last (`arp_release`).
-/

namespace InfotmUboot

open Lib Prog

section Reply

variable (H : NetHeaders)

/-- At `ip` there is the ARP reply of a host with this address. -/
structure ArpReplyAt (m : Mem) (ip sender : ℕ) (mac : List UInt8) : Prop where
  hrd : fieldAt m (ip + H.arHrd) 2 = H.arpEther
  pro : fieldAt m (ip + H.arPro) 2 = H.protIp
  hln : fieldAt m (ip + H.arHln) 1 = 6
  pln : fieldAt m (ip + H.arPln) 1 = 4
  op : fieldAt m (ip + H.arOp) 2 = H.arpopReply
  sender : fieldAt m (ip + H.arData + 6) 4 = sender
  mac : m.load (ip + H.arData) 6 = mac

variable {H} {st : NetState} {m : Mem} {ip : ℕ} {len : ℤ}

/-- Nothing is said of an address. -/
def NotResolved (d : NetDone) : Prop := ∀ mac, d ≠ .arpResolved mac

theorem notResolved_pure {d : NetDone} (h : NotResolved d) :
    Gives NotResolved (pure d : NetProg NetDone) := h

theorem notResolved_dropped : Gives NotResolved (pure .dropped : NetProg NetDone) :=
  notResolved_pure fun _ => NetDone.noConfusion

theorem netRarp_notResolved : Gives NotResolved (netRarp H st ip len) := by
  unfold netRarp
  refine Gives.ite (fun _ => notResolved_dropped) fun _ => ?_
  refine Gives.bind _ fun _ => Gives.ite (fun _ => notResolved_dropped) fun _ => ?_
  refine Gives.bind _ fun _ => Gives.ite (fun _ => notResolved_dropped) fun _ => ?_
  refine Gives.bind _ fun _ => Gives.ite (fun _ => notResolved_dropped) fun _ => ?_
  refine Gives.bind _ fun _ => Gives.ite (fun _ => notResolved_dropped) fun _ => ?_
  refine Gives.bind _ fun _ => Gives.ite (fun _ => notResolved_dropped) fun _ => ?_
  refine Gives.bind _ fun _ => Gives.ite (fun _ => ?_) fun _ => ?_
  · refine Gives.bind _ fun _ => Gives.bind _ fun _ => ?_
    exact notResolved_pure fun _ => NetDone.noConfusion
  · exact Gives.bind _ fun _ => notResolved_pure fun _ => NetDone.noConfusion

theorem netIp_notResolved : Gives NotResolved (netIp H st ip len) := by
  unfold netIp netIcmp netUdp
  refine Gives.ite (fun _ => notResolved_dropped) fun _ => ?_
  refine Gives.bind _ fun _ => Gives.ite (fun _ => notResolved_dropped) fun _ => ?_
  refine Gives.bind _ fun _ => Gives.ite (fun _ => notResolved_dropped) fun _ => ?_
  refine Gives.bind _ fun _ => Gives.ite (fun _ => notResolved_dropped) fun _ => ?_
  refine Gives.ite (fun _ => notResolved_dropped) fun _ => ?_
  refine Gives.bind _ fun _ => Gives.ite (fun _ => notResolved_dropped) fun _ => ?_
  refine Gives.bind _ fun _ => Gives.ite (fun _ => notResolved_dropped) fun _ => ?_
  refine Gives.bind _ fun _ => Gives.ite (fun _ => ?_) fun _ => ?_
  · refine Gives.bind _ fun _ => Gives.ite (fun _ => ?_) fun _ => ?_
    · refine Gives.bind _ fun _ => Gives.ite (fun _ => notResolved_dropped) fun _ => ?_
      exact Gives.bind _ fun _ => notResolved_pure fun _ => NetDone.noConfusion
    · refine Gives.ite (fun _ => notResolved_pure fun _ => NetDone.noConfusion) fun _ => ?_
      refine Gives.ite (fun _ => ?_) fun _ => notResolved_dropped
      refine Gives.bind _ fun _ => Gives.bind _ fun _ => ?_
      exact notResolved_pure fun _ => NetDone.noConfusion
  · refine Gives.ite (fun _ => notResolved_dropped) fun _ => ?_
    refine Gives.bind _ fun _ => Gives.bind _ fun _ => Gives.bind _ fun _ => ?_
    exact notResolved_pure fun _ => NetDone.noConfusion

/-- A check whose failure gives something else was passed. -/
theorem passed_of_ite {α : Type} {c : Prop} [Decidable c] {a b x : α}
    (h : (if c then a else b) = x) (ha : a ≠ x) : ¬c ∧ b = x := by
  split_ifs at h with hc
  · exact absurd h ha
  · exact ⟨hc, h⟩

/-- An address is taken from a reply of the host that we wait for. -/
theorem netArp_resolved {mac : List UInt8}
    (h : (run netRead (netArp H st ip len) m).val = .arpResolved mac) :
    st.arpWaitPacketIP ≠ 0 ∧ st.arpWaitPacketMAC = true ∧
      ArpReplyAt H m ip st.arpWaitReplyIP mac := by
  have hdropped := notResolved_dropped.val netRead m mac
  unfold netArp at h
  simp only [run_netField, run_ite_val, run_read] at h
  obtain ⟨-, h⟩ := passed_of_ite h hdropped
  obtain ⟨hhrd, h⟩ := passed_of_ite h hdropped
  obtain ⟨hpro, h⟩ := passed_of_ite h hdropped
  obtain ⟨hhln, h⟩ := passed_of_ite h hdropped
  obtain ⟨hpln, h⟩ := passed_of_ite h hdropped
  obtain ⟨-, h⟩ := passed_of_ite h hdropped
  obtain ⟨-, h⟩ := passed_of_ite h hdropped
  obtain ⟨-, h⟩ := passed_of_ite h NetDone.noConfusion
  by_cases hop : fieldAt m (ip + H.arOp) 2 = H.arpopReply
  · rw [if_pos hop] at h
    obtain ⟨hwait, h⟩ := passed_of_ite h hdropped
    obtain ⟨hsender, h⟩ := passed_of_ite h hdropped
    rw [not_or, Bool.not_eq_false] at hwait
    exact ⟨hwait.1, hwait.2, not_not.1 hhrd, not_not.1 hpro, not_not.1 hhln, not_not.1 hpln, hop,
      not_not.1 hsender, NetDone.arpResolved.inj h⟩
  · rw [if_neg hop] at h
    exact absurd h hdropped

theorem netReceive_resolved {frame : List UInt8} {behind : Mem} {mac : List UInt8}
    (h : (netRun H st frame behind).val = .arpResolved mac) :
    st.arpWaitPacketIP ≠ 0 ∧ st.arpWaitPacketMAC = true ∧
      ∃ ip, ArpReplyAt H (behind.store 0 frame) ip st.arpWaitReplyIP mac := by
  unfold netRun at h
  rw [netReceive_val] at h
  rcases hloc : netLocate H st (behind.store 0 frame) (s32 frame.length) with _ | ⟨x, vlanid, ip⟩
  · rw [hloc] at h
    exact absurd h NetDone.noConfusion
  · rw [hloc] at h
    dsimp only at h
    unfold netPacket at h
    dsimp only at h
    generalize (if vlanid = H.vlanNone then _ else vlanid) = vlanid at h
    simp only [run_ite_val] at h
    split_ifs at h with hvlan harp hrarp hip
    · exact absurd h (notResolved_dropped.val netRead _ mac)
    · obtain ⟨hwait, hmac, hreply⟩ := netArp_resolved h
      exact ⟨hwait, hmac, ip, hreply⟩
    · exact absurd h (netRarp_notResolved.val netRead _ mac)
    · exact absurd h (netIp_notResolved.val netRead _ mac)
    · exact absurd h (notResolved_dropped.val netRead _ mac)

end Reply

section Wait

/-- What leaves the packet that waits where it is. -/
def NetAct.Passes : NetAct → Prop
  | .queue _ _ => False
  | .release _ => False
  | _ => True

/-- Whose address is asked for. -/
def NetAct.asked : NetAct → Option ℕ
  | .ask ip _ => some ip
  | _ => none

/-- The last packet that was put there is this one, it has not left yet, and this host was the last
one that was asked for its address. -/
structure Waits (log : List (NetEvent × NetAct)) (packet : List UInt8) (ip : ℕ) : Prop where
  last : ∃ early ev dest late, log = early ++ (ev, .queue dest packet) :: late ∧
    (∀ e ∈ late, e.2.Passes) ∧ (late.filterMap fun e => e.2.asked).getLast? = some ip

/-- The packet with this Ethernet address. -/
def NetBuild.withDest (H : NetBuild) (mac packet : List UInt8) : List UInt8 :=
  (Mem.store (fun i => packet.getD i 0) H.etDest mac).load 0 packet.length

/-- A frame that leaves the place is the packet that waits there, with the address in a reply of the
host that was asked. -/
def NetBuild.Rightly (H : NetBuild) (log : List (NetEvent × NetAct)) (e : NetEvent × NetAct) :
    Prop :=
  ∀ frame, e.2 = .release frame → ∃ packet ip mac, Waits log packet ip ∧
    frame = H.withDest mac packet ∧ ∃ reply behind pkt, e.1 = .receive reply behind ∧
      ArpReplyAt H.toNetHeaders (Mem.store behind 0 reply) pkt ip mac

theorem Waits.pass {log : List (NetEvent × NetAct)} {packet : List UInt8} {ip : ℕ}
    (h : Waits log packet ip) {e : NetEvent × NetAct} (he : e.2.Passes) :
    Waits (log ++ [e]) packet (e.2.asked.getD ip) := by
  obtain ⟨early, ev, dest, late, rfl, hlate, hask⟩ := h.last
  refine ⟨early, ev, dest, late ++ [e], by simp, fun a ha => ?_, ?_⟩
  · rcases List.mem_append.1 ha with h | h
    · exact hlate a h
    · rw [List.mem_singleton.1 h]
      exact he
  · rw [List.filterMap_append, List.filterMap_cons, List.filterMap_nil]
    rcases e.2.asked with _ | ip'
    · rw [List.append_nil]
      exact hask
    · exact List.getLast?_concat

theorem waits_queue (log : List (NetEvent × NetAct)) (ev : NetEvent) (dest ip : ℕ)
    (packet frame : List UInt8) :
    Waits (log ++ [(ev, .queue dest packet), (ev, .ask ip frame)]) packet ip :=
  ⟨log, ev, dest, [(ev, .ask ip frame)], rfl, by simp [NetAct.Passes], rfl⟩

end Wait

section Step

variable {H : NetBuild} {tx : NetTx}

/-- Something waits for a reply. -/
def NetTx.Waiting (tx : NetTx) : Prop :=
  tx.arpWaitPacketIP ≠ 0 ∧ tx.arpWaitPacketMAC.isSome = true

/-- The packet that waits. -/
def NetTx.packet (tx : NetTx) : List UInt8 := tx.arpWaitTxPacket.load 0 tx.arpWaitTxPacketSize

/-- What an event can do with it. -/
inductive ArpStep (H : NetBuild) (tx : NetTx) (ev : NetEvent) (acts : List NetAct) (tx' : NetTx) :
    Prop where
  | keep (hacts : ∀ a ∈ acts, a.Passes ∧ a.asked = none)
      (hwait : tx'.Waiting → tx.Waiting ∧ tx'.packet = tx.packet ∧
        tx'.arpWaitReplyIP = tx.arpWaitReplyIP)
  | ask (ip : ℕ) (frame : List UInt8) (hacts : acts = [.ask ip frame])
      (hwait : tx'.Waiting → tx.Waiting ∧ tx'.packet = tx.packet) (hip : tx'.arpWaitReplyIP = ip)
  | queue (dest ip : ℕ) (packet frame : List UInt8)
      (hacts : acts = [.queue dest packet, .ask ip frame]) (hpacket : tx'.packet = packet)
      (hip : tx'.arpWaitReplyIP = ip)
  | release (mac reply : List UInt8) (behind : Mem) (pkt : ℕ) (hwait : tx.Waiting)
      (hev : ev = .receive reply behind)
      (hreply : ArpReplyAt H.toNetHeaders (behind.store 0 reply) pkt tx.arpWaitReplyIP mac)
      (hacts : acts = [.release (H.withDest mac tx.packet)]) (hdone : ¬tx'.Waiting)

theorem ArpStep.idle {ev : NetEvent} : ArpStep H tx ev [] tx :=
  .keep (by simp) fun h => ⟨h, rfl, rfl⟩

theorem EtherAddr.ofBytes_bytes {bs : List UInt8} (h : bs.length = 6) :
    (EtherAddr.ofBytes bs).bytes = bs := by
  refine List.ext_getElem (by simp [EtherAddr.bytes, h]) fun i h1 h2 => ?_
  simp only [EtherAddr.bytes, EtherAddr.ofBytes, List.getElem_ofFn]
  exact List.getD_eq_getElem _ _ h2

/-- The address is written over the one in the packet. -/
theorem withDest_packet (mac : List UInt8) :
    (tx.arpWaitTxPacket.store H.etDest mac).load 0 tx.arpWaitTxPacketSize =
      H.withDest mac tx.packet := by
  unfold NetBuild.withDest NetTx.packet
  rw [Mem.length_load]
  refine Mem.load_congr fun i hi => ?_
  unfold Mem.store
  split_ifs with hin
  · rfl
  · have hget := Mem.getElem_load tx.arpWaitTxPacket 0 tx.arpWaitTxPacketSize i
      (by rwa [Mem.length_load])
    rw [← hget]
    change _ = (tx.arpWaitTxPacket.load 0 tx.arpWaitTxPacketSize).getD (0 + i) 0
    rw [Nat.zero_add]
    exact (List.getD_eq_getElem _ _ _).symm

/-- A request goes out, and its answer is waited for. -/
theorem arpRequest_eq (H : NetBuild) (tx : NetTx) : ∃ frame m, tx.arpRequest H =
    ([.ask tx.replyIP frame], { tx with txPacket := m, arpWaitReplyIP := tx.replyIP }) :=
  ⟨_, _, rfl⟩

theorem arpReply_arpStep {reply : List UInt8} {behind : Mem} {pkt : ℕ} {mac : List UInt8}
    (hwait : tx.Waiting)
    (hreply : ArpReplyAt H.toNetHeaders (behind.store 0 reply) pkt tx.arpWaitReplyIP mac) :
    ArpStep H tx (.receive reply behind) (tx.arpReply H mac).1 (tx.arpReply H mac).2 := by
  have hbytes : (EtherAddr.ofBytes mac).bytes = mac := by
    refine EtherAddr.ofBytes_bytes ?_
    rw [← hreply.mac, Mem.length_load]
  have hacts : (tx.arpReply H mac).1 = [.release (H.withDest mac tx.packet)] := by
    unfold NetTx.arpReply
    dsimp only
    rw [hbytes, withDest_packet]
  have hdone : ¬(tx.arpReply H mac).2.Waiting := by
    unfold NetTx.arpReply
    exact fun h => h.1 rfl
  exact .release mac reply behind pkt hwait rfl hreply hacts hdone

theorem receive_arpStep (frame : List UInt8) (behind : Mem) :
    ArpStep H tx (.receive frame behind) (tx.receive H frame behind).1
      (tx.receive H frame behind).2 := by
  have hresolved (mac : List UInt8)
      (h : (netRun H.toNetHeaders tx.netState frame behind).val = .arpResolved mac) :=
    netReceive_resolved h
  unfold NetTx.receive
  generalize (netRun H.toNetHeaders tx.netState frame behind).val = done at hresolved ⊢
  cases done
  case arpResolved mac =>
    obtain ⟨hip, hmac, pkt, hreply⟩ := hresolved mac rfl
    exact arpReply_arpStep ⟨hip, hmac⟩ hreply
  all_goals exact .idle

theorem timeout_arpStep (now : ℕ) : ArpStep H tx (.timeout now) (tx.arpTimeoutCheck H now).1
    (tx.arpTimeoutCheck H now).2 := by
  unfold NetTx.arpTimeoutCheck
  split_ifs with hnone hlate htry
  · exact .idle
  · exact .keep (by simp [NetAct.Passes, NetAct.asked]) fun h => ⟨h, rfl, rfl⟩
  · obtain ⟨frame, m, heq⟩ := arpRequest_eq H { tx with
      arpWaitTry := tx.arpWaitTry + 1
      arpWaitTimerStart := now }
    rw [heq]
    exact .ask _ _ rfl (fun h => ⟨h, rfl⟩) rfl
  · exact .idle

theorem send_arpStep (ether : EtherPtr) (dest dport sport len now : ℕ) :
    ArpStep H tx (.send ether dest dport sport len now)
      (tx.netSendUDPPacket H ether dest dport sport len now).2.1
      (tx.netSendUDPPacket H ether dest dport sport len now).2.2 := by
  unfold NetTx.netSendUDPPacket
  dsimp only
  generalize (if dest = 0 then 0xffffffff else dest) = ip
  generalize (if ip = 0xffffffff then netBcastAddr else tx.ethers ether) = addr
  split_ifs with hnull
  · generalize netSetIP H tx.toNetVars _ _ ip dport sport len = headers
    generalize netSetEther H tx.toNetVars _ 0 addr H.protIp = r
    obtain ⟨frame, m, heq⟩ := arpRequest_eq H { tx with
      ipId := u32 (tx.ipId + 1)
      arpWaitPacketIP := ip
      arpWaitPacketMAC := some ether
      arpWaitTxPacket :=
        headers.store (r.2 + H.ipHdrSize) (tx.txPacket.load (r.2 + H.ipHdrSize) len)
      arpWaitTxPacketSize := r.2 + H.ipHdrSize + len
      arpWaitTry := 1
      arpWaitTimerStart := now }
    rw [heq]
    exact .queue _ _ _ _ rfl rfl rfl
  · exact .keep (by simp [NetAct.Passes, NetAct.asked]) fun h => ⟨h, rfl, rfl⟩

theorem ping_arpStep (now : ℕ) :
    ArpStep H tx (.ping now) (tx.pingSend H now).1 (tx.pingSend H now).2 := by
  unfold NetTx.pingSend
  dsimp only
  generalize Mem.store _ _ (bytes16 _) = m
  generalize (netSetEther H tx.toNetVars tx.arpWaitTxPacket 0 netEtherNullAddr H.protIp).2 = pkt
  obtain ⟨frame, m', heq⟩ := arpRequest_eq H { tx with
    ethers := Function.update tx.ethers .pingMac netEtherNullAddr
    ipId := u32 (tx.ipId + 1)
    pingSeqNo := tx.pingSeqNo + 1
    arpWaitPacketIP := tx.pingIP
    arpWaitPacketMAC := some .pingMac
    arpWaitTxPacket := m
    arpWaitTxPacketSize := pkt + H.ipHdrSizeNoUdp + 8
    arpWaitTry := 1
    arpWaitTimerStart := now }
  rw [heq]
  exact .queue _ _ _ _ rfl rfl rfl

variable (H tx) in
theorem step_arpStep : ∀ ev : NetEvent, ArpStep H tx ev (tx.step H ev).1 (tx.step H ev).2
  | .netLoop => .keep (fun _ h => absurd h List.not_mem_nil) fun h => absurd rfl h.1
  | .set _ => .keep (fun _ h => absurd h List.not_mem_nil) fun h => ⟨h, rfl, rfl⟩
  | .send ether dest dport sport len now => send_arpStep ether dest dport sport len now
  | .ping now => ping_arpStep now
  | .timeout now => timeout_arpStep now
  | .receive frame behind => receive_arpStep frame behind

end Step

section Run

variable {H : NetBuild}

/-- What waits is what the log says. -/
structure ArpInv (H : NetBuild) (tx : NetTx) (log : List (NetEvent × NetAct)) : Prop where
  waits : tx.Waiting → Waits log tx.packet tx.arpWaitReplyIP
  rightly : Past H.Rightly log

theorem rightly_of_passes {e : NetEvent × NetAct} (he : e.2.Passes)
    (log : List (NetEvent × NetAct)) : H.Rightly log e := by
  intro frame hframe
  rw [hframe] at he
  exact he.elim

theorem waits_pass_all {packet : List UInt8} {ip : ℕ} {ev : NetEvent} :
    ∀ {acts : List NetAct} {log : List (NetEvent × NetAct)}, Waits log packet ip →
      (∀ a ∈ acts, a.Passes ∧ a.asked = none) → Waits (log ++ acts.map (Prod.mk ev)) packet ip
  | [], log, h, _ => by rwa [List.map_nil, List.append_nil]
  | a :: acts, log, h, hacts => by
    obtain ⟨⟨hpass, hasked⟩, hrest⟩ := List.forall_mem_cons.mp hacts
    have hone := h.pass (e := (ev, a)) hpass
    rw [hasked, Option.getD_none] at hone
    rw [List.map_cons, List.append_cons]
    exact waits_pass_all hone hrest

/-- One event. -/
theorem ArpInv.step {tx : NetTx} {log : List (NetEvent × NetAct)} (h : ArpInv H tx log)
    (ev : NetEvent) :
    ArpInv H (tx.step H ev).2 (log ++ (tx.step H ev).1.map (Prod.mk ev)) := by
  have hstep := step_arpStep H tx ev
  generalize (tx.step H ev).1 = acts at hstep ⊢
  generalize (tx.step H ev).2 = tx' at hstep ⊢
  cases hstep with
  | keep hacts hwait =>
    refine ⟨fun hw => ?_, h.rightly.append fun e he => ?_⟩
    · obtain ⟨hw', hpacket, hip⟩ := hwait hw
      rw [hpacket, hip]
      exact waits_pass_all (h.waits hw') hacts
    · obtain ⟨a, ha, rfl⟩ := List.mem_map.mp he
      exact rightly_of_passes (hacts a ha).1
  | ask ip frame hacts hwait hip =>
    have hpasses : (ev, NetAct.ask ip frame).2.Passes := trivial
    rw [hacts]
    refine ⟨fun hw => ?_, h.rightly.snoc (rightly_of_passes hpasses log)⟩
    obtain ⟨hw', hpacket⟩ := hwait hw
    rw [hpacket, hip]
    exact (h.waits hw').pass hpasses
  | queue dest ip packet frame hacts hpacket hip =>
    rw [hacts]
    refine ⟨fun _ => ?_, h.rightly.append fun e he before out hout => ?_⟩
    · rw [hpacket, hip]
      exact waits_queue log ev dest ip packet frame
    · obtain ⟨a, ha, rfl⟩ := List.mem_map.mp he
      simp only [List.mem_cons, List.not_mem_nil, or_false] at ha
      rcases ha with rfl | rfl
      · exact absurd hout NetAct.noConfusion
      · exact absurd hout NetAct.noConfusion
  | release mac reply behind pkt hwait hev hreply hacts hdone =>
    rw [hacts]
    refine ⟨fun hw => absurd hw hdone, h.rightly.snoc fun frame hframe => ?_⟩
    exact ⟨_, _, _, h.waits hwait, (NetAct.release.inj hframe).symm, _, _, _, hev, hreply⟩

theorem ArpInv.run : ∀ {evs : List NetEvent} {tx : NetTx} {log : List (NetEvent × NetAct)},
    ArpInv H tx log → ArpInv H (tx.run H evs).2 (log ++ (tx.run H evs).1)
  | [], tx, log, h => by
    unfold NetTx.run
    rwa [List.append_nil]
  | ev :: evs, tx, log, h => by
    unfold NetTx.run
    dsimp only
    rw [← List.append_assoc]
    exact (h.step ev).run

end Run

/-- Of whatever happens after `NetLoop` has begun, each packet that had to wait leaves rightly: it
is the last one that was put there, was not sent before, and goes to the address in a reply of the
host that was asked. -/
theorem arp_release (H : NetBuild) (tx : NetTx) (evs : List NetEvent) :
    Past H.Rightly (tx.netLoop.run H evs).1 := by
  have hstart : ArpInv H tx.netLoop [] := ⟨fun h => absurd rfl h.1, past_nil⟩
  exact hstart.run.rightly

end InfotmUboot
