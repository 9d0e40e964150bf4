import InfotmUboot.Net

/-!
# What is read of a frame and what is handed on

Every field that `NetReceive` asks for is in the frame unless the frame is an 802 one that ends
before its type; what it hands on as the data of a UDP packet is in the frame exactly if the length
in the UDP header says so, which it does not look at.
-/

namespace InfotmUboot

open Lib Prog

/-- Every field is in its header, and a type is what an 802 header ends with. -/
structure NetHeaders.Valid (H : NetHeaders) : Prop where
  etSrc : H.etSrc + 6 ≤ H.etherHdrSize
  etProtlen : H.etProtlen + 2 ≤ H.etherHdrSize
  ether_e802 : H.etherHdrSize ≤ H.e802HdrSize
  etProt : H.etProt + 2 = H.e802HdrSize
  ether_vlan : H.etherHdrSize ≤ H.vlanEtherHdrSize
  vetTag : H.vetTag + 2 ≤ H.vlanEtherHdrSize
  vetType : H.vetType + 2 ≤ H.vlanEtherHdrSize
  arpShort : ∀ len, 0 ≤ len → H.arpShort len = decide (len < H.arpHdrSize)
  ipShort : ∀ len, 0 ≤ len → H.ipShort len = decide (len < H.ipHdrSize)
  arHrd : H.arHrd + 2 ≤ H.arpHdrSize
  arPro : H.arPro + 2 ≤ H.arpHdrSize
  arHln : H.arHln + 1 ≤ H.arpHdrSize
  arPln : H.arPln + 1 ≤ H.arpHdrSize
  arOp : H.arOp + 2 ≤ H.arpHdrSize
  arData : H.arData + 20 ≤ H.arpHdrSize
  ipHlV : H.ipHlV + 1 ≤ H.ipHdrSize
  ipLen : H.ipLen + 2 ≤ H.ipHdrSize
  ipOff : H.ipOff + 2 ≤ H.ipHdrSize
  ipP : H.ipP + 1 ≤ H.ipHdrSize
  ipSrc : H.ipSrc + 4 ≤ H.ipHdrSize
  ipDst : H.ipDst + 4 ≤ H.ipHdrSize
  udpSrc : H.udpSrc + 2 ≤ H.ipHdrSize
  udpDst : H.udpDst + 2 ≤ H.ipHdrSize
  udpLen : H.udpLen + 2 ≤ H.ipHdrSize
  icmpType : H.udpSrc + H.icmpType + 1 ≤ H.ipHdrSize
  icmpCode : H.udpSrc + H.icmpCode + 1 ≤ H.ipHdrSize
  icmpGateway : H.udpSrc + H.icmpGateway + 4 ≤ H.ipHdrSize
  noUdp : H.ipHdrSizeNoUdp ≤ H.ipHdrSize
  protIp_ne_arp : H.protIp ≠ H.protArp
  protIp_ne_rarp : H.protIp ≠ H.protRarp

section Reads

variable {H : NetHeaders} (hH : H.Valid) (st : NetState) {n ip : ℕ} {len : ℤ}

/-- In a frame of `n` bytes. -/
def NetRead.Inside (n : ℕ) (o : NetRead) : Prop := o.start + o.len ≤ n

theorem asks_netField {start l : ℕ} (h : start + l ≤ n) :
    Asks (NetRead.Inside n) (netField start l) :=
  Asks.bind ((asks_op _).2 h) fun _ => trivial

theorem asks_read {start l : ℕ} (h : start + l ≤ n) :
    Asks (NetRead.Inside n) (Prog.op (R := List UInt8) (⟨start, l⟩ : NetRead)) :=
  (asks_op _).2 h

include hH

theorem asks_netArp (hlen : 0 ≤ len) (hin : ip + len ≤ n) (hether : H.etherHdrSize ≤ n) :
    Asks (NetRead.Inside n) (netArp H st ip len) := by
  have hshort := hH.arpShort len hlen
  unfold netArp
  refine Asks.ite (fun _ => trivial) fun hlong => ?_
  have hfits : ip + H.arpHdrSize ≤ n := by
    rw [hshort, decide_eq_true_eq] at hlong
    omega
  obtain ⟨hsrc, h1, h2, h3, h4, h5, h6⟩ : H.etSrc + 6 ≤ n ∧ ip + H.arHrd + 2 ≤ n ∧
      ip + H.arPro + 2 ≤ n ∧ ip + H.arHln + 1 ≤ n ∧ ip + H.arPln + 1 ≤ n ∧ ip + H.arOp + 2 ≤ n ∧
      ip + H.arData + 20 ≤ n := by
    have := hH.etSrc
    have := hH.arHrd
    have := hH.arPro
    have := hH.arHln
    have := hH.arPln
    have := hH.arOp
    have := hH.arData
    omega
  refine Asks.bind (asks_netField h1) fun _ => Asks.ite (fun _ => trivial) fun _ => ?_
  refine Asks.bind (asks_netField h2) fun _ => Asks.ite (fun _ => trivial) fun _ => ?_
  refine Asks.bind (asks_netField h3) fun _ => Asks.ite (fun _ => trivial) fun _ => ?_
  refine Asks.bind (asks_netField h4) fun _ => Asks.ite (fun _ => trivial) fun _ => ?_
  refine Asks.ite (fun _ => trivial) fun _ => ?_
  refine Asks.bind (asks_netField (by omega)) fun _ => Asks.ite (fun _ => trivial) fun _ => ?_
  refine Asks.bind (asks_netField h5) fun _ => Asks.ite (fun _ => ?_) fun _ => ?_
  · refine Asks.bind (asks_read hsrc) fun _ => Asks.bind (asks_read (by omega)) fun _ => trivial
  · refine Asks.ite (fun _ => ?_) fun _ => trivial
    refine Asks.ite (fun _ => trivial) fun _ => ?_
    refine Asks.bind (asks_netField (by omega)) fun _ => Asks.ite (fun _ => trivial) fun _ => ?_
    exact Asks.bind (asks_read (by omega)) fun _ => trivial

theorem asks_netRarp (hlen : 0 ≤ len) (hin : ip + len ≤ n) :
    Asks (NetRead.Inside n) (netRarp H st ip len) := by
  have hshort := hH.arpShort len hlen
  unfold netRarp
  refine Asks.ite (fun _ => trivial) fun hlong => ?_
  have hfits : ip + H.arpHdrSize ≤ n := by
    rw [hshort, decide_eq_true_eq] at hlong
    omega
  obtain ⟨h1, h2, h3, h4, h5, h6⟩ : ip + H.arHrd + 2 ≤ n ∧
      ip + H.arPro + 2 ≤ n ∧ ip + H.arHln + 1 ≤ n ∧ ip + H.arPln + 1 ≤ n ∧ ip + H.arOp + 2 ≤ n ∧
      ip + H.arData + 20 ≤ n := by
    have := hH.arHrd
    have := hH.arPro
    have := hH.arHln
    have := hH.arPln
    have := hH.arOp
    have := hH.arData
    omega
  refine Asks.bind (asks_netField h5) fun _ => Asks.ite (fun _ => trivial) fun _ => ?_
  refine Asks.bind (asks_netField h1) fun _ => Asks.ite (fun _ => trivial) fun _ => ?_
  refine Asks.bind (asks_netField h2) fun _ => Asks.ite (fun _ => trivial) fun _ => ?_
  refine Asks.bind (asks_netField h3) fun _ => Asks.ite (fun _ => trivial) fun _ => ?_
  refine Asks.bind (asks_netField h4) fun _ => Asks.ite (fun _ => trivial) fun _ => ?_
  refine Asks.bind (asks_read (by omega)) fun _ => Asks.ite (fun _ => ?_) fun _ => ?_
  · refine Asks.bind (asks_read (by omega)) fun _ => Asks.bind (asks_read (by omega)) fun _ => ?_
    trivial
  · exact Asks.bind (asks_read (by omega)) fun _ => trivial

theorem asks_netIcmp (l : ℤ) (hfits : ip + H.ipHdrSize ≤ n) (hether : H.etherHdrSize ≤ n) :
    Asks (NetRead.Inside n) (netIcmp H st ip l) := by
  have hsrc := hH.etSrc
  have htype := hH.icmpType
  have hcode := hH.icmpCode
  have hgateway := hH.icmpGateway
  have hipSrc := hH.ipSrc
  unfold netIcmp
  refine Asks.bind (asks_netField (by omega)) fun _ => Asks.ite (fun _ => ?_) fun _ => ?_
  · refine Asks.bind (asks_netField (by omega)) fun _ => Asks.ite (fun _ => trivial) fun _ => ?_
    exact Asks.bind (asks_read (by omega)) fun _ => trivial
  · refine Asks.ite (fun _ => trivial) fun _ => Asks.ite (fun _ => ?_) fun _ => trivial
    refine Asks.bind (asks_read (by omega)) fun _ => Asks.bind (asks_read (by omega)) fun _ => ?_
    trivial

theorem asks_netUdp (hfits : ip + H.ipHdrSize ≤ n) : Asks (NetRead.Inside n) (netUdp H ip) := by
  have hsrc := hH.udpSrc
  have hdst := hH.udpDst
  have hlen := hH.udpLen
  unfold netUdp
  refine Asks.bind (asks_netField (by omega)) fun _ => Asks.bind (asks_netField (by omega))
    fun _ => ?_
  exact Asks.bind (asks_netField (by omega)) fun _ => trivial

theorem asks_netIp (hlen : 0 ≤ len) (hin : ip + len ≤ n) (hether : H.etherHdrSize ≤ n) :
    Asks (NetRead.Inside n) (netIp H st ip len) := by
  have hshort := hH.ipShort len hlen
  unfold netIp
  refine Asks.ite (fun _ => trivial) fun hlong => ?_
  have hfits : ip + H.ipHdrSize ≤ n := by
    rw [hshort, decide_eq_true_eq] at hlong
    omega
  have h1 := hH.ipLen
  have h2 := hH.ipHlV
  have h3 := hH.ipOff
  have h4 := hH.noUdp
  have h5 := hH.ipDst
  have h6 := hH.ipP
  refine Asks.bind (asks_netField (by omega)) fun _ => Asks.ite (fun _ => trivial) fun _ => ?_
  refine Asks.bind (asks_netField (by omega)) fun _ => Asks.ite (fun _ => trivial) fun _ => ?_
  refine Asks.bind (asks_netField (by omega)) fun _ => Asks.ite (fun _ => trivial) fun _ => ?_
  refine Asks.ite (fun _ => trivial) fun _ => ?_
  refine Asks.bind (asks_read (by omega)) fun _ => Asks.ite (fun _ => trivial) fun _ => ?_
  refine Asks.bind (asks_netField (by omega)) fun _ => Asks.ite (fun _ => trivial) fun _ => ?_
  refine Asks.bind (asks_netField (by omega)) fun _ => ?_
  refine Asks.ite (fun _ => asks_netIcmp hH st _ hfits hether) fun _ => ?_
  exact Asks.ite (fun _ => trivial) fun _ => asks_netUdp hH hfits

theorem asks_netPacket (x vlanid : ℕ) (hlen : 0 ≤ len) (hin : ip + len ≤ n)
    (hether : H.etherHdrSize ≤ n) : Asks (NetRead.Inside n) (netPacket H st x vlanid ip len) := by
  unfold netPacket
  refine Asks.ite (fun _ => trivial) fun _ => ?_
  refine Asks.ite (fun _ => asks_netArp hH st hlen hin hether) fun _ => ?_
  refine Asks.ite (fun _ => asks_netRarp hH st hlen hin) fun _ => ?_
  exact Asks.ite (fun _ => asks_netIp hH st hlen hin hether) fun _ => trivial

end Reads

section Udp

variable {H : NetHeaders} {st : NetState} {m : Mem} {ip : ℕ} {len : ℤ}

/-- The value of a field. -/
def fieldAt (m : Mem) (start l : ℕ) : ℕ := ntoh (m.load start l)

theorem fieldAt_lt (m : Mem) (start : ℕ) : fieldAt m start 2 < 2 ^ 16 := by
  have h1 := (m start).toNat_lt
  have h2 := (m (start + 1)).toNat_lt
  change (0 * 256 + (m start).toNat) * 256 + (m (start + 1)).toNat < 2 ^ 16
  omega

@[simp]
theorem run_netField {α : Type} (start l : ℕ) (f : ℕ → NetProg α) :
    (run netRead (netField start l >>= f) m).val =
      (run netRead (f (fieldAt m start l)) m).val := rfl

@[simp]
theorem run_read {α : Type} (start l : ℕ) (f : List UInt8 → NetProg α) :
    (run netRead (Prog.op ⟨start, l⟩ >>= f) m).val =
      (run netRead (f (m.load start l)) m).val := rfl

/-- The checks that a UDP packet passes behind its Ethernet header. -/
structure UdpHeader (H : NetHeaders) (st : NetState) (m : Mem) (ip : ℕ) (len : ℤ) : Prop where
  long : H.ipShort len = false
  total : (fieldAt m (ip + H.ipLen) 2 : ℤ) ≤ len
  version : fieldAt m (ip + H.ipHlV) 1 &&& 0xf0 = 0x40
  whole : fieldAt m (ip + H.ipOff) 2 &&& H.ipFragment = 0
  plain : fieldAt m (ip + H.ipHlV) 1 &&& 0x0f ≤ 5
  checksum : netCksumOk (m.load ip (2 * (H.ipHdrSizeNoUdp / 2))) = true
  ours : st.ourIP = 0 ∨ fieldAt m (ip + H.ipDst) 4 = st.ourIP ∨
    fieldAt m (ip + H.ipDst) 4 = 0xffffffff
  notIcmp : fieldAt m (ip + H.ipP) 1 ≠ H.ipprotoIcmp
  udp : fieldAt m (ip + H.ipP) 1 = H.ipprotoUdp

/-- What the handler gets of it. -/
def udpDone (H : NetHeaders) (m : Mem) (ip : ℕ) : NetDone :=
  .udp (ip + H.ipHdrSize) (fieldAt m (ip + H.udpDst) 2) (fieldAt m (ip + H.udpSrc) 2)
    (toU32 (fieldAt m (ip + H.udpLen) 2 - 8))

/-- Nothing is handed on as UDP data. -/
def NotUdp (d : NetDone) : Prop := ∀ pkt dest src n, d ≠ .udp pkt dest src n

theorem notUdp_pure {d : NetDone} (h : NotUdp d) : Gives NotUdp (pure d : NetProg NetDone) := h

theorem notUdp_dropped : Gives NotUdp (pure .dropped : NetProg NetDone) :=
  notUdp_pure fun _ _ _ _ => NetDone.noConfusion

theorem netIcmp_notUdp (l : ℤ) : Gives NotUdp (netIcmp H st ip l) := by
  unfold netIcmp
  refine Gives.bind _ fun _ => Gives.ite (fun _ => ?_) fun _ => ?_
  · refine Gives.bind _ fun _ => Gives.ite (fun _ => notUdp_dropped) fun _ => ?_
    exact Gives.bind _ fun _ => notUdp_pure fun _ _ _ _ => NetDone.noConfusion
  · refine Gives.ite (fun _ => notUdp_pure fun _ _ _ _ => NetDone.noConfusion) fun _ => ?_
    refine Gives.ite (fun _ => ?_) fun _ => notUdp_dropped
    refine Gives.bind _ fun _ => Gives.bind _ fun _ => ?_
    exact notUdp_pure fun _ _ _ _ => NetDone.noConfusion

theorem netArp_notUdp : Gives NotUdp (netArp H st ip len) := by
  unfold netArp
  refine Gives.ite (fun _ => notUdp_dropped) fun _ => ?_
  refine Gives.bind _ fun _ => Gives.ite (fun _ => notUdp_dropped) fun _ => ?_
  refine Gives.bind _ fun _ => Gives.ite (fun _ => notUdp_dropped) fun _ => ?_
  refine Gives.bind _ fun _ => Gives.ite (fun _ => notUdp_dropped) fun _ => ?_
  refine Gives.bind _ fun _ => Gives.ite (fun _ => notUdp_dropped) fun _ => ?_
  refine Gives.ite (fun _ => notUdp_dropped) fun _ => ?_
  refine Gives.bind _ fun _ => Gives.ite (fun _ => notUdp_dropped) fun _ => ?_
  refine Gives.bind _ fun _ => Gives.ite (fun _ => ?_) fun _ => ?_
  · refine Gives.bind _ fun _ => Gives.bind _ fun _ => ?_
    exact notUdp_pure fun _ _ _ _ => NetDone.noConfusion
  · refine Gives.ite (fun _ => ?_) fun _ => notUdp_dropped
    refine Gives.ite (fun _ => notUdp_dropped) fun _ => ?_
    refine Gives.bind _ fun _ => Gives.ite (fun _ => notUdp_dropped) fun _ => ?_
    exact Gives.bind _ fun _ => notUdp_pure fun _ _ _ _ => NetDone.noConfusion

theorem netRarp_notUdp : Gives NotUdp (netRarp H st ip len) := by
  unfold netRarp
  refine Gives.ite (fun _ => notUdp_dropped) fun _ => ?_
  refine Gives.bind _ fun _ => Gives.ite (fun _ => notUdp_dropped) fun _ => ?_
  refine Gives.bind _ fun _ => Gives.ite (fun _ => notUdp_dropped) fun _ => ?_
  refine Gives.bind _ fun _ => Gives.ite (fun _ => notUdp_dropped) fun _ => ?_
  refine Gives.bind _ fun _ => Gives.ite (fun _ => notUdp_dropped) fun _ => ?_
  refine Gives.bind _ fun _ => Gives.ite (fun _ => notUdp_dropped) fun _ => ?_
  refine Gives.bind _ fun _ => Gives.ite (fun _ => ?_) fun _ => ?_
  · refine Gives.bind _ fun _ => Gives.bind _ fun _ => ?_
    exact notUdp_pure fun _ _ _ _ => NetDone.noConfusion
  · exact Gives.bind _ fun _ => notUdp_pure fun _ _ _ _ => NetDone.noConfusion

theorem netIp_val (h : UdpHeader H st m ip len) :
    (run netRead (netIp H st ip len) m).val = udpDone H m ip := by
  have hours : ¬(st.ourIP ≠ 0 ∧ fieldAt m (ip + H.ipDst) 4 ≠ st.ourIP ∧
      fieldAt m (ip + H.ipDst) 4 ≠ 0xffffffff) := by
    rintro ⟨h0, h1, h2⟩
    rcases h.ours with h | h | h
    · exact h0 h
    · exact h1 h
    · exact h2 h
  unfold netIp
  simp only [run_netField, run_ite_val, run_read]
  rw [if_neg (by rw [h.long]; exact Bool.false_ne_true), if_neg (not_lt.2 h.total),
    if_neg (not_not.2 h.version), if_neg (not_not.2 h.whole), if_neg (not_lt.2 h.plain),
    if_neg (by rw [h.checksum]; decide), if_neg hours,
    if_neg h.notIcmp, if_neg (not_not.2 h.udp)]
  rfl

theorem netIp_notUdp (h : ¬UdpHeader H st m ip len) :
    NotUdp (run netRead (netIp H st ip len) m).val := by
  have hdropped := notUdp_dropped.val netRead m
  unfold netIp
  simp only [run_netField, run_ite_val, run_read]
  split_ifs with h1 h2 h3 h4 h5 h6 h7 h8 h9
  · exact hdropped
  · exact hdropped
  · exact hdropped
  · exact hdropped
  · exact hdropped
  · exact hdropped
  · exact hdropped
  · exact (netIcmp_notUdp _).val netRead m
  · exact hdropped
  · refine absurd ⟨Bool.eq_false_iff.2 h1, not_lt.1 h2, not_not.1 h3, not_not.1 h4, not_lt.1 h5,
      Bool.eq_true_of_not_eq_false h6, ?_, h8, not_not.1 h9⟩ h
    by_contra hc
    exact h7 ⟨fun h => hc (Or.inl h), fun h => hc (Or.inr (Or.inl h)),
      fun h => hc (Or.inr (Or.inr h))⟩

end Udp

section Receive

variable (H : NetHeaders) (st : NetState) (m : Mem) (len : ℤ)

/-- The type and vlan of the packet in a frame, and where it begins, if it is looked at. -/
def netLocate : Option (ℕ × ℕ × ℕ) :=
  if len < H.etherHdrSize then none
  else if fieldAt m H.etProtlen 2 < 1514 then
    some (fieldAt m H.etProt 2, H.vlanNone, H.e802HdrSize)
  else if fieldAt m H.etProtlen 2 ≠ H.protVlan then
    some (fieldAt m H.etProtlen 2, H.vlanNone, H.etherHdrSize)
  else if len < H.vlanEtherHdrSize then none
  else if st.ourVLAN &&& H.vlanIdmask = H.vlanNone then none
  else some (fieldAt m H.vetType 2, fieldAt m H.vetTag 2 &&& H.vlanIdmask, H.vlanEtherHdrSize)

/-- The frame is an 802 one that ends before its type. -/
def ShortE802 : Prop :=
  H.etherHdrSize ≤ len ∧ fieldAt m H.etProtlen 2 < 1514 ∧ len < H.e802HdrSize

/-- The frame has a UDP packet for us, behind an IP header at `ip` that passes the checks. -/
structure HandsUdp (ip : ℕ) : Prop where
  packet : ∃ vlanid, netLocate H st m len = some (H.protIp, vlanid, ip) ∧
    (H.vlanOf st.ourVLAN = H.vlanNone ∨
      (if vlanid = H.vlanNone then H.vlanOf st.ourNativeVLAN else vlanid) = H.vlanOf st.ourVLAN)
  header : UdpHeader H st m ip (len - ip)

/-- What is asked of the handling of a frame: no field is read behind it, and no data behind it is
handed on. -/
structure NetRight (frame : List UInt8) (behind : Mem) : Prop where
  reads : ∀ e ∈ (netRun H st frame behind).log, e.1.Inside frame.length
  payload : ∀ pkt dest src n, (netRun H st frame behind).val = .udp pkt dest src n →
    pkt + n ≤ frame.length

/-- The frame has the type it says it has, and the UDP length of a packet that is handed on is one
of a header and of data in the frame. -/
structure NetFits (frame : List UInt8) (behind : Mem) : Prop where
  e802 : ¬ShortE802 H (behind.store 0 frame) frame.length
  udp : ∀ ip, HandsUdp H st (behind.store 0 frame) frame.length ip →
    8 ≤ fieldAt (behind.store 0 frame) (ip + H.udpLen) 2 ∧
      ip + H.ipHdrSize + (fieldAt (behind.store 0 frame) (ip + H.udpLen) 2 - 8) ≤ frame.length

variable {H st m len}

theorem netReceive_val : (run netRead (netReceive H st len) m).val =
    match netLocate H st m len with
    | none => .dropped
    | some (x, vlanid, ip) => (run netRead (netPacket H st x vlanid ip (len - ip)) m).val := by
  unfold netReceive netLocate
  simp only [run_netField, run_ite_val]
  split_ifs <;> rfl

/-- What is handed on as UDP data is that of a packet that passes the checks. -/
theorem netReceive_udp (hH : H.Valid) {pkt dest src n : ℕ} :
    (run netRead (netReceive H st len) m).val = .udp pkt dest src n ↔
      ∃ ip, HandsUdp H st m len ip ∧ udpDone H m ip = .udp pkt dest src n := by
  rw [netReceive_val]
  rcases hloc : netLocate H st m len with _ | ⟨x, vlanid, ip⟩
  · refine iff_of_false NetDone.noConfusion ?_
    rintro ⟨ip, ⟨⟨vlanid, hpacket, -⟩, -⟩, -⟩
    rw [hloc] at hpacket
    exact absurd hpacket (by simp)
  · dsimp only
    have hip : ∀ ip', HandsUdp H st m len ip' → x = H.protIp ∧ ip' = ip ∧
        (H.vlanOf st.ourVLAN = H.vlanNone ∨
          (if vlanid = H.vlanNone then H.vlanOf st.ourNativeVLAN else vlanid) =
            H.vlanOf st.ourVLAN) := by
      rintro ip' ⟨⟨vlanid', hpacket, hvlan⟩, -⟩
      rw [hloc, Option.some.injEq, Prod.mk.injEq, Prod.mk.injEq] at hpacket
      obtain ⟨hx, hv, hip⟩ := hpacket
      rw [hv]
      exact ⟨hx, hip.symm, hvlan⟩
    have hnone : NotUdp (run netRead (netPacket H st x vlanid ip (len - ip)) m).val ∨
        x = H.protIp ∧ (H.vlanOf st.ourVLAN = H.vlanNone ∨
          (if vlanid = H.vlanNone then H.vlanOf st.ourNativeVLAN else vlanid) =
            H.vlanOf st.ourVLAN) ∧
        netPacket H st x vlanid ip (len - ip) = netIp H st ip (len - ip) := by
      unfold netPacket
      by_cases hvlan : H.vlanOf st.ourVLAN ≠ H.vlanNone ∧
          (if vlanid = H.vlanNone then H.vlanOf st.ourNativeVLAN else vlanid) ≠
            H.vlanOf st.ourVLAN
      · rw [if_pos hvlan]
        exact Or.inl (notUdp_dropped.val netRead m)
      · rw [if_neg hvlan]
        by_cases harp : x = H.protArp
        · rw [if_pos harp]
          exact Or.inl (netArp_notUdp.val netRead m)
        · by_cases hrarp : x = H.protRarp
          · rw [if_neg harp, if_pos hrarp]
            exact Or.inl (netRarp_notUdp.val netRead m)
          · by_cases hx : x = H.protIp
            · rw [if_neg harp, if_neg hrarp, if_pos hx]
              exact Or.inr ⟨hx, by tauto, rfl⟩
            · rw [if_neg harp, if_neg hrarp, if_neg hx]
              exact Or.inl (notUdp_dropped.val netRead m)
    constructor
    · intro hval
      rcases hnone with hnone | ⟨hx, hvlan, heq⟩
      · exact absurd hval (hnone _ _ _ _)
      · rw [heq] at hval
        by_cases hudp : UdpHeader H st m ip (len - ip)
        · rw [netIp_val hudp] at hval
          exact ⟨ip, ⟨⟨vlanid, by rw [hloc, hx], hvlan⟩, hudp⟩, hval⟩
        · exact absurd hval (netIp_notUdp hudp _ _ _ _)
    · rintro ⟨ip', hhands, hdone⟩
      obtain ⟨hx, rfl, hvlan⟩ := hip _ hhands
      have heq : netPacket H st x vlanid ip' (len - ip') = netIp H st ip' (len - ip') := by
        unfold netPacket
        rw [if_neg (by tauto), if_neg (hx ▸ hH.protIp_ne_arp), if_neg (hx ▸ hH.protIp_ne_rarp),
          if_pos hx]
      rw [heq, netIp_val hhands.header, hdone]

/-- The fields asked for are in the frame, unless it is a short 802 one. -/
theorem netReceive_reads (hH : H.Valid) (n : ℕ) :
    (∀ e ∈ (run netRead (netReceive H st n) m).log, e.1.Inside n) ↔ ¬ShortE802 H m n := by
  unfold netReceive ShortE802
  by_cases hether : (n : ℤ) < H.etherHdrSize
  · rw [if_pos hether]
    exact iff_of_true (fun _ h => absurd h List.not_mem_nil) fun h => absurd h.1 (not_le.2 hether)
  · rw [if_neg hether]
    have hn : H.etherHdrSize ≤ n := by omega
    have hlog : ∀ f : ℕ → NetProg NetDone,
        (∀ e ∈ (run netRead (netField H.etProtlen 2 >>= f) m).log, e.1.Inside n) ↔
          ∀ e ∈ (run netRead (f (fieldAt m H.etProtlen 2)) m).log, e.1.Inside n := by
      intro f
      have hfirst : (⟨H.etProtlen, 2⟩ : NetRead).Inside n := by
        have := hH.etProtlen
        change H.etProtlen + 2 ≤ n
        omega
      exact List.forall_mem_cons.trans (and_iff_right hfirst)
    rw [hlog]
    split_ifs with h802 hvlan hshort hnone
    · have hlog2 : (∀ e ∈ (run netRead (netField H.etProt 2 >>= fun x =>
          netPacket H st x H.vlanNone H.e802HdrSize (n - H.e802HdrSize)) m).log, e.1.Inside n) ↔
          (⟨H.etProt, 2⟩ : NetRead).Inside n ∧ ∀ e ∈ (run netRead (netPacket H st
            (fieldAt m H.etProt 2) H.vlanNone H.e802HdrSize (n - H.e802HdrSize)) m).log,
              e.1.Inside n := List.forall_mem_cons
      rw [hlog2]
      have het := hH.etProt
      constructor
      · rintro ⟨hin, -⟩ ⟨-, -, hlt⟩
        have hin : H.etProt + 2 ≤ n := hin
        omega
      · intro hlong
        have hle : H.e802HdrSize ≤ n := by
          by_contra hc
          exact hlong ⟨by omega, h802, by omega⟩
        refine ⟨show H.etProt + 2 ≤ n by omega, fun e he => ?_⟩
        exact (asks_netPacket hH st _ _ (by omega) (by omega) hn).log netRead m e he
    · refine iff_of_true (fun e he => ?_) fun h => h802 h.2.1
      exact (asks_netPacket hH st _ _ (by omega) (by omega) hn).log netRead m e he
    · exact iff_of_true (fun _ h => absurd h List.not_mem_nil) fun h => h802 h.2.1
    · exact iff_of_true (fun _ h => absurd h List.not_mem_nil) fun h => h802 h.2.1
    · refine iff_of_true (fun e he => ?_) fun h => h802 h.2.1
      have htag := hH.vetTag
      have htype := hH.vetType
      have hasks : Asks (NetRead.Inside n) (netField H.vetTag 2 >>= fun cti =>
          netField H.vetType 2 >>= fun x => netPacket H st x (cti &&& H.vlanIdmask)
            H.vlanEtherHdrSize (n - H.vlanEtherHdrSize)) := by
        refine Asks.bind (asks_netField (by omega)) fun _ => ?_
        refine Asks.bind (asks_netField (by omega)) fun _ => ?_
        exact asks_netPacket hH st _ _ (by omega) (by omega) hn
      exact hasks.log netRead m e he

end Receive

/-- The handling of a frame is right exactly if the frame is long enough for its type and has the
data that its UDP header says. -/
theorem netReceive_right_iff {H : NetHeaders} (hH : H.Valid) (st : NetState) (frame : List UInt8)
    (behind : Mem) (hlen : frame.length < 2 ^ 31) :
    NetRight H st frame behind ↔ NetFits H st frame behind := by
  have hs32 : s32 frame.length = frame.length := s32_of_range (by omega) (by omega)
  have hreads : (∀ e ∈ (netRun H st frame behind).log, e.1.Inside frame.length) ↔
      ¬ShortE802 H (behind.store 0 frame) frame.length := by
    unfold netRun
    rw [hs32]
    exact netReceive_reads hH frame.length
  have hudp : ∀ pkt dest src n, (netRun H st frame behind).val = .udp pkt dest src n ↔
      ∃ ip, HandsUdp H st (behind.store 0 frame) frame.length ip ∧
        udpDone H (behind.store 0 frame) ip = .udp pkt dest src n := by
    intro pkt dest src n
    unfold netRun
    rw [hs32]
    exact netReceive_udp hH
  constructor
  · intro h
    refine ⟨hreads.1 h.reads, fun ip hhands => ?_⟩
    have hpay := h.payload _ _ _ _ ((hudp _ _ _ _).2 ⟨ip, hhands, rfl⟩)
    have hlt := fieldAt_lt (behind.store 0 frame) (ip + H.udpLen)
    unfold toU32 at hpay
    omega
  · intro h
    refine ⟨hreads.2 h.e802, fun pkt dest src n hval => ?_⟩
    obtain ⟨ip, hhands, hdone⟩ := (hudp _ _ _ _).1 hval
    obtain ⟨h8, hin⟩ := h.udp ip hhands
    have hlt := fieldAt_lt (behind.store 0 frame) (ip + H.udpLen)
    rw [udpDone, NetDone.udp.injEq] at hdone
    obtain ⟨rfl, -, -, rfl⟩ := hdone
    unfold toU32
    omega

section Example

/-- Ethernet, ARP, IP and UDP; the size of an IP header is unsigned, so that no negative length is
less. -/
def wireHeaders : NetHeaders where
  etherHdrSize := 14
  e802HdrSize := 22
  vlanEtherHdrSize := 18
  arpHdrSize := 28
  ipHdrSize := 28
  ipHdrSizeNoUdp := 20
  arpShort := fun len => decide (len < 28)
  ipShort := fun len => decide (0 ≤ len ∧ len < 28)
  etSrc := 6
  etProtlen := 12
  etProt := 20
  vetTag := 14
  vetType := 16
  arHrd := 0
  arPro := 2
  arHln := 4
  arPln := 5
  arOp := 6
  arData := 8
  ipHlV := 0
  ipLen := 2
  ipOff := 6
  ipP := 9
  ipSrc := 12
  ipDst := 16
  udpSrc := 20
  udpDst := 22
  udpLen := 24
  icmpType := 0
  icmpCode := 1
  icmpGateway := 4
  vlanNone := 4095
  vlanIdmask := 0x0fff
  protVlan := 0x8100
  protArp := 0x0806
  protRarp := 0x8035
  protIp := 0x0800
  arpEther := 1
  arpopRequest := 1
  arpopReply := 2
  rarpopReply := 4
  ipFragment := 0x3fff
  ipprotoIcmp := 1
  ipprotoUdp := 17
  icmpRedirect := 5
  icmpRedirHost := 1
  icmpEchoReply := 0
  icmpEchoRequest := 8

theorem wireHeaders_valid : wireHeaders.Valid := by
  constructor
  case ipShort =>
    intro len hlen
    exact decide_eq_decide.2 (and_iff_right hlen)
  all_goals first | decide | exact fun _ _ => rfl

def plainNet : NetState := ⟨0, 0, 0xffff, 0xffff, 0, false, 0, false⟩

/-- A broadcast UDP packet of 28 bytes with its header, and this length in it. -/
def udpFrame (hi lo : UInt8) : List UInt8 :=
  List.replicate 12 0xff ++ [0x08, 0x00] ++
  [0x45, 0, 0, 28, 0, 0, 0, 0, 64, 17, 0x7a, 0xd2, 0, 0, 0, 0, 255, 255, 255, 255] ++
  [0, 1, 0, 2, hi, lo, 0, 0]

/-- A broadcast UDP packet of 30 bytes with its header and two bytes of data. -/
def twoFrame : List UInt8 :=
  List.replicate 12 0xff ++ [0x08, 0x00] ++
  [0x45, 0, 0, 30, 0, 0, 0, 0, 64, 17, 0x7a, 0xd0, 0, 0, 0, 0, 255, 255, 255, 255] ++
  [0, 1, 0, 2, 0, 10, 0, 0] ++ [0xab, 0xcd]

theorem netReceive_right_two : NetRight wireHeaders plainNet twoFrame (fun _ => 0) ∧
    (netRun wireHeaders plainNet twoFrame fun _ => 0).val = .udp 42 2 1 2 := by
  refine ⟨(netReceive_right_iff wireHeaders_valid plainNet twoFrame (fun _ => 0)
    (by decide)).2 ⟨fun h => absurd h.2.1 (by decide), ?_⟩, by decide⟩
  rintro ip ⟨⟨vlanid, hpacket, -⟩, -⟩
  have hloc : netLocate wireHeaders plainNet (Mem.store (fun _ => 0) 0 twoFrame)
      twoFrame.length = some (0x0800, 4095, 14) := by decide
  rw [hloc, Option.some.injEq, Prod.mk.injEq, Prod.mk.injEq] at hpacket
  obtain ⟨-, -, rfl⟩ := hpacket
  decide

/-- A UDP length of 16 has eight bytes handed on that are behind the frame; of an 802 frame of 14
bytes the type is read behind its end. -/
theorem netReceive_wrong : ¬NetRight wireHeaders plainNet (udpFrame 0 16) (fun _ => 0) ∧
    ¬NetRight wireHeaders plainNet (List.replicate 14 0) fun _ => 0 := by
  constructor
  · intro h
    have hpay := h.payload 42 2 1 8 (by decide)
    exact absurd hpay (by decide)
  · intro h
    have hin : 20 + 2 ≤ 14 := h.reads (⟨20, 2⟩, [0, 0]) (by decide)
    omega

end Example

end InfotmUboot
