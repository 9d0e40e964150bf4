import InfotmUboot.NetSend
import InfotmUboot.Proofs.Net

/-!
# What a peer gets of a packet

The headers that `NetSendUDPPacket` writes pass every check of a peer's `NetReceive`, whatever the
addresses, ports and lengths are, at once or when the packet had to wait for an ARP reply; the
handler gets the payload, and nothing of what the Ethernet pads the frame with (`netSend_received`).
-/

namespace InfotmUboot

open Lib

/-- The headers of Ethernet, IP and UDP as they are on the wire. -/
structure NetBuild.Wire (H : NetBuild) : Prop where
  valid : H.toNetHeaders.Valid
  etherHdrSize : H.etherHdrSize = 14
  vlanEtherHdrSize : H.vlanEtherHdrSize = 18
  ipHdrSize : H.ipHdrSize = 28
  ipHdrSizeNoUdp : H.ipHdrSizeNoUdp = 20
  etDest : H.etDest = 0
  etSrc : H.etSrc = 6
  etProtlen : H.etProtlen = 12
  vetVlanType : H.vetVlanType = 12
  vetTag : H.vetTag = 14
  vetType : H.vetType = 16
  ipHlV : H.ipHlV = 0
  ipTos : H.ipTos = 1
  ipLen : H.ipLen = 2
  ipId : H.ipId = 4
  ipOff : H.ipOff = 6
  ipTtl : H.ipTtl = 8
  ipP : H.ipP = 9
  ipSum : H.ipSum = 10
  ipSrc : H.ipSrc = 12
  ipDst : H.ipDst = 16
  udpSrc : H.udpSrc = 20
  udpDst : H.udpDst = 22
  udpLen : H.udpLen = 24
  udpXsum : H.udpXsum = 26
  ipDfrag : H.ipDfrag = 0x4000
  ipFragment : H.ipFragment = 0x3fff
  ipprotoIcmp : H.ipprotoIcmp = 1
  ipprotoUdp : H.ipprotoUdp = 17
  protIp : H.protIp = 0x0800
  protVlan : H.protVlan = 0x8100
  vlanNone : H.vlanNone = 4095
  vlanIdmask : H.vlanIdmask = 0x0fff

section Sum

/-- The sum of an even number of bytes does not depend on what follows. -/
theorem sumWords_append : ∀ {as : List UInt8} (bs : List UInt8), as.length % 2 = 0 →
    sumWords (as ++ bs) = sumWords as + sumWords bs
  | [], bs, _ => by simp [sumWords]
  | [_], _, h => by simp at h
  | lo :: hi :: as, bs, h => by
    have heven : as.length % 2 = 0 := by
      simp only [List.length_cons] at h
      omega
    simp only [List.cons_append, sumWords]
    rw [sumWords_append bs heven]
    omega

theorem sumWords_le : ∀ bs : List UInt8, sumWords bs ≤ 0xffff * (bs.length / 2)
  | [] => by simp [sumWords]
  | [_] => by simp [sumWords]
  | lo :: hi :: bs => by
    have hlo := lo.toNat_lt
    have hhi := hi.toNat_lt
    have hrest := sumWords_le bs
    simp only [sumWords, List.length_cons]
    omega

theorem sumWords_bytes16 {n : ℕ} (h : n < 2 ^ 16) (bs : List UInt8) :
    sumWords (bytes16 n ++ bs) = n + sumWords bs := by
  simp only [bytes16, List.cons_append, List.nil_append, sumWords, UInt8.toNat_ofNat']
  omega

/-- The sum in one's complement: it is zero only of zero words. -/
theorem netCksum_spec (bs : List UInt8) (h : bs.length < 2 ^ 17) :
    netCksum bs ≤ 0xffff ∧ (netCksum bs = 0 → sumWords bs = 0) ∧
      ∃ q, sumWords bs = netCksum bs + 0xffff * q := by
  have hle := sumWords_le bs
  unfold netCksum
  dsimp only
  generalize sumWords bs = n at hle ⊢
  have hfold : n = n % 2 ^ 16 + n / 2 ^ 16 + 0xffff * (n / 2 ^ 16) := by omega
  refine ⟨by omega, by omega, n / 2 ^ 16 + (n % 2 ^ 16 + n / 2 ^ 16) / 2 ^ 16, by omega⟩

/-- A header passes with its own sum in it. -/
theorem netCksumOk_sum {as bs : List UInt8} (heven : as.length % 2 = 0)
    (hlen : as.length + 2 + bs.length < 2 ^ 17) :
    netCksumOk (as ++ (bytes16 (0xffff - netCksum (as ++ ([0, 0] ++ bs))) ++ bs)) = true := by
  have hzero : sumWords (as ++ ([0, 0] ++ bs)) = sumWords as + sumWords bs := by
    rw [sumWords_append _ heven]
    simp [sumWords]
  obtain ⟨hle, -, q, hq⟩ :=
    netCksum_spec (as ++ ([0, 0] ++ bs)) (by simp only [List.length_append]; simp; omega)
  rw [hzero] at hq
  generalize netCksum (as ++ ([0, 0] ++ bs)) = ck at hle hq ⊢
  have hsum : sumWords (as ++ (bytes16 (0xffff - ck) ++ bs)) = 0xffff * (q + 1) := by
    rw [sumWords_append _ heven, sumWords_bytes16 (by omega)]
    omega
  obtain ⟨hle', hpos, q', hq'⟩ := netCksum_spec (as ++ (bytes16 (0xffff - ck) ++ bs)) (by
    simp only [List.length_append, length_bytes16]
    omega)
  have hall : netCksum (as ++ (bytes16 (0xffff - ck) ++ bs)) = 0xffff := by omega
  unfold netCksumOk
  rw [hall]
  rfl

end Sum

section Fields

theorem ntoh_htons (n : ℕ) : ntoh (htons n) = n % 2 ^ 16 := by
  simp only [ntoh, htons, List.foldl_cons, List.foldl_nil, UInt8.toNat_ofNat']
  omega

theorem ntoh_htonl (n : ℕ) : ntoh (htonl n) = n % 2 ^ 32 := by
  simp only [ntoh, htonl, htons, List.cons_append, List.nil_append, List.foldl_cons, List.foldl_nil,
    UInt8.toNat_ofNat']
  omega

/-- The memory from there on. -/
def shift (m : Mem) (p : ℕ) : Mem := fun i => m (p + i)

theorem shift_store (m : Mem) (p o : ℕ) (bs : List UInt8) :
    shift (m.store (p + o) bs) p = (shift m p).store o bs := by
  funext i
  unfold shift Mem.store
  rw [Nat.add_sub_add_left]
  simp only [Nat.add_assoc, Nat.add_le_add_iff_left, Nat.add_lt_add_iff_left]

theorem load_shift (m : Mem) (p n : ℕ) : m.load p n = (shift m p).load 0 n := by
  refine Mem.load_congr fun i _ => ?_
  unfold shift
  rw [Nat.zero_add]

end Fields

section Header

variable {H : NetBuild} (v : NetVars) (m : Mem) (xip dest dport sport len : ℕ)

/-- An IP header up to its sum. -/
def ipHead (p : ℕ) : List UInt8 :=
  [0x45, 0] ++ htons len ++ htons v.ipId ++ htons 0x4000 ++ [255, UInt8.ofNat p]

/-- The rest of it. -/
def ipAddrs : List UInt8 := htonl v.ourIP ++ htonl dest

def ipSummed (p : ℕ) : List UInt8 := ipHead v len p ++
  (bytes16 (0xffff - netCksum (ipHead v len p ++ ([0, 0] ++ ipAddrs v dest))) ++ ipAddrs v dest)

def udpHead : List UInt8 := htons sport ++ htons dport ++ htons (8 + len) ++ [0, 0]

theorem netSetIP_header (hH : H.Wire) :
    (netSetIP H v m xip dest dport sport len).load xip 28 =
      ipSummed v dest (28 + len) 17 ++ udpHead dport sport len := by
  unfold netSetIP netSetIpSum netSetIpFields
  dsimp only
  rw [hH.ipHdrSize, hH.ipHdrSizeNoUdp, hH.ipHlV, hH.ipTos, hH.ipLen, hH.ipId, hH.ipOff, hH.ipTtl,
    hH.ipP, hH.ipSum, hH.ipSrc, hH.ipDst, hH.udpSrc, hH.udpDst, hH.udpLen, hH.udpXsum, hH.ipDfrag]
  generalize (if len % 2 = 1 then m.store (xip + 28 + len) [0] else m) = m
  rw [load_shift _ xip 28, load_shift _ xip (2 * (20 / 2))]
  simp only [shift_store]
  generalize shift m xip = m
  generalize hunsummed : Mem.store _ 26 [0, 0] = unsummed
  have hhead : unsummed.load 0 20 = ipHead v (28 + len) 17 ++ ([0, 0] ++ ipAddrs v dest) := by
    rw [← hunsummed]
    rfl
  rw [hhead]
  unfold ipSummed
  generalize 0xffff - netCksum (ipHead v (28 + len) 17 ++ ([0, 0] ++ ipAddrs v dest)) = sum
  rw [← hunsummed]
  rfl

@[simp]
theorem length_htons (n : ℕ) : (htons n).length = 2 := rfl

@[simp]
theorem length_htonl (n : ℕ) : (htonl n).length = 4 := rfl

@[simp]
theorem EtherAddr.length_bytes (a : EtherAddr) : a.bytes.length = 6 := List.length_ofFn

theorem store_outside {a i : ℕ} {bs : List UInt8} (h : i < a ∨ a + bs.length ≤ i) :
    m.store a bs i = m i := by
  rcases h with h | h
  · exact Mem.store_of_lt m bs h
  · exact Mem.store_of_ge m bs h

/-- The headers are all that is written, but for the byte behind the data. -/
theorem netSetIP_outside (hH : H.Wire) {i : ℕ}
    (hi : i < xip ∨ xip + 28 ≤ i ∧ i < xip + 28 + len) :
    netSetIP H v m xip dest dport sport len i = m i := by
  unfold netSetIP netSetIpSum netSetIpFields
  dsimp only
  rw [hH.ipHdrSize, hH.ipHdrSizeNoUdp, hH.ipHlV, hH.ipTos, hH.ipLen, hH.ipId, hH.ipOff, hH.ipTtl,
    hH.ipP, hH.ipSum, hH.ipSrc, hH.ipDst, hH.udpSrc, hH.udpDst, hH.udpLen, hH.udpXsum, hH.ipDfrag]
  iterate 15 rw [store_outside _ (by simp; omega)]
  split_ifs
  · exact store_outside _ (by simp; omega)
  · rfl

end Header

section Received

variable (H : NetBuild) (v : NetVars)

/-- The Ethernet header of what is sent, up to `pkt`. -/
structure NetBuild.Links (M : Mem) (pkt : ℕ) : Prop where
  size : pkt = netEthHdrSize H v
  plain : H.vlanOf v.ourVLAN = H.vlanNone → fieldAt M 12 2 = 0x0800
  tagged : H.vlanOf v.ourVLAN ≠ H.vlanNone → fieldAt M 12 2 = 0x8100 ∧
    fieldAt M 14 2 = H.vlanOf v.ourVLAN ∧ fieldAt M 16 2 = 0x0800

/-- A UDP packet with its headers. -/
structure NetBuild.Carries (M : Mem) (pkt dest dport sport : ℕ) (payload : List UInt8) : Prop where
  links : H.Links v M pkt
  header : M.load pkt 28 =
    ipSummed v dest (28 + payload.length) 17 ++ udpHead dport sport payload.length
  holds : Holds M (pkt + 28) payload

/-- A peer with that address, on our VLAN. -/
structure NetBuild.Peer (dest : ℕ) (peer : NetState) : Prop where
  ip : dest = 0 ∨ dest = 0xffffffff ∨ peer.ourIP = dest
  vlan : H.vlanOf peer.ourVLAN = H.vlanOf v.ourVLAN

/-- Whatever the frame is padded with, the handler gets the payload, with the ports. -/
def NetBuild.Received (peer : NetState) (dport sport : ℕ) (payload frame : List UInt8) : Prop :=
  ∀ (pad : List UInt8) (behind : Mem), (frame ++ pad).length < 2 ^ 31 → ∃ pkt,
    (netRun H.toNetHeaders peer (frame ++ pad) behind).val =
        .udp pkt (dport % 2 ^ 16) (sport % 2 ^ 16) payload.length ∧
      (behind.store 0 (frame ++ pad)).load pkt payload.length = payload

variable {H v} {M m : Mem} {pkt dest dport sport : ℕ} {payload : List UInt8}

/-- A run of a header is a run of its bytes. -/
theorem load_slice {hd : List UInt8} {n o l : ℕ} (h : m.load pkt n = hd) (ho : o + l ≤ n) :
    m.load (pkt + o) l = (hd.drop o).take l := by
  rw [← h, Mem.drop_load _ _ (by omega), Mem.take_load _ _ (by omega)]

theorem fieldAt_slice {hd : List UInt8} {n o l : ℕ} (h : m.load pkt n = hd) (ho : o + l ≤ n) :
    fieldAt m (pkt + o) l = ntoh ((hd.drop o).take l) := by
  unfold fieldAt
  rw [load_slice h ho]

theorem NetBuild.vlanOf_lt (hH : H.Wire) (x : ℕ) : H.vlanOf x < 2 ^ 12 := by
  unfold NetHeaders.vlanOf
  rw [hH.vlanIdmask, show (0x0fff : ℕ) = 2 ^ 12 - 1 from rfl, Nat.and_two_pow_sub_one_eq_mod]
  exact Nat.mod_lt _ (by simp)

theorem NetBuild.Links.locate (hH : H.Wire) (h : H.Links v m pkt) {peer : NetState}
    (hvlan : H.vlanOf peer.ourVLAN = H.vlanOf v.ourVLAN) {n : ℕ} (hn : pkt ≤ n) :
    ∃ vlanid, netLocate H.toNetHeaders peer m n = some (H.protIp, vlanid, pkt) ∧
      (H.vlanOf peer.ourVLAN = H.vlanNone ∨
        (if vlanid = H.vlanNone then H.vlanOf peer.ourNativeVLAN else vlanid) =
          H.vlanOf peer.ourVLAN) := by
  have hsize := h.size
  unfold netEthHdrSize at hsize
  rw [hH.etherHdrSize, hH.vlanEtherHdrSize] at hsize
  unfold netLocate
  rw [hH.etherHdrSize, hH.vlanEtherHdrSize, hH.etProtlen, hH.protVlan, hH.vetTag, hH.vetType,
    hH.protIp]
  by_cases hnone : H.vlanOf v.ourVLAN = H.vlanNone
  · rw [if_pos hnone] at hsize
    have htype := h.plain hnone
    refine ⟨H.vlanNone, ?_, .inl (hvlan.trans hnone)⟩
    rw [htype, if_neg (by omega), if_neg (by simp), if_pos (by simp), hsize]
  · rw [if_neg hnone] at hsize
    obtain ⟨htype, htag, hinner⟩ := h.tagged hnone
    have hlt := NetBuild.vlanOf_lt hH v.ourVLAN
    have hid : H.vlanOf v.ourVLAN &&& H.vlanIdmask = H.vlanOf v.ourVLAN := by
      rw [hH.vlanIdmask, show (0x0fff : ℕ) = 2 ^ 12 - 1 from rfl, Nat.and_two_pow_sub_one_eq_mod,
        Nat.mod_eq_of_lt hlt]
    have hactive : ¬peer.ourVLAN &&& H.vlanIdmask = H.vlanNone := by
      intro hoff
      rw [← hvlan] at hnone
      refine hnone ?_
      unfold NetHeaders.vlanOf
      split_ifs with hff
      · rw [hH.vlanNone, hH.vlanIdmask]
        rfl
      · exact hoff
    refine ⟨H.vlanOf v.ourVLAN, ?_, .inr ?_⟩
    · rw [htype, htag, hinner, hid, if_neg (by omega), if_neg (by simp), if_neg (by simp),
        if_neg (by omega), if_neg hactive, hsize]
    · rw [if_neg hnone, hvlan]

/-- The header passes every check of a peer that has the address. -/
theorem NetBuild.Carries.udpHeader (hH : H.Wire) (h : H.Carries v m pkt dest dport sport payload)
    {peer : NetState} (hip : dest = 0xffffffff ∨ peer.ourIP = dest) (hdest : dest < 2 ^ 32)
    (hmtu : 28 + payload.length < 2 ^ 16) {n : ℤ} (hn : 28 + payload.length ≤ n) :
    UdpHeader H.toNetHeaders peer m pkt n where
  long := by
    rw [hH.valid.ipShort n (by omega), hH.ipHdrSize, decide_eq_false_iff_not]
    omega
  total := by
    have htotal : fieldAt m (pkt + 2) 2 = ntoh (htons (28 + payload.length)) :=
      fieldAt_slice h.header (by omega)
    rw [hH.ipLen, htotal, ntoh_htons, Nat.mod_eq_of_lt hmtu]
    exact hn
  version := by
    have hversion : fieldAt m (pkt + 0) 1 = ntoh [0x45] := fieldAt_slice h.header (by omega)
    rw [hH.ipHlV, hversion]
    rfl
  whole := by
    have hoff : fieldAt m (pkt + 6) 2 = ntoh (htons 0x4000) := fieldAt_slice h.header (by omega)
    rw [hH.ipOff, hoff, hH.ipFragment]
    rfl
  plain := by
    have hversion : fieldAt m (pkt + 0) 1 = ntoh [0x45] := fieldAt_slice h.header (by omega)
    rw [hH.ipHlV, hversion]
    decide
  checksum := by
    have hsummed : m.load (pkt + 0) 20 = ipSummed v dest (28 + payload.length) 17 :=
      load_slice h.header (by omega)
    rw [hH.ipHdrSizeNoUdp]
    refine (congrArg netCksumOk hsummed).trans ?_
    exact netCksumOk_sum (by simp [ipHead]) (by simp [ipHead, ipAddrs])
  ours := by
    have hdst : fieldAt m (pkt + 16) 4 = ntoh (htonl dest) := fieldAt_slice h.header (by omega)
    rw [hH.ipDst, hdst, ntoh_htonl, Nat.mod_eq_of_lt hdest]
    exact .inr (hip.symm.imp Eq.symm id)
  notIcmp := by
    have hp : fieldAt m (pkt + 9) 1 = ntoh [17] := fieldAt_slice h.header (by omega)
    rw [hH.ipP, hp, hH.ipprotoIcmp]
    decide
  udp := by
    have hp : fieldAt m (pkt + 9) 1 = ntoh [17] := fieldAt_slice h.header (by omega)
    rw [hH.ipP, hp, hH.ipprotoUdp]
    rfl

theorem NetBuild.Carries.done (hH : H.Wire) (h : H.Carries v m pkt dest dport sport payload)
    (hmtu : 28 + payload.length < 2 ^ 16) : udpDone H.toNetHeaders m pkt =
      .udp (pkt + 28) (dport % 2 ^ 16) (sport % 2 ^ 16) payload.length := by
  have hdport : fieldAt m (pkt + 22) 2 = ntoh (htons dport) := fieldAt_slice h.header (by omega)
  have hsport : fieldAt m (pkt + 20) 2 = ntoh (htons sport) := fieldAt_slice h.header (by omega)
  have hlen : fieldAt m (pkt + 24) 2 = ntoh (htons (8 + payload.length)) :=
    fieldAt_slice h.header (by omega)
  unfold udpDone
  rw [hH.ipHdrSize, hH.udpDst, hH.udpSrc, hH.udpLen, hdport, hsport, hlen, ntoh_htons, ntoh_htons,
    ntoh_htons, Nat.mod_eq_of_lt (show 8 + payload.length < 2 ^ 16 by omega)]
  congr 1
  unfold toU32
  omega

/-- Where the packet's bytes are, the packet is. -/
theorem NetBuild.Carries.congr (h : H.Carries v M pkt dest dport sport payload) (hpkt : 14 ≤ pkt)
    (htag : H.vlanOf v.ourVLAN ≠ H.vlanNone → 18 ≤ pkt)
    (hm : ∀ i, 12 ≤ i → i < pkt + 28 + payload.length → m i = M i) :
    H.Carries v m pkt dest dport sport payload := by
  have hload {a l : ℕ} (ha : 12 ≤ a) (hl : a + l ≤ pkt + 28 + payload.length) :
      m.load a l = M.load a l := Mem.load_congr fun i hi => hm (a + i) (by omega) (by omega)
  refine ⟨⟨h.links.size, fun hnone => ?_, fun hsome => ?_⟩, ?_, ?_⟩
  · unfold fieldAt
    rw [hload (by omega) (by omega)]
    exact h.links.plain hnone
  · have hlong := htag hsome
    unfold fieldAt
    rw [hload (by omega) (by omega), hload (by omega) (by omega), hload (by omega) (by omega)]
    exact h.links.tagged hsome
  · rw [hload (by omega) (by omega)]
    exact h.header
  · unfold Holds
    rw [hload (by omega) le_rfl]
    exact h.holds

theorem NetBuild.Links.bounds (hH : H.Wire) (h : H.Links v M pkt) :
    14 ≤ pkt ∧ (H.vlanOf v.ourVLAN ≠ H.vlanNone → 18 ≤ pkt) := by
  have hsize := h.size
  unfold netEthHdrSize at hsize
  rw [hH.etherHdrSize, hH.vlanEtherHdrSize] at hsize
  split_ifs at hsize with hnone
  · exact ⟨by omega, fun hsome => absurd hnone hsome⟩
  · exact ⟨by omega, fun _ => by omega⟩

/-- What carries a packet is received. -/
theorem NetBuild.Carries.received (hH : H.Wire) (h : H.Carries v M pkt dest dport sport payload)
    {peer : NetState} (hip : dest = 0xffffffff ∨ peer.ourIP = dest) (hdest : dest < 2 ^ 32)
    (hvlan : H.vlanOf peer.ourVLAN = H.vlanOf v.ourVLAN)
    (hmtu : 28 + payload.length < 2 ^ 16) :
    H.Received peer dport sport payload (M.load 0 (pkt + 28 + payload.length)) := by
  intro pad behind hlen
  have hbyte (i : ℕ) (hi : i < pkt + 28 + payload.length) :
      behind.store 0 (M.load 0 (pkt + 28 + payload.length) ++ pad) i = M i := by
    rw [Mem.store_append, Mem.length_load]
    rw [store_outside _ (.inl (by omega))]
    have hi' := (holds_store behind 0 (M.load 0 (pkt + 28 + payload.length))).of_load i hi
    rwa [Nat.zero_add] at hi'
  obtain ⟨hpkt, htag⟩ := h.links.bounds hH
  have hm := h.congr hpkt htag fun i _ hi => hbyte i hi
  rw [List.length_append, Mem.length_load] at hlen
  refine ⟨pkt + 28, ?_, hm.holds⟩
  have hn : s32 ((M.load 0 (pkt + 28 + payload.length) ++ pad).length : ℤ) =
      ((pkt + 28 + payload.length + pad.length : ℕ) : ℤ) := by
    rw [List.length_append, Mem.length_load]
    exact s32_of_range (by omega) (by omega)
  unfold netRun
  rw [hn, netReceive_udp hH.valid]
  refine ⟨pkt, ⟨hm.links.locate hH hvlan (by omega), ?_⟩, hm.done hH hmtu⟩
  exact hm.udpHeader hH hip hdest hmtu (by omega)

/-- The Ethernet header that is set is one. -/
theorem netSetEther_links (hH : H.Wire) (addr : EtherAddr) :
    H.Links v (netSetEther H v m 0 addr H.protIp).1 (netEthHdrSize H v) ∧
      (netSetEther H v m 0 addr H.protIp).2 = netEthHdrSize H v := by
  have hfield (m : Mem) (a n : ℕ) : fieldAt (m.store a (htons n)) a 2 = n % 2 ^ 16 :=
    (congrArg ntoh (Mem.load_store_same m a (htons n))).trans (ntoh_htons n)
  have hafter (m : Mem) {a b : ℕ} (n : ℕ) (hab : a + 2 ≤ b) :
      fieldAt (m.store b (htons n)) a 2 = fieldAt m a 2 :=
    congrArg ntoh (Mem.load_store_after m (htons n) hab)
  have hlt := NetBuild.vlanOf_lt hH v.ourVLAN
  unfold netSetEther netEthHdrSize
  dsimp only
  rw [hH.etProtlen, hH.vetVlanType, hH.vetTag, hH.vetType, hH.protVlan, hH.protIp]
  simp only [Nat.zero_add]
  split_ifs with hnone
  · refine ⟨⟨by rw [netEthHdrSize, if_pos hnone], fun _ => ?_, fun hsome => absurd hnone hsome⟩,
      rfl⟩
    exact hfield _ _ _
  · refine ⟨⟨by rw [netEthHdrSize, if_neg hnone], fun h => absurd h hnone, fun _ => ?_⟩, rfl⟩
    refine ⟨?_, ?_, hfield _ _ _⟩
    · rw [hafter _ _ (by omega), hafter _ _ (by omega)]
      exact hfield _ _ _
    · rw [hafter _ _ (by omega)]
      exact (hfield _ _ _).trans (Nat.mod_eq_of_lt (by omega))

/-- The headers that are set before a payload carry it. -/
theorem netSetIP_carries (hH : H.Wire) (hlink : H.Links v m pkt)
    (hload : Holds M (pkt + 28) payload)
    (hM : ∀ i, i < pkt + 28 → M i = netSetIP H v m pkt dest dport sport payload.length i) :
    H.Carries v M pkt dest dport sport payload := by
  have hbefore (i : ℕ) (hi : i < pkt) : M i = m i :=
    (hM i (by omega)).trans (netSetIP_outside v m pkt dest dport sport _ hH (.inl hi))
  obtain ⟨hpkt, htag⟩ := hlink.bounds hH
  refine ⟨⟨hlink.size, fun hnone => ?_, fun hsome => ?_⟩, ?_, hload⟩
  · rw [← hlink.plain hnone]
    exact congrArg ntoh (Mem.load_congr fun i hi => hbefore _ (by omega))
  · have hlong := htag hsome
    obtain ⟨htype, hid, hinner⟩ := hlink.tagged hsome
    rw [← htype, ← hid, ← hinner]
    exact ⟨congrArg ntoh (Mem.load_congr fun i hi => hbefore _ (by omega)),
      congrArg ntoh (Mem.load_congr fun i hi => hbefore _ (by omega)),
      congrArg ntoh (Mem.load_congr fun i hi => hbefore _ (by omega))⟩
  · rw [← netSetIP_header v m pkt dest dport sport _ hH]
    exact Mem.load_congr fun i hi => hM _ (by omega)

theorem netSetEther_outside (hH : H.Wire) (addr : EtherAddr) (prot : ℕ) {i : ℕ}
    (hi : netEthHdrSize H v ≤ i) : (netSetEther H v m 0 addr prot).1 i = m i := by
  unfold netEthHdrSize at hi
  rw [hH.etherHdrSize, hH.vlanEtherHdrSize] at hi
  unfold netSetEther
  dsimp only
  rw [hH.etDest, hH.etSrc, hH.etProtlen, hH.vetVlanType, hH.vetTag, hH.vetType]
  split_ifs at hi ⊢ with hnone
  · dsimp only
    iterate 3 rw [store_outside _ (by simp; omega)]
  · dsimp only
    iterate 5 rw [store_outside _ (by simp; omega)]

end Received

/-- A packet that is sent is received, at once or when the reply to the ARP request comes. -/
theorem netSend_received {H : NetBuild} (hH : H.Wire) (tx : NetTx) (ether : EtherPtr) {dest : ℕ}
    (dport sport len now : ℕ) (hdest : dest < 2 ^ 32) (hmtu : 28 + len < 2 ^ 16) {peer : NetState}
    (hpeer : H.Peer tx.toNetVars dest peer) :
    let r := tx.netSendUDPPacket H ether dest dport sport len now
    let payload := tx.txPacket.load (netEthHdrSize H tx.toNetVars + H.ipHdrSize) len
    (r.1 = 0 ∧ ∃ frame, r.2.1 = [.send frame] ∧ H.Received peer dport sport payload frame) ∨
      (r.1 = 1 ∧ ∀ mac, ∃ frame, (r.2.2.arpReply H mac).1 = [.release frame] ∧
        H.Received peer dport sport payload frame) := by
  dsimp only
  rw [hH.ipHdrSize]
  unfold NetTx.netSendUDPPacket
  dsimp only
  have hip : (if dest = 0 then 0xffffffff else dest) = 0xffffffff ∨
      peer.ourIP = if dest = 0 then 0xffffffff else dest := by
    rcases hpeer.ip with h | h | h
    · exact .inl (if_pos h)
    · exact .inl (by rw [if_neg (by omega), h])
    · by_cases h0 : dest = 0
      · exact .inl (if_pos h0)
      · exact .inr (by rw [if_neg h0, h])
  have hdest' : (if dest = 0 then 0xffffffff else dest) < 2 ^ 32 := by
    split_ifs <;> omega
  generalize (if dest = 0 then 0xffffffff else dest) = dest at hip hdest'
  generalize hpayload : tx.txPacket.load (netEthHdrSize H tx.toNetVars + 28) len = payload
  have hlen : payload.length = len := by rw [← hpayload, Mem.length_load]
  generalize (if dest = 0xffffffff then netBcastAddr else tx.ethers ether) = addr
  rw [← hlen] at hmtu hpayload ⊢
  have hreceived (M : Mem)
      (hM : H.Carries tx.toNetVars M (netEthHdrSize H tx.toNetVars) dest dport sport payload) :=
    hM.received hH hip hdest' hpeer.vlan hmtu
  by_cases hnull : addr.bytes = netEtherNullAddr.bytes
  · rw [if_pos hnull]
    obtain ⟨hlinks, hsize⟩ :=
      netSetEther_links (v := tx.toNetVars) (m := tx.arpWaitTxPacket) hH addr
    refine .inr ⟨rfl, fun mac => ⟨_, rfl, ?_⟩⟩
    obtain ⟨hpkt, htag⟩ := hlinks.bounds hH
    unfold NetTx.arpRequest
    dsimp only
    rw [hsize, hH.ipHdrSize, hH.etDest, hpayload]
    have hcarries := netSetIP_carries hH hlinks (holds_store
      (netSetIP H tx.toNetVars _ _ dest dport sport payload.length) _ payload)
      fun i hi => store_outside _ (.inl hi)
    refine hreceived _ (hcarries.congr hpkt htag fun i hi _ => store_outside _ (.inr ?_))
    rw [EtherAddr.length_bytes]
    omega
  · rw [if_neg hnull]
    obtain ⟨hlinks, hsize⟩ := netSetEther_links (v := tx.toNetVars) (m := tx.txPacket) hH addr
    refine .inl ⟨rfl, _, rfl, ?_⟩
    rw [hsize, hH.ipHdrSize]
    refine hreceived _ (netSetIP_carries hH hlinks ?_ fun _ _ => rfl)
    refine (Mem.load_congr fun i hi => ?_).trans hpayload
    rw [netSetIP_outside _ _ _ _ _ _ _ hH (.inr (by omega)),
      netSetEther_outside hH _ _ (by omega)]

section Example

def wireBuild : NetBuild where
  toNetHeaders := wireHeaders
  etDest := 0
  vetVlanType := 12
  ipTos := 1
  ipId := 4
  ipTtl := 8
  ipSum := 10
  udpXsum := 26
  ipDfrag := 0x4000
  arpTimeout := 5000
  arpTimeoutCount := 5

theorem wireBuild_wire : wireBuild.Wire := by
  constructor
  case valid => exact wireHeaders_valid
  all_goals rfl

/-- A board that knows no address but its own. -/
def plainTx : NetTx where
  ourEther := EtherAddr.ofBytes [2, 0, 0, 0, 0, 1]
  ourIP := 0x0a000001
  ourSubnetMask := 0xffffff00
  ourGatewayIP := 0
  serverIP := 0x0a000002
  pingIP := 0
  ourVLAN := 0xffff
  ourNativeVLAN := 0xffff
  ethers _ := netEtherNullAddr
  txPacket _ := 0x61
  ipId := 0
  pingSeqNo := 0
  cmdPing := false
  arpWaitPacketIP := 0
  arpWaitPacketMAC := none
  arpWaitReplyIP := 0
  arpWaitTxPacket _ := 0
  arpWaitTxPacketSize := 0
  arpWaitTimerStart := 0
  arpWaitTry := 0

/-- Five bytes for port 69 of the server, which is asked for its address first. -/
theorem netSend_received_server :
    let r := plainTx.netSendUDPPacket wireBuild (.of 0) 0x0a000002 69 1024 5 0
    let peer := { plainNet with ourIP := 0x0a000002 }
    r.1 = 1 ∧ ∀ mac, ∃ frame, (r.2.2.arpReply wireBuild mac).1 = [.release frame] ∧
      wireBuild.Received peer 69 1024 (List.replicate 5 0x61) frame := by
  have hpeer : wireBuild.Peer plainTx.toNetVars 0x0a000002 { plainNet with ourIP := 0x0a000002 } :=
    ⟨.inr (.inr rfl), rfl⟩
  rcases netSend_received wireBuild_wire plainTx (.of 0) 69 1024 5 0 (by omega) (by omega)
    hpeer with h | h
  · exact absurd h.1 (by decide)
  · exact h

end Example

end InfotmUboot
