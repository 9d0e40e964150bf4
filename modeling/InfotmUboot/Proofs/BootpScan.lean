import InfotmUboot.BootpScan

/-!
# What the option scans read

Each scan goes on until an end mark or an end that is not the packet's, and copies what an option is
to hold whatever its length says. None of them writes past a variable; they end inside the packet
just if every option that they get to is in it with all that is copied (`scans_right_iff`).
-/

namespace InfotmUboot

open Lib Prog

section Access

/-- An access is to bytes of the packet or of its variable. -/
def ScanOp.Inside (len : ℕ) : ScanOp → Prop
  | .read start n => start + n ≤ len
  | .look v n => (v = .bpFile → bpFile + n ≤ len) ∧ n ≤ v.size
  | .write v off data => off + data.length ≤ v.size

/-- The variable begins with zeros. -/
def ScanEnv.Unset (e : ScanEnv) (v : NetVar) (n : ℕ) : Prop :=
  (scanStep e (.look v n)).1 = List.replicate n 0

instance (e : ScanEnv) (v : NetVar) (n : ℕ) : Decidable (e.Unset v n) :=
  inferInstanceAs (Decidable (_ = _))

variable {len : ℕ} {e : ScanEnv}

theorem truncateSz_lt {maxlen : ℕ} (h : 0 < maxlen) (curlen : ℕ) : truncateSz maxlen curlen <
    maxlen := by
  unfold truncateSz
  split_ifs <;> omega

theorem logs_readByte {α : Type} {o : ℕ} {f : UInt8 → ScanProg α} :
    Logs scanStep (ScanOp.Inside len) (readByte o >>= f) e ↔
      o < len ∧ Logs scanStep (ScanOp.Inside len) (f (e.pkt o)) e := by
  unfold readByte
  rw [bind_assoc, logs_op_bind]
  exact Iff.rfl

theorem logs_netCopy {v : NetVar} (hv : v.size = 4) {o : ℕ} :
    Logs scanStep (ScanOp.Inside len) (netCopy v o) e ↔ o + 4 ≤ len := by
  unfold netCopy
  rw [logs_op_bind, logs_op_bind]
  refine and_iff_left ⟨?_, logs_pure _⟩
  change 0 + (e.pkt.load o 4).length ≤ v.size
  rw [Mem.length_load, hv]

theorem logs_copyText {v : NetVar} (hv : 0 < v.size) {o curlen : ℕ} :
    Logs scanStep (ScanOp.Inside len) (copyText v o curlen) e ↔
      o + truncateSz v.size curlen ≤ len := by
  have hlt := truncateSz_lt hv curlen
  unfold copyText
  rw [logs_op_bind, logs_op_bind, logs_op_bind]
  refine and_iff_left ⟨?_, ?_, logs_pure _⟩
  · change 0 + (e.pkt.load o _).length ≤ v.size
    rw [Mem.length_load]
    omega
  · exact hlt

theorem logs_ifUnset {v : NetVar} {n : ℕ} {p : ScanProg Unit} (hin : (ScanOp.look v n).Inside len) :
    Logs scanStep (ScanOp.Inside len) (ifUnset v n p) e ↔
      (e.Unset v n → Logs scanStep (ScanOp.Inside len) p e) := by
  have henv : (scanStep e (.look v n)).2 = e := rfl
  unfold ifUnset ScanEnv.Unset
  rw [logs_op_bind, and_iff_right hin, henv]
  split_ifs with h
  · exact ⟨fun hp _ => hp, fun hp => hp h⟩
  · exact iff_of_true (logs_pure _) fun h' => absurd h' h

end Access

section Vendor

/-- The bytes that are copied of a vendor field, as long as its variable is not set. -/
def vendorNeeds (e : ScanEnv) (code size : UInt8) : ℕ :=
  if code = 1 then if e.Unset .ourSubnetMask 4 then 4 else 0
  else if code = 3 then if e.Unset .ourGatewayIP 4 then 4 else 0
  else if code = 6 then if e.Unset .ourDNSIP 4 then 4 else 0
  else if code = 12 then if e.Unset .ourHostName 1 then truncateSz 32 size.toNat else 0
  else if code = 13 then if size = 2 then 2 else if size = 4 then 4 else 0
  else if code = 17 then if e.Unset .ourRootPath 1 then truncateSz 64 size.toNat else 0
  else if code = 40 then if e.Unset .ourNISDomain 1 then truncateSz 32 size.toNat else 0
  else 0

/-- What the scan reads at a place before `last` is in the packet. -/
def VendorInside (len last : ℕ) (s : ℕ × ScanEnv) : Prop :=
  let code := s.2.pkt s.1
  let size := s.2.pkt (s.1 + 1)
  s.1 < last → s.1 < len ∧ (code ≠ 0xff → code ≠ 0 → s.1 + 2 ≤ len ∧
    (s.1 + size.toNat + 2 ≤ last → s.1 + 2 + vendorNeeds s.2 code size ≤ len))

/-- Where the scan goes, with the variables as they are set until then. -/
def vendorNext (last : ℕ) (s : ℕ × ScanEnv) : Option (ℕ × ScanEnv) :=
  let code := s.2.pkt s.1
  let next := s.1 + (s.2.pkt (s.1 + 1)).toNat + 2
  if last ≤ s.1 ∨ code = 0xff then none
  else if code = 0 then some (s.1 + 1, s.2)
  else if next ≤ last then some (next, (run scanStep (bootpVendorFieldProcess s.1) s.2).env)
  else some (next, s.2)

variable {len last : ℕ} {e : ScanEnv}

theorem logs_ite_unset {v : NetVar} {n k o : ℕ} {p : ScanProg Unit}
    (hin : (ScanOp.look v n).Inside len) (ho : o ≤ len)
    (hp : Logs scanStep (ScanOp.Inside len) p e ↔ o + k ≤ len) :
    Logs scanStep (ScanOp.Inside len) (ifUnset v n p) e ↔
      o + (if e.Unset v n then k else 0) ≤ len := by
  rw [logs_ifUnset hin, hp]
  split_ifs with h
  · exact ⟨fun hk => hk h, fun hk _ => hk⟩
  · exact iff_of_true (fun h' => absurd h' h) ho

/-- Clearing the size of the boot file leaves the packet and the other variables. -/
theorem unset_cleared {v : NetVar} (hv : v ≠ .bootFileSize) (n : ℕ) (data : List UInt8) :
    (scanStep e (.write .bootFileSize 0 data)).2.Unset v n ↔ e.Unset v n := by
  have hvar : (scanStep e (.write .bootFileSize 0 data)).2.var v = e.var v := if_neg hv
  unfold ScanEnv.Unset
  rw [scanStep, hvar]
  rfl

theorem logs_vendorCopy {v : NetVar} (hv : v ≠ .bpFile) (hv' : v ≠ .bootFileSize) {n k o : ℕ}
    (hn : n ≤ v.size) {data : List UInt8} {p : ScanProg Unit} (ho : o ≤ len)
    (hp : Logs scanStep (ScanOp.Inside len) p (scanStep e (.write .bootFileSize 0 data)).2 ↔
      o + k ≤ len) :
    Logs scanStep (ScanOp.Inside len) (ifUnset v n p)
        (scanStep e (.write .bootFileSize 0 data)).2 ↔
      o + (if e.Unset v n then k else 0) ≤ len := by
  rw [logs_ite_unset ⟨fun h => absurd h hv, hn⟩ ho hp]
  simp only [unset_cleared hv']

theorem logs_vendorField {ext : ℕ} :
    Logs scanStep (ScanOp.Inside len) (bootpVendorFieldProcess ext) e ↔
      ext + 2 ≤ len ∧ ext + 2 + vendorNeeds e (e.pkt ext) (e.pkt (ext + 1)) ≤ len := by
  unfold bootpVendorFieldProcess
  rw [logs_readByte, logs_op_bind, logs_readByte]
  have hpkt : (scanStep e (.write .bootFileSize 0 [0, 0])).2.pkt = e.pkt := rfl
  have hsize : (ScanOp.write .bootFileSize 0 [0, 0]).Inside len := le_rfl
  rw [hpkt, and_iff_right hsize]
  by_cases hext : ext + 2 ≤ len
  swap
  · exact iff_of_false (fun h => hext h.1) fun h => hext h.1
  rw [and_iff_right hext, and_iff_right (show ext + 1 < len from hext),
    and_iff_right (show ext < len by omega)]
  generalize e.pkt ext = code
  generalize e.pkt (ext + 1) = size
  unfold vendorNeeds
  by_cases h1 : code = 1
  · rw [if_pos h1, if_pos h1]
    exact logs_vendorCopy (by decide) (by decide) le_rfl hext (logs_netCopy rfl)
  rw [if_neg h1, if_neg h1]
  by_cases h3 : code = 3
  · rw [if_pos h3, if_pos h3]
    exact logs_vendorCopy (by decide) (by decide) le_rfl hext (logs_netCopy rfl)
  rw [if_neg h3, if_neg h3]
  by_cases h6 : code = 6
  · rw [if_pos h6, if_pos h6]
    exact logs_vendorCopy (by decide) (by decide) le_rfl hext (logs_netCopy rfl)
  rw [if_neg h6, if_neg h6]
  by_cases h12 : code = 12
  · rw [if_pos h12, if_pos h12]
    exact logs_vendorCopy (by decide) (by decide) (by decide) hext (logs_copyText (by decide))
  rw [if_neg h12, if_neg h12]
  by_cases h13 : code = 13
  · rw [if_pos h13, if_pos h13]
    by_cases hs2 : size = 2
    · rw [if_pos hs2, if_pos hs2, logs_op_bind, logs_op_bind]
      refine and_iff_left ⟨?_, logs_pure _⟩
      exact le_rfl
    rw [if_neg hs2, if_neg hs2]
    by_cases hs4 : size = 4
    · rw [if_pos hs4, if_pos hs4, logs_op_bind, logs_op_bind]
      refine and_iff_left ⟨?_, logs_pure _⟩
      exact le_rfl
    rw [if_neg hs4, if_neg hs4]
    exact iff_of_true (logs_pure _) hext
  rw [if_neg h13, if_neg h13]
  by_cases h17 : code = 17
  · rw [if_pos h17, if_pos h17]
    exact logs_vendorCopy (by decide) (by decide) (by decide) hext (logs_copyText (by decide))
  rw [if_neg h17, if_neg h17]
  by_cases h40 : code = 40
  · rw [if_pos h40, if_pos h40]
    exact logs_vendorCopy (by decide) (by decide) (by decide) hext (logs_copyText (by decide))
  rw [if_neg h40, if_neg h40]
  exact iff_of_true (logs_pure _) hext

theorem logs_vendorStep {o : ℕ} :
    Logs scanStep (ScanOp.Inside len) (bootpVendorStep last o) e ↔ VendorInside len last
      (o, e) := by
  unfold bootpVendorStep VendorInside
  dsimp only
  by_cases hend : o < last
  swap
  · rw [if_pos (not_lt.1 hend)]
    exact iff_of_true (logs_pure _) fun h => absurd h hend
  rw [if_neg (not_le.2 hend), logs_readByte, imp_iff_right hend]
  refine and_congr_right fun _ => ?_
  by_cases hff : e.pkt o = 0xff
  · rw [if_pos hff]
    exact iff_of_true (logs_pure _) fun h => absurd hff h
  rw [if_neg hff, imp_iff_right hff]
  by_cases h0 : e.pkt o = 0
  · rw [if_pos h0]
    exact iff_of_true (logs_pure _) fun h => absurd h0 h
  rw [if_neg h0, imp_iff_right h0, logs_readByte]
  refine and_congr_right fun hlen => ?_
  by_cases hnext : o + (e.pkt (o + 1)).toNat + 2 ≤ last
  · rw [if_pos hnext, imp_iff_right hnext, logs_bind, logs_vendorField]
    exact ⟨fun h => h.1.2, fun h => ⟨⟨hlen, h⟩, logs_pure _⟩⟩
  · rw [if_neg hnext]
    exact iff_of_true (logs_pure _) fun h => absurd h hnext

/-- A round leads on. -/
theorem gives_vendorStep (last o : ℕ) :
    Gives (fun r => ∀ t, r = .inr t → o < t) (bootpVendorStep last o) := by
  unfold bootpVendorStep
  refine Gives.ite (fun _ t ht => absurd ht (by simp)) fun _ => ?_
  refine Gives.bind _ fun code => ?_
  refine Gives.ite (fun _ t ht => absurd ht (by simp)) fun _ => ?_
  refine Gives.ite (fun _ t ht => ?_) fun _ => ?_
  · obtain rfl := Sum.inr.inj ht
    exact Nat.lt_succ_self o
  refine Gives.bind _ fun size => ?_
  refine Gives.ite (fun _ => Gives.bind _ fun _ => ?_) fun _ => ?_
  · intro t ht
    obtain rfl := Sum.inr.inj ht
    omega
  · intro t ht
    obtain rfl := Sum.inr.inj ht
    omega

theorem run_readByte {α : Type} (o : ℕ) (f : UInt8 → ScanProg α) :
    (run scanStep (readByte o >>= f) e).val = (run scanStep (f (e.pkt o)) e).val ∧
      (run scanStep (readByte o >>= f) e).env = (run scanStep (f (e.pkt o)) e).env := ⟨rfl, rfl⟩

theorem loopNext_vendor (s : ℕ × ScanEnv) :
    loopNext scanStep (bootpVendorStep last) s = vendorNext last s := by
  obtain ⟨o, e⟩ := s
  unfold loopNext vendorNext bootpVendorStep
  dsimp only
  by_cases hend : last ≤ o
  · rw [if_pos hend, if_pos (.inl hend)]
    rfl
  rw [if_neg hend, (run_readByte _ _).1, (run_readByte _ _).2]
  by_cases hff : e.pkt o = 0xff
  · rw [if_pos hff, if_pos (.inr hff)]
    rfl
  rw [if_neg hff, if_neg (not_or.2 ⟨hend, hff⟩)]
  by_cases h0 : e.pkt o = 0
  · rw [if_pos h0, if_pos h0]
    rfl
  rw [if_neg h0, if_neg h0, (run_readByte _ _).1, (run_readByte _ _).2]
  by_cases hnext : o + (e.pkt (o + 1)).toNat + 2 ≤ last
  · rw [if_pos hnext, if_pos hnext, run_bind]
    rfl
  · rw [if_neg hnext, if_neg hnext]
    rfl

/-- The scan of the vendor fields ends inside the packet just if all fields are in it. -/
theorem vendor_iff : (∃ n, Completes scanStep (ScanOp.Inside len) (bootpVendorProcess len n) e) ↔
    ∀ t, ComesTo (vendorNext (bpVend + 4 + len)) (bpVend + 4, e) t →
      VendorInside len (bpVend + 4 + len) t := by
  unfold bootpVendorProcess
  rw [← funext loopNext_vendor, loop_iff (len - ·) fun s e t hok ht => ?_]
  · exact forall₂_congr fun t _ => logs_vendorStep
  · have hless := (gives_vendorStep _ _).val scanStep e t ht
    have hin := logs_vendorStep.1 hok
    by_cases hend : s < bpVend + 4 + len
    · have := (hin hend).1
      omega
    · unfold bootpVendorStep at ht
      rw [if_pos (not_lt.1 hend)] at ht
      exact absurd ht (by simp)

end Vendor

section Dhcp

/-- The bytes that are copied of an option. -/
def dhcpNeeds (e : ScanEnv) (code oplen : UInt8) : ℕ :=
  if code = 1 ∨ code = 3 ∨ code = 6 ∨ code = 51 ∨ code = 54 then 4
  else if code = 12 then truncateSz 32 oplen.toNat
  else if code = 17 then truncateSz 64 oplen.toNat
  else if code = 67 ∧ e.Unset .bpFile 1 then truncateSz 128 oplen.toNat
  else 0

def OptionInside (len last : ℕ) (s : ℕ × ScanEnv) : Prop :=
  let code := s.2.pkt s.1
  let oplen := s.2.pkt (s.1 + 1)
  s.1 < last → s.1 < len ∧ (code ≠ 0xff → s.1 + 2 + dhcpNeeds s.2 code oplen ≤ len)

def optionNext (last : ℕ) (s : ℕ × ScanEnv) : Option (ℕ × ScanEnv) :=
  let code := s.2.pkt s.1
  let oplen := (s.2.pkt (s.1 + 1)).toNat
  if last ≤ s.1 ∨ code = 0xff then none
  else some (s.1 + (oplen + 2), (run scanStep (dhcpOptionCopy s.1 code oplen) s.2).env)

/-- What `DhcpMessageType` reads at a place. -/
def TypeInside (len : ℕ) (s : ℕ × ScanEnv) : Prop :=
  let code := s.2.pkt s.1
  s.1 < len ∧ (code ≠ 0xff → if code = 53 then s.1 + 3 ≤ len else s.1 + 2 ≤ len)

def typeNext (s : ℕ × ScanEnv) : Option (ℕ × ScanEnv) :=
  let code := s.2.pkt s.1
  if code = 0xff ∨ code = 53 then none
  else some (s.1 + ((s.2.pkt (s.1 + 1)).toNat + 2), s.2)

variable {len last : ℕ} {e : ScanEnv}

theorem logs_dhcpOption (hlen : bpVend ≤ len) {popt : ℕ} (hpopt : popt + 2 ≤ len)
    (code oplen : UInt8) :
    Logs scanStep (ScanOp.Inside len) (dhcpOptionCopy popt code oplen.toNat) e ↔
      popt + 2 + dhcpNeeds e code oplen ≤ len := by
  unfold dhcpOptionCopy dhcpNeeds
  by_cases h1 : code = 1
  · rw [if_pos h1, if_pos (.inl h1)]
    exact logs_netCopy rfl
  rw [if_neg h1]
  by_cases h3 : code = 3
  · rw [if_pos h3, if_pos (.inr (.inl h3))]
    exact logs_netCopy rfl
  rw [if_neg h3]
  by_cases h6 : code = 6
  · rw [if_pos h6, if_pos (.inr (.inr (.inl h6)))]
    exact logs_netCopy rfl
  rw [if_neg h6]
  by_cases h12 : code = 12
  · rw [if_pos h12, if_neg (by rw [h12]; decide), if_pos h12]
    exact logs_copyText (by decide)
  rw [if_neg h12]
  by_cases h17 : code = 17
  · rw [if_pos h17, if_neg (by rw [h17]; decide), if_neg h12, if_pos h17]
    exact logs_copyText (by decide)
  rw [if_neg h17]
  by_cases h51 : code = 51
  · rw [if_pos h51, if_pos (.inr (.inr (.inr (.inl h51))))]
    exact logs_netCopy rfl
  rw [if_neg h51]
  by_cases h54 : code = 54
  · rw [if_pos h54, if_pos (.inr (.inr (.inr (.inr h54))))]
    exact logs_netCopy rfl
  have hfixed : ¬(code = 1 ∨ code = 3 ∨ code = 6 ∨ code = 51 ∨ code = 54) := by
    rintro (h | h | h | h | h)
    · exact h1 h
    · exact h3 h
    · exact h6 h
    · exact h51 h
    · exact h54 h
  rw [if_neg h54, if_neg hfixed, if_neg h12, if_neg h17]
  by_cases h67 : code = 67
  swap
  · rw [if_neg h67, if_neg fun h => h67 h.1]
    exact iff_of_true (logs_pure _) hpopt
  have hlook : (ScanOp.look .bpFile 1).Inside len := by
    refine ⟨fun _ => ?_, by decide⟩
    unfold bpFile
    unfold bpVend at hlen
    omega
  rw [if_pos h67, logs_ifUnset hlook]
  by_cases hunset : e.Unset .bpFile 1
  swap
  · rw [if_neg (show ¬(code = 67 ∧ e.Unset .bpFile 1) from fun h => hunset h.2)]
    exact iff_of_true (fun h => absurd h hunset) hpopt
  rw [imp_iff_right hunset, if_pos (show code = 67 ∧ e.Unset .bpFile 1 from ⟨h67, hunset⟩)]
  by_cases hsize : 0 < truncateSz 128 oplen.toNat
  · rw [if_pos hsize]
    exact logs_copyText (by decide)
  · rw [if_neg hsize]
    exact iff_of_true (logs_pure _) (by omega)

theorem logs_dhcpStep (hlen : bpVend ≤ len) {o : ℕ} :
    Logs scanStep (ScanOp.Inside len) (dhcpOptionsStep last o) e ↔ OptionInside len last
      (o, e) := by
  unfold dhcpOptionsStep OptionInside
  dsimp only
  by_cases hend : o < last
  swap
  · rw [if_pos (not_lt.1 hend)]
    exact iff_of_true (logs_pure _) fun h => absurd h hend
  rw [if_neg (not_le.2 hend), logs_readByte, imp_iff_right hend]
  refine and_congr_right fun _ => ?_
  by_cases hff : e.pkt o = 0xff
  · rw [if_pos hff]
    exact iff_of_true (logs_pure _) fun h => absurd hff h
  rw [if_neg hff, imp_iff_right hff, logs_readByte]
  by_cases hpopt : o + 2 ≤ len
  · rw [logs_bind, logs_dhcpOption hlen hpopt]
    exact ⟨fun h => h.2.1, fun h => ⟨hpopt, h, logs_pure _⟩⟩
  · exact iff_of_false (fun h => hpopt h.1) fun h => hpopt (by omega)

theorem gives_dhcpStep (last o : ℕ) :
    Gives (fun r => ∀ t, r = .inr t → o < t) (dhcpOptionsStep last o) := by
  unfold dhcpOptionsStep
  refine Gives.ite (fun _ t ht => absurd ht (by simp)) fun _ => ?_
  refine Gives.bind _ fun code => ?_
  refine Gives.ite (fun _ t ht => absurd ht (by simp)) fun _ => ?_
  refine Gives.bind _ fun oplen => Gives.bind _ fun _ => ?_
  intro t ht
  obtain rfl := Sum.inr.inj ht
  omega

theorem loopNext_option (s : ℕ × ScanEnv) :
    loopNext scanStep (dhcpOptionsStep last) s = optionNext last s := by
  obtain ⟨o, e⟩ := s
  unfold loopNext optionNext dhcpOptionsStep
  dsimp only
  by_cases hend : last ≤ o
  · rw [if_pos hend, if_pos (.inl hend)]
    rfl
  rw [if_neg hend, (run_readByte _ _).1, (run_readByte _ _).2]
  by_cases hff : e.pkt o = 0xff
  · rw [if_pos hff, if_pos (.inr hff)]
    rfl
  rw [if_neg hff, if_neg (not_or.2 ⟨hend, hff⟩), (run_readByte _ _).1, (run_readByte _ _).2,
    run_bind]
  rfl

theorem options_iff (hlen : bpVend ≤ len) :
    (∃ n, Completes scanStep (ScanOp.Inside len) (dhcpOptionsScan n) e) ↔
      ∀ t, ComesTo (optionNext (bpVend + 4 + BOOTP_HDR_SIZE)) (bpVend + 4, e) t →
        OptionInside len (bpVend + 4 + BOOTP_HDR_SIZE) t := by
  unfold dhcpOptionsScan
  rw [← funext loopNext_option, loop_iff (len - ·) fun s e t hok ht => ?_]
  · exact forall₂_congr fun t _ => logs_dhcpStep hlen
  · have hless := (gives_dhcpStep _ _).val scanStep e t ht
    have hin := (logs_dhcpStep hlen).1 hok
    by_cases hend : s < bpVend + 4 + BOOTP_HDR_SIZE
    · have := (hin hend).1
      omega
    · unfold dhcpOptionsStep at ht
      rw [if_pos (not_lt.1 hend)] at ht
      exact absurd ht (by simp)

theorem logs_typeStep {o : ℕ} :
    Logs scanStep (ScanOp.Inside len) (dhcpMessageTypeStep o) e ↔ TypeInside len (o, e) := by
  unfold dhcpMessageTypeStep TypeInside
  dsimp only
  rw [logs_readByte]
  refine and_congr_right fun _ => ?_
  by_cases hff : e.pkt o = 0xff
  · rw [if_pos hff]
    exact iff_of_true (logs_pure _) fun h => absurd hff h
  rw [if_neg hff, imp_iff_right hff]
  split_ifs
  · rw [logs_readByte]
    exact and_iff_left (logs_pure _)
  · rw [logs_readByte]
    exact and_iff_left (logs_pure _)

theorem gives_typeStep (o : ℕ) :
    Gives (fun r => ∀ t, r = .inr t → o < t) (dhcpMessageTypeStep o) := by
  unfold dhcpMessageTypeStep
  refine Gives.bind _ fun code => ?_
  refine Gives.ite (fun _ t ht => absurd ht (by simp)) fun _ => ?_
  refine Gives.ite (fun _ => Gives.bind _ fun type t ht => absurd ht (by simp)) fun _ => ?_
  refine Gives.bind _ fun oplen => ?_
  intro t ht
  obtain rfl := Sum.inr.inj ht
  omega

theorem loopNext_type (s : ℕ × ScanEnv) : loopNext scanStep dhcpMessageTypeStep s = typeNext s := by
  obtain ⟨o, e⟩ := s
  unfold loopNext typeNext dhcpMessageTypeStep
  dsimp only
  rw [(run_readByte _ _).1, (run_readByte _ _).2]
  by_cases hff : e.pkt o = 0xff
  · rw [if_pos hff, if_pos (.inl hff)]
    rfl
  rw [if_neg hff]
  by_cases h53 : e.pkt o = 53
  · rw [if_pos h53, if_pos (.inr h53)]
    rfl
  · rw [if_neg h53, if_neg (not_or.2 ⟨hff, h53⟩)]
    rfl

/-- Behind the magic number the scan for the type ends inside the packet just if what it reads
is. -/
theorem type_iff : (∃ n, Completes scanStep (ScanOp.Inside len) (dhcpMessageTypeScan n) e) ↔
    bpVend + 4 ≤ len ∧ (e.pkt.load bpVend 4 = BOOTP_VENDOR_MAGIC →
      ∀ t, ComesTo typeNext (bpVend + 4, e) t → TypeInside len t) := by
  have hscan (n : ℕ) : Completes scanStep (ScanOp.Inside len) (dhcpMessageTypeScan n) e ↔
      bpVend + 4 ≤ len ∧ (e.pkt.load bpVend 4 = BOOTP_VENDOR_MAGIC →
        Completes scanStep (ScanOp.Inside len) (loop dhcpMessageTypeStep n (bpVend + 4)) e) := by
    unfold dhcpMessageTypeScan Completes
    rw [logs_op_bind, run_bind_val]
    have hread : (scanStep e (.read bpVend 4)) = (e.pkt.load bpVend 4, e) := rfl
    simp only [run_op, hread]
    by_cases hmagic : e.pkt.load bpVend 4 = BOOTP_VENDOR_MAGIC
    · rw [if_neg (not_not.2 hmagic), imp_iff_right hmagic]
      exact and_left_comm
    · rw [if_pos hmagic]
      exact ⟨fun h => ⟨h.2.1, fun h' => absurd h' hmagic⟩, fun h => ⟨by simp, h.1, logs_pure _⟩⟩
  rw [exists_congr hscan, exists_and_left]
  refine and_congr_right fun _ => ?_
  by_cases hmagic : e.pkt.load bpVend 4 = BOOTP_VENDOR_MAGIC
  swap
  · exact iff_of_true ⟨0, fun h => absurd h hmagic⟩ fun h => absurd h hmagic
  simp only [imp_iff_right hmagic]
  rw [← funext loopNext_type, loop_iff (len - ·) fun s e t hok ht => ?_]
  · exact forall₂_congr fun t _ => logs_typeStep
  · have hless := (gives_typeStep _).val scanStep e t ht
    have := (logs_typeStep.1 hok).1
    omega

end Dhcp

section Packet

variable (bootpID : List UInt8) (p : BootpPkt) (var : NetVar → Mem)

/-- A packet with options that passes the check, so that its options are looked at. -/
def HasOptions : Prop :=
  bootpCheckPkt bootpID p = 0 ∧ p.bytes.load bpVend 4 = BOOTP_VENDOR_MAGIC

/-- The three scans of a packet that passes the check: each comes to an end with all its accesses
inside the packet and its variables. -/
def VendorRight : Prop := HasOptions bootpID p →
  ∃ n, Completes scanStep (ScanOp.Inside p.len) (bootpVendorProcess p.len n) ⟨p.bytes, var⟩

def OptionsRight : Prop := HasOptions bootpID p →
  ∃ n, Completes scanStep (ScanOp.Inside p.len) (dhcpOptionsScan n) ⟨p.bytes, var⟩

def TypeRight : Prop := bootpCheckPkt bootpID p = 0 →
  ∃ n, Completes scanStep (ScanOp.Inside p.len) (dhcpMessageTypeScan n) ⟨p.bytes, var⟩

def VendorFits : Prop := HasOptions bootpID p →
  ∀ t, ComesTo (vendorNext (bpVend + 4 + p.len)) (bpVend + 4, ⟨p.bytes, var⟩) t →
    VendorInside p.len (bpVend + 4 + p.len) t

def OptionsFits : Prop := HasOptions bootpID p →
  ∀ t, ComesTo (optionNext (bpVend + 4 + BOOTP_HDR_SIZE)) (bpVend + 4, ⟨p.bytes, var⟩) t →
    OptionInside p.len (bpVend + 4 + BOOTP_HDR_SIZE) t

def TypeFits : Prop := bootpCheckPkt bootpID p = 0 → bpVend + 4 ≤ p.len ∧
  (p.bytes.load bpVend 4 = BOOTP_VENDOR_MAGIC →
    ∀ t, ComesTo typeNext (bpVend + 4, ⟨p.bytes, var⟩) t → TypeInside p.len t)

/-- The fixed part of a packet that passes the check is there. -/
theorem checked_len (h : bootpCheckPkt bootpID p = 0) : bpVend ≤ p.len := by
  unfold bootpCheckPkt at h
  split_ifs at h with h1 h2
  · exact not_lt.1 h2

/-- The packets that each of the scans gets through. -/
theorem scans_right_iff :
    (VendorRight bootpID p var ↔ VendorFits bootpID p var) ∧
      (OptionsRight bootpID p var ↔ OptionsFits bootpID p var) ∧
        (TypeRight bootpID p var ↔ TypeFits bootpID p var) :=
  ⟨imp_congr_right fun _ => vendor_iff,
    imp_congr_right fun h => options_iff (checked_len bootpID p h.1),
    imp_congr_right fun _ => type_iff⟩

end Packet

section Example

/-- A packet that ends with the code of its first option. -/
def cutPacket : BootpPkt where
  bytes i :=
    if i = 0 then 2 else if i = 1 then 1 else if i = 2 then 6 else if i = 236 then 0x63
    else if i = 237 then 0x82 else if i = 238 then 0x53 else if i = 239 then 0x63
    else if i = 240 then 1 else 0
  ram := 0x10000
  dest := PORT_BOOTPC
  src := PORT_BOOTPS
  len := 241

def zeroVars (_ : NetVar) : Mem := fun _ => 0

theorem cutPacket_options : HasOptions [0, 0, 0, 0] cutPacket := ⟨by decide, by decide⟩

/-- All three scans read behind it. -/
theorem scans_cut : ¬VendorRight [0, 0, 0, 0] cutPacket zeroVars ∧
    ¬OptionsRight [0, 0, 0, 0] cutPacket zeroVars ∧
      ¬TypeRight [0, 0, 0, 0] cutPacket zeroVars := by
  have hlen : bpVend ≤ cutPacket.len := by decide
  refine ⟨fun h => ?_, fun h => ?_, fun h => ?_⟩
  · have hin := vendor_iff.1 (h cutPacket_options) _ Relation.ReflTransGen.refl
    exact absurd ((hin (by decide)).2 (by decide) (by decide)).1 (by decide)
  · have hin := (options_iff hlen).1 (h cutPacket_options) _ Relation.ReflTransGen.refl
    exact absurd ((hin (by decide)).2 (by decide)) (by decide)
  · have hin := (type_iff.1 (h cutPacket_options.1)).2 cutPacket_options.2 _
      Relation.ReflTransGen.refl
    exact absurd (hin.2 (by decide)) (by decide)

end Example

end InfotmUboot
