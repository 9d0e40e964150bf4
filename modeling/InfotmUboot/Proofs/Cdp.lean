import InfotmUboot.Cdp
import InfotmUboot.Lib.Walk
import InfotmUboot.Proofs.Net

/-!
# The fields of a CDP packet

The length of a field is what the scan goes on by, and four less than it, in 16 bits, is what an
appliance VLAN field is read for. The handler comes to an end inside the packet just if no field
that it gets to is of length 0, or reads a VLAN behind the packet's end (`cdp_right_iff`).
-/

namespace InfotmUboot

open Lib Prog

section Safe

variable {α : Type} (m : Mem) (total : ℕ)

/-- A scan of a packet of so many bytes comes to an end, and all that it reads is in the packet. -/
def Safe (p : NetProg (Option α)) : Prop :=
  (run netRead p m).val ≠ none ∧ ∀ r ∈ (run netRead p m).log, r.1.Inside total

variable {m total}

theorem safe_pure (a : α) : Safe m total (pure (some a)) := ⟨by simp, by simp⟩

theorem not_safe_none : ¬Safe m total (pure none : NetProg (Option α)) := fun h => h.1 rfl

theorem safe_read {start l : ℕ} {f : List UInt8 → NetProg (Option α)} :
    Safe m total (Prog.op ⟨start, l⟩ >>= f) ↔ start + l ≤ total ∧
      Safe m total (f (m.load start l)) := by
  have hrun : run netRead (Prog.op (⟨start, l⟩ : NetRead) >>= f) m =
      ⟨(run netRead (f (m.load start l)) m).val, (run netRead (f (m.load start l)) m).env,
        (⟨start, l⟩, m.load start l) :: (run netRead (f (m.load start l)) m).log⟩ := rfl
  unfold Safe
  rw [hrun]
  simp only [List.forall_mem_cons, NetRead.Inside]
  exact and_left_comm

theorem safe_netField {start l : ℕ} {f : ℕ → NetProg (Option α)} :
    Safe m total (netField start l >>= f) ↔
      start + l ≤ total ∧ Safe m total (f (fieldAt m start l)) := by
  unfold netField
  rw [bind_assoc]
  exact safe_read

end Safe

section Fields

variable (m : Mem) (total : ℕ)

def cdpType (o : ℕ) : ℕ := fieldAt m o 2

def cdpTlen (o : ℕ) : ℕ := fieldAt m (o + 2) 2

/-- What `tlen -= 4` leaves. -/
def cdpLeft (o : ℕ) : ℕ := (cdpTlen m o + 2 ^ 16 - 4) % 2 ^ 16

/-- There is a field at `o`, no longer than the rest of the packet. -/
def CdpField (o : ℕ) : Prop := o + 4 ≤ total ∧ o + cdpTlen m o ≤ total

/-- Where the scan goes from `o`. -/
def cdpNext (o : ℕ) : Option ℕ :=
  if o + 4 ≤ total ∧ o + cdpTlen m o ≤ total ∧
      (cdpType m o = CDP_APPLIANCE_VLAN_TLV → cdpLeft m o % 3 = 0) then
    some (o + cdpTlen m o)
  else none

/-- The VLANs that are read at `o` are in the packet. -/
def CdpInside (o : ℕ) : Prop :=
  o + 4 ≤ total → o + cdpTlen m o ≤ total →
    (cdpType m o = CDP_NATIVE_VLAN_TLV → o + 6 ≤ total) ∧
      (cdpType m o = CDP_APPLIANCE_VLAN_TLV → o + 4 + 3 * (cdpLeft m o / 3) ≤ total)

/-- The last VLAN of an appliance VLAN field. -/
def applianceVlan : ℕ → ℕ → ℕ → ℕ
  | tlen + 3, t, _ => applianceVlan tlen (t + 3) (fieldAt m (t + 1) 2)
  | _, _, vlan => vlan

/-- The VLANs after the field at `o`. -/
def cdpVlans (o : ℕ) (v : ℕ × ℕ) : ℕ × ℕ :=
  if cdpType m o = CDP_NATIVE_VLAN_TLV then (v.1, ntoh (m.load (o + 4) 2).reverse)
  else if cdpType m o = CDP_APPLIANCE_VLAN_TLV then
    (applianceVlan m (cdpLeft m o) (o + 4) v.1, v.2)
  else v

variable {m total}

theorem safe_appliance {k : Option ℕ → NetProg (Option CdpDone)} : ∀ (left t vlan : ℕ),
    t ≤ total → (Safe m total (cdpAppliance left t vlan >>= k) ↔ t + 3 * (left / 3) ≤ total ∧
      Safe m total (k (if left % 3 = 0 then some (applianceVlan m left t vlan) else none)))
  | 0, t, vlan, ht => (and_iff_right ht).symm
  | 1, t, vlan, ht => (and_iff_right ht).symm
  | 2, t, vlan, ht => (and_iff_right ht).symm
  | left + 3, t, vlan, ht => by
    rw [cdpAppliance, bind_assoc, safe_read, bind_assoc, safe_netField]
    have hdiv : (left + 3) / 3 = left / 3 + 1 := by omega
    have hmod : (left + 3) % 3 = left % 3 := by omega
    rw [hdiv, hmod]
    by_cases hin : t + 3 ≤ total
    · rw [safe_appliance left (t + 3) _ hin]
      constructor
      · rintro ⟨-, -, hend, hk⟩
        exact ⟨by omega, hk⟩
      · rintro ⟨hend, hk⟩
        exact ⟨by omega, by omega, by omega, hk⟩
    · exact iff_of_false (fun h => hin (by omega)) fun h => hin (by omega)

/-- Of a run with some steps the first one is at a right place, and the rest is such a run. -/
theorem cdp_walk : Walk (cdpNext m total) (CdpInside m total) (cdpVlans m)
    fun n o v => Safe m total (cdpFields n o (total - o) v.1 v.2) where
  zero o v := not_safe_none
  succ n o v := by
    rw [cdpFields]
    by_cases hlong : o + 4 ≤ total
    swap
    · have hnext : cdpNext m total o = none := if_neg fun h => hlong h.1
      rw [hnext]
      refine iff_of_true ?_ ⟨fun h => absurd h hlong, fun t ht => absurd ht (by simp)⟩
      by_cases hend : total - o = 0
      · rw [if_pos hend]
        exact safe_pure _
      · rw [if_neg hend, if_pos (by omega)]
        exact safe_pure _
    rw [if_neg (by omega), if_neg (by omega), safe_netField, safe_netField]
    change _ ∧ _ ∧ Safe m total (if cdpTlen m o > total - o then _ else _) ↔ _
    by_cases htlen : o + cdpTlen m o ≤ total
    swap
    · have hnext : cdpNext m total o = none := if_neg fun h => htlen h.2.1
      rw [hnext, if_pos (by omega)]
      exact iff_of_true ⟨by omega, by omega, safe_pure _⟩
        ⟨fun _ h => absurd h htlen, fun t ht => absurd ht (by simp)⟩
    rw [if_neg (by omega)]
    have hstep (hmod : cdpType m o = CDP_APPLIANCE_VLAN_TLV → cdpLeft m o % 3 = 0) :
        cdpNext m total o = some (o + cdpTlen m o) := if_pos ⟨hlong, htlen, hmod⟩
    have hrest : total - o - fieldAt m (o + 2) 2 = total - (o + cdpTlen m o) := Nat.sub_sub _ _ _
    have hread : o + 2 ≤ total ∧ o + 2 + 2 ≤ total := ⟨by omega, by omega⟩
    rw [← and_assoc, and_iff_right hread]
    by_cases hnative : cdpType m o = CDP_NATIVE_VLAN_TLV
    · have happ : cdpType m o ≠ CDP_APPLIANCE_VLAN_TLV := by
        rw [hnative]
        decide
      have hinside : CdpInside m total o ↔ o + 6 ≤ total :=
        ⟨fun h => (h hlong htlen).1 hnative, fun h _ _ => ⟨fun _ => h, fun h => absurd h happ⟩⟩
      rw [if_pos (show fieldAt m o 2 = _ from hnative), safe_read, hrest,
        hstep fun h => absurd h happ, hinside, cdpVlans, if_pos hnative]
      exact and_congr_right fun _ =>
        ⟨fun h t ht => Option.some.inj ht ▸ h, fun h => h _ rfl⟩
    rw [if_neg (show ¬fieldAt m o 2 = _ from hnative)]
    by_cases happ : cdpType m o = CDP_APPLIANCE_VLAN_TLV
    · have hinside : CdpInside m total o ↔ o + 4 + 3 * (cdpLeft m o / 3) ≤ total :=
        ⟨fun h => (h hlong htlen).2 happ, fun h _ _ => ⟨fun h => absurd h hnative, fun _ => h⟩⟩
      have hleft : (fieldAt m (o + 2) 2 + 2 ^ 16 - 4) % 2 ^ 16 = cdpLeft m o := by
        rw [cdpLeft, cdpTlen]
      rw [if_pos (show fieldAt m o 2 = _ from happ), hleft, safe_appliance _ _ _ hlong, hrest,
        hinside, cdpVlans, if_neg hnative, if_pos happ]
      refine and_congr_right fun _ => ?_
      by_cases hmod : cdpLeft m o % 3 = 0
      · rw [if_pos hmod, hstep fun _ => hmod]
        generalize applianceVlan m (cdpLeft m o) (o + 4) v.1 = vlan
        constructor
        · intro h t ht
          obtain rfl := Option.some.inj ht
          exact h
        · exact fun h => h _ rfl
      · have hnext : cdpNext m total o = none := if_neg fun h => hmod (h.2.2 happ)
        rw [if_neg hmod, hnext]
        exact iff_of_true (safe_pure _) fun t ht => absurd ht (by simp)
    · have hinside : CdpInside m total o := fun _ _ =>
        ⟨fun h => absurd h hnative, fun h => absurd h happ⟩
      rw [if_neg (show ¬fieldAt m o 2 = _ from happ), hrest, hstep fun h => absurd h happ,
        cdpVlans, if_neg hnative, if_neg happ, and_iff_right hinside]
      exact ⟨fun h t ht => Option.some.inj ht ▸ h, fun h => h _ rfl⟩

/-- The scan from a field on. -/
theorem cdpFields_iff (o : ℕ) (v : ℕ × ℕ) :
    (∃ n, Safe m total (cdpFields n o (total - o) v.1 v.2)) ↔
      ∀ t, ComesTo (cdpNext m total) o t → CdpInside m total t ∧ cdpNext m total t ≠ some t := by
  refine walks_iff cdp_walk (total - ·) (fun s t _ hst => ?_) o v
  unfold cdpNext at hst
  split_ifs at hst with h
  obtain rfl := Option.some.inj hst
  by_cases h0 : cdpTlen m s = 0
  · exact .inl (by omega)
  · exact .inr (by omega)

end Fields

section Handler

variable (m : Mem) (isOdd : Bool) (len : ℕ)

/-- The handler comes to an end, and reads nothing but the packet. -/
def CdpRight : Prop := ∃ n, Safe m len (cdpHandler isOdd len n)

/-- The checks that a packet passes before its fields are looked at. -/
structure CdpPasses : Prop where
  long : CDP_SNAP_hdr.length + 4 ≤ len
  snap : m.load 0 CDP_SNAP_hdr.length = CDP_SNAP_hdr
  version : 2 ≤ fieldAt m 8 1
  ttl : fieldAt m 9 1 ≠ 0
  csum : cdpComputeCsum isOdd (m.load 8 ((len - CDP_SNAP_hdr.length) % 2 ^ 16)) = 0

/-- Every field that the scan gets to is as long as it is read for, and not of length 0. -/
def CdpFits : Prop :=
  CdpPasses m isOdd len → ∀ o, ComesTo (cdpNext m len) 12 o → CdpField m len o →
    cdpTlen m o ≠ 0 ∧ (cdpType m o = CDP_NATIVE_VLAN_TLV → o + 6 ≤ len) ∧
      (cdpType m o = CDP_APPLIANCE_VLAN_TLV → o + 4 + 3 * (cdpLeft m o / 3) ≤ len)

variable {m isOdd len}

theorem cdpFits_iff : CdpFits m isOdd len ↔ (CdpPasses m isOdd len →
    ∀ t, ComesTo (cdpNext m len) 12 t → CdpInside m len t ∧ cdpNext m len t ≠ some t) := by
  refine imp_congr_right fun _ => forall_congr' fun o => imp_congr_right fun _ => ?_
  constructor
  · intro h
    refine ⟨fun hlong htlen => (h ⟨hlong, htlen⟩).2, fun hstay => ?_⟩
    unfold cdpNext at hstay
    split_ifs at hstay with hfield
    have hpos := (h ⟨hfield.1, hfield.2.1⟩).1
    have hsame := Option.some.inj hstay
    omega
  · rintro ⟨hinside, hmoves⟩ ⟨hlong, htlen⟩
    refine ⟨fun h0 => ?_, hinside hlong htlen⟩
    by_cases happ : cdpType m o = CDP_APPLIANCE_VLAN_TLV ∧ cdpLeft m o % 3 ≠ 0
    · refine absurd ?_ happ.2
      rw [cdpLeft, h0]
      omega
    · refine hmoves ?_
      unfold cdpNext
      rw [if_pos ⟨hlong, htlen, fun h => not_not.1 fun hmod => happ ⟨h, hmod⟩⟩, h0, Nat.add_zero]

/-- A packet that is refused has only its header read. -/
theorem cdpRight_refused (h : ¬CdpPasses m isOdd len) : CdpRight m isOdd len := by
  have hlen : CDP_SNAP_hdr.length = 8 := rfl
  refine ⟨0, ?_⟩
  rw [cdpHandler]
  by_cases hlong : len < CDP_SNAP_hdr.length + 4
  · rw [if_pos hlong]
    exact safe_pure _
  rw [if_neg hlong, safe_read]
  refine ⟨by omega, ?_⟩
  by_cases hsnap : m.load 0 CDP_SNAP_hdr.length = CDP_SNAP_hdr
  swap
  · rw [if_pos hsnap]
    exact safe_pure _
  rw [if_neg (not_not.2 hsnap), safe_netField]
  refine ⟨by omega, ?_⟩
  by_cases hversion : fieldAt m 8 1 < 2
  · rw [if_pos hversion]
    exact safe_pure _
  rw [if_neg hversion, safe_netField]
  refine ⟨by omega, ?_⟩
  by_cases httl : fieldAt m 9 1 = 0
  · rw [if_pos httl]
    exact safe_pure _
  rw [if_neg httl, safe_read]
  have hmod := Nat.mod_le (len - CDP_SNAP_hdr.length) (2 ^ 16)
  refine ⟨by omega, ?_⟩
  rw [if_pos fun hcsum => h ⟨not_lt.1 hlong, hsnap, not_lt.1 hversion, httl, hcsum⟩]
  exact safe_pure _

theorem cdpRight_passed (hpass : CdpPasses m isOdd len) : CdpRight m isOdd len ↔
    ∀ t, ComesTo (cdpNext m len) 12 t → CdpInside m len t ∧ cdpNext m len t ≠ some t := by
  have hhandler (n : ℕ) : Safe m len (cdpHandler isOdd len n) ↔
      Safe m len (cdpFields n 12 (len - 12) 0xffff 0xffff) := by
    have hlong := hpass.long
    have hlen : CDP_SNAP_hdr.length = 8 := rfl
    rw [cdpHandler, if_neg (not_lt.2 hlong), safe_read, hpass.snap, if_neg (not_not.2 rfl),
      safe_netField, if_neg (not_lt.2 hpass.version), safe_netField, if_neg hpass.ttl, safe_read,
      hpass.csum, if_neg (not_not.2 rfl), hlen, Nat.sub_sub]
    rw [hlen] at hlong
    have hmod := Nat.mod_le (len - 8) (2 ^ 16)
    constructor
    · exact fun h => h.2.2.2.2
    · exact fun h => ⟨by omega, by omega, by omega, by omega, h⟩
  rw [CdpRight, exists_congr hhandler]
  exact cdpFields_iff 12 (0xffff, 0xffff)

end Handler

/-- The packets that the handler gets through without a look behind them. -/
theorem cdp_right_iff (m : Mem) (isOdd : Bool) (len : ℕ) :
    CdpRight m isOdd len ↔ CdpFits m isOdd len := by
  rw [cdpFits_iff]
  by_cases hpass : CdpPasses m isOdd len
  · rw [cdpRight_passed hpass]
    exact ⟨fun h _ => h, fun h => h hpass⟩
  · exact iff_of_true (cdpRight_refused hpass) fun h => absurd h hpass

/-- A packet of one field, of length 0. -/
def emptyField : Mem := Mem.store (fun _ => 0) 0
  (CDP_SNAP_hdr ++ [2, 180, 0xfd, 0x4a, 0, 1, 0, 0])

theorem emptyField_passes : CdpPasses emptyField false 16 :=
  ⟨by decide, by decide, by decide, by decide, by decide⟩

theorem cdp_empty_field : ¬CdpRight emptyField false 16 := fun h =>
  ((cdpRight_passed emptyField_passes).1 h 12 Relation.ReflTransGen.refl).2 (by decide)

end InfotmUboot
