import InfotmUboot.Descriptor

/-!
# Answers to requests for a descriptor

A string is copied as it is, whatever the buffer holds and whatever was asked for (`putChars_mem`).
So the answer is right while the string fits into the buffer and its length, as far as a byte of it
goes, into what was asked for (`descriptor_right_iff`).
-/

namespace InfotmUboot

open Lib

/-- The characters of a string descriptor. -/
def wideChars (s : List UInt8) : List UInt8 := s.flatMap fun c => [c, 0]

/-- The descriptor of a string, the first of which is the language. -/
def correctDescriptor (strings : DeviceStrings) (i : ℕ) : Option (List UInt8) :=
  if i = 0 then some (stringDescriptor 4)
  else (strings i).map fun s => (2 + 2 * s.length).toUInt8 :: 3 :: wideChars s

/-- The answer stays in its buffer and is as long as asked for at most, and the bytes of a string
descriptor are those it begins with. -/
structure DescOut.Right (strings : DeviceStrings) (wValue wLength : UInt16) (out : DescOut) :
    Prop where
  inside : ∀ i ∈ out.buf.writes, i < UDC_MAX_PACKET_EP0
  short : out.sent.length ≤ wLength.toNat
  isPrefix : wValue.toNat / 256 = USB_DT_STRING → ∀ d,
    correctDescriptor strings (wValue.toNat % 256) = some d → out.sent <+: d

section Copy

/-- The characters from place `s` on. -/
def putChars : EpBuf → ℕ → List UInt8 → EpBuf
  | b, _, [] => b
  | b, s, c :: cs => putChars ((b.put (s * 2) c).put (s * 2 + 1) 0) (s + 1) cs

theorem wideChars_cons (c : UInt8) (s : List UInt8) : wideChars (c :: s) = c :: 0 :: wideChars s :=
  rfl

theorem length_wideChars (s : List UInt8) : (wideChars s).length = 2 * s.length := by
  induction s with
  | nil => rfl
  | cons c s ih =>
    rw [wideChars_cons, List.length_cons, List.length_cons, List.length_cons]
    omega

theorem putChars_mem : ∀ (cs : List UInt8) (b : EpBuf) (s : ℕ),
    (putChars b s cs).mem = b.mem.store (s * 2) (wideChars cs)
  | [], b, s => (Mem.store_nil _ _).symm
  | c :: cs, b, s => by
    have htwo : wideChars (c :: cs) = [c] ++ ([0] ++ wideChars cs) := rfl
    rw [putChars, putChars_mem cs, htwo, Mem.store_append, Mem.store_append, Nat.succ_mul]
    rfl

theorem putChars_writes : ∀ (cs : List UInt8) (b : EpBuf) (s : ℕ),
    (putChars b s cs).writes = b.writes ++ List.range' (s * 2) (2 * cs.length)
  | [], b, s => (List.append_nil _).symm
  | c :: cs, b, s => by
    have hrange : List.range' (s * 2) (2 * (c :: cs).length) =
        s * 2 :: (s * 2 + 1) :: List.range' ((s + 1) * 2) (2 * cs.length) := by
      have htwo : 2 * (c :: cs).length = 2 * cs.length + 1 + 1 := by rw [List.length_cons]; ring
      have hnext : (s + 1) * 2 = s * 2 + 1 + 1 := by ring
      rw [htwo, hnext, List.range'_succ, List.range'_succ]
    rw [putChars, putChars_writes cs, hrange]
    simp [EpBuf.put]

theorem copyChars_eq {str : List UInt8} (hlen : str.length < 255) : ∀ {n s : ℕ} {b : EpBuf},
    0 < s → s ≤ str.length + 1 → str.length + 1 - s < n →
      copyChars str str.length n s b = some (putChars b s (str.drop (s - 1)))
  | 0, s, b, _, _, hn => absurd hn (Nat.not_lt_zero _)
  | n + 1, s, b, hpos, hle, hn => by
    rw [copyChars]
    by_cases hlt : s < str.length + 1
    · have hmod : (s + 1) % 256 = s + 1 := Nat.mod_eq_of_lt (by omega)
      have hget : s - 1 < str.length := by omega
      rw [if_pos hlt, hmod, copyChars_eq hlen (Nat.succ_pos s) hlt (by omega),
        List.drop_eq_getElem_cons hget, putChars, Nat.sub_add_cancel hpos,
        List.getD_eq_getElem _ _ hget]
      rfl
    · rw [if_neg hlt, List.drop_eq_nil_of_le (by omega), putChars]

end Copy

section Answer

variable {strings : DeviceStrings} {mem : Mem} {wValue wLength : UInt16}

theorem toNat_toUInt8 {n : ℕ} (h : n < 256) : n.toUInt8.toNat = n := by
  rw [Nat.toUInt8_eq, UInt8.toNat_ofNat', Nat.mod_eq_of_lt h]

theorem min8_toNat (x : UInt8) (y : UInt16) : (min8 x y).toNat = min x.toNat (y.toNat % 256) := by
  have hy : y.toUInt8.toNat = y.toNat % 256 := UInt16.toNat_toUInt8 y
  rw [← hy]
  change (if x ≤ y.toUInt8 then x else y.toUInt8).toNat = _
  split_ifs with h
  · exact (Nat.min_eq_left (UInt8.le_iff_toNat_le.1 h)).symm
  · rw [UInt8.le_iff_toNat_le] at h
    exact (Nat.min_eq_right (Nat.le_of_not_le h)).symm

/-- The buffer that is sent from, where a string is asked for. -/
theorem reqGetDescriptor_string (mem : Mem) (wLength : UInt16) {str : List UInt8}
    (htype : wValue.toNat / 256 = USB_DT_STRING)
    (hpos : 0 < wValue.toNat % 256) (hmax : wValue.toNat % 256 ≤ DEVICE_STRING_MAX_INDEX)
    (hstr : strings (wValue.toNat % 256) = some str) (hlen : str.length < 127) :
    ∃ bLength : UInt8, bLength.toNat = min (2 + 2 * str.length) (wLength.toNat % 256) ∧
      ∃ out, reqGetDescriptor strings mem wValue wLength = some out ∧
        out.buf.writes = List.range (2 + 2 * str.length) ∧
        out.sent = (bLength :: 3 :: wideChars str).take bLength.toNat := by
  have hsl : str.length.toUInt8.toNat = str.length := toNat_toUInt8 (by omega)
  have htwo : (2 : UInt8).toNat = 2 := rfl
  have hdouble : (2 + 2 * str.length.toUInt8).toNat = 2 + 2 * str.length := by
    rw [UInt8.toNat_add, UInt8.toNat_mul, hsl, htwo]
    omega
  have hmin := min8_toNat (2 + 2 * str.length.toUInt8) wLength
  rw [hdouble] at hmin
  set bLength := min8 (2 + 2 * str.length.toUInt8) wLength with hb
  have hcopy := copyChars_eq (show str.length < 255 by omega) (n := 256) (s := 1)
    (b := ((EpBuf.mk mem []).put 0 bLength).put 1 3) Nat.one_pos (by omega) (by omega)
  rw [Nat.sub_self, List.drop_zero] at hcopy
  have htypes : ¬USB_DT_STRING = USB_DT_DEVICE ∧ ¬USB_DT_STRING = USB_DT_CONFIG ∧
    ¬USB_DT_STRING = USB_DT_DEVICE_QUALIFIER := by decide
  refine ⟨bLength, hmin, .answer (putChars (((EpBuf.mk mem []).put 0 bLength).put 1 3) 1 str)
    bLength.toNat wLength, ?_, ?_, ?_⟩
  · rw [reqGetDescriptor, htype]
    dsimp only
    rw [if_neg htypes.1, if_neg htypes.2.1, if_neg htypes.2.2, if_pos rfl, if_neg (by omega), hstr,
      Option.bind_eq_bind, Option.bind_some, ← hb, hsl, hcopy]
    rfl
  · have hrange : List.range (2 + 2 * str.length) = 0 :: 1 :: List.range' 2 (2 * str.length) := by
      have hsum : 2 + 2 * str.length = 2 * str.length + 1 + 1 := by ring
      rw [hsum, List.range_eq_range', List.range'_succ, List.range'_succ]
    rw [hrange]
    exact putChars_writes str (((EpBuf.mk mem []).put 0 bLength).put 1 3) 1
  · have hwhole : bLength :: 3 :: wideChars str = [bLength] ++ ([3] ++ wideChars str) := rfl
    have hmem : (putChars (((EpBuf.mk mem []).put 0 bLength).put 1 3) 1 str).mem =
        mem.store 0 (bLength :: 3 :: wideChars str) := by
      rw [putChars_mem, hwhole, Mem.store_append, Mem.store_append]
      rfl
    have hload := Mem.load_store_same mem 0 (bLength :: 3 :: wideChars str)
    have hlen : (bLength :: 3 :: wideChars str).length = 2 + 2 * str.length := by
      rw [List.length_cons, List.length_cons, length_wideChars]
      omega
    rw [hlen] at hload
    change Mem.load _ 0 (min wLength.toNat bLength.toNat) = _
    rw [hmem, ← Mem.take_load _ 0 (n := 2 + 2 * str.length) (by omega), hload,
      Nat.min_eq_right (by omega)]

/-- The condition on a request: the string fits into the buffer, and its descriptor is as long as a
byte of the length asked for, or none of it is. -/
def RequestFits (strings : DeviceStrings) (wValue wLength : UInt16) : Prop :=
  wValue.toNat / 256 = USB_DT_STRING →
    (wValue.toNat % 256 = 0 → wLength.toNat = 0 ∨ 4 ≤ wLength.toNat) ∧
      ∀ str, wValue.toNat % 256 ≠ 0 → strings (wValue.toNat % 256) = some str → str.length ≤ 31 ∧
        (wLength.toNat % 256 = 0 ∨ 2 + 2 * str.length ≤ wLength.toNat % 256)

theorem string_right_iff {str : List UInt8} (htype : wValue.toNat / 256 = USB_DT_STRING)
    (hpos : 0 < wValue.toNat % 256) (hmax : wValue.toNat % 256 ≤ DEVICE_STRING_MAX_INDEX)
    (hstr : strings (wValue.toNat % 256) = some str) (hlen : str.length < 127) :
    (∃ out, reqGetDescriptor strings mem wValue wLength = some out ∧
      out.Right strings wValue wLength) ↔ str.length ≤ 31 ∧
        (wLength.toNat % 256 = 0 ∨ 2 + 2 * str.length ≤ wLength.toNat % 256) := by
  obtain ⟨bLength, hmin, out, hout, hwrites, hsent⟩ :=
    reqGetDescriptor_string mem wLength htype hpos hmax hstr hlen
  have hcorrect : correctDescriptor strings (wValue.toNat % 256) =
      some ((2 + 2 * str.length).toUInt8 :: 3 :: wideChars str) := by
    rw [correctDescriptor, if_neg (by omega), hstr, Option.map_some]
  have hpacket : UDC_MAX_PACKET_EP0 = 64 := rfl
  have hbyte : (2 + 2 * str.length).toUInt8.toNat = 2 + 2 * str.length := toNat_toUInt8 (by omega)
  constructor
  · rintro ⟨out', hout', hright⟩
    obtain rfl := Option.some.inj (hout.symm.trans hout')
    have hinside := hright.inside (1 + 2 * str.length)
      (by rw [hwrites, List.mem_range]; omega)
    have hclipped := hright.isPrefix htype _ hcorrect
    refine ⟨by omega, ?_⟩
    by_contra hcut
    obtain ⟨k, hk⟩ : ∃ k, bLength.toNat = k + 1 := ⟨bLength.toNat - 1, by omega⟩
    rw [hsent, hk, List.take_succ_cons, List.cons_prefix_cons] at hclipped
    have hfirst := congrArg UInt8.toNat hclipped.1
    omega
  · rintro ⟨hshort, hcut⟩
    refine ⟨out, hout, ?_, ?_, ?_⟩
    · intro i hi
      rw [hwrites, List.mem_range] at hi
      omega
    · rw [hsent, List.length_take]
      omega
    · intro _ d hd
      obtain rfl := Option.some.inj (hcorrect.symm.trans hd)
      rw [hsent]
      rcases hcut with hnone | hall
      · have hzero : bLength.toNat = 0 := by omega
        rw [hzero, List.take_zero]
        exact List.nil_prefix
      · have hfull : bLength = (2 + 2 * str.length).toUInt8 := UInt8.toNat_inj.1 (by omega)
        rw [hfull]
        exact List.take_prefix _ _

/-- What is copied whole, with its length cut to what was asked for. -/
theorem answer_right {bs : List UInt8} {n : ℕ} (hlen : bs.length ≤ UDC_MAX_PACKET_EP0)
    (hclipped : wValue.toNat / 256 = USB_DT_STRING → ∀ d,
      correctDescriptor strings (wValue.toNat % 256) = some d →
        (DescOut.answer ((EpBuf.mk mem []).memcpy bs) n wLength).sent <+: d) :
    (DescOut.answer ((EpBuf.mk mem []).memcpy bs) n wLength).Right strings wValue wLength := by
  refine ⟨fun i hi => ?_, ?_, hclipped⟩
  · have hrange : i ∈ List.range bs.length := hi
    exact (List.mem_range.1 hrange).trans_le hlen
  · change (Mem.load _ _ _).length ≤ _
    rw [Mem.length_load]
    exact Nat.min_le_left _ _

theorem answer_sent (mem : Mem) (wLength : UInt16) (bs : List UInt8) :
    (DescOut.answer ((EpBuf.mk mem []).memcpy bs) bs.length wLength).sent =
      bs.take wLength.toNat := by
  change (mem.store 0 bs).load 0 (min wLength.toNat bs.length) = _
  rw [← Mem.take_load _ 0 (Nat.min_le_right _ _), Mem.load_store_same]
  exact List.take_eq_take_iff.2 (by omega)

/-- The language. -/
theorem language_right_iff (htype : wValue.toNat / 256 = USB_DT_STRING)
    (hzero : wValue.toNat % 256 = 0) :
    (∃ out, reqGetDescriptor strings mem wValue wLength = some out ∧
      out.Right strings wValue wLength) ↔ wLength.toNat = 0 ∨ 4 ≤ wLength.toNat := by
  have htypes : ¬USB_DT_STRING = USB_DT_DEVICE ∧ ¬USB_DT_STRING = USB_DT_CONFIG ∧
    ¬USB_DT_STRING = USB_DT_DEVICE_QUALIFIER := by decide
  have hreq : reqGetDescriptor strings mem wValue wLength = some (.answer
      ((EpBuf.mk mem []).memcpy (stringDescriptor (min wLength.toNat 4).toUInt8)) 4 wLength) := by
    rw [reqGetDescriptor, htype]
    dsimp only
    rw [if_neg htypes.1, if_neg htypes.2.1, if_neg htypes.2.2, if_pos rfl, if_pos (.inl hzero)]
  have hsent := answer_sent mem wLength
    (stringDescriptor (min wLength.toNat 4).toUInt8)
  have hbyte : (min wLength.toNat 4).toUInt8.toNat = min wLength.toNat 4 := toNat_toUInt8 (by omega)
  have hcorrect : correctDescriptor strings (wValue.toNat % 256) = some (stringDescriptor 4) :=
    if_pos hzero
  constructor
  · rintro ⟨out, hout, hright⟩
    obtain rfl := Option.some.inj (hreq.symm.trans hout)
    have hclipped := hright.isPrefix htype _ hcorrect
    by_contra hcut
    obtain ⟨k, hk⟩ : ∃ k, wLength.toNat = k + 1 := ⟨wLength.toNat - 1, by omega⟩
    have hclipped : (stringDescriptor (min wLength.toNat 4).toUInt8).take wLength.toNat <+:
        stringDescriptor 4 := hsent ▸ hclipped
    rw [stringDescriptor, stringDescriptor, hk, List.take_succ_cons, List.cons_prefix_cons,
      ← hk] at hclipped
    have hfirst : min wLength.toNat 4 = 4 := by
      rw [← hbyte, hclipped.1]
      rfl
    omega
  · intro hwhole
    refine ⟨_, hreq, answer_right (by simp [stringDescriptor, UDC_MAX_PACKET_EP0]) fun _ d hd => ?_⟩
    obtain rfl := Option.some.inj (hcorrect.symm.trans hd)
    refine hsent.symm ▸ ?_
    rcases hwhole with hnone | hall
    · rw [hnone, List.take_zero]
      exact List.nil_prefix
    · rw [Nat.min_eq_right hall]
      exact List.take_prefix _ _

/-- A request that is not for one of the strings is answered right. -/
theorem other_right (h : wValue.toNat / 256 ≠ USB_DT_STRING ∨
    DEVICE_STRING_MAX_INDEX < wValue.toNat % 256 ∧ strings (wValue.toNat % 256) = none) :
    ∃ out, reqGetDescriptor strings mem wValue wLength = some out ∧
      out.Right strings wValue wLength := by
  have hclipped : wValue.toNat / 256 = USB_DT_STRING → ∀ d,
      correctDescriptor strings (wValue.toNat % 256) ≠ some d := by
    intro htype d hd
    obtain ⟨hmax, hnone⟩ := h.resolve_left (not_not.2 htype)
    rw [correctDescriptor, if_neg (by omega), hnone] at hd
    cases hd
  rw [reqGetDescriptor]
  dsimp only
  split_ifs with hdev hconf hqual hstr hindex
  · exact ⟨_, rfl, answer_right (by decide) fun ht d hd => absurd hd (hclipped ht d)⟩
  · exact ⟨_, rfl, answer_right (by decide) fun ht d hd => absurd hd (hclipped ht d)⟩
  · exact ⟨_, rfl, answer_right (by simp [qDescriptor, UDC_MAX_PACKET_EP0])
      fun ht d hd => absurd hd (hclipped ht d)⟩
  · exact ⟨_, rfl, answer_right (by simp [stringDescriptor, UDC_MAX_PACKET_EP0])
      fun ht d hd => absurd hd (hclipped ht d)⟩
  · rw [not_or] at hindex
    exact absurd (h.resolve_left (not_not.2 hstr)).1 hindex.2
  · exact ⟨_, rfl, fun i hi => absurd hi List.not_mem_nil, Nat.zero_le _,
      fun ht d hd => absurd hd (hclipped ht d)⟩

theorem request_right_iff (hset : ∀ i, 0 < i → i ≤ DEVICE_STRING_MAX_INDEX →
      ∃ str, strings i = some str ∧ str.length < 127)
    (hend : ∀ i, DEVICE_STRING_MAX_INDEX < i → strings i = none) :
    (∃ out, reqGetDescriptor strings mem wValue wLength = some out ∧
      out.Right strings wValue wLength) ↔ RequestFits strings wValue wLength := by
  unfold RequestFits
  by_cases htype : wValue.toNat / 256 = USB_DT_STRING
  · by_cases hzero : wValue.toNat % 256 = 0
    · rw [language_right_iff htype hzero]
      simp [htype, hzero]
    · by_cases hmax : DEVICE_STRING_MAX_INDEX < wValue.toNat % 256
      · have hnone := hend _ hmax
        exact iff_of_true (other_right (.inr ⟨hmax, hnone⟩)) (by simp [hnone, hzero])
      · obtain ⟨str, hstr, hlen⟩ := hset _ (by omega) (Nat.not_lt.1 hmax)
        rw [string_right_iff htype (by omega) (Nat.not_lt.1 hmax) hstr hlen]
        simp [htype, hzero, hstr]
  · exact iff_of_true (other_right (.inl htype)) fun h => absurd h htype

end Answer

section Request

variable (tab : Mem) (serialno : Option (List UInt8)) (mem : Mem) (wValue wLength : UInt16)

/-- The strings are set and the request is answered right. -/
def DescriptorRight : Prop := ∃ strings, initString tab serialno = some strings ∧
  ∃ out, reqGetDescriptor strings mem wValue wLength = some out ∧ out.Right strings wValue wLength

/-- The strings that are meant: the board is named in the items or not. -/
def stringsMeant : DeviceStrings :=
  if itemExist tab (ascii "board.name") = .missing then
    deviceStrings (ascii "Imapx820") (ascii "00123")
  else deviceStrings (serialText serialno) (serialText serialno)

/-- If the board is named, the lookups of its name end in the table and the serial number fits. -/
def SerialFits : Prop := itemExist tab (ascii "board.name") = .missing ∨
  itemExist tab (ascii "board.name") ≠ .outside ∧
    itemString tab (ascii "board.name") 0 ≠ .outside ∧
      (serialText serialno).length < BOARD_SERIAL_SIZE

theorem initString_eq_some {strings : DeviceStrings} : initString tab serialno = some strings ↔
    SerialFits tab serialno ∧ strings = stringsMeant tab serialno := by
  unfold initString SerialFits stringsMeant
  rcases itemExist tab (ascii "board.name") with u | _ | _
  · by_cases hout : itemString tab (ascii "board.name") 0 = .outside
    · simp [hout]
    · by_cases hfit : (serialText serialno).length + 1 ≤ BOARD_SERIAL_SIZE
      · simp [hout, hfit, Nat.lt_of_succ_le hfit, eq_comm]
      · simp [hout, hfit, Nat.lt_iff_add_one_le]
  · simp [eq_comm]
  · simp

theorem deviceStrings_set {product serial : List UInt8} (hp : product.length < 127)
    (hs : serial.length < 127) {i : ℕ} (hpos : 0 < i) (hmax : i ≤ DEVICE_STRING_MAX_INDEX) :
    ∃ str, deviceStrings product serial i = some str ∧ str.length < 127 := by
  have hfive : DEVICE_STRING_MAX_INDEX = 5 := rfl
  rw [hfive] at hmax
  interval_cases i
  · exact ⟨product, rfl, hp⟩
  · exact ⟨serial, rfl, hs⟩
  · exact ⟨_, rfl, by decide⟩
  · exact ⟨_, rfl, by decide⟩
  · exact ⟨_, rfl, by decide⟩

theorem deviceStrings_none (product serial : List UInt8) {i : ℕ} (h : DEVICE_STRING_MAX_INDEX < i) :
    deviceStrings product serial i = none := by
  have hfive : DEVICE_STRING_MAX_INDEX = 5 := rfl
  unfold deviceStrings DEVICE_STRING_PRODUCT_INDEX DEVICE_STRING_SERIAL_NUMBER_INDEX
    DEVICE_STRING_CONFIG_INDEX DEVICE_STRING_INTERFACE_INDEX DEVICE_STRING_MANUFACTURER_INDEX
  split_ifs <;> first | omega | rfl

/-- A request is answered right just if the serial number fits where it is kept and the request is
one that fits. -/
theorem descriptor_right_iff : DescriptorRight tab serialno mem wValue wLength ↔
    SerialFits tab serialno ∧ RequestFits (stringsMeant tab serialno) wValue wLength := by
  unfold DescriptorRight
  simp only [initString_eq_some, and_assoc, exists_and_left, exists_eq_left]
  refine and_congr_right fun hfits => ?_
  have hsize : BOARD_SERIAL_SIZE = 64 := rfl
  unfold stringsMeant
  split_ifs with hmissing
  · exact request_right_iff (fun i => deviceStrings_set (by decide) (by decide))
      fun i => deviceStrings_none _ _
  · have hserial := (hfits.resolve_left hmissing).2.2
    exact request_right_iff (fun i => deviceStrings_set (by omega) (by omega))
      fun i => deviceStrings_none _ _

/-- A serial number of forty characters. -/
theorem descriptor_not_right : ¬∀ (tab : Mem) (serialno : Option (List UInt8)) (mem : Mem)
    (wValue wLength : UInt16), DescriptorRight tab serialno mem wValue wLength := by
  intro h
  have hnamed := h (Mem.store (fun _ => 0) 0 (ascii "board.name"))
    (some (List.replicate 40 0x41)) (fun _ => 0) 0x0302 0xff
  obtain ⟨strings, hinit, hanswer⟩ := hnamed
  obtain ⟨-, rfl⟩ := (initString_eq_some _ _).1 hinit
  have hstr : stringsMeant (Mem.store (fun _ => 0) 0 (ascii "board.name"))
      (some (List.replicate 40 0x41)) 2 = some (List.replicate 40 0x41) := by
    decide
  have hlong := (string_right_iff (by decide) (by decide) (by decide) hstr (by decide)).1 hanswer
  exact absurd hlong.1 (by decide)

end Request

end InfotmUboot
