import InfotmUboot.Proofs.Srec
import Mathlib.Data.UInt

/-!
# What a line must be to be a record

A record is its type, a count and as many bytes in hexadecimal: an address, data and a checksum
(`RecordIn`). `srec_decode` reads the record that begins at the first `S` of a line. It does not ask
that the count covers the address and the checksum (`SrecShort`), and that is the one way in which
it takes something for a record that is none (`srec_decode_right_iff`).
-/

namespace InfotmUboot

open Lib

section Format

/-- Two digits for each byte. -/
def HexText : List UInt8 → List UInt8 → Prop
  | [], [] => True
  | c :: c' :: cs, b :: bs =>
    hex1Bin c = some (b.toNat / 16) ∧ hex1Bin c' = some (b.toNat % 16) ∧ HexText cs bs
  | _, _ => False

/-- The digit behind the `S`. -/
def SrecType.digit : SrecType → UInt8
  | .start => 0x30
  | .data2 => 0x31
  | .data3 => 0x32
  | .data4 => 0x33
  | .count => 0x35
  | .end4 => 0x37
  | .end3 => 0x38
  | .end2 => 0x39
  | .empty => 0

/-- The bytes of the address field. -/
def SrecType.addrLen : SrecType → ℕ
  | .start | .data2 | .count | .end2 => 2
  | .data3 | .end3 => 3
  | .data4 | .end4 => 4
  | .empty => 0

/-- The number whose bytes these are, the high one first. -/
def bigEndian (bs : List UInt8) : ℕ := bs.foldl (fun a b => a * 2 ^ 8 + b.toNat) 0

/-- At its first `S` the line has a record of the type, and behind its count these bytes. -/
def LineBytes (line : List UInt8) (type : SrecType) (count : UInt8) (bs : List UInt8) : Prop :=
  ∃ pre text rest, line = pre ++ 0x53 :: type.digit :: (text ++ rest) ∧ 0x53 ∉ pre ∧
    HexText text (count :: bs)

/-- The record of a line is well formed, and these are its address and its data. -/
def RecordIn (line : List UInt8) (type : SrecType) (addr : ℕ) (data : List UInt8) : Prop :=
  ∃ count abs, LineBytes line type count (abs ++ data ++ [~~~(count :: abs ++ data).sum]) ∧
    abs.length = type.addrLen ∧ count.toNat = abs.length + data.length + 1 ∧ addr = bigEndian abs

/-- The count does not cover the address and the checksum, or it is that of a count record which is
not 3, and the byte behind the address is the checksum of what comes before. -/
def SrecShort (line : List UInt8) : Prop :=
  ∃ type count abs, type ≠ .empty ∧ LineBytes line type count (abs ++ [~~~(count :: abs).sum]) ∧
    abs.length = type.addrLen ∧
    if type = .count then count ≠ 3 else count.toNat < abs.length + 1

end Format

section Pairs

theorem hex1Bin_lt {c : UInt8} {n : ℕ} (h : hex1Bin c = some n) : n < 16 := by
  unfold hex1Bin at h
  simp only [UInt8.le_iff_toNat_le] at h
  split_ifs at h with h1 h2 h3 <;> obtain rfl := Option.some.inj h
  · have := h1.2
    simp at this
    omega
  · have := h2.2
    simp at this
    omega
  · have := h3.2
    simp at this
    omega

/-- A pair of digits is a byte. -/
theorem hex2Bin_iff {input rest : List UInt8} {v : ℕ} : hex2Bin input = some (v, rest) ↔
    ∃ (b : UInt8) (c c' : UInt8), input = c :: c' :: rest ∧ v = b.toNat ∧
      hex1Bin c = some (b.toNat / 16) ∧ hex1Bin c' = some (b.toNat % 16) := by
  constructor
  · intro h
    match input, h with
    | c :: c' :: input, h =>
      simp only [hex2Bin, Option.bind_eq_bind, Option.bind_eq_some_iff] at h
      obtain ⟨i, hi, j, hj, heq⟩ := h
      obtain ⟨rfl, rfl⟩ := Prod.mk.inj (Option.some.inj heq)
      have hi16 := hex1Bin_lt hi
      have hj16 := hex1Bin_lt hj
      have hv : (UInt8.ofNat (i <<< 4 + j)).toNat = 16 * i + j := by
        rw [UInt8.toNat_ofNat', Nat.shiftLeft_eq]
        omega
      refine ⟨UInt8.ofNat (i <<< 4 + j), c, c', rfl, ?_, ?_, ?_⟩
      · rw [hv, Nat.shiftLeft_eq]
        omega
      · rw [hv, hi]
        congr 1
        omega
      · rw [hv, hj]
        congr 1
        omega
  · rintro ⟨b, c, c', rfl, rfl, hc, hc'⟩
    simp only [hex2Bin, hc, hc', Option.bind_eq_bind, Option.bind_some, Nat.shiftLeft_eq,
      Option.some.injEq, Prod.mk.injEq, and_true]
    omega

theorem hexText_cons {b : UInt8} {text bs : List UInt8} : HexText text (b :: bs) ↔
    ∃ c c' text', text = c :: c' :: text' ∧ hex1Bin c = some (b.toNat / 16) ∧
      hex1Bin c' = some (b.toNat % 16) ∧ HexText text' bs := by
  match text with
  | [] => simp [HexText]
  | [c] => simp [HexText]
  | c :: c' :: cs => simp [HexText]

theorem hexText_nil {text : List UInt8} : HexText text [] ↔ text = [] := by
  match text with
  | [] => simp [HexText]
  | [c] => simp [HexText]
  | c :: c' :: cs => simp [HexText]

theorem hexText_append : ∀ {as text bs : List UInt8}, HexText text (as ++ bs) ↔
    ∃ t u, text = t ++ u ∧ HexText t as ∧ HexText u bs
  | [], text, bs => by simp [hexText_nil]
  | a :: as, text, bs => by
    simp only [List.cons_append, hexText_cons, hexText_append]
    constructor
    · rintro ⟨c, c', _, rfl, hc, hc', t, u, rfl, ht, hu⟩
      exact ⟨c :: c' :: t, u, rfl, ⟨c, c', t, rfl, hc, hc', ht⟩, hu⟩
    · rintro ⟨_, u, rfl, ⟨c, c', t, rfl, hc, hc', ht⟩, hu⟩
      exact ⟨c, c', t ++ u, rfl, hc, hc', t, u, rfl, ht, hu⟩

/-- The first byte of a text. -/
theorem hex2Bin_text {b : UInt8} {text bs rest : List UInt8} (h : HexText text (b :: bs)) :
    ∃ text', hex2Bin (text ++ rest) = some (b.toNat, text' ++ rest) ∧ HexText text' bs := by
  obtain ⟨c, c', text', rfl, hc, hc', ht⟩ := hexText_cons.1 h
  exact ⟨text', hex2Bin_iff.2 ⟨b, c, c', rfl, rfl, hc, hc'⟩, ht⟩

/-- The value that the address field adds up to. -/
def addrFold (addr : ℕ) (bs : List UInt8) : ℕ :=
  bs.foldl (fun a b => u32 (a <<< 8) + b.toNat) addr

theorem toUInt8_toNat (b : UInt8) : b.toNat.toUInt8 = b := by
  rw [Nat.toUInt8_eq, UInt8.ofNat_toNat]

theorem srecAddr_text : ∀ {bs text rest : List UInt8} {addr : ℕ} {chksum : UInt8},
    HexText text bs → srecAddr bs.length (text ++ rest) addr chksum =
      some (addrFold addr bs, chksum + bs.sum, rest)
  | [], text, rest, addr, chksum, h => by
    obtain rfl := hexText_nil.1 h
    simp [srecAddr, addrFold]
  | b :: bs, text, rest, addr, chksum, h => by
    obtain ⟨text', hb, ht⟩ := @hex2Bin_text _ _ _ rest h
    rw [List.length_cons, srecAddr, hb, Option.bind_eq_bind, Option.bind_some]
    dsimp only
    rw [toUInt8_toNat, srecAddr_text ht, List.sum_cons, ← UInt8.add_assoc]
    rfl

theorem srecAddr_some : ∀ {n : ℕ} {input rest : List UInt8} {addr addr' : ℕ}
    {chksum chksum' : UInt8}, srecAddr n input addr chksum = some (addr', chksum', rest) →
    ∃ text bs, input = text ++ rest ∧ HexText text bs ∧ bs.length = n ∧ addr' = addrFold addr bs ∧
      chksum' = chksum + bs.sum
  | 0, input, rest, addr, addr', chksum, chksum', h => by
    simp only [srecAddr, Option.some.injEq, Prod.mk.injEq] at h
    obtain ⟨rfl, rfl, rfl⟩ := h
    exact ⟨[], [], rfl, trivial, rfl, rfl, by simp⟩
  | n + 1, input, rest, addr, addr', chksum, chksum', h => by
    rw [srecAddr, Option.bind_eq_bind, Option.bind_eq_some_iff] at h
    obtain ⟨⟨v, input'⟩, hv, h⟩ := h
    obtain ⟨b, c, c', rfl, rfl, hc, hc'⟩ := hex2Bin_iff.1 hv
    obtain ⟨text, bs, rfl, ht, rfl, rfl, rfl⟩ := srecAddr_some h
    refine ⟨c :: c' :: text, b :: bs, rfl, ⟨hc, hc', ht⟩, rfl, rfl, ?_⟩
    rw [List.sum_cons, toUInt8_toNat, UInt8.add_assoc]

theorem srecData_text : ∀ {bs text rest data : List UInt8} {chksum : UInt8},
    HexText text bs → srecData bs.length (text ++ rest) data chksum =
      some (data ++ bs, chksum + bs.sum, rest)
  | [], text, rest, data, chksum, h => by
    obtain rfl := hexText_nil.1 h
    simp [srecData]
  | b :: bs, text, rest, data, chksum, h => by
    obtain ⟨text', hb, ht⟩ := @hex2Bin_text _ _ _ rest h
    rw [List.length_cons, srecData, hb, Option.bind_eq_bind, Option.bind_some]
    dsimp only
    rw [toUInt8_toNat, srecData_text ht, List.sum_cons, ← UInt8.add_assoc, List.append_assoc,
      List.singleton_append]

theorem srecData_some : ∀ {n : ℕ} {input rest data data' : List UInt8}
    {chksum chksum' : UInt8}, srecData n input data chksum = some (data', chksum', rest) →
    ∃ text bs, input = text ++ rest ∧ HexText text bs ∧ bs.length = n ∧ data' = data ++ bs ∧
      chksum' = chksum + bs.sum
  | 0, input, rest, data, data', chksum, chksum', h => by
    simp only [srecData, Option.some.injEq, Prod.mk.injEq] at h
    obtain ⟨rfl, rfl, rfl⟩ := h
    exact ⟨[], [], rfl, trivial, rfl, by simp, by simp⟩
  | n + 1, input, rest, data, data', chksum, chksum', h => by
    rw [srecData, Option.bind_eq_bind, Option.bind_eq_some_iff] at h
    obtain ⟨⟨v, input'⟩, hv, h⟩ := h
    obtain ⟨b, c, c', rfl, rfl, hc, hc'⟩ := hex2Bin_iff.1 hv
    obtain ⟨text, bs, rfl, ht, rfl, rfl, rfl⟩ := srecData_some h
    refine ⟨c :: c' :: text, b :: bs, rfl, ⟨hc, hc', ht⟩, rfl, ?_, ?_⟩
    · rw [toUInt8_toNat, List.append_assoc, List.singleton_append]
    · rw [List.sum_cons, toUInt8_toNat, UInt8.add_assoc]

/-- Four bytes make no number that is cut off. -/
theorem addrFold_eq : ∀ {bs : List UInt8} {a : ℕ} {k : ℕ}, a < 2 ^ (8 * k) → k + bs.length ≤ 4 →
    addrFold a bs = bs.foldl (fun a b => a * 2 ^ 8 + b.toNat) a
  | [], _, _, _, _ => rfl
  | b :: bs, a, k, ha, hk => by
    rw [List.length_cons] at hk
    have hle : 2 ^ (8 * k) ≤ 2 ^ 24 := Nat.pow_le_pow_right (by norm_num) (by omega)
    have hshift : u32 (a <<< 8) = a * 2 ^ 8 := by
      rw [Nat.shiftLeft_eq, u32, Nat.mod_eq_of_lt (by omega)]
    have hb := b.toNat_lt
    have hnext : a * 2 ^ 8 + b.toNat < 2 ^ (8 * (k + 1)) := by
      rw [Nat.mul_add, Nat.mul_one, Nat.pow_add]
      omega
    rw [addrFold, List.foldl_cons, List.foldl_cons, hshift]
    exact addrFold_eq hnext (by omega)

theorem addrFold_bigEndian {bs : List UInt8} (h : bs.length ≤ 4) : addrFold 0 bs = bigEndian bs :=
  @addrFold_eq bs 0 0 Nat.one_pos (by omega)

end Pairs

section Decode

/-- What `srec_decode` makes of the count. -/
def recordCount (type : SrecType) (count : UInt8) : ℤ :=
  if type = .count then 0 else count.toNat - (type.addrLen + 1 : ℕ)

theorem srecType_iff {v : UInt8} {n c : ℤ} {type : SrecType} {len : ℕ} :
    srecType v n = some (type, c, len) ↔ type ≠ .empty ∧ v = type.digit ∧ len = type.addrLen ∧
      c = if type = .count then 0 else n - (type.addrLen + 1 : ℕ) := by
  constructor
  · intro h
    unfold srecType at h
    split_ifs at h with h0 h1 h2 h3 h5 h7 h8 h9 <;>
      · simp only [Option.some.injEq, Prod.mk.injEq] at h
        obtain ⟨rfl, rfl, rfl⟩ := h
        exact ⟨by decide, ‹_›, rfl, rfl⟩
  · rintro ⟨hne, rfl, rfl, rfl⟩
    cases type <;> first | rfl | exact absurd rfl hne

/-- What is behind the first `S`. -/
theorem skip_iff {line rest : List UInt8} {v : UInt8} :
    (line.dropWhile (· ≠ 0x53)).drop 1 = v :: rest ↔
      ∃ pre, line = pre ++ 0x53 :: v :: rest ∧ 0x53 ∉ pre := by
  induction line with
  | nil => simp
  | cons c line ih =>
    by_cases hc : c = 0x53
    · subst hc
      rw [List.dropWhile_cons_of_neg (by decide), List.drop_one, List.tail_cons]
      constructor
      · rintro rfl
        exact ⟨[], rfl, List.not_mem_nil⟩
      · rintro ⟨_ | ⟨c, pre⟩, heq, hpre⟩
        · exact (List.cons.inj heq).2
        · exact absurd (List.mem_cons.2 (Or.inl (List.cons.inj heq).1)) hpre
    · rw [List.dropWhile_cons_of_pos (by simpa using hc), ih]
      constructor
      · rintro ⟨pre, rfl, hpre⟩
        exact ⟨c :: pre, rfl, fun h => (List.mem_cons.1 h).elim (fun h => hc h.symm) hpre⟩
      · rintro ⟨_ | ⟨d, pre⟩, heq, hpre⟩
        · exact absurd (List.cons.inj heq).1 hc
        · obtain ⟨rfl, rfl⟩ := List.cons.inj heq
          exact ⟨pre, rfl, fun h => hpre (List.mem_cons_of_mem _ h)⟩

variable {line : List UInt8}

/-- A line with as many bytes behind the address as the count asks for is decoded. -/
theorem srecDecode_of_bytes {type : SrecType} {count : UInt8} {abs data : List UInt8}
    (hne : type ≠ .empty)
    (h : LineBytes line type count (abs ++ data ++ [~~~(count :: abs ++ data).sum]))
    (ha : abs.length = type.addrLen) (hd : data.length = (recordCount type count).toNat) :
    srecDecode line = .ok ⟨type, recordCount type count, addrFold 0 abs, data⟩ := by
  obtain ⟨pre, text, rest, hline, hpre, htext⟩ := h
  have hskip := skip_iff.2 ⟨pre, hline, hpre⟩
  obtain ⟨text1, hcount, htext⟩ := @hex2Bin_text _ _ _ rest htext
  obtain ⟨text2, u, rfl, htext2, hu⟩ := hexText_append.1 htext
  obtain ⟨t, text3, rfl, ht, htext3⟩ := hexText_append.1 htext2
  obtain ⟨w, hw, -⟩ := @hex2Bin_text _ _ _ rest hu
  have htype := srecType_iff.2 ⟨hne, rfl, rfl, (rfl : recordCount type count = _)⟩
  rw [srecDecode, hskip]
  simp only [hcount, htype, ← ha, ← hd, List.append_assoc, srecAddr_text ht, srecData_text htext3,
    hw, toUInt8_toNat, List.nil_append]
  rw [if_pos]
  simp [UInt8.add_assoc]

/-- A line that is decoded to a record has those bytes. -/
theorem bytes_of_srecDecode {r : Srec} (h : srecDecode line = .ok r) (hne : r.type ≠ .empty) :
    ∃ count abs,
      LineBytes line r.type count (abs ++ r.data ++ [~~~(count :: abs ++ r.data).sum]) ∧
      abs.length = r.type.addrLen ∧ r.data.length = (recordCount r.type count).toNat ∧
      r.count = recordCount r.type count ∧ r.addr = addrFold 0 abs := by
  unfold srecDecode at h
  rcases hskip : (line.dropWhile (· ≠ 0x53)).drop 1 with _ | ⟨v, input⟩ <;> rw [hskip] at h
  · obtain rfl := Except.ok.inj h
    exact absurd rfl hne
  dsimp only at h
  rcases hcount : hex2Bin input with _ | ⟨n, input1⟩ <;> rw [hcount] at h <;> dsimp only at h
  · cases h
  rcases htype : srecType v n with _ | ⟨type, c, len⟩ <;> rw [htype] at h <;> dsimp only at h
  · cases h
  rcases haddr : srecAddr len input1 0 n.toUInt8 with _ | ⟨addr, chksum, input2⟩ <;>
    rw [haddr] at h <;> dsimp only at h
  · cases h
  rcases hdata : srecData c.toNat input2 [] chksum with _ | ⟨data, chksum', input3⟩ <;>
    rw [hdata] at h <;> dsimp only at h
  · cases h
  rcases hchk : hex2Bin input3 with _ | ⟨w, rest⟩ <;> rw [hchk] at h <;> dsimp only at h
  · cases h
  split_ifs at h with heq
  obtain rfl := Except.ok.inj h
  obtain ⟨pre, hline, hpre⟩ := skip_iff.1 hskip
  obtain ⟨-, rfl, rfl, rfl⟩ := srecType_iff.1 htype
  obtain ⟨count, d, d', rfl, rfl, hd, hd'⟩ := hex2Bin_iff.1 hcount
  obtain ⟨ta, abs, rfl, hta, hlen, rfl, rfl⟩ := srecAddr_some haddr
  obtain ⟨td, bs, rfl, htd, hdlen, rfl, rfl⟩ := srecData_some hdata
  obtain ⟨chk, e, e', rfl, rfl, he, he'⟩ := hex2Bin_iff.1 hchk
  rw [toUInt8_toNat, toUInt8_toNat] at heq
  have hsum : ~~~(count :: abs ++ data).sum = chk := by
    rw [heq]
    simp [UInt8.add_assoc]
  refine ⟨count, abs, ⟨pre, d :: d' :: (ta ++ (td ++ [e, e'])), rest, ?_, hpre, ?_⟩, hlen, hdlen,
    rfl, rfl⟩
  · rw [hline]
    simp
  · dsimp only
    rw [hsum, List.append_assoc]
    exact ⟨hd, hd', hexText_append.2 ⟨ta, _, rfl, hta, hexText_append.2 ⟨td, _, rfl, htd,
      he, he', trivial⟩⟩⟩

end Decode

section Right

/-- Whatever the line is decoded to, if it is a record, is well formed in the line, with its address
and its data; its count is the number of its data bytes; and a download that reads the line stores
them, if it is a data record, at the address and the offset. -/
def SrecRight (line : List UInt8) : Prop :=
  ∀ r, srecDecode line = .ok r → r.type ≠ .empty →
    RecordIn line r.type r.addr r.data ∧ r.count = r.data.length ∧
      (r.type = .data2 ∨ r.type = .data3 ∨ r.type = .data4 →
        ∀ (offset : ℤ) (n : ℕ) (getc rest : List UInt8) (s : SerialLoad),
          readRecord SREC_MAXRECLEN getc = (some line, rest) →
            ∃ s', s'.mem = s.mem.store (toU32 (r.addr + offset)) r.data ∧
              loadSerialLoop offset (n + 1) getc s = loadSerialLoop offset n rest s')

variable {line : List UInt8}

/-- A count that covers the address and the checksum is that of the data. -/
theorem recordCount_covers {type : SrecType} {count : UInt8}
    (h : ¬if type = .count then count ≠ 3 else count.toNat < type.addrLen + 1) :
    ∃ k : ℕ, recordCount type count = k ∧ count.toNat = type.addrLen + k + 1 := by
  unfold recordCount
  split_ifs at h ⊢ with htype
  · obtain rfl := not_not.1 h
    exact ⟨0, rfl, by rw [htype]; rfl⟩
  · exact ⟨count.toNat - (type.addrLen + 1), by omega, by omega⟩

theorem loadSerialLoop_record {r : Srec} {k : ℕ} (h : srecDecode line = .ok r) (hcount :
    r.count = k)
    (htype : r.type = .data2 ∨ r.type = .data3 ∨ r.type = .data4) {offset : ℤ} {n : ℕ}
    {getc rest : List UInt8} {s : SerialLoad}
    (hline : readRecord SREC_MAXRECLEN getc = (some line, rest)) :
    ∃ s', s'.mem = s.mem.store (toU32 (r.addr + offset)) r.data ∧
      loadSerialLoop offset (n + 1) getc s = loadSerialLoop offset n rest s' := by
  have hrecord : ∃ s', s.record offset r = some s' ∧
      s'.mem = s.mem.store (toU32 (r.addr + offset)) r.data := by
    rw [SerialLoad.record, if_neg (by omega)]
    exact ⟨_, rfl, rfl⟩
  obtain ⟨s', hs', hmem⟩ := hrecord
  refine ⟨s', hmem, ?_⟩
  rw [loadSerialLoop, hline]
  dsimp only
  rw [h]
  dsimp only
  rcases htype with htype | htype | htype <;> rw [htype, hs'] <;> rfl

theorem right_of_not_short (h : ¬SrecShort line) : SrecRight line := by
  intro r hr hne
  obtain ⟨count, abs, hbytes, ha, hd, hcount, haddr⟩ := bytes_of_srecDecode hr hne
  have hle : abs.length ≤ 4 := by
    rw [ha]
    cases r.type <;> decide
  obtain ⟨k, hk, hnum⟩ : ∃ k : ℕ, recordCount r.type count = k ∧
      count.toNat = r.type.addrLen + k + 1 := by
    by_contra hcov
    have hshort : if r.type = .count then count ≠ 3 else count.toNat < r.type.addrLen + 1 := by
      by_contra hno
      exact hcov (recordCount_covers hno)
    refine h ⟨r.type, count, abs, hne, ?_, ha, ha ▸ hshort⟩
    have hnil : r.data = [] := by
      refine List.eq_nil_of_length_eq_zero ?_
      rw [hd, recordCount]
      split_ifs at hshort ⊢
      · rfl
      · omega
    rw [hnil, List.append_nil, List.append_nil] at hbytes
    exact hbytes
  have hlen : r.data.length = k := by rw [hd, hk, Int.toNat_natCast]
  refine ⟨⟨count, abs, hbytes, ha, by rw [ha, hlen, hnum], by rw [haddr, addrFold_bigEndian hle]⟩,
    by rw [hcount, hk, hlen], fun htype offset n getc rest s hline => ?_⟩
  exact loadSerialLoop_record hr (hcount.trans hk) htype hline

theorem not_short_of_right (h : SrecRight line) : ¬SrecShort line := by
  rintro ⟨type, count, abs, hne, hbytes, ha, hshort⟩
  have hzero : (recordCount type count).toNat = 0 := by
    rw [ha] at hshort
    rw [recordCount]
    split_ifs at hshort ⊢
    · rfl
    · omega
  have hdecode := @srecDecode_of_bytes line type count abs [] hne
    (by rwa [List.append_nil, List.append_nil]) ha hzero.symm
  obtain ⟨⟨count', abs', ⟨pre', text', rest', hline', hpre', htext'⟩, ha', hnum, -⟩, hcount, -⟩ :=
    h _ hdecode hne
  -- the record of the line is the one that begins at its first `S`
  obtain ⟨pre, text, rest, hline, hpre, htext⟩ := hbytes
  have hsame := (skip_iff.2 ⟨pre, hline, hpre⟩).symm.trans (skip_iff.2 ⟨pre', hline', hpre'⟩)
  have hinput : text ++ rest = text' ++ rest' := (List.cons.inj hsame).2
  obtain ⟨u, hu, -⟩ := @hex2Bin_text _ _ _ rest htext
  obtain ⟨u', hu', -⟩ := @hex2Bin_text _ _ _ rest' htext'
  rw [hinput, hu', Option.some.injEq, Prod.mk.injEq] at hu
  have hfull : count.toNat = type.addrLen + 1 := by
    rw [← hu.1, hnum, ha']
    rfl
  split_ifs at hshort with htype
  · refine hshort (UInt8.toNat_inj.1 ?_)
    rw [hfull, htype]
    rfl
  · omega

/-- `srec_decode` accepts nothing but well-formed records, short ones apart. -/
theorem srec_decode_right_iff : SrecRight line ↔ ¬SrecShort line :=
  ⟨not_short_of_right, right_of_not_short⟩

/-- A data record whose count is 2: it is taken for one of -1 bytes. -/
theorem srec_decode_not_right : ¬∀ line : List UInt8, SrecRight line := by
  intro h
  have hdecode : srecDecode (ascii "S1020000FD") = .ok ⟨.data2, -1, 0, []⟩ := rfl
  obtain ⟨-, hcount, -⟩ := h _ _ hdecode (by simp)
  simp at hcount

end Right

end InfotmUboot
