import InfotmUboot.Srec
import Mathlib.Tactic.IntervalCases

/-!
# What is saved is loaded back

A line that `save_serial` writes is read whole (`readRecord_line`) and decoded to its address and
its bytes (`srecDecode_data`), so loading it stores the range it was made from
(`loadSerialLoop_data`). `save_load` is the whole stream.
-/

namespace InfotmUboot

open Lib

section Hex

theorem hexDigitUpper_range {n : ℕ} (hn : n < 16) : 0x30 ≤ hexDigitUpper n := by
  interval_cases n <;> decide

theorem hex1Bin_digit {n : ℕ} (hn : n < 16) : hex1Bin (hexDigitUpper n) = some n := by
  interval_cases n <;> decide

theorem hexPad_two (v : ℕ) : hexPad 2 v = [hexDigitUpper (v / 16 % 16), hexDigitUpper
    (v % 16)] := by
  simp [hexPad, List.range_succ]

/-- Two digits are the low byte of their number. -/
theorem hex2Bin_pad (v : ℕ) (input : List UInt8) :
    hex2Bin (hexPad 2 v ++ input) = some (v % 2 ^ 8, input) := by
  have h1 : v / 16 % 16 < 16 := Nat.mod_lt _ (by norm_num)
  have h2 : v % 16 < 16 := Nat.mod_lt _ (by norm_num)
  rw [hexPad_two, List.cons_append, List.cons_append, List.nil_append, hex2Bin, hex1Bin_digit h1,
    hex1Bin_digit h2]
  simp only [Option.bind_eq_bind, Option.bind_some, Nat.shiftLeft_eq]
  congr 2
  omega

/-- The digits of an address, byte by byte. -/
theorem hexPad_eight (a : ℕ) :
    hexPad 8 a = hexPad 2 (a / 2 ^ 24) ++ (hexPad 2 (a / 2 ^ 16) ++ (hexPad 2 (a / 2 ^ 8) ++
      hexPad 2 a)) := by
  simp [hexPad, List.range_succ, Nat.div_div_eq_div_mul]

/-- The bytes of an address that go into the checksum. -/
theorem addr_sum (a : ℕ) :
    ((List.range 4).map fun i => a >>> (8 * i) &&& 0xff).sum =
      a % 2 ^ 8 + a / 2 ^ 8 % 2 ^ 8 + a / 2 ^ 16 % 2 ^ 8 + a / 2 ^ 24 % 2 ^ 8 := by
  have h (x : ℕ) : x &&& 0xff = x % 2 ^ 8 := Nat.and_two_pow_sub_one_eq_mod x 8
  simp only [List.range_succ, List.range_zero, List.nil_append, List.cons_append, List.map_cons,
    List.map_nil, List.sum_cons, List.sum_nil, h, Nat.shiftRight_eq_div_pow]
  omega

theorem length_sum {n : ℕ} (hn : n < 2 ^ 8) :
    ((List.range 2).map fun i => n >>> (8 * i) &&& 0xff).sum = n := by
  have h (x : ℕ) : x &&& 0xff = x % 2 ^ 8 := Nat.and_two_pow_sub_one_eq_mod x 8
  simp only [List.range_succ, List.range_zero, List.nil_append, List.cons_append, List.map_cons,
    List.map_nil, List.sum_cons, List.sum_nil, h, Nat.shiftRight_eq_div_pow]
  omega

end Hex

section Line

/-- The digits of bytes. -/
def hexBytes (bs : List UInt8) : List UInt8 := bs.flatMap fun b => hexPad 2 b.toNat

def srecSum (bs : List UInt8) : ℕ := (bs.map UInt8.toNat).sum

theorem srecAddr_pad {a : ℕ} (ha : a < 2 ^ 32) (input : List UInt8) (chksum : ℕ) :
    srecAddr 4 (hexPad 8 a ++ input) 0 chksum.toUInt8 =
      some (a, (chksum + ((List.range 4).map fun i => a >>> (8 * i) &&& 0xff).sum).toUInt8,
        input) := by
  simp only [hexPad_eight, List.append_assoc, srecAddr, hex2Bin_pad, Option.bind_eq_bind,
    Option.bind_some, addr_sum, Nat.shiftLeft_eq, u32, ← UInt8.ofNat_add, Nat.toUInt8_eq]
  congr 2
  · omega
  · congr 2
    omega

theorem srecData_pad :
    ∀ (bs input data : List UInt8) (chksum : ℕ),
      srecData bs.length (hexBytes bs ++ input) data chksum.toUInt8 =
        some (data ++ bs, (chksum + srecSum bs).toUInt8, input)
  | [], input, data, chksum => by
    simp [srecData, hexBytes, srecSum]
  | b :: bs, input, data, chksum => by
    have hb : b.toNat % 2 ^ 8 = b.toNat := Nat.mod_eq_of_lt b.toNat_lt
    have hsum : chksum.toUInt8 + b.toNat.toUInt8 = (chksum + b.toNat).toUInt8 := by
      simp only [Nat.toUInt8_eq, UInt8.ofNat_add]
    have hbyte : b.toNat.toUInt8 = b := by
      rw [Nat.toUInt8_eq, UInt8.ofNat_toNat]
    rw [hexBytes, List.flatMap_cons, List.append_assoc, List.length_cons, srecData, hex2Bin_pad, hb]
    simp only [Option.bind_eq_bind, Option.bind_some]
    have ih := srecData_pad bs input (data ++ [b]) (chksum + b.toNat)
    have hbs : srecSum (b :: bs) = b.toNat + srecSum bs := by
      simp only [srecSum, List.map_cons, List.sum_cons]
    rw [hsum, hbyte, ← hexBytes, ih, hbs, List.append_assoc, Nat.add_assoc]
    rfl

/-- A data record without the end of its line. -/
def dataLine (address : ℕ) (bs : List UInt8) : List UInt8 :=
  let length := 4 + bs.length + 1
  let checksum := srecSum bs + ((List.range 2).map fun i => length >>> (8 * i) &&& 0xff).sum +
    ((List.range 4).map fun i => address >>> (8 * i) &&& 0xff).sum
  0x53 :: 0x33 :: (hexPad 2 length ++ (hexPad 8 address ++ (hexBytes bs ++
    hexPad 2 (0xff - checksum % 2 ^ 8))))

/-- What the reader adds up is what the writer took the complement of. -/
theorem checksum_agrees (n : ℕ) : ((0xff - n % 2 ^ 8) % 2 ^ 8).toUInt8 = ~~~n.toUInt8 := by
  refine UInt8.toNat_inj.1 ?_
  rw [UInt8.toNat_not, Nat.toUInt8_eq, Nat.toUInt8_eq, UInt8.toNat_ofNat', UInt8.toNat_ofNat']
  have : UInt8.size = 2 ^ 8 := rfl
  omega

theorem srecDecode_data {address : ℕ} {bs : List UInt8} (ha : address < 2 ^ 32)
    (hbs : bs.length ≤ SREC_BYTES_PER_RECORD) :
    srecDecode (dataLine address bs) = .ok ⟨.data4, bs.length, address, bs⟩ := by
  have hle : bs.length ≤ 16 := hbs
  have hlen : (4 + bs.length + 1) % 2 ^ 8 = 4 + bs.length + 1 := Nat.mod_eq_of_lt (by omega)
  have hcount : ((4 + bs.length + 1 : ℕ) : ℤ) - 5 = bs.length := by omega
  have hskip (l : List UInt8) : ((0x53 :: l).dropWhile (· ≠ 0x53)).drop 1 = l := by simp
  have htype (n : ℤ) : srecType 0x33 n = some (.data4, n - 5, 4) := by simp [srecType]
  obtain ⟨total, htotal⟩ : ∃ total, total = srecSum bs +
    ((List.range 2).map fun i => (4 + bs.length + 1) >>> (8 * i) &&& 0xff).sum +
      ((List.range 4).map fun i => address >>> (8 * i) &&& 0xff).sum := ⟨_, rfl⟩
  have hsum : 4 + bs.length + 1 + ((List.range 4).map fun i => address >>> (8 * i) &&& 0xff).sum +
      srecSum bs = total := by
    rw [htotal, length_sum (by omega : 4 + bs.length + 1 < 2 ^ 8)]
    omega
  have hlast := hex2Bin_pad (0xff - total % 2 ^ 8) []
  rw [List.append_nil] at hlast
  rw [dataLine, srecDecode, hskip]
  simp only [hex2Bin_pad, hlen, htype, srecAddr_pad ha, hcount, Int.toNat_natCast, srecData_pad,
    ← htotal, hlast, List.nil_append, hsum, checksum_agrees, if_true]

theorem hexPad_range {n v : ℕ} : ∀ c ∈ hexPad n v, 0x30 ≤ c := by
  intro c hc
  obtain ⟨i, _, rfl⟩ := List.mem_map.1 hc
  exact hexDigitUpper_range (Nat.mod_lt _ (by norm_num))

theorem dataLine_range {address : ℕ} {bs : List UInt8} : ∀ c ∈ dataLine address bs, 0x30 ≤ c := by
  intro c hc
  simp only [dataLine, List.mem_cons, List.mem_append] at hc
  rcases hc with rfl | rfl | hc | hc | hc | hc
  · decide
  · decide
  · exact hexPad_range c hc
  · exact hexPad_range c hc
  · obtain ⟨b, _, hb⟩ := List.mem_flatMap.1 hc
    exact hexPad_range c hb
  · exact hexPad_range c hc

theorem length_hexBytes (bs : List UInt8) : (hexBytes bs).length = 2 * bs.length := by
  induction bs with
  | nil => rfl
  | cons b bs ih =>
    rw [hexBytes, List.flatMap_cons, List.length_append, ← hexBytes, ih, hexPad_two,
      List.length_cons, List.length_cons, List.length_cons, List.length_nil]
    omega

theorem length_dataLine (address : ℕ) (bs : List UInt8) :
    (dataLine address bs).length = 14 + 2 * bs.length := by
  simp only [dataLine, List.length_cons, List.length_append, length_hexBytes, hexPad,
    List.length_map, List.length_range]
  omega

/-- A line of a record is read up to its end. -/
theorem readRecord_line {rest : List UInt8} :
    ∀ {line : List UInt8} {len : ℕ}, line.length < len → (∀ c ∈ line, 0x30 ≤ c) →
      readRecord len (line ++ 0x0a :: rest) = (some line, rest)
  | line, 0, hlen, _ => absurd hlen (Nat.not_lt_zero _)
  | [], len + 1, _, _ => by
    rw [List.nil_append, readRecord, if_pos (Or.inr rfl)]
  | c :: line, len + 1, hlen, hc => by
    have h30 := UInt8.le_iff_toNat_le.1 (hc c (List.mem_cons_self ..))
    have hne (x : UInt8) (hx : x.toNat < 0x30) : c ≠ x := fun h => by
      rw [h] at h30
      exact absurd h30 (not_le.2 hx)
    have ih := @readRecord_line rest line len (Nat.lt_of_succ_lt_succ hlen) fun d hd =>
      hc d (List.mem_cons_of_mem c hd)
    rw [List.cons_append, readRecord, if_neg, if_neg, ih]
    · rfl
    · exact not_or.2 ⟨hne 0 (by decide), hne 0x03 (by decide)⟩
    · exact not_or.2 ⟨hne 0x0d (by decide), hne 0x0a (by decide)⟩

end Line

section Load

/-- A download that has stored some more bytes. -/
def SerialLoad.stored (s : SerialLoad) (address : ℕ) (bs : List UInt8) : SerialLoad where
  mem := s.mem.store address bs
  startAddr := min s.startAddr address
  endAddr := max s.endAddr (address + bs.length - 1)

theorem stored_append (s : SerialLoad) (address : ℕ) {bs cs : List UInt8} (hbs : bs ≠ [])
    (hcs : cs ≠ []) :
    (s.stored address bs).stored (address + bs.length) cs = s.stored address (bs ++ cs) := by
  have hb := List.length_pos_iff.2 hbs
  have hc := List.length_pos_iff.2 hcs
  simp only [SerialLoad.stored, Mem.store_append, List.length_append, SerialLoad.mk.injEq]
  refine ⟨trivial, ?_, ?_⟩ <;> omega

/-- A data line that is loaded stores its bytes at its address. -/
theorem loadSerialLoop_data {address : ℕ} {bs : List UInt8} (hpos : bs ≠ [])
    (hbs : bs.length ≤ SREC_BYTES_PER_RECORD) (ha : address + bs.length ≤ 2 ^ 32) (n : ℕ)
    (rest : List UInt8) (s : SerialLoad) :
    loadSerialLoop 0 (n + 1) (dataLine address bs ++ 0x0a :: rest) s =
      loadSerialLoop 0 n rest (s.stored address bs) := by
  have hb := List.length_pos_iff.2 hpos
  have hlen : (dataLine address bs).length < SREC_MAXRECLEN := by
    rw [length_dataLine]
    unfold SREC_BYTES_PER_RECORD at hbs
    unfold SREC_MAXRECLEN
    omega
  have hrecord : s.record 0 ⟨.data4, bs.length, address, bs⟩ = some (s.stored address bs) := by
    have hstore : toU32 ((address : ℤ) + 0) = address := by
      rw [Int.add_zero, toU32_natCast (by omega)]
    have hlast : toU32 ((address : ℤ) + bs.length - 1) = address + bs.length - 1 := by
      rw [show (address : ℤ) + bs.length - 1 = (address + bs.length - 1 : ℕ) by omega,
        toU32_natCast (by omega)]
    have hcount : ¬(bs.length : ℤ) < 0 := by omega
    simp only [SerialLoad.record, SerialLoad.stored, hstore, hlast, if_neg hcount,
      Option.some.injEq, SerialLoad.mk.injEq, true_and]
    constructor <;> split_ifs <;> omega
  rw [loadSerialLoop, readRecord_line hlen dataLine_range]
  simp only [srecDecode_data (by omega : address < 2 ^ 32) hbs, hrecord, Option.bind_some]

end Load

section Save

variable (ctrlc : List UInt8 → Bool) (mem : Mem)

theorem saveSerialLoop_load :
    ∀ (count address reclen : ℕ) (sent : List UInt8), 0 < count → reclen < SREC_BYTES_PER_RECORD →
      address + reclen + count ≤ 2 ^ 32 →
      let r := saveSerialLoop ctrlc mem count address reclen (srecSum (mem.load address reclen))
        (hexBytes (mem.load address reclen)) sent
      r.1 = 0 → ∃ tail k, r.2 = sent ++ tail ∧ k ≤ tail.length ∧ ∀ n rest s,
        loadSerialLoop 0 (n + k) (tail ++ rest) s =
          loadSerialLoop 0 n rest (s.stored address (mem.load address (reclen + count)))
  | 0, _, _, _, h0, _, _ => absurd h0 (Nat.lt_irrefl 0)
  | count + 1, address, reclen, sent, _, hreclen, ha => by
    have haddr : u32 (address + reclen) = address + reclen := Nat.mod_eq_of_lt (by omega)
    have hload : mem.load address (reclen + 1) =
        mem.load address reclen ++ [mem (address + reclen)] := by
      rw [Mem.load_add]
      rfl
    have hsum : srecSum (mem.load address reclen) + (mem (address + reclen)).toNat =
        srecSum (mem.load address (reclen + 1)) := by
      simp only [hload, srecSum, List.map_append, List.sum_append, List.map_cons, List.map_nil,
        List.sum_cons, List.sum_nil, Nat.add_zero]
    have hdata : hexBytes (mem.load address reclen) ++
        [hexDigitUpper ((mem (address + reclen)).toNat >>> 4 &&& 0x0f),
          hexDigitUpper ((mem (address + reclen)).toNat &&& 0x0f)] =
        hexBytes (mem.load address (reclen + 1)) := by
      have h (x : ℕ) : x &&& 0x0f = x % 16 := Nat.and_two_pow_sub_one_eq_mod x 4
      simp only [hload, hexBytes, List.flatMap_append, List.flatMap_cons, List.flatMap_nil,
        List.append_nil, hexPad_two, h, Nat.shiftRight_eq_div_pow]
    have hne (n : ℕ) (a : ℕ) : mem.load a (n + 1) ≠ [] := by
      rw [← List.length_pos_iff, Mem.length_load]
      exact Nat.succ_pos n
    simp only [saveSerialLoop, haddr, hsum, hdata]
    have hlen : (mem.load address (reclen + 1)).length = reclen + 1 := Mem.length_load ..
    have hline : srec3Record (4 + (reclen + 1) + 1) address
      (hexBytes (mem.load address (reclen + 1)))
        (0xff - (srecSum (mem.load address (reclen + 1)) +
          ((List.range 2).map fun i => (4 + (reclen + 1) + 1) >>> (8 * i) &&& 0xff).sum +
          ((List.range 4).map fun i => address >>> (8 * i) &&& 0xff).sum) % 2 ^ 8) =
        dataLine address (mem.load address (reclen + 1)) ++ [0x0a] := by
      have hS3 : ascii "S3" = [0x53, 0x33] := by decide
      simp only [srec3Record, dataLine, hlen, hS3, List.append_assoc, List.cons_append,
        List.nil_append]
    have hdataLine := @loadSerialLoop_data address (mem.load address (reclen + 1)) (hne _ _)
      (by rw [hlen]; exact hreclen) (by rw [hlen]; omega)
    split_ifs with hflush habort
    · intro h
      exact absurd (show (-1 : ℤ) = 0 from h) (by decide)
    · rw [hline]
      rcases Nat.eq_zero_or_pos count with rfl | hcount
      · intro _
        refine ⟨dataLine address (mem.load address (reclen + 1)) ++ [0x0a], 1, rfl, ?_,
          fun n rest s => ?_⟩
        · rw [List.length_append]
          exact Nat.le_add_left _ _
        · rw [List.append_assoc]
          exact hdataLine n rest s
      · intro h
        have hnext : u32 (address + (reclen + 1)) = address + (reclen + 1) :=
          Nat.mod_eq_of_lt (by omega)
        rw [hnext] at h ⊢
        obtain ⟨tail, k, hsent, hk, hall⟩ := saveSerialLoop_load count (address + (reclen + 1)) 0
          (sent ++ (dataLine address (mem.load address (reclen + 1)) ++ [0x0a])) hcount (by decide)
          (by omega) h
        refine ⟨dataLine address (mem.load address (reclen + 1)) ++ 0x0a :: tail, k + 1, ?_, ?_,
          fun n rest s => ?_⟩
        · exact hsent.trans (by simp)
        · rw [List.length_append, List.length_cons]
          omega
        · obtain ⟨c, rfl⟩ := Nat.exists_eq_succ_of_ne_zero hcount.ne'
          have hadd : mem.load address (reclen + (c + 1 + 1)) =
              mem.load address (reclen + 1) ++ mem.load (address + (reclen + 1)) (c + 1) := by
            rw [← Mem.load_add]
            congr 1
            omega
          rw [List.append_assoc, List.cons_append, ← Nat.add_assoc, hdataLine, hall, Nat.zero_add,
            hadd, ← stored_append s address (hne _ _) (hne _ _), hlen]
    · rintro h
      obtain ⟨tail, k, hsent, hk, hall⟩ := saveSerialLoop_load count address (reclen + 1) sent
        (by omega) (by unfold SREC_BYTES_PER_RECORD at *; omega) (by omega) h
      refine ⟨tail, k, hsent, hk, fun n rest s => ?_⟩
      rw [hall, show reclen + 1 + count = reclen + (count + 1) by omega]

/-- The header is read and nothing is stored for it. -/
theorem loadSerialLoop_start (n : ℕ) (rest : List UInt8) (s : SerialLoad) :
    loadSerialLoop 0 (n + 1) (SREC3_START ++ rest) s = loadSerialLoop 0 n rest s := by
  have hline : SREC3_START ++ rest = ascii "S0030000FC" ++ 0x0a :: rest := rfl
  have hdecode : srecDecode (ascii "S0030000FC") = .ok ⟨.start, 0, 0, []⟩ := rfl
  rw [hline, loadSerialLoop, readRecord_line (by decide) (by simp [ascii])]
  simp only [hdecode]

theorem loadSerialLoop_end (n : ℕ) (s : SerialLoad) :
    loadSerialLoop 0 (n + 1) SREC3_END s =
      some ⟨0, s.mem, some (hexUpper (toU32 (s.endAddr - s.startAddr + 1)))⟩ := by
  have hline : SREC3_END = ascii "S70500000000FA" ++ 0x0a :: [] := rfl
  have hdecode : srecDecode (ascii "S70500000000FA") = .ok ⟨.end4, 0, 0, []⟩ := rfl
  rw [hline, loadSerialLoop, readRecord_line (by decide) (by simp [ascii])]
  simp only [hdecode]

/-- A transfer that was not broken off is the rounds between the header and the final record. -/
theorem saveSerial_sent {address count : ℕ} (h : (saveSerial ctrlc mem address count).1 = 0) :
    let r := saveSerialLoop ctrlc mem count address 0 0 [] SREC3_START
    r.1 = 0 ∧ (saveSerial ctrlc mem address count).2 = r.2 ++ SREC3_END := by
  intro r
  unfold saveSerial at h ⊢
  dsimp only at h ⊢
  by_cases h1 : ctrlc SREC3_START = true
  · rw [if_pos h1] at h
    exact absurd (show (-1 : ℤ) = 0 from h) (by decide)
  · rw [if_neg h1] at h ⊢
    by_cases h2 : r.1 = 0
    · refine ⟨h2, ?_⟩
      rw [if_neg (not_not.2 h2)]
      split_ifs <;> rfl
    · rw [if_pos h2] at h
      exact absurd h h2

/-- What was saved without a break is loaded back, its length is set, and no other byte changes. -/
theorem save_load {address count : ℕ} (haddr : address < 2 ^ 32) (hcount : count < 2 ^ 32)
    (hrange : address + count ≤ 2 ^ 32) (hsent : (saveSerial ctrlc mem address count).1 = 0)
    (mem' : Mem) :
    ∃ out, loadSerial 0 (saveSerial ctrlc mem address count).2 mem' = some out ∧
      out.ret ≠ 0xffffffff ∧ out.mem.load address count = mem.load address count ∧
      (∀ i, ¬(address ≤ i ∧ i < address + count) → out.mem i = mem' i) ∧
      (0 < count → out.filesize = some (hexUpper count)) := by
  obtain ⟨hret, hall⟩ := saveSerial_sent ctrlc mem hsent
  have hlen := Mem.length_load mem address count
  rcases Nat.eq_zero_or_pos count with rfl | hpos
  · rw [hall, loadSerial, saveSerialLoop, loadSerialLoop_start, List.length_append,
      show SREC3_START.length + SREC3_END.length = 25 + 1 from rfl, loadSerialLoop_end]
    exact ⟨_, rfl, (by decide : 0 ≠ 0xffffffff), rfl, fun _ _ => rfl,
      fun h => absurd h (Nat.lt_irrefl 0)⟩
  · obtain ⟨tail, k, htail, hk, hrun⟩ := saveSerialLoop_load ctrlc mem count address 0 SREC3_START
      hpos (by decide) (by omega) hret
    have hloop : (saveSerialLoop ctrlc mem count address 0 0 [] SREC3_START).2 =
        SREC3_START ++ tail := htail
    have hfuel : (SREC3_START ++ tail ++ SREC3_END).length + 1 =
        tail.length - k + 25 + 1 + k + 1 := by
      rw [List.length_append, List.length_append, show SREC3_START.length = 11 from rfl,
        show SREC3_END.length = 15 from rfl]
      omega
    have hsize : toU32 ((max 0 (address + count - 1) : ℕ) - (min 0xffffffff address : ℕ) + 1) =
        count := by
      rw [show ((max 0 (address + count - 1) : ℕ) : ℤ) - (min 0xffffffff address : ℕ) + 1 =
        (count : ℕ) by omega, toU32_natCast hcount]
    have hout : loadSerial 0 (saveSerial ctrlc mem address count).2 mem' =
        some ⟨0, mem'.store address (mem.load address count), some (hexUpper count)⟩ := by
      rw [hall, hloop, loadSerial, hfuel, List.append_assoc, loadSerialLoop_start, hrun,
        loadSerialLoop_end]
      simp only [SerialLoad.stored, Nat.zero_add, hlen, hsize]
    rw [hout]
    refine ⟨_, rfl, (by decide : 0 ≠ 0xffffffff), ?_, fun i hi => ?_, fun _ => rfl⟩
    · have h := Mem.load_store_same mem' address (mem.load address count)
      rwa [hlen] at h
    · show mem'.store address (mem.load address count) i = mem' i
      rw [Mem.store, hlen, if_neg hi]

end Save

/-- Two records, the second a short one. -/
theorem save_load_twenty :
    let sent := (saveSerial (fun _ => false) (fun i => i.toUInt8) 0x80007ff0 20).2
    ∃ out, loadSerial 0 sent (fun _ => 0xff) = some out ∧ out.ret ≠ 0xffffffff ∧
      out.mem.load 0x80007ff0 20 = Mem.load (fun i => i.toUInt8) 0x80007ff0 20 ∧
      (∀ i, ¬(0x80007ff0 ≤ i ∧ i < 0x80007ff0 + 20) → out.mem i = 0xff) ∧
      (0 < 20 → out.filesize = some (hexUpper 20)) :=
  save_load _ _ (by decide) (by decide) (by decide) (by decide +kernel) _

end InfotmUboot
