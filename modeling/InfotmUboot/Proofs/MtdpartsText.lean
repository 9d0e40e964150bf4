import InfotmUboot.Proofs.MtdpartsRun
import InfotmUboot.Lib.KeySort

/-!
# The text of the partitions

What `generate_mtdparts` writes of a size, a partition and a device, and what the parser reads of
it: each piece is read back, but that a size below the smallest one is refused, a generated name is
generated again, and partitions at one offset change their order (`mtdparts_round_trip_iff`).
-/

namespace InfotmUboot

open Lib

section Numbers

def decimalDigit (d : ℕ) : UInt8 := (Nat.digitChar d).toNat.toUInt8

theorem digitValue_decimalDigit {d : ℕ} (h : d < 10) : digitValue (decimalDigit d) = some d := by
  have hall : ∀ d < 10, digitValue (decimalDigit d) = some d := by decide
  exact hall d h

theorem isDigitOf_decimalDigit {d : ℕ} (h : d < 10) : isDigitOf 10 (decimalDigit d) = true := by
  unfold isDigitOf
  rw [digitValue_decimalDigit h]
  simpa using h

theorem decimal_small {n : ℕ} (h : n < 10) : decimal n = [decimalDigit n] := by
  rw [decimal, Nat.toDigits_of_lt_base h]
  rfl

theorem decimal_large {n : ℕ} (h : 10 ≤ n) : decimal n = decimal (n / 10) ++
    [decimalDigit (n % 10)] := by
  rw [decimal, Nat.toDigits_of_base_le (by norm_num) h, List.map_append]
  rfl

theorem decimal_digits : ∀ n : ℕ, ∀ c ∈ decimal n, isDigitOf 10 c = true
  | n, c, hc => by
    by_cases h : n < 10
    · rw [decimal_small h, List.mem_singleton] at hc
      rw [hc]
      exact isDigitOf_decimalDigit h
    · rw [decimal_large (by omega)] at hc
      rcases List.mem_append.mp hc with hc | hc
      · exact decimal_digits (n / 10) c hc
      · rw [List.mem_singleton.mp hc]
        exact isDigitOf_decimalDigit (Nat.mod_lt _ (by norm_num))

/-- The digits of a number are read as that number. -/
theorem strtoulLoop_decimal : ∀ (n : ℕ) (rest : List UInt8), n < 2 ^ 32 →
    strtoulLoop 10 (decimal n ++ rest) 0 = strtoulLoop 10 rest n
  | n, rest, hn => by
    by_cases h : n < 10
    · rw [decimal_small h, List.singleton_append, strtoulLoop, digitValue_decimalDigit h]
      dsimp only
      rw [if_pos h, Nat.zero_mul, Nat.zero_add, u32_of_lt hn]
    · have hd : n % 10 < 10 := Nat.mod_lt _ (by norm_num)
      rw [decimal_large (by omega), List.append_assoc, strtoulLoop_decimal (n / 10) _ (by omega),
        List.singleton_append, strtoulLoop, digitValue_decimalDigit hd]
      dsimp only
      rw [if_pos hd, show n / 10 * 10 + n % 10 = n by omega, u32_of_lt hn]

theorem decimal_head : ∀ {n : ℕ}, 0 < n → ∃ d cs, 0 < d ∧ d < 10 ∧ decimal n = decimalDigit d :: cs
  | n, hn => by
    by_cases h : n < 10
    · exact ⟨n, [], hn, h, decimal_small h⟩
    · obtain ⟨d, cs, hd, hd', he⟩ := decimal_head (n := n / 10) (by omega)
      exact ⟨d, cs ++ [decimalDigit (n % 10)], hd, hd', by
        rw [decimal_large (by omega), he, List.cons_append]⟩

/-- No number goes on in this text. -/
def Stops (rest : List UInt8) : Prop := ∀ c ∈ rest.head?, isDigitOf 10 c = false

theorem strtoulEnd_decimal {n : ℕ} {rest : List UInt8} (hn : n < 2 ^ 32) (hr : Stops rest) :
    strtoulEnd 10 (decimal n ++ rest) = (n, rest) := by
  unfold strtoulEnd
  rw [strtoulLoop_decimal n rest hn, List.dropWhile_append_of_pos (decimal_digits n)]
  rcases rest with _ | ⟨c, rest⟩
  · rfl
  · have hc : isDigitOf 10 c = false := hr c rfl
    rw [List.dropWhile_cons_of_neg (by simp [hc]), strtoulLoop]
    unfold isDigitOf at hc
    rcases hv : digitValue c with _ | v
    · rfl
    · rw [hv] at hc
      dsimp only
      rw [if_neg (by simpa using hc)]

theorem strtoul0_decimal {n : ℕ} {rest : List UInt8} (hpos : 0 < n) (hn : n < 2 ^ 32)
    (hr : Stops rest) :
    strtoul0 (decimal n ++ rest) = (n, rest) := by
  obtain ⟨d, cs, hd, hd', he⟩ := decimal_head hpos
  have hne : decimalDigit d ≠ 0x30 := by
    have hall : ∀ d < 10, 0 < d → decimalDigit d ≠ 0x30 := by decide
    exact hall d hd' hd
  have h10 : strtoul0 (decimal n ++ rest) = strtoulEnd 10 (decimal n ++ rest) := by
    rw [he, List.cons_append]
    unfold strtoul0
    split
    · rename_i h
      exact absurd (List.cons.inj h).1 hne
    · rename_i h
      exact absurd (List.cons.inj h).1 hne
    · rfl
  rw [h10, strtoulEnd_decimal hn hr]

end Numbers

section Pieces

/-- The text is empty or begins with one of these. -/
def Heads (set : String) (p : List UInt8) : Prop := ∀ c ∈ p.head?, c ∈ ascii set

variable {set set' : String} {p q rest : List UInt8}

theorem Heads.mono (h : Heads set p) (hs : ∀ c ∈ ascii set, c ∈ ascii set') : Heads set' p :=
  fun c hc => hs c (h c hc)

theorem heads_cons {c : UInt8} (h : c ∈ ascii set) : Heads set (c :: p) := fun d hd => by
  rw [List.head?_cons, Option.mem_some_iff] at hd
  exact hd ▸ h

theorem skipChar_none {c : Char} (h : Heads set p) (hc : c.toNat.toUInt8 ∉ ascii set) :
    skipChar c p = none := by
  rcases p with _ | ⟨x, p⟩
  · rfl
  · exact if_neg fun he : x = c.toNat.toUInt8 => hc (he ▸ h x rfl)

theorem skipChar_self (c : Char) (p : List UInt8) : skipChar c (c.toNat.toUInt8 :: p) = some p :=
  if_pos rfl

theorem splitChar_append {c : Char} {name : List UInt8} (h : c.toNat.toUInt8 ∉ name) :
    splitChar c (name ++ c.toNat.toUInt8 :: rest) = (name, some rest) := by
  have hall : ∀ x ∈ name, decide (x ≠ c.toNat.toUInt8) = true := fun x hx => by
    rw [decide_eq_true_eq]
    exact fun he => h (he ▸ hx)
  unfold splitChar
  rw [List.takeWhile_append_of_pos hall, List.dropWhile_append_of_pos hall,
    List.takeWhile_cons_of_neg (by simp), List.dropWhile_cons_of_neg (by simp), List.append_nil]

theorem stops_of_heads (h : Heads "@(r,;" p) : Stops p := fun c hc => by
  have hall : ∀ c ∈ ascii "@(r,;", isDigitOf 10 c = false := by
    simp [ascii, isDigitOf, digitValue]
  exact hall c (h c hc)

/-- A size is read back, with or without a suffix. -/
theorem memsizeParse_format {size : ℕ} (hpos : 0 < size) (hlt : size < 2 ^ 32)
    (h : Heads "@(r,;" rest) : memsizeParse (memsizeFormat size ++ rest) = (size, rest) := by
  have hsuffix : ∀ (k : ℕ) (c : UInt8), c ∈ ascii "gmk" → 0 < k → k < 2 ^ 32 →
      strtoul0 (decimal k ++ c :: rest) = (k, c :: rest) := fun k c hc hk hk' =>
    strtoul0_decimal hk hk' fun d hd => by
      have hall : ∀ c ∈ ascii "gmk", isDigitOf 10 c = false := by
        simp [ascii, isDigitOf, digitValue]
      rw [List.head?_cons, Option.mem_some_iff] at hd
      exact hd ▸ hall c hc
  unfold memsizeFormat memsizeParse
  split_ifs with hg hm hk
  · rw [List.append_assoc, show ascii "g" ++ rest = 0x67 :: rest from rfl,
      hsuffix _ _ (by decide) (by omega) (by omega)]
    dsimp only
    rw [if_pos (by decide), show size / 2 ^ 30 * 2 ^ 30 = size by omega, u32_of_lt hlt]
  · rw [List.append_assoc, show ascii "m" ++ rest = 0x6d :: rest from rfl,
      hsuffix _ _ (by decide) (by omega) (by omega)]
    dsimp only
    rw [if_neg (by decide), if_pos (by decide), show size / 2 ^ 20 * 2 ^ 20 = size by omega,
      u32_of_lt hlt]
  · rw [List.append_assoc, show ascii "k" ++ rest = 0x6b :: rest from rfl,
      hsuffix _ _ (by decide) (by omega) (by omega)]
    dsimp only
    rw [if_neg (by decide), if_neg (by decide), if_pos (by decide),
      show size / 2 ^ 10 * 2 ^ 10 = size by omega, u32_of_lt hlt]
  · rw [strtoul0_decimal hpos hlt (stops_of_heads h)]
    rcases rest with _ | ⟨c, rest⟩
    · rfl
    · have hall : ∀ c ∈ ascii "@(r,;", c ∉ ascii "Gg" ∧ c ∉ ascii "Mm" ∧ c ∉ ascii "Kk" := by
        simp [ascii]
      obtain ⟨hg, hm, hk⟩ := hall c (h c rfl)
      dsimp only
      rw [if_neg hg, if_neg hm, if_neg hk]

theorem skipChar_format {c : Char} (h : isDigitOf 10 c.toNat.toUInt8 = false) (size : ℕ)
    (tail : List UInt8) : skipChar c (memsizeFormat size ++ tail) = none := by
  have hdec : ∀ (n : ℕ) (q : List UInt8), skipChar c (decimal n ++ q) = none := fun n q => by
    have hd := decimal_digits n
    rcases hn : decimal n with _ | ⟨x, cs⟩
    · exact absurd hn (decimal_ne_nil n)
    · rw [hn] at hd
      refine if_neg fun he : x = c.toNat.toUInt8 => ?_
      have hx := hd x List.mem_cons_self
      rw [he, h] at hx
      exact absurd hx (by simp)
  unfold memsizeFormat
  split_ifs
  · rw [List.append_assoc, hdec]
  · rw [List.append_assoc, hdec]
  · rw [List.append_assoc, hdec]
  · exact hdec _ _

end Pieces

section Part

variable {start size : ℕ} {part : PartInfo} {tail rest : List UInt8}

def offsetText (start : ℕ) (part : PartInfo) : List UInt8 :=
  if start ≠ part.offset then ascii "@" ++ memsizeFormat part.offset else []

def nameText (part : PartInfo) : List UInt8 :=
  if part.autoName then [] else ascii "(" ++ part.name ++ ascii ")"

def flagsText (part : PartInfo) : List UInt8 := if part.maskFlags ≠ 0 then ascii "ro" else []

def commaText (more : Bool) : List UInt8 := if more then ascii "," else []

/-- Where a partition without an offset starts. -/
def startOf : Option PartInfo → ℕ
  | none => 0
  | some prev => u32 (prev.offset + prev.size)

theorem partPieces_flatten (prev : Option PartInfo) (more : Bool) (part : PartInfo) :
    (partPieces prev more part).flatten = memsizeFormat part.size ++
      (offsetText (startOf prev) part ++
        (nameText part ++ (flagsText part ++ commaText more))) := by
  have hite : ∀ (p : Prop) [Decidable p] (x : List UInt8),
      (if p then [x] else []).flatten = if p then x else [] := fun p _ x => by
    split_ifs
    · exact List.flatten_singleton
    · rfl
  have hname : (if part.autoName then [] else [ascii "(" ++ part.name ++ ascii ")"]).flatten =
      nameText part := by
    unfold nameText
    split_ifs
    · rfl
    · exact List.flatten_singleton
  unfold partPieces
  simp only [List.flatten_append, List.flatten_singleton, hite, hname]
  simp only [List.append_assoc]
  rcases prev with _ | prev <;> rfl

theorem heads_ended (more : Bool) (h : more = false → Heads ";" rest) :
    Heads ",;" (commaText more ++ rest) := by
  cases more
  · exact (h rfl).mono (by simp [ascii])
  · exact heads_cons (by decide)

theorem heads_flags (part : PartInfo) (h : Heads ",;" tail) : Heads "r,;" (flagsText part ++
    tail) := by
  unfold flagsText
  split_ifs
  · exact heads_cons (by decide)
  · exact h.mono (by simp [ascii])

theorem heads_name (part : PartInfo) (h : Heads "r,;" tail) :
    Heads "(r,;" (nameText part ++ tail) := by
  unfold nameText
  split_ifs
  · exact h.mono (by simp [ascii])
  · exact heads_cons (by decide)

theorem heads_offset (h : Heads "(r,;" tail) : Heads "@(r,;" (offsetText start part ++ tail) := by
  unfold offsetText
  split_ifs
  · exact heads_cons (by decide)
  · exact h.mono (by simp [ascii])

/-- What was written of the offset. -/
def writtenOffset (start : ℕ) (part : PartInfo) : ℕ :=
  if start ≠ part.offset then part.offset else OFFSET_NOT_SPECIFIED

/-- The name that is read: a generated one is generated again. -/
def textName (start : ℕ) (part : PartInfo) : List UInt8 :=
  if part.autoName then autoName part.size (writtenOffset start part) else part.name

theorem parseSize_text (hpos : 0 < part.size) (hlt : part.size < 2 ^ 32) (h : Heads "@(r,;" tail) :
    parseSize (memsizeFormat part.size ++ tail) =
      if part.size < MIN_PART_SIZE then none else some (part.size, tail) := by
  unfold parseSize
  rw [skipChar_format (by decide)]
  dsimp only
  rw [memsizeParse_format hpos hlt h]

theorem parseOffset_text (hpos : start ≠ part.offset → 0 < part.offset) (hlt : part.offset < 2 ^ 32)
    (h : Heads "(r,;" tail) :
    parseOffset (offsetText start part ++ tail) = (writtenOffset start part, tail) := by
  unfold parseOffset offsetText writtenOffset
  split_ifs with hs
  · rw [show ascii "@" ++ memsizeFormat part.offset ++ tail =
      '@'.toNat.toUInt8 :: (memsizeFormat part.offset ++ tail) from rfl, skipChar_self]
    exact memsizeParse_format (hpos hs) hlt (h.mono (by simp [ascii]))
  · rw [List.nil_append, skipChar_none h (by decide)]

theorem parseName_text (hn : part.autoName = false → part.name ≠ [] ∧ ')'.toNat.toUInt8 ∉ part.name)
    (h : Heads "r,;" tail) :
    parseName (nameText part ++ tail) =
      some (if part.autoName then none else some part.name, tail) := by
  unfold parseName nameText
  split_ifs with ha
  · rw [List.nil_append, skipChar_none h (by decide)]
  · obtain ⟨hne, hnot⟩ := hn (by simpa using ha)
    rw [show ascii "(" ++ part.name ++ ascii ")" ++ tail =
      '('.toNat.toUInt8 :: (part.name ++ ascii ")" ++ tail) from rfl, skipChar_self,
      List.append_assoc, show ascii ")" ++ tail = ')'.toNat.toUInt8 :: tail from rfl]
    dsimp only
    rw [splitChar_append hnot]
    dsimp only
    rw [if_neg hne]

theorem parseFlags_text (h : Heads ",;" tail) :
    parseFlags (flagsText part ++ tail) = (if part.maskFlags ≠ 0 then 1 else 0, tail) := by
  unfold parseFlags flagsText
  split_ifs with hm ht
  · rfl
  · exact absurd rfl ht
  · rename_i ht
    rcases tail with _ | ⟨c, tail⟩
    · exact absurd ht (by decide)
    · have hc := h c rfl
      have hr := (List.cons.inj ht).1
      rw [hr] at hc
      exact absurd hc (by decide)
  · rfl

theorem parseEnd_text (size : ℕ) (more : Bool) (h : more = false → Heads ";" rest) :
    parseEnd size (commaText more ++ rest) =
      if more = true ∧ size = SIZE_REMAINING then none else some rest := by
  unfold parseEnd
  cases more
  · have h := h rfl
    rw [show commaText false ++ rest = rest from rfl, skipChar_none h (by decide),
      if_neg (by simp : ¬ (false = true ∧ size = SIZE_REMAINING))]
    refine if_pos ?_
    rcases rest with _ | ⟨c, rest⟩
    · exact Or.inl rfl
    · have hc := h c rfl
      rw [show ascii ";" = [';'.toNat.toUInt8] from rfl, List.mem_singleton] at hc
      rw [hc, skipChar_self]
      exact Or.inr rfl
  · rw [show commaText true ++ rest = ','.toNat.toUInt8 :: rest from rfl, skipChar_self]
    dsimp only
    split_ifs with h1 h2 h2
    · rfl
    · exact absurd ⟨rfl, h1⟩ h2
    · exact absurd h2.2 h1
    · rfl

/-- A partition as it is read back. -/
def reread (link start : ℕ) (part : PartInfo) : PartInfo :=
  ⟨link, textName start part, part.autoName, part.size, writtenOffset start part,
    if part.maskFlags ≠ 0 then 1 else 0, 0⟩

/-- What a name in the lists is like, unless it is generated. -/
def PartInfo.Named (part : PartInfo) : Prop :=
  part.autoName = false → part.name ≠ [] ∧ ')'.toNat.toUInt8 ∉ part.name

/-- The parser reads a partition back, unless its size is too small, or that of a fill-up with more
partitions behind it. -/
theorem partParse_text (link : ℕ) (more : Bool) (hpos : 0 < part.size) (hsize : part.size < 2 ^ 32)
    (hoff : start ≠ part.offset → 0 < part.offset) (hlt : part.offset < 2 ^ 32) (hn : part.Named)
    (h : more = false → Heads ";" rest) :
    partParse link (memsizeFormat part.size ++ (offsetText start part ++
      (nameText part ++ (flagsText part ++ (commaText more ++ rest))))) =
      if part.size < MIN_PART_SIZE ∨ more = true ∧ part.size = SIZE_REMAINING then none
      else some (reread link start part, rest) := by
  have htail := heads_ended more h
  have hflags := heads_flags part htail
  have hname := heads_name part hflags
  unfold partParse
  rw [parseSize_text hpos hsize (heads_offset hname)]
  by_cases hmin : part.size < MIN_PART_SIZE
  · rw [if_pos hmin, if_pos (Or.inl hmin)]
    rfl
  · rw [if_neg hmin]
    simp only [Option.bind_eq_bind, Option.bind_some]
    rw [parseOffset_text hoff hlt hname]
    dsimp only
    rw [parseName_text hn hflags, Option.bind_some]
    dsimp only
    rw [parseFlags_text htail]
    dsimp only
    rw [parseEnd_text part.size more h]
    by_cases hr : more = true ∧ part.size = SIZE_REMAINING
    · rw [if_pos hr, if_pos (Or.inr hr)]
      rfl
    · rw [if_neg hr, if_neg (not_or.mpr ⟨hmin, hr⟩), Option.bind_some]
      unfold reread textName
      rcases part.autoName with _ | _
      · rfl
      · rfl

end Part

section Device

variable (mtd : ℕ → ℕ → Option MtdInfo) {id : MtdIds}

/-- A partition of the lists, as it can be written: its flags are those that the parser sets. -/
structure PartWritable (id : MtdIds) (part : PartInfo) : Prop where
  kept : PartKept mtd id part
  named : part.Named
  flags : part.maskFlags ≤ 1

/-- What is the same of a partition behind a round trip. -/
structure PartView where
  name : List UInt8
  size : ℕ
  offset : ℕ
  maskFlags : ℕ
  deriving DecidableEq, Repr

def PartInfo.view (part : PartInfo) : PartView :=
  ⟨part.name, part.size, part.offset, part.maskFlags⟩

/-- The partitions of a device in the order of the text, each under the name that is read. -/
def renamed : ℕ → List PartInfo → List PartInfo
  | _, [] => []
  | start, part :: parts =>
    { part with name := textName start part } :: renamed (u32 (part.offset + part.size)) parts

/-- The sizes that stand for themselves. -/
def SizesRead (parts : List PartInfo) : Prop :=
  (∀ part ∈ parts, MIN_PART_SIZE ≤ part.size) ∧ ∀ part ∈ parts.dropLast, part.size ≠ SIZE_REMAINING

theorem sizesRead_cons {part : PartInfo} {parts : List PartInfo} :
    SizesRead (part :: parts) ↔
      ¬ (part.size < MIN_PART_SIZE ∨ parts ≠ [] ∧ part.size = SIZE_REMAINING) ∧
        SizesRead parts := by
  unfold SizesRead
  rcases parts with _ | ⟨q, parts⟩
  · simp
  · simp only [List.dropLast_cons_cons, List.forall_mem_cons]
    constructor
    · rintro ⟨⟨h1, h2⟩, h3, h4⟩
      exact ⟨not_or.mpr ⟨by omega, fun h => h3 h.2⟩, h2, h4⟩
    · rintro ⟨h, h2, h4⟩
      obtain ⟨h1, h3⟩ := not_or.mp h
      exact ⟨⟨by omega, h2⟩, fun he => h3 ⟨by simp, he⟩, h4⟩

variable {mtd}

/-- The loop stops in front of the next device. -/
theorem ended_of_heads {rest : List UInt8} (h : Heads ";" rest) :
    rest = [] ∨ (skipChar ';' rest).isSome := by
  rcases rest with _ | ⟨c, rest⟩
  · exact Or.inl rfl
  · have hc := h c rfl
    rw [show ascii ";" = [';'.toNat.toUInt8] from rfl, List.mem_singleton] at hc
    rw [hc, skipChar_self]
    exact Or.inr rfl

theorem PartKept.congr {part : PartInfo} (h : PartKept mtd id part) (part' : PartInfo)
    (hs : part'.size = part.size) (ho : part'.offset = part.offset) : PartKept mtd id part' := by
  obtain ⟨hpos, hfits, info, hi, ha⟩ := h
  refine ⟨by rw [hs]; exact hpos, by rw [hs, ho]; exact hfits, info, hi, ?_⟩
  unfold MtdInfo.Aligned at ha ⊢
  rw [hs, ho]
  exact ha

/-- The offset that is filled in is the one that was left out. -/
theorem reread_filled {link start : ℕ} {part : PartInfo} (h : part.offset < OFFSET_NOT_SPECIFIED) :
    (if (reread link start part).offset = OFFSET_NOT_SPECIFIED then
      { reread link start part with offset := start } else reread link start part) =
      { reread link start part with offset := part.offset } := by
  by_cases hs : start = part.offset
  · have hw : (reread link start part).offset = OFFSET_NOT_SPECIFIED := if_neg (not_not.mpr hs)
    rw [if_pos hw, hs]
  · have hw : (reread link start part).offset = part.offset := if_pos hs
    rw [if_neg (by omega), ← hw]

theorem partsLoop_text : ∀ (parts : List PartInfo) (prev : Option PartInfo) (link : ℕ)
    {cnt numParts fuel : ℕ} {rest : List UInt8}, (∀ part ∈ parts, PartWritable mtd id part) →
    (∀ part ∈ parts, startOf prev ≠ part.offset → 0 < part.offset) →
    parts.Pairwise PartInfo.Before → cnt + parts.length = numParts → parts.length < fuel →
    Heads ";" rest →
    (¬ SizesRead parts → partsLoop mtd id fuel link (startOf prev)
        ((partsPieces numParts prev cnt parts).flatten ++ rest) = none) ∧
      (SizesRead parts → ∃ parts', partsLoop mtd id fuel link (startOf prev)
          ((partsPieces numParts prev cnt parts).flatten ++ rest) = some (parts', rest) ∧
        parts'.map (·.view) = (renamed (startOf prev) parts).map (·.view))
  | [], prev, link, cnt, numParts, fuel + 1, rest, _, _, _, _, _, hrest => by
    refine ⟨fun h => absurd ⟨by simp, by simp⟩ h, fun _ => ⟨[], ?_, rfl⟩⟩
    exact if_pos (ended_of_heads hrest)
  | part :: parts, prev, link, cnt, numParts, fuel + 1, rest, hw, hs, hp, hcnt, hfuel, hrest => by
    rw [List.length_cons] at hcnt hfuel
    obtain ⟨hpart, hparts⟩ := List.forall_mem_cons.mp hw
    obtain ⟨hbefore, hp⟩ := List.pairwise_cons.mp hp
    have hid := id.size_lt
    have hfits := hpart.kept.fits
    have hpos := hpart.kept.pos
    obtain ⟨ih1, ih2⟩ := partsLoop_text parts (some part) (link + 1) hparts
      (fun q hq _ => (hbefore q hq).2) hp (show cnt + 1 + parts.length = numParts by omega)
      (show parts.length < fuel by omega) hrest
    set rest' := (partsPieces numParts (some part) (cnt + 1) parts).flatten ++ rest with hrest'
    have hmore : decide (cnt + 1 < numParts) = true ↔ parts ≠ [] := by
      rw [decide_eq_true_eq, ← List.length_pos_iff]
      omega
    have hend : decide (cnt + 1 < numParts) = false → Heads ";" rest' := fun h => by
      have hnil : parts = [] := not_not.mp fun hne => by rw [hmore.mpr hne] at h; cases h
      rw [hrest', hnil]
      exact hrest
    have hparse := partParse_text link (decide (cnt + 1 < numParts)) hpos
      (by omega) (hs part List.mem_cons_self) (by omega) hpart.named hend
    have htext : (partsPieces numParts prev cnt (part :: parts)).flatten ++ rest =
        memsizeFormat part.size ++ (offsetText (startOf prev) part ++ (nameText part ++
          (flagsText part ++ (commaText (decide (cnt + 1 < numParts)) ++ rest')))) := by
      rw [partsPieces, List.flatten_append, partPieces_flatten]
      simp only [List.append_assoc]
      rfl
    rw [htext, partsLoop, if_neg ?_, hparse, sizesRead_cons, ← hmore]
    · by_cases hbad : part.size < MIN_PART_SIZE ∨
        decide (cnt + 1 < numParts) = true ∧ part.size = SIZE_REMAINING
      · rw [if_pos hbad]
        exact ⟨fun _ => rfl, fun h => absurd hbad h.1⟩
      · rw [if_neg hbad]
        simp only [Option.bind_eq_bind, Option.bind_some]
        rw [reread_filled (by unfold OFFSET_NOT_SPECIFIED; omega)]
        obtain ⟨sector, hv⟩ := partValidate_some (hpart.kept.congr
          { reread link (startOf prev) part with offset := part.offset } rfl rfl)
        rw [hv, Option.bind_some]
        have hstart : u32 (part.offset + (reread link (startOf prev) part).size) =
          startOf (some part) := rfl
        dsimp only
        rw [hstart]
        refine ⟨fun h => ?_, fun h => ?_⟩
        · rw [ih1 fun hr => h ⟨hbad, hr⟩]
          rfl
        · obtain ⟨parts', hl, hview⟩ := ih2 h.2
          rw [hl]
          refine ⟨_, rfl, ?_⟩
          rw [List.map_cons, hview, renamed, List.map_cons]
          refine congrArg₂ List.cons ?_ rfl
          have hflags := hpart.flags
          simp only [PartInfo.view, reread, PartView.mk.injEq, true_and]
          split_ifs <;> omega
    · rw [skipChar_format (by decide)]
      simpa using fun h => absurd h (List.ne_nil_of_length_pos (memsizeFormat_length_pos part.size))

end Device

section Sorted

theorem sortAdd_insert {new : PartInfo} : ∀ {parts : List PartInfo},
    (∀ part ∈ parts, part.Before new) →
    sortAdd new parts = some (parts.orderedInsert (KeyLe PartInfo.offset) new)
  | [], _ => rfl
  | pi :: parts, h => by
    obtain ⟨hpi, h⟩ := List.forall_mem_cons.mp h
    have hpos := hpi.2
    rw [sortAdd, if_neg (by omega), sortAdd_insert h]
    by_cases hle : new.offset ≤ pi.offset
    · rw [if_pos hle, List.orderedInsert_cons_of_le (KeyLe PartInfo.offset) parts hle]
    · rw [if_neg hle, List.orderedInsert_of_not_le (KeyLe PartInfo.offset) parts hle]
      rfl

theorem sortAddAll_insert : ∀ {parts acc : List PartInfo}, parts.Pairwise PartInfo.Before →
    (∀ a ∈ acc, ∀ part ∈ parts, a.Before part) →
    parts.foldlM (fun parts part => sortAdd part parts) acc =
      some (parts.foldl (fun acc part => acc.orderedInsert (KeyLe PartInfo.offset) part) acc)
  | [], _, _, _ => rfl
  | part :: parts, acc, hp, ha => by
    obtain ⟨hpart, hp⟩ := List.pairwise_cons.mp hp
    rw [List.foldlM_cons, sortAdd_insert fun a h => ha a h part List.mem_cons_self]
    refine sortAddAll_insert hp fun a h q hq => ?_
    rcases (List.mem_orderedInsert _).mp h with rfl | h
    · exact hpart q hq
    · exact ha a h q (List.mem_cons_of_mem _ hq)

/-- Partitions that come in order are turned around where they start at one offset. -/
theorem sortAddAll_sorted {parts : List PartInfo} (h : parts.Pairwise PartInfo.Before) :
    parts.foldlM (fun parts part => sortAdd part parts) [] =
      some (parts.reverse.insertionSort (KeyLe PartInfo.offset)) := by
  rw [sortAddAll_insert h (by simp), List.insertionSort, List.foldr_reverse]

/-- Under the names that are read, the partitions at each offset are the same backwards. -/
def TiesRead (parts : List PartInfo) : Prop :=
  ∀ offset, ((renamed 0 parts).reverse.filter (·.offset = offset)).map (·.view) =
    (parts.filter (·.offset = offset)).map (·.view)

theorem renamed_offsets : ∀ (start : ℕ) (parts : List PartInfo),
    (renamed start parts).map (·.offset) = parts.map (·.offset)
  | _, [] => rfl
  | start, part :: parts => by
    rw [renamed, List.map_cons, List.map_cons, renamed_offsets]

theorem offsets_of_view {parts parts' : List PartInfo}
    (h : parts'.map (·.view) = parts.map (·.view)) : parts'.map (·.offset) =
      parts.map (·.offset) := by
  have := congrArg (List.map PartView.offset) h
  rw [List.map_map, List.map_map] at this
  exact this

theorem sorted_of_offsets {parts parts' : List PartInfo}
    (h : parts'.map (·.offset) = parts.map (·.offset)) (hp : parts.Pairwise PartInfo.Before) :
    parts'.Pairwise PartInfo.Before := by
  have hmap : (parts.map (·.offset)).Pairwise (fun a b => a ≤ b ∧ 0 < b) := List.pairwise_map.mpr hp
  rw [← h] at hmap
  exact (List.pairwise_map (f := PartInfo.offset)).mp hmap

/-- The lists are the same exactly if the partitions at each offset are. -/
theorem insertionSort_view_iff {parts parts' : List PartInfo} (hp : parts.Pairwise PartInfo.Before)
    (hv : parts'.map (·.view) = (renamed 0 parts).map (·.view)) :
    (parts'.reverse.insertionSort (KeyLe PartInfo.offset)).map (·.view) = parts.map (·.view) ↔
      TiesRead parts := by
  have hmap : (parts'.reverse.insertionSort (KeyLe PartInfo.offset)).map (·.view) =
      ((renamed 0 parts).reverse.map (·.view)).insertionSort
        (KeyLe PartView.offset) := by
    rw [List.map_insertionSort (KeyLe PartInfo.offset)
      (KeyLe PartView.offset) PartInfo.view _ fun a _ b _ => Iff.rfl, List.map_reverse, hv,
        List.map_reverse]
  have hsorted : (parts.map (·.view)).Pairwise (KeyLe PartView.offset) :=
    List.pairwise_map.mpr (hp.imp fun h => h.1)
  rw [hmap, insertionSort_eq_iff hsorted]
  unfold TiesRead
  refine forall_congr' fun k => ?_
  rw [List.filter_map, List.filter_map]
  rfl

/-- Where no two partitions start at one offset, only the names matter. -/
theorem tiesRead_of_nodup {parts : List PartInfo} (hn : (parts.map (·.offset)).Nodup)
    (hv : (renamed 0 parts).map (·.view) = parts.map (·.view)) : TiesRead parts := fun offset => by
  have hfilter : ∀ l : List PartInfo, (l.filter (·.offset = offset)).map (·.view) =
      (l.map (·.view)).filter (·.offset = offset) := fun l => by
    rw [List.filter_map]
    rfl
  rw [hfilter, List.map_reverse, hv, ← List.map_reverse, ← hfilter, List.filter_reverse]
  have hsub := hn.sublist ((List.filter_sublist (p := fun q => decide (q.offset = offset))
    (l := parts)).map
    PartInfo.offset)
  rcases hp : parts.filter (·.offset = offset) with _ | ⟨p, _ | ⟨q, ps⟩⟩
  · rw [hp]
    rfl
  · rw [hp]
    rfl
  · have hpo : p.offset = offset := by
      have := List.of_mem_filter (hp ▸ List.mem_cons_self (a := p) (l := q :: ps))
      simpa using this
    have hqo : q.offset = offset := by
      have := List.of_mem_filter (hp ▸ List.mem_cons_of_mem p (List.mem_cons_self (a := q)
        (l := ps)))
      simpa using this
    rw [hp, List.map_cons, List.map_cons, hpo, hqo] at hsub
    exact absurd List.mem_cons_self (List.nodup_cons.mp hsub).1

end Sorted

section Devices

variable (mtd : ℕ → ℕ → Option MtdInfo) (mtdids : List MtdIds)

/-- A device of the lists: it is in order, and its identifier stands for it in a text. -/
structure DeviceWritable (dev : MtdDevice) : Prop where
  kept : DeviceKept mtd dev
  parts : ∀ part ∈ dev.parts, PartWritable mtd dev.id part
  count : dev.numParts < 2 ^ 16
  found : idFindByMtdId mtdids dev.id.mtdId = some dev.id
  colon : ':'.toNat.toUInt8 ∉ dev.id.mtdId

/-- The devices of the lists. -/
structure ModelKept (devices : List MtdDevice) : Prop where
  each : ∀ dev ∈ devices, DeviceWritable mtd mtdids dev
  keys : (devices.map (·.id.key)).Nodup

structure DeviceView where
  id : MtdIds
  numParts : ℕ
  parts : List PartView
  deriving DecidableEq

def MtdDevice.view (dev : MtdDevice) : DeviceView := ⟨dev.id, dev.numParts, dev.parts.map (·.view)⟩

/-- A device whose text is read as the device. -/
def DeviceRead (dev : MtdDevice) : Prop := SizesRead dev.parts ∧ TiesRead dev.parts

variable {mtd mtdids} {dev : MtdDevice} {devices : List MtdDevice} {link : ℕ} {rest : List UInt8}

def deviceText (dev : MtdDevice) : List UInt8 :=
  dev.id.mtdId ++ ':'.toNat.toUInt8 :: (partsPieces dev.numParts none 0 dev.parts).flatten

theorem deviceParse_text (link : ℕ) (hw : DeviceWritable mtd mtdids dev)
    (hf : deviceFind devices dev.id.key = none) (hrest : Heads ";" rest) :
    (¬ SizesRead dev.parts →
        deviceParse mtd mtdids devices link (deviceText dev ++ rest) = none) ∧
      (SizesRead dev.parts → ∃ dev', deviceParse mtd mtdids devices link (deviceText dev ++ rest) =
          some (dev', (skipChar ';' rest).getD rest) ∧ dev'.id = dev.id ∧
        (dev'.view = dev.view ↔ TiesRead dev.parts)) := by
  have hk := hw.kept
  have hlen := partsPieces_length dev.numParts dev.parts none 0
  set body := (partsPieces dev.numParts none 0 dev.parts).flatten with hbody
  have hend : endOffset devices dev.id = 0 := by
    unfold endOffset
    rw [hf]
    rfl
  obtain ⟨h1, h2⟩ := partsLoop_text dev.parts none link hw.parts (fun q hq hs => by
    change 0 ≠ q.offset at hs
    omega) hk.sorted (show 0 + dev.parts.length = dev.numParts by rw [hk.numParts, Nat.zero_add])
    (show dev.parts.length < (body ++ rest).length + 1 by
      rw [List.length_append]
      omega) hrest
  have hsplit : splitChar ':' (deviceText dev ++ rest) = (dev.id.mtdId, some (body ++ rest)) := by
    unfold deviceText
    rw [List.append_assoc, List.cons_append, ← hbody]
    exact splitChar_append hw.colon
  unfold deviceParse
  rw [hsplit]
  simp only [Option.bind_eq_bind, Option.bind_some]
  rw [hw.found, Option.bind_some, hend]
  rw [← hbody, show startOf none = 0 from rfl] at h1 h2
  refine ⟨fun h => ?_, fun h => ?_⟩
  · rw [h1 h]
    rfl
  · obtain ⟨parts', hl, hview⟩ := h2 h
    have hoff : parts'.map (·.offset) = dev.parts.map (·.offset) :=
      (offsets_of_view hview).trans (renamed_offsets _ _)
    have hlen' : parts'.length = dev.parts.length := by
      rw [← List.length_map (f := PartInfo.offset), hoff, List.length_map]
    have hne : parts' ≠ [] := fun he => hk.nonempty (List.length_eq_zero_iff.mp (by
      rw [← hlen', he, List.length_nil]))
    rw [hl, Option.bind_some]
    dsimp only
    rw [if_neg hne, sortAddAll_sorted (sorted_of_offsets hoff hk.sorted), Option.bind_some]
    refine ⟨_, rfl, rfl, ?_⟩
    rw [← insertionSort_view_iff hk.sorted hview]
    have hcount : (parts'.reverse.insertionSort (KeyLe PartInfo.offset)).length % 2 ^ 16 =
        dev.numParts := by
      have := hw.count
      rw [List.length_insertionSort, List.length_reverse, hlen', ← hk.numParts]
      exact Nat.mod_eq_of_lt this
    unfold MtdDevice.view
    simp only [hcount, DeviceView.mk.injEq, true_and]

/-- The text of the devices that are left. -/
theorem devicesPieces_cons (dev : MtdDevice) (devices : List MtdDevice) :
    (devicesPieces (dev :: devices)).flatten = deviceText dev ++
      ((if devices ≠ [] then ascii ";" else []) ++ (devicesPieces devices).flatten) := by
  have hite : (if devices ≠ [] then [ascii ";"] else []).flatten =
      if devices ≠ [] then ascii ";" else [] := by
    split_ifs
    · exact List.flatten_singleton
    · rfl
  rw [devicesPieces, List.cons_append, List.cons_append, List.flatten_cons, List.flatten_append,
    List.flatten_append, hite, deviceText]
  simp only [List.append_assoc, List.cons_append]
  rfl

theorem devicesLoop_text : ∀ (devices acc : List MtdDevice) (fuel link : ℕ),
    (∀ dev ∈ devices, DeviceWritable mtd mtdids dev) → (devices.map (·.id.key)).Nodup →
    (∀ dev ∈ devices, deviceFind acc dev.id.key = none) → devices.length < fuel →
    (¬ (∀ dev ∈ devices, SizesRead dev.parts) →
        devicesLoop mtd mtdids fuel acc link (devicesPieces devices).flatten = none) ∧
      ((∀ dev ∈ devices, SizesRead dev.parts) → ∃ devices' link',
        devicesLoop mtd mtdids fuel acc link (devicesPieces devices).flatten =
          some (acc ++ devices', link') ∧
        (devices'.map (·.view) = devices.map (·.view) ↔ ∀ dev ∈ devices, TiesRead dev.parts))
  | [], acc, fuel + 1, link, _, _, _, _ => by
    refine ⟨fun h => absurd (by simp) h, fun _ => ⟨[], link, ?_, by simp⟩⟩
    rw [List.append_nil]
    rfl
  | dev :: devices, acc, fuel + 1, link, hw, hkeys, hacc, hfuel => by
    obtain ⟨hdev, hw⟩ := List.forall_mem_cons.mp hw
    obtain ⟨hfind, hacc⟩ := List.forall_mem_cons.mp hacc
    rw [List.map_cons, List.nodup_cons] at hkeys
    rw [List.length_cons] at hfuel
    set rest := (if devices ≠ [] then ascii ";" else []) ++ (devicesPieces devices).flatten
      with hrest
    have hends : Heads ";" rest ∧ (skipChar ';' rest).getD rest =
      (devicesPieces devices).flatten := by
      rw [hrest]
      split_ifs with hne
      · exact ⟨heads_cons (by decide), by
          rw [show ascii ";" ++ (devicesPieces devices).flatten =
            ';'.toNat.toUInt8 :: (devicesPieces devices).flatten from rfl, skipChar_self,
              Option.getD_some]⟩
      · rw [not_not.mp hne]
        exact ⟨fun c hc => absurd hc (by simp [devicesPieces]), rfl⟩
    obtain ⟨h1, h2⟩ := deviceParse_text link hdev hfind hends.1
    have hne : ¬ (deviceText dev ++ rest = []) := by simp [deviceText]
    rw [devicesPieces_cons, ← hrest, devicesLoop, if_neg hne, List.forall_mem_cons]
    by_cases hs : SizesRead dev.parts
    · obtain ⟨dev', hparse, hid, hview⟩ := h2 hs
      have hkey : deviceFind acc dev'.id.key = none := by rw [hid, hfind]
      have hacc' : ∀ d ∈ devices, deviceFind (acc ++ [dev']) d.id.key = none := fun d hd => by
        have hkne : ¬ dev'.id.key = d.id.key := by
          rw [hid]
          exact fun he => hkeys.1 (he ▸ List.mem_map_of_mem (f := fun d : MtdDevice => d.id.key) hd)
        have hnone := hacc d hd
        unfold deviceFind at hnone ⊢
        rw [List.find?_append, hnone, List.find?_cons_of_neg (by simpa using hkne)]
        rfl
      obtain ⟨ih1, ih2⟩ := devicesLoop_text devices (acc ++ [dev']) fuel (link + dev'.parts.length)
        hw hkeys.2 hacc' (by omega)
      rw [hparse, hends.2]
      simp only [Option.bind_eq_bind, Option.bind_some]
      rw [hkey, if_neg (by simp)]
      refine ⟨fun h => ih1 fun hall => h ⟨hs, hall⟩, fun h => ?_⟩
      obtain ⟨devices', link', hl, hviews⟩ := ih2 h.2
      refine ⟨dev' :: devices', link', by rw [hl, List.append_assoc]; rfl, ?_⟩
      rw [List.map_cons, List.map_cons, List.cons.injEq, hview, hviews, List.forall_mem_cons]
    · rw [h1 hs]
      exact ⟨fun _ => rfl, fun h => absurd h.1 hs⟩

theorem devicesPieces_count : ∀ devices : List MtdDevice,
    devices.length ≤ (devicesPieces devices).flatten.length
  | [] => Nat.zero_le _
  | dev :: devices => by
    have ih := devicesPieces_count devices
    rw [devicesPieces_cons, deviceText]
    simp only [List.length_append, List.length_cons]
    omega

/-- The text of the lists is read as the same lists exactly if every size is one that is read, and
in each device the partitions at each offset, a generated name generated again, are the same
backwards. -/
theorem mtdparts_round_trip_iff {buflen : ℕ} {text : List UInt8} (hm : ModelKept mtd mtdids devices)
    (hg : generateMtdparts buflen devices = some text) :
    (parseMtdparts mtd mtdids link text).1.map (·.view) = devices.map (·.view) ↔
      ∀ dev ∈ devices, DeviceRead dev := by
  by_cases hnil : devices = []
  · rw [generateMtdparts, if_pos hnil] at hg
    rw [← Option.some.inj hg, hnil]
    exact iff_of_true rfl (by simp)
  · rw [generateMtdparts, if_neg hnil, copyPieces_eq] at hg
    obtain ⟨body, hbody, rfl⟩ := Option.map_eq_some_iff.mp hg
    rw [Option.ite_none_right_eq_some, Option.some.injEq] at hbody
    obtain ⟨-, rfl⟩ := hbody
    have hcount := devicesPieces_count devices
    set body := (devicesPieces devices).flatten with hbody
    obtain ⟨h1, h2⟩ := devicesLoop_text devices [] ((ascii "mtdparts=" ++ body).length + 1)
      link hm.each hm.keys (fun _ _ => rfl) (by rw [List.length_append]; omega)
    have hparse : parseMtdparts mtd mtdids link (ascii "mtdparts=" ++ body) =
        (devicesLoop mtd mtdids ((ascii "mtdparts=" ++ body).length + 1) [] link body).getD
          ([], link) := if_pos rfl
    rw [hparse]
    unfold DeviceRead
    by_cases hs : ∀ dev ∈ devices, SizesRead dev.parts
    · obtain ⟨devices', link', hl, hview⟩ := h2 hs
      rw [hl, Option.getD_some, List.nil_append, hview]
      exact ⟨fun h dev hd => ⟨hs dev hd, h dev hd⟩, fun h dev hd => (h dev hd).2⟩
    · rw [h1 hs, Option.getD_none]
      refine iff_of_false (fun h => hnil ?_) fun h => hs fun dev hd => (h dev hd).1
      exact (List.map_eq_nil_iff.mp h.symm)

end Devices

section Example

instance (p q : PartInfo) : Decidable (p.Before q) :=
  inferInstanceAs (Decidable (p.offset ≤ q.offset ∧ 0 < q.offset))

instance (p : PartInfo) : Decidable p.Named := inferInstanceAs (Decidable (_ → _))

theorem mxSize_lt : 0x1000000 < 2 ^ 32 := by norm_num

def mxDevice (parts : List PartInfo) : MtdDevice :=
  ⟨⟨MTD_DEV_TYPE_NAND, 0, 0x1000000, ascii "mx", mxSize_lt⟩, parts.length, parts⟩

theorem mxDevice_kept {parts : List PartInfo} (hs : parts.Pairwise PartInfo.Before)
    (hlen : 0 < parts.length ∧ parts.length < 2 ^ 16)
    (hp : ∀ part ∈ parts, (0 < part.size ∧ part.offset + part.size ≤ 0x1000000) ∧
      (0x10000 ∣ part.offset ∧ 0x10000 ∣ part.size) ∧ part.Named ∧ part.maskFlags ≤ 1) :
    ModelKept smallNand noParts.mtdids [mxDevice parts] := by
  have hk : ∀ part ∈ parts, PartKept smallNand (mxDevice parts).id part := fun part hm =>
    ⟨(hp part hm).1.1, (hp part hm).1.2, _, rfl, (hp part hm).2.1⟩
  have hw : DeviceWritable smallNand noParts.mtdids (mxDevice parts) :=
    ⟨⟨hs, rfl, List.length_pos_iff.mp hlen.1, hk⟩,
      fun part hm => ⟨hk part hm, (hp part hm).2.2.1, (hp part hm).2.2.2⟩, hlen.2, rfl,
      show ':'.toNat.toUInt8 ∉ ascii "mx" by decide⟩
  exact ⟨fun dev hd => by rw [List.mem_singleton.mp hd]; exact hw, List.nodup_singleton _⟩

theorem mtdparts_round_trip_iff_two :
    (parseMtdparts smallNand noParts.mtdids 7 (ascii "mtdparts=mx:128k@64k(boot)ro,1m(root)")).1.map
        (·.view) =
      [mxDevice [⟨3, ascii "boot", false, 0x20000, 0x10000, 1, 0x10000⟩,
        ⟨5, ascii "root", false, 0x100000, 0x30000, 0, 0x10000⟩]].map (·.view) := by
  refine (mtdparts_round_trip_iff (mxDevice_kept (by decide) (by decide) (by decide))
    (show generateMtdparts 512 _ = _ by decide)).mpr fun dev hd => ?_
  rw [List.mem_singleton.mp hd]
  exact ⟨⟨by decide, by decide⟩, tiesRead_of_nodup (by decide) rfl⟩

/-- A partition that was given an offset, at the start of the flash, has that offset in its
generated name; the text leaves the offset out. -/
theorem mtdparts_renames :
    ∃ devices text, parseMtdparts smallNand noParts.mtdids 0 (ascii "mtdparts=mx:64k@0") =
      (devices, 1) ∧
      ModelKept smallNand noParts.mtdids devices ∧
      generateMtdparts MTDPARTS_MAXLEN devices = some text ∧
      (parseMtdparts smallNand noParts.mtdids 0 text).1.map (·.view) ≠ devices.map (·.view) := by
  refine ⟨[mxDevice [⟨0, ascii "0x00010000@0x00000000", true, 0x10000, 0, 0, 0x10000⟩]],
    ascii "mtdparts=mx:64k", by decide +kernel, mxDevice_kept (by decide) (by decide) (by decide),
    by decide, by decide⟩

end Example

end InfotmUboot
