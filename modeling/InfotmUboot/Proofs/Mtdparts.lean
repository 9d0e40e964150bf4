import InfotmUboot.Mtdparts
import Mathlib.Data.List.Sort

/-!
# The lists of partitions

What `part_validate` accepts lies in the flash and on the bounds of its blocks. `part_sort_add`
keeps a list in the order of the offsets, and what it does to the number of the current partition is
right (`sortAdd_current`); what `part_del` does is right unless the deleted partition stands behind
the current one at its offset (`erase_current`).
-/

namespace InfotmUboot

open Lib

section Numbers

theorem strtoulLoop_lt (base : ℕ) :
    ∀ (cs : List UInt8) (result : ℕ), result < 2 ^ 32 → strtoulLoop base cs result < 2 ^ 32
  | [], result, h => h
  | c :: cs, result, h => by
    unfold strtoulLoop
    rcases digitValue c with _ | v
    · exact h
    · dsimp only
      split_ifs
      · exact strtoulLoop_lt base cs _ (u32_lt _)
      · exact h

theorem strtoulEnd_lt (base : ℕ) (cs : List UInt8) : (strtoulEnd base cs).1 < 2 ^ 32 :=
  strtoulLoop_lt base cs 0 (by norm_num)

theorem strtoul0_lt (p : List UInt8) : (strtoul0 p).1 < 2 ^ 32 := by
  unfold strtoul0
  split
  · split_ifs
    · exact strtoulEnd_lt _ _
    · exact strtoulEnd_lt _ _
  · exact strtoulEnd_lt _ _
  · exact strtoulEnd_lt _ _

theorem memsizeParse_lt (p : List UInt8) : (memsizeParse p).1 < 2 ^ 32 := by
  unfold memsizeParse
  have h := strtoul0_lt p
  rcases hp : strtoul0 p with ⟨ret, _ | ⟨c, rest⟩⟩
  · rw [hp] at h
    exact h
  · rw [hp] at h
    dsimp only at h ⊢
    split_ifs
    · exact u32_lt _
    · exact u32_lt _
    · exact u32_lt _
    · exact h

end Numbers

section Parsed

variable {link size offset : ℕ} {p q : List UInt8} {part : PartInfo}

theorem parseSize_lt (h : parseSize p = some (size, q)) : size < 2 ^ 32 := by
  unfold parseSize at h
  rcases hp : skipChar '-' p with _ | p'
  · rw [hp] at h
    simp only [Option.ite_none_left_eq_some, Option.some.injEq, Prod.mk.injEq] at h
    obtain ⟨-, rfl, -⟩ := h
    exact memsizeParse_lt p
  · rw [hp] at h
    simp only [Option.some.injEq, Prod.mk.injEq] at h
    obtain ⟨rfl, -⟩ := h
    norm_num [SIZE_REMAINING]

/-- What is known of a partition that was parsed: its address and that its size has 32 bits. -/
theorem partParse_spec (h : partParse link p = some (part, q)) :
    part.link = link ∧ part.size < 2 ^ 32 := by
  simp only [partParse, Option.bind_eq_bind, Option.bind_eq_some_iff, Prod.exists] at h
  obtain ⟨size, p, hs, name, p, -, p, -, h⟩ := h
  simp only [Option.some.injEq, Prod.mk.injEq] at h
  obtain ⟨rfl, -⟩ := h
  exact ⟨rfl, parseSize_lt hs⟩

end Parsed

section Validate

variable (mtd : ℕ → ℕ → Option MtdInfo)

/-- The partition begins and ends at a bound between two blocks. -/
def MtdInfo.Aligned (info : MtdInfo) (part : PartInfo) : Prop :=
  if info.eraseregions = [] then info.erasesize ∣ part.offset ∧ info.erasesize ∣ part.size
  else part.offset ∈ blockStarts info.eraseregions ∧
    (part.offset + part.size ∈ blockStarts info.eraseregions ∨
      some (part.offset + part.size) = lastStart info.eraseregions)

structure PartKept (id : MtdIds) (part : PartInfo) : Prop where
  pos : 0 < part.size
  fits : part.offset + part.size ≤ id.size
  aligned : ∃ info, mtd id.type id.num = some info ∧ info.Aligned part

variable {mtd} {id : MtdIds} {part part' : PartInfo}

theorem partValidateEraseblock_spec (hsum : u32 (part.offset + part.size) = part.offset + part.size)
    (h : partValidateEraseblock mtd id part = some part') :
    ∃ info, mtd id.type id.num = some info ∧ info.Aligned part ∧
      part' = { part with sectorSize := info.erasesize } := by
  unfold partValidateEraseblock at h
  rcases hm : mtd id.type id.num with _ | info
  · rw [hm] at h
    exact absurd h (by simp)
  · rw [hm] at h
    dsimp only at h
    refine ⟨info, rfl, ?_⟩
    unfold MtdInfo.Aligned
    rw [hsum] at h
    split_ifs at h ⊢ with h1 h2 h3 h4 h5 h6
    · exact ⟨⟨Nat.dvd_of_mod_eq_zero (not_not.mp h2), Nat.dvd_of_mod_eq_zero (not_not.mp h3)⟩,
        (Option.some.inj h).symm⟩
    · exact ⟨⟨h4, Or.inl h5⟩, (Option.some.inj h).symm⟩
    · exact ⟨⟨h4, Or.inr h6⟩, (Option.some.inj h).symm⟩

theorem partValidateEraseblock_some {info : MtdInfo} (hi : mtd id.type id.num = some info)
    (hsum : u32 (part.offset + part.size) = part.offset + part.size) (ha : info.Aligned part) :
    partValidateEraseblock mtd id part = some { part with sectorSize := info.erasesize } := by
  unfold partValidateEraseblock
  unfold MtdInfo.Aligned at ha
  rw [hi]
  dsimp only
  rw [hsum]
  by_cases hr : info.eraseregions = []
  · rw [if_pos hr] at ha ⊢
    rw [if_neg (not_not.mpr (Nat.mod_eq_zero_of_dvd ha.1)),
      if_neg (not_not.mpr (Nat.mod_eq_zero_of_dvd ha.2))]
  · rw [if_neg hr] at ha ⊢
    rw [if_neg (not_not.mpr ha.1)]
    by_cases hb : part.offset + part.size ∈ blockStarts info.eraseregions
    · rw [if_pos hb]
    · rw [if_neg hb, if_pos (ha.2.resolve_left hb)]

/-- `part_validate` fills in the size and the size of a block, and accepts what it should. -/
theorem partValidate_spec (hs : part.size < 2 ^ 32) (h : partValidate mtd id part = some part') :
    PartKept mtd id part' ∧ part'.link = part.link ∧ part'.offset = part.offset := by
  unfold partValidate at h
  set filled := if part.size = SIZE_REMAINING then
    { part with size := toU32 (id.size - part.offset) } else part with hf
  have hoff : filled.offset = part.offset := by rw [hf]; split_ifs <;> rfl
  have hlink : filled.link = part.link := by rw [hf]; split_ifs <;> rfl
  have hsize : filled.size < 2 ^ 32 := by
    rw [hf]
    split_ifs
    · dsimp only
      unfold toU32
      omega
    · exact hs
  dsimp only at h
  split_ifs at h with h1 h2 h3
  have hid := id.size_lt
  have hsum : u32 (filled.offset + filled.size) = filled.offset + filled.size := by
    unfold u32 at h2 ⊢
    omega
  rw [hsum] at h2 h3
  obtain ⟨info, hi, ha, rfl⟩ := partValidateEraseblock_spec hsum h
  exact ⟨⟨by dsimp only; omega, by dsimp only; omega, info, hi, ha⟩, hlink, hoff⟩

/-- A partition that is in order is accepted as it is, if its size stands for itself. -/
theorem partValidate_some (hk : PartKept mtd id part) :
    ∃ sectorSize, partValidate mtd id part = some { part with sectorSize := sectorSize } := by
  obtain ⟨hpos, hfits, info, hi, ha⟩ := hk
  have hid := id.size_lt
  have hsum : u32 (part.offset + part.size) = part.offset + part.size := u32_of_lt (by omega)
  refine ⟨info.erasesize, ?_⟩
  have hfill : (if part.size = SIZE_REMAINING then
      { part with size := toU32 (id.size - part.offset) } else part) = part := by
    split_ifs with hr
    · have : toU32 (id.size - part.offset) = part.size := by
        unfold SIZE_REMAINING at hr
        unfold toU32
        omega
      rw [this]
    · rfl
  unfold partValidate
  dsimp only
  rw [hfill, if_neg (by omega), hsum, if_neg (by omega), if_neg (by omega)]
  exact partValidateEraseblock_some hi hsum ha

end Validate

section Sorted

/-- The order of a list: no second partition starts at 0. -/
def PartInfo.Before (p q : PartInfo) : Prop := p.offset ≤ q.offset ∧ 0 < q.offset

variable {new cur : PartInfo}

theorem sortAdd_perm : ∀ {parts parts' : List PartInfo}, sortAdd new parts = some parts' →
    parts'.Perm (new :: parts)
  | [], parts', h => by
    simp only [sortAdd, Option.some.injEq] at h
    rw [← h]
  | pi :: parts, parts', h => by
    unfold sortAdd at h
    split_ifs at h
    · rw [← Option.some.inj h]
    · obtain ⟨rest, hr, rfl⟩ := Option.map_eq_some_iff.mp h
      exact ((sortAdd_perm hr).cons pi).trans (List.Perm.swap _ _ _)

theorem sortAdd_sorted : ∀ {parts parts' : List PartInfo}, sortAdd new parts = some parts' →
    parts.Pairwise PartInfo.Before → parts'.Pairwise PartInfo.Before
  | [], parts', h, _ => by
    simp only [sortAdd, Option.some.injEq] at h
    rw [← h]
    exact List.pairwise_singleton _ _
  | pi :: parts, parts', h, hs => by
    unfold sortAdd at h
    obtain ⟨hpi, hparts⟩ := List.pairwise_cons.mp hs
    split_ifs at h with h1 h2
    · rw [← Option.some.inj h]
      refine List.pairwise_cons.mpr ⟨fun q hq => ?_, hs⟩
      rcases List.mem_cons.mp hq with rfl | hq
      · exact ⟨h2, by omega⟩
      · exact ⟨h2.trans (hpi q hq).1, (hpi q hq).2⟩
    · obtain ⟨rest, hr, rfl⟩ := Option.map_eq_some_iff.mp h
      refine List.pairwise_cons.mpr ⟨fun q hq => ?_, sortAdd_sorted hr hparts⟩
      rcases List.mem_cons.mp ((sortAdd_perm hr).subset hq) with rfl | hq
      · exact ⟨by omega, by omega⟩
      · exact hpi q hq

/-- `current_mtd_partnum` behind an insertion. -/
def insertNum (new cur : PartInfo) (parts : List PartInfo) (num : ℕ) : ℕ :=
  if (parts.find? (new.offset ≤ ·.offset)).any (·.offset ≤ cur.offset) then num + 1 else num

/-- The number goes up exactly if the new partition is put before the current one. -/
theorem sortAdd_current : ∀ {parts parts' : List PartInfo} {num : ℕ},
    sortAdd new parts = some parts' → parts.Pairwise PartInfo.Before → parts[num]? = some cur →
    parts'[insertNum new cur parts num]? = some cur
  | [], parts', num, h, hs, hc => absurd hc (by simp)
  | pi :: parts, parts', num, h, hs, hc => by
    unfold sortAdd at h
    obtain ⟨hpi, hparts⟩ := List.pairwise_cons.mp hs
    split_ifs at h with h1 h2
    · rw [← Option.some.inj h]
      have hle : pi.offset ≤ cur.offset := by
        rcases List.mem_cons.mp (List.mem_of_getElem? hc) with rfl | hm
        · exact le_refl _
        · exact (hpi cur hm).1
      have hn : insertNum new cur (pi :: parts) num = num + 1 := by
        simp [insertNum, h2, hle]
      rw [hn]
      exact hc
    · obtain ⟨rest, hr, rfl⟩ := Option.map_eq_some_iff.mp h
      have hfind : (pi :: parts).find? (new.offset ≤ ·.offset) =
          parts.find? (new.offset ≤ ·.offset) := by simp [h2]
      rcases num with _ | num
      · have hcur : cur = pi := by simpa using hc.symm
        -- what the new partition comes before starts behind the current one
        have hn : insertNum new cur (pi :: parts) 0 = 0 := by
          unfold insertNum
          rw [hfind]
          rcases hq : parts.find? (new.offset ≤ ·.offset) with _ | q
          · rw [hq]
            rfl
          · rw [hq]
            have hle := List.find?_some hq
            simp only [decide_eq_true_eq] at hle
            rw [if_neg (by simp only [Option.any_some, decide_eq_true_eq, hcur]; omega)]
        rw [hn, hcur]
        rfl
      · have hn : insertNum new cur (pi :: parts) (num + 1) = insertNum new cur parts num + 1 := by
          unfold insertNum
          rw [hfind]
          split_ifs <;> rfl
        rw [hn, List.getElem?_cons_succ]
        exact sortAdd_current hr hparts (by simpa using hc)

variable {parts : List PartInfo} {num : ℕ} {part : PartInfo}

theorem eraseP_split (hn : (parts.map (·.link)).Nodup) (hp : part ∈ parts) :
    ∃ s t, parts = s ++ part :: t ∧ parts.eraseP (·.link = part.link) = s ++ t ∧ part ∉ t := by
  obtain ⟨s, t, rfl⟩ := List.append_of_mem hp
  rw [List.map_append, List.map_cons] at hn
  obtain ⟨-, hpt, hst⟩ := List.nodup_append.mp hn
  refine ⟨s, t, rfl, ?_, fun h => (List.nodup_cons.mp hpt).1 (List.mem_map_of_mem h)⟩
  have hs : ∀ q ∈ s, ¬ decide (q.link = part.link) = true := fun q hq => by
    rw [decide_eq_true_eq]
    exact hst _ (List.mem_map_of_mem hq) _ List.mem_cons_self
  rw [List.eraseP_append_right _ hs, List.eraseP_cons_of_pos (by simp)]

/-- The number goes down if the deleted partition does not start behind the current one. It then is
the number of the current partition, unless the deleted one stands behind it. -/
theorem erase_current (hs : parts.Pairwise PartInfo.Before) (hn : (parts.map (·.link)).Nodup)
    (hlen : parts.length < 2 ^ 8) (hc : parts[num]? = some cur) (hp : part ∈ parts)
    (hne : cur.link ≠ part.link) :
    (parts.eraseP (·.link = part.link))[
        if part.offset ≤ cur.offset then (num + 255) % 2 ^ 8 else num]? = some cur ↔
      ¬ (part.offset = cur.offset ∧ part ∈ parts.drop (num + 1)) := by
  obtain ⟨s, t, hst, her, hpt⟩ := eraseP_split hn hp
  have hnum : num < parts.length := (List.getElem?_eq_some_iff.mp hc).1
  rw [her]
  rw [hst] at hc hs hn hlen hnum ⊢
  simp only [List.length_append, List.length_cons] at hlen hnum
  obtain ⟨-, hpts, hsp⟩ := List.pairwise_append.mp hs
  rcases Nat.lt_trichotomy num s.length with hlt | heq | hgt
  · -- the deleted partition stands behind the current one
    rw [List.getElem?_append_left hlt] at hc
    have hle : cur.offset ≤ part.offset :=
      (hsp cur (List.mem_of_getElem? hc) part List.mem_cons_self).1
    have hmem : part ∈ (s ++ part :: t).drop (num + 1) := by
      rw [List.drop_append_of_le_length (by omega)]
      exact List.mem_append_right _ List.mem_cons_self
    split_ifs with hoff
    · refine ⟨fun h => ?_, fun h => absurd ⟨by omega, hmem⟩ h⟩
      have hnd : (s ++ t).Nodup :=
        (hn.of_map _).sublist ((List.sublist_cons_self part t).append_left s)
      have hcur : (s ++ t)[num]? = some cur := by rw [List.getElem?_append_left hlt, hc]
      have hnum := (List.getElem?_inj (List.getElem?_eq_some_iff.mp hcur).1 hnd).mp
        (hcur.trans h.symm)
      omega
    · rw [List.getElem?_append_left hlt]
      exact ⟨fun _ h => by omega, fun _ => hc⟩
  · rw [heq, List.getElem?_append_right (le_refl _)] at hc
    exact absurd (by simpa using congrArg (Option.map PartInfo.link) hc.symm) hne
  · rw [List.getElem?_append_right (by omega)] at hc
    obtain ⟨k, hk⟩ : ∃ k, num - s.length = k + 1 := ⟨num - s.length - 1, by omega⟩
    rw [hk, List.getElem?_cons_succ] at hc
    have hle : part.offset ≤ cur.offset :=
      ((List.pairwise_cons.mp hpts).1 cur (List.mem_of_getElem? hc)).1
    rw [if_pos hle, show (num + 255) % 2 ^ 8 = s.length + k by omega,
      List.getElem?_append_right (by omega), show s.length + k - s.length = k by omega]
    refine ⟨fun _ h => hpt ?_, fun _ => hc⟩
    have hd := h.2
    rw [List.drop_append, List.drop_eq_nil_of_le (by omega), List.nil_append,
      show num + 1 - s.length = k + 1 + 1 by omega, List.drop_succ_cons] at hd
    exact List.mem_of_mem_drop hd

end Sorted

section Generate

theorem copyPieces_eq : ∀ (maxlen : ℕ) (pieces : List (List UInt8)),
    copyPieces maxlen pieces =
      if pieces.flatten.length ≤ maxlen then some pieces.flatten else none
  | maxlen, [] => by simp [copyPieces]
  | maxlen, s :: pieces => by
    rw [copyPieces, copyPieces_eq (maxlen - s.length) pieces, List.flatten_cons, List.length_append]
    split_ifs
    · omega
    · rfl
    · rfl
    · omega
    · omega
    · rfl

theorem decimal_ne_nil (n : ℕ) : decimal n ≠ [] := by
  simp [decimal, Nat.toDigits_ne_nil]

theorem memsizeFormat_length_pos (size : ℕ) : 0 < (memsizeFormat size).length := by
  have h := fun n => List.length_pos_iff.mpr (decimal_ne_nil n)
  unfold memsizeFormat
  split_ifs
  · rw [List.length_append]
    exact Nat.add_pos_left (h _) _
  · rw [List.length_append]
    exact Nat.add_pos_left (h _) _
  · rw [List.length_append]
    exact Nat.add_pos_left (h _) _
  · exact h _

theorem partPieces_length (prev : Option PartInfo) (more : Bool) (part : PartInfo) :
    1 + (if more then 1 else 0) ≤ (partPieces prev more part).flatten.length := by
  have h := memsizeFormat_length_pos part.size
  have hm : (if more then 1 else 0) = (if more then [ascii ","] else []).flatten.length := by
    cases more <;> rfl
  unfold partPieces
  simp only [List.flatten_append, List.length_append, List.flatten_singleton]
  omega

variable (numParts : ℕ)

theorem partsPieces_length : ∀ (parts : List PartInfo) (prev : Option PartInfo) (cnt : ℕ),
    parts.length ≤ (partsPieces numParts prev cnt parts).flatten.length
  | [], _, _ => Nat.zero_le _
  | part :: parts, prev, cnt => by
    have h := partPieces_length prev (cnt + 1 < numParts) part
    have ih := partsPieces_length parts (some part) (cnt + 1)
    rw [partsPieces, List.flatten_append, List.length_append, List.length_cons]
    omega

theorem partsPieces_length_comma : ∀ (parts : List PartInfo) (prev : Option PartInfo) (cnt : ℕ),
    cnt + parts.length ≤ numParts →
      2 * parts.length ≤ (partsPieces numParts prev cnt parts).flatten.length + 1
  | [], _, _, _ => Nat.zero_le _
  | part :: parts, prev, cnt, hcnt => by
    rw [List.length_cons] at hcnt
    have h := partPieces_length prev (cnt + 1 < numParts) part
    have ih := partsPieces_length_comma parts (some part) (cnt + 1) (by omega)
    rw [partsPieces, List.flatten_append, List.length_append, List.length_cons]
    rcases parts with _ | ⟨q, parts⟩
    · simp only [List.length_nil]
      omega
    · simp only [List.length_cons] at hcnt ih ⊢
      rw [if_pos (by simp; omega)] at h
      omega

theorem devicesPieces_length {dev : MtdDevice} : ∀ {devices : List MtdDevice}, dev ∈ devices →
    (partsPieces dev.numParts none 0 dev.parts).flatten.length + 1 ≤
      (devicesPieces devices).flatten.length
  | d :: devices, h => by
    simp only [devicesPieces, List.flatten_append, List.flatten_cons, List.length_append]
    have hcolon : (ascii ":").length = 1 := rfl
    rcases List.mem_cons.mp h with rfl | h
    · omega
    · have ih := devicesPieces_length h
      omega

/-- A text that fits names fewer than 256 partitions on each device. -/
theorem generateMtdparts_few {devices : List MtdDevice} {buf : List UInt8} {dev : MtdDevice}
    (h : generateMtdparts MTDPARTS_MAXLEN devices = some buf) (hd : dev ∈ devices)
    (hn : dev.numParts = dev.parts.length % 2 ^ 16) : dev.parts.length < 2 ^ 8 := by
  have hmax : toU32 ((MTDPARTS_MAXLEN : ℕ) - 1) = 511 := by decide
  rw [generateMtdparts, if_neg (List.ne_nil_of_mem hd), copyPieces_eq, hmax] at h
  split_ifs at h with hfit
  · have hlen := devicesPieces_length hd
    have hone := partsPieces_length dev.numParts dev.parts none 0
    have htwo := partsPieces_length_comma dev.numParts dev.parts none 0 (by omega)
    omega
  · exact absurd h (by simp)

end Generate

end InfotmUboot
