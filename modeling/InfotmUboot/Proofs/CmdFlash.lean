import InfotmUboot.CmdFlash
import InfotmUboot.Proofs.NorFlash

/-!
# Which ranges of sectors are acted on

A range is planned bank by bank, and the plan is for the whole range as long as every bank starts
where the one before it ends. Where there is a hole behind a bank, what comes after it is only
looked at for the end of the range (`sectsRight_iff`).
-/

namespace InfotmUboot

open Lib

section Sectors

namespace FlashInfo

variable {b : FlashInfo} {a i j n f l : ℕ}

def InSector (b : FlashInfo) (i a : ℕ) : Prop :=
  i < b.sectorCount ∧ b.start i ≤ a ∧ a < b.sectorEnd i

theorem sectorEnd_inner (h : i + 1 < b.sectorCount) : b.sectorEnd i = b.start (i + 1) :=
  if_neg (by omega)

theorem sectorEnd_last (h : i + 1 = b.sectorCount) : b.sectorEnd i = b.start 0 + b.size := if_pos h

namespace Valid

variable (hb : b.Valid)

include hb

theorem sectorEnd_le_start : ∀ {j : ℕ}, i < j → j < b.sectorCount → b.sectorEnd i ≤ b.start j
  | j + 1, hij, hj => by
    rcases Nat.lt_succ_iff_lt_or_eq.1 hij with hlt | rfl
    · have hstep := hb.ordered j (by omega)
      rw [sectorEnd_inner hj] at hstep
      exact (sectorEnd_le_start hlt (by omega)).trans hstep.le
    · exact (sectorEnd_inner hj).le

theorem start_lt (hij : i < j) (hj : j < b.sectorCount) : b.start i < b.start j :=
  (hb.ordered i (hij.trans hj)).trans_le (hb.sectorEnd_le_start hij hj)

theorem start_inj (hi : i < b.sectorCount) (hj : j < b.sectorCount) (h : b.start i = b.start j) :
    i = j := by
  rcases lt_trichotomy i j with hlt | heq | hlt
  · exact absurd h (hb.start_lt hlt hj).ne
  · exact heq
  · exact absurd h (hb.start_lt hlt hi).ne'

theorem start_zero_le (hi : i < b.sectorCount) : b.start 0 ≤ b.start i := by
  rcases Nat.eq_zero_or_pos i with rfl | hpos
  · exact le_rfl
  · exact (hb.start_lt hpos hi).le

theorem sectorEnd_le (hi : i < b.sectorCount) : b.sectorEnd i ≤ b.start 0 + b.size := by
  rcases Nat.lt_or_ge (i + 1) b.sectorCount with hlt | hge
  · refine (hb.sectorEnd_le_start (show i < b.sectorCount - 1 by omega) (by omega)).trans ?_
    have hlast := hb.ordered (b.sectorCount - 1) (by omega)
    rw [sectorEnd_last (by omega)] at hlast
    exact hlast.le
  · exact (sectorEnd_last (by omega)).le

theorem bLast_succ : b.bLast + 1 = b.start 0 + b.size := by
  have := hb.size_pos
  have := hb.top
  unfold bLast u32
  omega

theorem sectLast_succ (hi : i < b.sectorCount) : b.sectLast i + 1 = b.sectorEnd i := by
  unfold sectLast
  split_ifs with hlast
  · rw [hb.bLast_succ, sectorEnd_last hlast]
  · have hend := hb.sectorEnd_le hi
    have hpos := hb.ordered i hi
    have := hb.top
    rw [sectorEnd_inner (by omega)] at hend hpos ⊢
    unfold u32
    omega

theorem inSector_unique (hi : b.InSector i a) (hj : b.InSector j a) : i = j := by
  obtain ⟨hic, hil, hiu⟩ := hi
  obtain ⟨hjc, hjl, hju⟩ := hj
  rcases lt_trichotomy i j with hlt | heq | hlt
  · have := hb.sectorEnd_le_start hlt hjc
    omega
  · exact heq
  · have := hb.sectorEnd_le_start hlt hic
    omega

omit hb in
theorem exists_inSector_of_lt : ∀ {k : ℕ}, k < b.sectorCount → b.start 0 ≤ a → a < b.sectorEnd k →
    ∃ i ≤ k, b.InSector i a
  | 0, hk, hlo, hhi => ⟨0, le_rfl, hk, hlo, hhi⟩
  | k + 1, hk, hlo, hhi => by
    by_cases hhere : b.start (k + 1) ≤ a
    · exact ⟨k + 1, le_rfl, hk, hhere, hhi⟩
    · have hbefore : a < b.sectorEnd k := by
        rw [sectorEnd_inner hk]
        omega
      obtain ⟨i, hik, hi⟩ := exists_inSector_of_lt (by omega) hlo hbefore
      exact ⟨i, by omega, hi⟩

theorem holds_iff (hknown : b.known = true) : b.Holds a ↔ ∃ i, b.InSector i a := by
  constructor
  · rintro ⟨-, hlo, hhi⟩
    have hsect := hb.sectors
    obtain ⟨i, -, hi⟩ := exists_inSector_of_lt (k := b.sectorCount - 1) (by omega) hlo
      (by rw [sectorEnd_last (by omega)]; exact hhi)
    exact ⟨i, hi⟩
  · rintro ⟨i, hi, hlo, hhi⟩
    exact ⟨hknown, (hb.start_zero_le hi).trans hlo, hhi.trans_le (hb.sectorEnd_le hi)⟩

theorem sectorEnd_mono (hij : i ≤ j) (hj : j < b.sectorCount) : b.sectorEnd i ≤ b.sectorEnd j := by
  rcases Nat.lt_or_eq_of_le hij with hlt | rfl
  · exact (hb.sectorEnd_le_start hlt hj).trans (hb.ordered j hj).le
  · exact le_rfl

/-- The sectors from one to another hold the addresses from the first to the last of them. -/
theorem inSectors_iff (hij : i ≤ j) (hj : j < b.sectorCount) :
    (∃ k, i ≤ k ∧ k ≤ j ∧ b.InSector k a) ↔ b.start i ≤ a ∧ a < b.sectorEnd j := by
  constructor
  · rintro ⟨k, hik, hkj, hk, hlo, hhi⟩
    refine ⟨?_, hhi.trans_le (hb.sectorEnd_mono hkj hj)⟩
    rcases Nat.lt_or_eq_of_le hik with hlt | rfl
    · exact (hb.start_lt hlt hk).le.trans hlo
    · exact hlo
  · rintro ⟨hlo, hhi⟩
    obtain ⟨k, hkj, hk⟩ := exists_inSector_of_lt hj
      ((hb.start_zero_le (hij.trans_lt hj)).trans hlo) hhi
    refine ⟨k, not_lt.1 fun hki => ?_, hkj, hk⟩
    have := hb.sectorEnd_le_start hki (hij.trans_lt hj)
    obtain ⟨-, -, hku⟩ := hk
    omega

theorem fillSects_first (hfl : f ≤ l) : ∀ {n : ℕ}, n ≤ b.sectorCount → ∀ i,
    (b.fillSects f l n).1 = some i ↔ i < n ∧ b.start i = f
  | 0, _, i => by simp [fillSects]
  | sect + 1, hn, i => by
    have ih := fillSects_first hfl (show sect ≤ b.sectorCount by omega) i
    have hlast := hb.sectLast_succ (show sect < b.sectorCount by omega)
    have hstart := hb.ordered sect (by omega)
    have hkeep : b.start sect ≠ f → ((b.fillSects f l sect).1 = some i ↔
        i < sect + 1 ∧ b.start i = f) := fun hne => by
      rw [ih]
      constructor
      · exact fun h => ⟨by omega, h.2⟩
      · rintro ⟨hi, rfl⟩
        exact ⟨(Nat.lt_succ_iff_lt_or_eq.1 hi).resolve_right fun h => hne (h ▸ rfl), rfl⟩
    by_cases hf : f = b.start sect
    · rw [fillSects, if_neg (show ¬b.sectLast sect < f by omega),
        if_neg (show ¬l < b.start sect by omega)]
      simp only [if_pos hf, Option.some.injEq]
      constructor
      · rintro rfl
        exact ⟨Nat.lt_succ_self _, hf.symm⟩
      · rintro ⟨hi, hs⟩
        exact hb.start_inj (by omega) (by omega) (hf.symm.trans hs.symm)
    · rw [← hkeep fun h => hf h.symm, fillSects]
      simp only [if_neg hf, apply_ite Prod.fst, ite_self]

theorem fillSects_last (hfl : f ≤ l) : ∀ {n : ℕ}, n ≤ b.sectorCount → ∀ i,
    (b.fillSects f l n).2 = some i ↔ i < n ∧ b.sectorEnd i = l + 1
  | 0, _, i => by simp [fillSects]
  | sect + 1, hn, i => by
    have ih := fillSects_last hfl (show sect ≤ b.sectorCount by omega) i
    have hlast := hb.sectLast_succ (show sect < b.sectorCount by omega)
    have hstart := hb.ordered sect (by omega)
    have hkeep : b.sectorEnd sect ≠ l + 1 → ((b.fillSects f l sect).2 = some i ↔
        i < sect + 1 ∧ b.sectorEnd i = l + 1) := fun hne => by
      rw [ih]
      constructor
      · exact fun h => ⟨by omega, h.2⟩
      · rintro ⟨hi, hs⟩
        exact ⟨(Nat.lt_succ_iff_lt_or_eq.1 hi).resolve_right fun h => hne (h ▸ hs), hs⟩
    by_cases hl : l = b.sectLast sect
    · rw [fillSects, if_neg (show ¬b.sectLast sect < f by omega),
        if_neg (show ¬l < b.start sect by omega)]
      simp only [if_pos hl, Option.some.injEq]
      constructor
      · rintro rfl
        exact ⟨Nat.lt_succ_self _, by omega⟩
      · rintro ⟨hi, hs⟩
        rcases Nat.lt_succ_iff_lt_or_eq.1 hi with hlt | heq
        · have := hb.sectorEnd_le_start hlt (show sect < b.sectorCount by omega)
          omega
        · exact heq.symm
    · rw [← hkeep (by omega), fillSects]
      simp only [if_neg hl, apply_ite Prod.snd, ite_self]

end Valid

end FlashInfo

end Sectors

section Plan

/-- The address is the first one of a sector. -/
def SectStart (infos : List FlashInfo) (a : ℕ) : Prop :=
  ∃ b ∈ infos, b.known = true ∧ ∃ i < b.sectorCount, b.start i = a

/-- The address is the last one of a sector. -/
def SectStop (infos : List FlashInfo) (a : ℕ) : Prop :=
  ∃ b ∈ infos, b.known = true ∧ ∃ i < b.sectorCount, b.sectorEnd i = a + 1

/-- Every address of the range is in a bank. -/
def Held (infos : List FlashInfo) (f l : ℕ) : Prop :=
  ∀ a, f ≤ a → a ≤ l → ∃ b ∈ infos, b.Holds a

/-- The address is in a sector of the ranges. -/
def Planned (infos : List FlashInfo) (ranges : List (Option ℕ × Option ℕ)) (a : ℕ) : Prop :=
  ∃ x ∈ infos.zip ranges, ∃ sFirst sLast i, x.2 = (some sFirst, some sLast) ∧ sFirst ≤ i ∧ i ≤ sLast
    ∧ x.1.InSector i a

/-- Banks with one after the other in the addresses. -/
structure Ordered (infos : List FlashInfo) : Prop where
  valid : ∀ b ∈ infos, b.known = true → b.Valid
  order : infos.Pairwise fun b c =>
    b.known = true → c.known = true → b.start 0 + b.size ≤ c.start 0

variable {b : FlashInfo} {infos : List FlashInfo} {ranges : List (Option ℕ × Option ℕ)}
  {f l a : ℕ}

theorem Ordered.tail (h : Ordered (b :: infos)) : Ordered infos :=
  ⟨fun c hc => h.valid c (List.mem_cons_of_mem _ hc), (List.pairwise_cons.1 h.order).2⟩

theorem Ordered.head_le (h : Ordered (b :: infos)) (hb : b.known = true) {c : FlashInfo}
    (hc : c ∈ infos) (hknown : c.known = true) : b.start 0 + b.size ≤ c.start 0 :=
  (List.pairwise_cons.1 h.order).1 c hc hb hknown

theorem sectStart_cons : SectStart (b :: infos) a ↔
    (b.known = true ∧ ∃ i < b.sectorCount, b.start i = a) ∨ SectStart infos a := by
  simp only [SectStart, List.mem_cons, or_and_right, exists_or, exists_eq_left]

theorem sectStop_cons : SectStop (b :: infos) a ↔
    (b.known = true ∧ ∃ i < b.sectorCount, b.sectorEnd i = a + 1) ∨ SectStop infos a := by
  simp only [SectStop, List.mem_cons, or_and_right, exists_or, exists_eq_left]

theorem planned_cons {r : Option ℕ × Option ℕ} : Planned (b :: infos) (r :: ranges) a ↔
    (∃ sFirst sLast i, r = (some sFirst, some sLast) ∧ sFirst ≤ i ∧ i ≤ sLast ∧ b.InSector i a)
      ∨ Planned infos ranges a := by
  simp only [Planned, List.zip_cons_cons, List.mem_cons, or_and_right, exists_or, exists_eq_left]

/-- A plan for nothing. -/
def SectPlan.blank (infos : List FlashInfo) : SectPlan := ⟨0, infos.map fun _ => (none, none), 0⟩

theorem planned_blank : ∀ (infos : List FlashInfo),
    ¬Planned infos (SectPlan.blank infos).ranges a
  | [], ⟨_, hx, _⟩ => by simp at hx
  | b :: infos, h => by
    rw [SectPlan.blank, List.map_cons, planned_cons] at h
    rcases h with ⟨_, _, _, heq, _⟩ | h
    · simp at heq
    · exact planned_blank infos h

theorem fill_past (hlf : l < f) : ∀ (infos : List FlashInfo),
    fillSectRanges infos f l = SectPlan.blank infos
  | [] => rfl
  | b :: infos => by
    rw [fillSectRanges, if_pos (by omega), fill_past hlf infos]
    rfl

theorem fill_unknown : ∀ (infos : List FlashInfo), (∀ b ∈ infos, b.known = false) →
    fillSectRanges infos f l = SectPlan.blank infos
  | [], _ => rfl
  | b :: infos, h => by
    have ih := fill_unknown infos fun c hc => h c (List.mem_cons_of_mem _ hc)
    rw [fillSectRanges, if_pos (h b List.mem_cons_self), ite_self, ih]
    rfl

theorem fill_cons_unknown (hb : b.known = false) :
    fillSectRanges (b :: infos) f l = (fillSectRanges infos f l).next (none, none) 0 := by
  rw [fillSectRanges, if_pos hb, ite_self]

variable (hb : b.Valid) (hfl : f ≤ l)

include hb hfl

theorem fillSects_none (hstart : ∀ i < b.sectorCount, b.start i ≠ f) :
    (b.fillSects f l b.sectorCount).1 = none := by
  rcases h : (b.fillSects f l b.sectorCount).1 with _ | i
  · rfl
  · obtain ⟨hi, hs⟩ := (hb.fillSects_first hfl le_rfl i).1 h
    exact absurd hs (hstart i hi)

theorem fillSects_stop_none (hstop : ∀ i < b.sectorCount, b.sectorEnd i ≠ l + 1) :
    (b.fillSects f l b.sectorCount).2 = none := by
  rcases h : (b.fillSects f l b.sectorCount).2 with _ | i
  · rfl
  · obtain ⟨hi, hs⟩ := (hb.fillSects_last hfl le_rfl i).1 h
    exact absurd hs (hstop i hi)

variable (hknown : b.known = true)

include hknown

/-- The range starts in no sector of the bank. -/
theorem fill_cons_else (hstart : ∀ i < b.sectorCount, b.start i ≠ f) :
    fillSectRanges (b :: infos) f l =
      if b.start 0 ≤ f ∧ f < b.bLast then
        SectPlan.stop (none, (b.fillSects f l b.sectorCount).2) infos
      else if (b.fillSects f l b.sectorCount).2.isSome then
        SectPlan.stop (none, (b.fillSects f l b.sectorCount).2) infos
      else (fillSectRanges infos f l).next (none, none) 0 := by
  have hnone := fillSects_none hb hfl hstart
  rw [fillSectRanges, if_neg (not_not.2 hfl), if_neg (by simp [hknown])]
  generalize b.fillSects f l b.sectorCount = found at hnone ⊢
  obtain ⟨sFirst, sLast⟩ := found
  obtain rfl : sFirst = none := hnone
  rfl

/-- The range starts with the sector `i` of the bank, and ends between two sectors of it. -/
theorem fill_cons_stop {i : ℕ} (hi : i < b.sectorCount) (hstart : b.start i = f)
    (hlast : (b.fillSects f l b.sectorCount).2 = none) (hl : l ≤ b.bLast) :
    fillSectRanges (b :: infos) f l = SectPlan.stop (some i, none) infos := by
  have hsome := (hb.fillSects_first hfl le_rfl i).2 ⟨hi, hstart⟩
  rw [fillSectRanges, if_neg (not_not.2 hfl), if_neg (by simp [hknown]), if_neg (not_lt.2 hl)]
  generalize b.fillSects f l b.sectorCount = found at hsome hlast ⊢
  obtain ⟨sFirst, sLast⟩ := found
  obtain rfl : sFirst = some i := hsome
  obtain rfl : sLast = none := hlast
  rfl

/-- The range starts with the sector `i` of the bank, and goes on to the sector `s` of it. -/
theorem fill_cons_next {i s : ℕ} (hi : i < b.sectorCount) (hstart : b.start i = f)
    (hlast : (b.fillSects f l b.sectorCount).2.or
      (if b.bLast < l then some (b.sectorCount - 1) else none) = some s) (his : i ≤ s) :
    fillSectRanges (b :: infos) f l =
      (fillSectRanges infos (if s + 1 = b.sectorCount then u32 (b.bLast + 1)
        else b.start (s + 1)) l).next (some i, some s) (s - i + 1) := by
  have hsome := (hb.fillSects_first hfl le_rfl i).2 ⟨hi, hstart⟩
  rw [fillSectRanges, if_neg (not_not.2 hfl), if_neg (by simp [hknown])]
  generalize (if b.bLast < l then some (b.sectorCount - 1) else none) = more at hlast ⊢
  generalize b.fillSects f l b.sectorCount = found at hsome hlast ⊢
  obtain ⟨sFirst, sLast⟩ := found
  obtain rfl : sFirst = some i := hsome
  simp only at hlast ⊢
  rw [hlast]
  exact if_neg (not_lt.2 his)

end Plan

section Filled

variable {f l : ℕ}

/-- A range that starts with no sector is not planned. -/
theorem fill_not_start (hfl : f ≤ l) : ∀ (infos : List FlashInfo), Ordered infos →
    ¬SectStart infos f →
    (fillSectRanges infos f l).rcode ≠ 0 ∨ (fillSectRanges infos f l).count = 0
  | [], _, _ => .inr rfl
  | b :: infos, h, hstart => by
    rw [sectStart_cons, not_or] at hstart
    have ih := fill_not_start hfl infos h.tail hstart.2
    have hnext : ((fillSectRanges infos f l).next (none, none) 0).rcode ≠ 0
        ∨ ((fillSectRanges infos f l).next (none, none) 0).count = 0 :=
      ih.imp_right (Nat.zero_add _).trans
    rcases hknown : b.known with _ | _
    · rw [fill_cons_unknown hknown]
      exact hnext
    · have hb := h.valid b List.mem_cons_self hknown
      rw [fill_cons_else hb hfl hknown fun i hi hs => hstart.1 ⟨hknown, i, hi, hs⟩]
      split_ifs
      · exact .inl Nat.one_ne_zero
      · exact .inl Nat.one_ne_zero
      · exact hnext

/-- Behind a hole, only the end of the range is looked for. -/
theorem fill_gap (hfl : f ≤ l) : ∀ (infos : List FlashInfo), Ordered infos →
    (∀ b ∈ infos, b.known = true → f < b.start 0) →
    (fillSectRanges infos f l).count = 0
      ∧ ((fillSectRanges infos f l).rcode = 0 ↔ ¬SectStop infos l)
  | [], _, _ => ⟨rfl, by simp [fillSectRanges, SectStop]⟩
  | b :: infos, h, hgap => by
    obtain ⟨hcount, hcode⟩ := fill_gap hfl infos h.tail fun c hc =>
      hgap c (List.mem_cons_of_mem _ hc)
    have hnext : ((fillSectRanges infos f l).next (none, none) 0).count = 0 :=
      (Nat.zero_add _).trans hcount
    rcases hknown : b.known with _ | _
    · rw [fill_cons_unknown hknown, sectStop_cons, hknown]
      exact ⟨hnext, hcode.trans (by simp)⟩
    · have hb := h.valid b List.mem_cons_self hknown
      have hbefore := hgap b List.mem_cons_self hknown
      rw [fill_cons_else hb hfl hknown fun i hi => by have := hb.start_zero_le hi; omega,
        if_neg (by omega), sectStop_cons]
      rcases hlast : (b.fillSects f l b.sectorCount).2 with _ | i
      · refine ⟨hnext, hcode.trans (not_congr ⟨.inr, fun hor => hor.resolve_left ?_⟩)⟩
        rintro ⟨-, i, hi⟩
        rw [← hb.fillSects_last hfl le_rfl, hlast] at hi
        simp at hi
      · have hi := (hb.fillSects_last hfl le_rfl i).1 hlast
        exact ⟨rfl, by simp [SectPlan.stop], fun hnot => absurd (.inl ⟨hknown, i, hi⟩) hnot⟩

/-- The plan of a range that starts with a sector. -/
structure RangeFilled (infos : List FlashInfo) (f l : ℕ) : Prop where
  rcode : (fillSectRanges infos f l).rcode = 0 ↔ (SectStop infos l ↔ Held infos f l)
  count : (fillSectRanges infos f l).rcode = 0 → (fillSectRanges infos f l).count ≠ 0
  exact : (fillSectRanges infos f l).rcode = 0 → Held infos f l →
    ∀ a, (f ≤ a ∧ a ≤ l) ↔ Planned infos (fillSectRanges infos f l).ranges a

/-- A bank that is passed over. -/
theorem RangeFilled.skip {b : FlashInfo} {infos : List FlashInfo} (h : RangeFilled infos f l)
    (hfill : fillSectRanges (b :: infos) f l = (fillSectRanges infos f l).next (none, none) 0)
    (hstop : ¬(b.known = true ∧ ∃ i < b.sectorCount, b.sectorEnd i = l + 1))
    (hheld : ∀ a, f ≤ a → ¬b.Holds a) : RangeFilled (b :: infos) f l := by
  have hheld' : Held (b :: infos) f l ↔ Held infos f l := by
    refine forall_congr' fun a => forall₂_congr fun hfa _ => ?_
    rw [List.exists_mem_cons_iff, or_iff_right (hheld a hfa)]
  have hstop' : SectStop (b :: infos) l ↔ SectStop infos l := by
    rw [sectStop_cons, or_iff_right hstop]
  refine ⟨?_, fun h0 => ?_, fun h0 hall a => ?_⟩
  · rw [hfill, hstop', hheld']
    exact h.rcode
  · rw [hfill] at h0 ⊢
    exact (Nat.zero_add _).trans_ne (h.count h0)
  · rw [hfill] at h0 ⊢
    rw [h.exact h0 (hheld'.1 hall) a, SectPlan.next, planned_cons, or_iff_right]
    rintro ⟨_, _, _, heq, _⟩
    simp at heq

variable {b : FlashInfo} {infos : List FlashInfo}

section Start

variable {i : ℕ} (h : Ordered (b :: infos)) (hknown : b.known = true) (hi : i < b.sectorCount)
  (hstart : b.start i = f) (hfl : f ≤ l)

include h hknown

theorem Ordered.stop_le {c : FlashInfo} (hc : c ∈ infos) {i : ℕ} (hi : i < c.sectorCount)
    (hck : c.known = true) : b.bLast + 1 < c.sectorEnd i := by
  have hb := h.valid b List.mem_cons_self hknown
  have hcv := h.valid c (List.mem_cons_of_mem _ hc) hck
  have hle := h.head_le hknown hc hck
  have := hcv.start_zero_le hi
  have := hcv.ordered i hi
  have := hb.bLast_succ
  omega

/-- A range that ends in the bank has its end there or nowhere. -/
theorem sectStop_head (hl : l ≤ b.bLast) :
    SectStop (b :: infos) l ↔ ∃ i < b.sectorCount, b.sectorEnd i = l + 1 := by
  rw [sectStop_cons, or_iff_left, and_iff_right hknown]
  rintro ⟨c, hc, hck, j, hj, heq⟩
  have := h.stop_le hknown hc hj hck
  omega

include hi hstart

theorem held_head (hl : l ≤ b.bLast) : Held (b :: infos) f l := fun a hfa hal =>
  ⟨b, List.mem_cons_self, hknown, by
    have hb := h.valid b List.mem_cons_self hknown
    have := hb.start_zero_le hi
    have := hb.bLast_succ
    omega⟩

include hfl

/-- The range ends in the bank where it starts. -/
theorem filled_within (hl : l ≤ b.bLast) : RangeFilled (b :: infos) f l := by
  have hb := h.valid b List.mem_cons_self hknown
  have hheld := held_head h hknown hi hstart hl
  have hstop := sectStop_head h hknown hl
  rcases hlast : (b.fillSects f l b.sectorCount).2 with _ | s
  · have hno : ¬SectStop (b :: infos) l := fun hs => by
      obtain ⟨j, hj⟩ := hstop.1 hs
      rw [← hb.fillSects_last hfl le_rfl, hlast] at hj
      simp at hj
    have hone : (fillSectRanges (b :: infos) f l).rcode ≠ 0 := by
      rw [fill_cons_stop hb hfl hknown hi hstart hlast hl]
      exact Nat.one_ne_zero
    exact ⟨iff_of_false hone fun hiff => hno (hiff.2 hheld), fun h0 => absurd h0 hone,
      fun h0 => absurd h0 hone⟩
  · obtain ⟨hs, hend⟩ := (hb.fillSects_last hfl le_rfl s).1 hlast
    have his : i ≤ s := not_lt.1 fun hsi => by
      have := hb.sectorEnd_le_start hsi hi
      omega
    have hrest : fillSectRanges infos (if s + 1 = b.sectorCount then u32 (b.bLast + 1)
        else b.start (s + 1)) l = SectPlan.blank infos := by
      have htop := hb.top
      have hsucc := hb.bLast_succ
      split_ifs with hs'
      · rw [FlashInfo.sectorEnd_last hs'] at hend
        by_cases hwrap : b.bLast + 1 < 2 ^ 32
        · exact fill_past (by rw [u32_of_lt hwrap]; omega) infos
        · refine fill_unknown infos fun c hc => Bool.eq_false_iff.2 fun hck => ?_
          have := h.head_le hknown hc hck
          have hcv := h.valid c (List.mem_cons_of_mem _ hc) hck
          have := hcv.top
          have := hcv.size_pos
          omega
      · rw [FlashInfo.sectorEnd_inner (by omega)] at hend
        exact fill_past (by omega) infos
    have hfill : fillSectRanges (b :: infos) f l = _ := fill_cons_next hb hfl hknown hi hstart
      (by rw [hlast, Option.some_or]) his
    rw [hrest] at hfill
    have hplan : ∀ a, (f ≤ a ∧ a ≤ l) ↔
        Planned (b :: infos) (fillSectRanges (b :: infos) f l).ranges a := fun a => by
      have hhead := hb.inSectors_iff (a := a) his hs
      rw [hend, Nat.lt_succ_iff, hstart] at hhead
      rw [hfill, SectPlan.next, planned_cons, or_iff_left (planned_blank infos), ← hhead]
      simp [and_assoc]
    refine ⟨iff_of_true (by rw [hfill]; rfl) (iff_of_true (hstop.2 ⟨s, hs, hend⟩) hheld),
      fun _ => by rw [hfill]; exact Nat.succ_ne_zero _, fun _ _ => hplan⟩

/-- The range goes on behind the bank where it starts. -/
theorem filled_beyond (hl : b.bLast < l) (hl32 : l < 2 ^ 32)
    (ih : SectStart infos (b.bLast + 1) → RangeFilled infos (b.bLast + 1) l) :
    RangeFilled (b :: infos) f l := by
  have hb := h.valid b List.mem_cons_self hknown
  have hsect := hb.sectors
  have hsucc := hb.bLast_succ
  have hnone : (b.fillSects f l b.sectorCount).2 = none :=
    fillSects_stop_none hb hfl fun j hj => by have := hb.sectorEnd_le hj; omega
  have hfill : fillSectRanges (b :: infos) f l = _ :=
    fill_cons_next (s := b.sectorCount - 1) hb hfl hknown hi hstart
      (by rw [hnone, if_pos hl, Option.none_or]) (by omega)
  rw [if_pos (by omega), u32_of_lt (show b.bLast + 1 < 2 ^ 32 by omega)] at hfill
  have hstop : SectStop (b :: infos) l ↔ SectStop infos l := by
    rw [sectStop_cons, or_iff_right]
    rintro ⟨-, j, hj, heq⟩
    have := hb.sectorEnd_le hj
    omega
  have hheld : Held (b :: infos) f l ↔ Held infos (b.bLast + 1) l := by
    have hlo := hb.start_zero_le hi
    have hhi := (hb.ordered i hi).trans_le (hb.sectorEnd_le hi)
    constructor
    · intro hall a ha hal
      obtain ⟨c, hc, hh⟩ := hall a (by omega) hal
      rcases List.mem_cons.1 hc with rfl | hc
      · obtain ⟨-, -, hlt⟩ := hh
        omega
      · exact ⟨c, hc, hh⟩
    · intro hall a ha hal
      by_cases hin : a ≤ b.bLast
      · exact ⟨b, List.mem_cons_self, hknown, by omega, by omega⟩
      · obtain ⟨c, hc, hh⟩ := hall a (by omega) hal
        exact ⟨c, List.mem_cons_of_mem _ hc, hh⟩
  by_cases hnext : SectStart infos (b.bLast + 1)
  · obtain ⟨hcode, hcount, hexact⟩ := ih hnext
    refine ⟨?_, fun _ => ?_, fun h0 hall a => ?_⟩
    · rw [hfill, hstop, hheld]
      exact hcode
    · rw [hfill, SectPlan.next]
      simp only
      omega
    · rw [hfill] at h0 ⊢
      have hhead := hb.inSectors_iff (a := a) (show i ≤ b.sectorCount - 1 by omega) (by omega)
      rw [FlashInfo.sectorEnd_last (by omega)] at hhead
      rw [SectPlan.next, planned_cons, ← hexact h0 (hheld.1 hall) a]
      have hcases : (f ≤ a ∧ a ≤ l) ↔
          (b.start i ≤ a ∧ a < b.start 0 + b.size) ∨ (b.bLast + 1 ≤ a ∧ a ≤ l) := by
        have := (hb.ordered i hi).trans_le (hb.sectorEnd_le hi)
        omega
      rw [hcases, ← hhead]
      simp [and_assoc]
  · have hgap : ∀ c ∈ infos, c.known = true → b.bLast + 1 < c.start 0 := fun c hc hck => by
      have hle := h.head_le hknown hc hck
      have hcv := h.valid c (List.mem_cons_of_mem _ hc) hck
      rw [← hsucc] at hle
      rcases Nat.lt_or_eq_of_le hle with hlt | heq
      · exact hlt
      · exact absurd ⟨c, hc, hck, 0, hcv.sectors, heq.symm⟩ hnext
    obtain ⟨hcount, hcode⟩ := fill_gap (show b.bLast + 1 ≤ l by omega) infos h.tail hgap
    have hhole : ¬Held (b :: infos) f l := fun hall => by
      obtain ⟨c, hc, hck, hlo, -⟩ := hheld.1 hall _ le_rfl (by omega)
      have := hgap c hc hck
      omega
    refine ⟨?_, fun _ => ?_, fun _ hall => absurd hall hhole⟩
    · rw [hfill, hstop, iff_false_right hhole]
      exact hcode
    · rw [hfill, SectPlan.next]
      simp only
      omega

end Start

theorem rangeFilled : ∀ (infos : List FlashInfo) {f : ℕ}, Ordered infos → f ≤ l → l < 2 ^ 32 →
    SectStart infos f → RangeFilled infos f l
  | [], _, _, _, _, ⟨_, hmem, _⟩ => absurd hmem List.not_mem_nil
  | b :: infos, f, h, hfl, hl32, hstart => by
    rcases hknown : b.known with _ | _
    · rw [sectStart_cons, or_iff_right (by simp [hknown])] at hstart
      exact (rangeFilled infos h.tail hfl hl32 hstart).skip (fill_cons_unknown hknown)
        (by simp [hknown]) fun a _ hh => by simp [FlashInfo.Holds, hknown] at hh
    · have hb := h.valid b List.mem_cons_self hknown
      have hsucc := hb.bLast_succ
      by_cases hhere : ∃ i < b.sectorCount, b.start i = f
      · obtain ⟨i, hi, hs⟩ := hhere
        rcases Nat.lt_or_ge b.bLast l with hl | hl
        · exact filled_beyond h hknown hi hs hfl hl hl32 fun hnext =>
            rangeFilled infos h.tail (by omega) hl32 hnext
        · exact filled_within h hknown hi hs hfl hl
      · rw [sectStart_cons, or_iff_right fun hor => hhere hor.2] at hstart
        have hbefore : b.bLast < f := by
          obtain ⟨c, hc, hck, j, hj, rfl⟩ := hstart
          have := h.head_le hknown hc hck
          have := (h.valid c (List.mem_cons_of_mem _ hc) hck).start_zero_le hj
          omega
        have hnone : (b.fillSects f l b.sectorCount).2 = none :=
          fillSects_stop_none hb hfl fun j hj => by have := hb.sectorEnd_le hj; omega
        refine (rangeFilled infos h.tail hfl hl32 hstart).skip ?_ ?_ fun a ha hh => ?_
        · rw [fill_cons_else hb hfl hknown fun i hi hs => hhere ⟨i, hi, hs⟩, if_neg (by omega),
            if_neg (by simp [hnone])]
        · rintro ⟨-, j, hj, heq⟩
          have := hb.sectorEnd_le hj
          omega
        · obtain ⟨-, -, hlt⟩ := hh
          omega

/-- With no error, a range has both of its ends, and its bank is known. -/
def RangesClosed : List FlashInfo → List (Option ℕ × Option ℕ) → Prop :=
  List.Forall₂ fun b r => ∀ s, r.1 = some s → b.known = true ∧ ∃ t, r.2 = some t

theorem RangesClosed.getElem {s : ℕ} {t : Option ℕ} :
    ∀ {infos : List FlashInfo} {ranges : List (Option ℕ × Option ℕ)} {j : ℕ},
      RangesClosed infos ranges → ranges[j]? = some (some s, t) →
        ∃ b, infos[j]? = some b ∧ b.known = true ∧ ∃ u, t = some u
  | _, _, _, .nil, hj => by simp at hj
  | b :: _, _, 0, .cons hr _, hj => by
    obtain rfl := Option.some.inj hj
    exact ⟨b, rfl, hr s rfl⟩
  | _, _ :: ranges, j + 1, .cons _ h, hj =>
    RangesClosed.getElem (j := j) (show RangesClosed _ ranges from h) hj

/-- What the loop can do at a bank. -/
theorem fill_step (b : FlashInfo) (infos : List FlashInfo) (f l : ℕ) :
    (∃ r, fillSectRanges (b :: infos) f l = SectPlan.stop r infos)
      ∨ fillSectRanges (b :: infos) f l = (fillSectRanges infos f l).next (none, none) 0
      ∨ b.known = true ∧ ∃ s t f', fillSectRanges (b :: infos) f l
        = (fillSectRanges infos f' l).next (some s, some t) (t - s + 1) := by
  rw [fillSectRanges]
  by_cases hpast : ¬f ≤ l
  · rw [if_pos hpast]
    exact .inr (.inl rfl)
  rw [if_neg hpast]
  by_cases hknown : b.known = false
  · rw [if_pos hknown]
    exact .inr (.inl rfl)
  rw [if_neg hknown]
  generalize (if b.bLast < l then some (b.sectorCount - 1) else none) = more
  generalize b.fillSects f l b.sectorCount = found
  obtain ⟨_ | s, last⟩ := found
  · by_cases hin : b.start 0 ≤ f ∧ f < b.bLast
    · exact .inl ⟨_, if_pos hin⟩
    · by_cases hlast : last.isSome = true
      · exact .inl ⟨_, (if_neg hin).trans (if_pos hlast)⟩
      · exact .inr (.inl ((if_neg hin).trans (if_neg hlast)))
  · generalize hor : last.or more = o
    obtain _ | t := o
    · exact .inl ⟨(some s, none), by simp only [hor]⟩
    · by_cases hts : t < s
      · exact .inl ⟨(some s, some t), by simp only [hor]; exact if_pos hts⟩
      · exact .inr (.inr ⟨by simpa using hknown, s, t, _, by simp only [hor]; exact if_neg hts⟩)

theorem fill_closed : ∀ (infos : List FlashInfo) (f : ℕ), (fillSectRanges infos f l).rcode = 0 →
    RangesClosed infos (fillSectRanges infos f l).ranges
  | [], _, _ => .nil
  | b :: infos, f, h0 => by
    obtain ⟨r, heq⟩ | heq | ⟨hknown, s, t, f', heq⟩ := fill_step b infos f l
    · rw [heq] at h0
      exact absurd h0 Nat.one_ne_zero
    · rw [heq] at h0 ⊢
      exact .cons (fun s hs => by simp at hs) (fill_closed infos f h0)
    · rw [heq] at h0 ⊢
      exact .cons (fun _ _ => ⟨hknown, t, rfl⟩) (fill_closed infos f' h0)

end Filled

section Union

variable {infos : List FlashInfo} {f l a : ℕ}

/-- The range is made up of whole sectors. -/
def SectorUnion (infos : List FlashInfo) (f l : ℕ) : Prop :=
  ∀ a, f ≤ a → a ≤ l → ∃ b ∈ infos, b.known = true
    ∧ ∃ i, b.InSector i a ∧ f ≤ b.start i ∧ b.sectorEnd i ≤ l + 1

theorem Ordered.holds_unique {b c : FlashInfo} (hba : b.Holds a) (hca : c.Holds a) :
    ∀ {infos : List FlashInfo}, Ordered infos → b ∈ infos → c ∈ infos → b = c
  | x :: infos, h, hb, hc => by
    obtain ⟨hbk, hbl, hbu⟩ := hba
    obtain ⟨hck, hcl, hcu⟩ := hca
    rcases List.mem_cons.1 hb with rfl | hb' <;> rcases List.mem_cons.1 hc with rfl | hc'
    · rfl
    · have := h.head_le hbk hc' hck
      omega
    · have := h.head_le hck hb' hbk
      omega
    · exact holds_unique ⟨hbk, hbl, hbu⟩ ⟨hck, hcl, hcu⟩ h.tail hb' hc'

theorem sectorUnion_iff (h : Ordered infos) (hfl : f ≤ l) :
    SectorUnion infos f l ↔ SectStart infos f ∧ SectStop infos l ∧ Held infos f l := by
  constructor
  · intro hunion
    refine ⟨?_, ?_, fun a hfa hal => ?_⟩
    · obtain ⟨b, hb, hk, i, ⟨hi, hlo, -⟩, hfs, -⟩ := hunion f le_rfl hfl
      exact ⟨b, hb, hk, i, hi, by omega⟩
    · obtain ⟨b, hb, hk, i, ⟨hi, -, hhi⟩, -, hend⟩ := hunion l hfl le_rfl
      exact ⟨b, hb, hk, i, hi, by omega⟩
    · obtain ⟨b, hb, hk, i, hi, -⟩ := hunion a hfa hal
      exact ⟨b, hb, ((h.valid b hb hk).holds_iff hk).2 ⟨i, hi⟩⟩
  · rintro ⟨⟨s, hs, hsk, m, hm, hstart⟩, ⟨t, ht, htk, n, hn, hend⟩, hheld⟩ a hfa hal
    obtain ⟨b, hb, hh⟩ := hheld a hfa hal
    have hk := hh.1
    have hv := h.valid b hb hk
    obtain ⟨i, hi⟩ := (hv.holds_iff hk).1 hh
    have hsin : s.InSector m f := ⟨hm, hstart.le, hstart ▸ (h.valid s hs hsk).ordered m hm⟩
    have htin : t.InSector n l :=
      ⟨hn, Nat.le_of_lt_succ (((h.valid t ht htk).ordered n hn).trans_eq hend), by omega⟩
    refine ⟨b, hb, hk, i, hi, not_lt.1 fun hlt => ?_, not_lt.1 fun hlt => ?_⟩
    · -- the first address is in the same sector, so the sector starts there
      have hin : b.InSector i f := ⟨hi.1, hlt.le, hfa.trans_lt hi.2.2⟩
      obtain rfl := Ordered.holds_unique ((hv.holds_iff hk).2 ⟨i, hin⟩)
        (((h.valid s hs hsk).holds_iff hsk).2 ⟨m, hsin⟩) h hb hs
      obtain rfl := hv.inSector_unique hin hsin
      omega
    · have hin : b.InSector i l := ⟨hi.1, hi.2.1.trans hal, by omega⟩
      obtain rfl := Ordered.holds_unique ((hv.holds_iff hk).2 ⟨i, hin⟩)
        (((h.valid t ht htk).holds_iff htk).2 ⟨n, htin⟩) h hb ht
      obtain rfl := hv.inSector_unique hin htin
      omega

end Union

section Acts

variable {σ : Type}

/-- The calls are those of the ranges, up to the first that fails. -/
theorem eraseRanges_traces (h : σ → SectErase → ℤ × σ) :
    ∀ (ranges : List (Option ℕ × Option ℕ)) (bank : ℕ),
    Prog.Traces h (eraseRanges bank ranges) fun ret log =>
      (∀ x ∈ log, ∃ j, x.1.bank = bank + j ∧ ranges[j]? = some (some x.1.sFirst, x.1.sLast))
        ∧ (ret = 0 → ∀ j s t, ranges[j]? = some (some s, t) → ∃ x ∈ log, x.1 = ⟨bank + j, s, t⟩)
        ∧ (ret = 0 ∨ ∃ x ∈ log, x.2 = ret)
  | [], bank => Prog.traces_pure ⟨by simp, by simp, .inl rfl⟩
  | (none, t) :: ranges, bank => by
    refine (eraseRanges_traces h ranges (bank + 1)).mono ?_
    rintro ret log ⟨hlog, hwhole, hret⟩
    refine ⟨fun x hx => ?_, fun h0 j s t hj => ?_, hret⟩
    · obtain ⟨j, hbank, hj⟩ := hlog x hx
      exact ⟨j + 1, by omega, hj⟩
    · obtain _ | j := j
      · simp at hj
      · rw [← Nat.add_assoc, Nat.add_right_comm]
        exact hwhole h0 j s t hj
  | (some s, t) :: ranges, bank => by
    refine Prog.Traces.bind (S := fun r l => l = [(⟨bank, s, t⟩, r)])
      (Prog.traces_op fun _ => rfl) ?_
    rintro r _ rfl
    refine Prog.Traces.ite (fun hr => ?_) fun hr => ?_
    · refine (eraseRanges_traces h ranges (bank + 1)).mono ?_
      rintro ret log ⟨hlog, hwhole, hret⟩
      refine ⟨fun x hx => ?_, fun h0 j u v hj => ?_, ?_⟩
      · rcases List.mem_cons.1 hx with rfl | hx
        · exact ⟨0, rfl, rfl⟩
        · obtain ⟨j, hbank, hj⟩ := hlog x hx
          exact ⟨j + 1, by omega, hj⟩
      · obtain _ | j := j
        · obtain ⟨rfl, rfl⟩ : s = u ∧ t = v := by simpa using hj
          exact ⟨_, List.mem_cons_self, rfl⟩
        · rw [← Nat.add_assoc, Nat.add_right_comm]
          obtain ⟨x, hx, hcall⟩ := hwhole h0 j u v hj
          exact ⟨x, List.mem_cons_of_mem _ hx, hcall⟩
      · exact hret.imp_right fun ⟨x, hx, hr⟩ => ⟨x, List.mem_cons_of_mem _ hx, hr⟩
    · refine Prog.traces_pure ⟨?_, fun h0 => absurd h0 hr, .inr ⟨_, List.mem_singleton.2 rfl, rfl⟩⟩
      intro x hx
      obtain rfl := List.mem_singleton.1 hx
      exact ⟨0, rfl, rfl⟩

theorem protectSects_traces (h : σ → SectProtect → ℤ × σ) (real : Bool) (bank p : ℕ) :
    ∀ (n sect : ℕ) (rcode : ℤ), Prog.Traces h (protectSects real bank p n sect rcode) fun _ log =>
      (∀ x ∈ log, ∃ i, sect ≤ i ∧ i < sect + n ∧ x.1 = ⟨bank, i, p⟩)
        ∧ ∀ i, sect ≤ i → i < sect + n → ∃ x ∈ log, x.1 = ⟨bank, i, p⟩
  | 0, sect, rcode => Prog.traces_pure ⟨by simp, fun i hlo hhi => by omega⟩
  | n + 1, sect, rcode => by
    refine Prog.Traces.bind (S := fun r l => l = [(⟨bank, sect, p⟩, r)])
      (Prog.traces_op fun _ => rfl) ?_
    rintro r _ rfl
    refine (protectSects_traces h real bank p n (sect + 1) _).mono ?_
    rintro ret log ⟨hlog, hwhole⟩
    refine ⟨fun x hx => ?_, fun i hlo hhi => ?_⟩
    · rcases List.mem_cons.1 hx with rfl | hx
      · exact ⟨sect, le_rfl, by omega, rfl⟩
      · obtain ⟨i, hlo, hhi, hcall⟩ := hlog x hx
        exact ⟨i, by omega, by omega, hcall⟩
    · rcases Nat.lt_or_eq_of_le hlo with hlt | rfl
      · obtain ⟨x, hx, hcall⟩ := hwhole i hlt (by omega)
        exact ⟨x, List.mem_cons_of_mem _ hx, hcall⟩
      · exact ⟨_, List.mem_cons_self, rfl⟩

/-- The sector is one of the ranges, in a bank that is known. -/
def Ranged (xs : List (FlashInfo × Option ℕ × Option ℕ)) (j i : ℕ) : Prop :=
  ∃ info s t, xs[j]? = some (info, some s, some t) ∧ info.known = true ∧ s ≤ i ∧ i ≤ t

theorem protectRanges_traces (h : σ → SectProtect → ℤ × σ) (real : Bool) (p : ℕ) :
    ∀ (xs : List (FlashInfo × Option ℕ × Option ℕ)) (bank : ℕ) (rcode : ℤ),
    Prog.Traces h (protectRanges real p bank xs rcode) fun _ log =>
      (∀ x ∈ log, ∃ j i, Ranged xs j i ∧ x.1 = ⟨bank + j, i, p⟩)
        ∧ ∀ j i, Ranged xs j i → ∃ x ∈ log, x.1 = ⟨bank + j, i, p⟩
  | [], bank, rcode => Prog.traces_pure ⟨by simp, fun j i ⟨_, _, _, hj, _⟩ => by simp at hj⟩
  | y :: xs, bank, rcode => by
    have hrest : ∀ rc, Prog.Traces h (protectRanges real p (bank + 1) xs rc) fun _ log =>
        (∀ x ∈ log, ∃ j i, Ranged xs j i ∧ x.1 = ⟨bank + (j + 1), i, p⟩)
          ∧ ∀ j i, Ranged xs j i → ∃ x ∈ log, x.1 = ⟨bank + (j + 1), i, p⟩ := fun rc => by
      refine (protectRanges_traces h real p xs (bank + 1) rc).mono ?_
      simp only [Nat.add_right_comm bank 1, Nat.add_assoc bank, imp_self, implies_true]
    have hskip : (∀ i, ¬Ranged (y :: xs) 0 i) → ∀ rc,
        Prog.Traces h (protectRanges real p (bank + 1) xs rc) fun _ log =>
          (∀ x ∈ log, ∃ j i, Ranged (y :: xs) j i ∧ x.1 = ⟨bank + j, i, p⟩)
            ∧ ∀ j i, Ranged (y :: xs) j i → ∃ x ∈ log, x.1 = ⟨bank + j, i, p⟩ := fun hno rc => by
      refine (hrest rc).mono ?_
      rintro _ log ⟨hlog, hwhole⟩
      refine ⟨fun x hx => ?_, fun j i hj => ?_⟩
      · obtain ⟨j, i, hj, hcall⟩ := hlog x hx
        exact ⟨j + 1, i, hj, hcall⟩
      · obtain _ | j := j
        · exact absurd hj (hno i)
        · exact hwhole j i hj
    rcases y with ⟨info, _ | s, _ | t⟩
    · exact hskip (fun i ⟨_, _, _, hj, _⟩ => by simp at hj) rcode
    · exact hskip (fun i ⟨_, _, _, hj, _⟩ => by simp at hj) rcode
    · exact hskip (fun i ⟨_, _, _, hj, _⟩ => by simp at hj) rcode
    · refine Prog.Traces.ite (fun hc => ?_) fun hc => hskip (fun i ⟨_, _, _, hj, hk, hs, ht⟩ => ?_)
        _
      · refine (protectSects_traces h real bank p (t + 1 - s) s rcode).bind fun rc l hl => ?_
        refine (hrest rc).mono ?_
        rintro _ log ⟨hlog, hwhole⟩
        refine ⟨fun x hx => ?_, fun j i hj => ?_⟩
        · rcases List.mem_append.1 hx with hx | hx
          · obtain ⟨i, hlo, hhi, hcall⟩ := hl.1 x hx
            exact ⟨0, i, ⟨info, s, t, rfl, hc.1, hlo, by omega⟩, hcall⟩
          · obtain ⟨j, i, hj, hcall⟩ := hlog x hx
            exact ⟨j + 1, i, hj, hcall⟩
        · obtain _ | j := j
          · obtain ⟨_, s', t', hj, -, hs, ht⟩ := hj
            obtain ⟨rfl, rfl, rfl⟩ : info = _ ∧ s = s' ∧ t = t' := by simpa using hj
            obtain ⟨x, hx, hcall⟩ := hl.2 i hs (by omega)
            exact ⟨x, List.mem_append_left _ hx, hcall⟩
          · obtain ⟨x, hx, hcall⟩ := hwhole j i hj
            exact ⟨x, List.mem_append_right _ hx, hcall⟩
      · obtain ⟨rfl, rfl, rfl⟩ : info = _ ∧ s = _ ∧ t = _ := by simpa using hj
        exact hc ⟨hk, by omega⟩

end Acts

/-- Banks in the order of their addresses, with or without holes between them. -/
structure FlashLayout where
  banks : List FlashInfo
  ordered : Ordered banks

structure SectRange where
  first : ℕ
  last : ℕ
  le : first ≤ last
  lt : last < 2 ^ 32

section Plans

variable (L : FlashLayout) (q : SectRange)

def SectRange.Has (a : ℕ) : Prop := q.first ≤ a ∧ a ≤ q.last

/-- The call erases the sector that has the address. -/
def SectErase.Has (c : SectErase) (a : ℕ) : Prop :=
  ∃ b t i, L.banks[c.bank]? = some b ∧ c.sLast = some t ∧ c.sFirst ≤ i ∧ i ≤ t ∧ b.InSector i a

/-- The call is for the sector that has the address. -/
def SectProtect.Has (c : SectProtect) (a : ℕ) : Prop :=
  ∃ b, L.banks[c.bank]? = some b ∧ b.InSector c.sect a

/-- What is promised of a run of `flash_sect_erase`, whose driver may fail. -/
structure SectErased (ret : ℤ) (log : List (SectErase × ℤ)) : Prop where
  closed : ∀ x ∈ log, x.1.sLast ≠ none
  inside : ∀ x ∈ log, ∀ a, x.1.Has L a → q.Has a
  whole : ret = 0 → ∀ a, q.Has a → ∃ x ∈ log, x.1.Has L a
  driver : SectorUnion L.banks q.first q.last → ret = 0 ∨ ∃ x ∈ log, x.2 = ret
  refused : ¬SectorUnion L.banks q.first q.last → log = [] ∧ ret ≠ 0

/-- What is promised of a run of `flash_sect_protect`. -/
structure SectProtected (p : ℕ) (ret : ℤ) (log : List (SectProtect × ℤ)) : Prop where
  flag : ∀ x ∈ log, x.1.prot = p
  inside : ∀ x ∈ log, ∀ a, x.1.Has L a → q.Has a
  whole : SectorUnion L.banks q.first q.last → ∀ a, q.Has a → ∃ x ∈ log, x.1.Has L a
  refused : ¬SectorUnion L.banks q.first q.last → log = [] ∧ ret ≠ 0

/-- A plan is made just for a union of sectors, it is for all of it, and the two commands act on
it. -/
structure SectsRight : Prop where
  fill : (fillSectRanges L.banks q.first q.last).rcode = 0
      ∧ (fillSectRanges L.banks q.first q.last).count ≠ 0 ↔ SectorUnion L.banks q.first q.last
  exact : SectorUnion L.banks q.first q.last → ∀ a, q.Has a ↔
    Planned L.banks (fillSectRanges L.banks q.first q.last).ranges a
  erase : ∀ {σ : Type} (h : σ → SectErase → ℤ × σ),
    Prog.Traces h (flashSectErase L.banks q.first q.last) (SectErased L q)
  protect : ∀ {σ : Type} (h : σ → SectProtect → ℤ × σ) (real : Bool) (p : ℕ),
    Prog.Traces h (flashSectProtect real L.banks p q.first q.last) (SectProtected L q p)

/-- The range does not start with a sector; or it ends with one; or there is no hole in it. -/
def SectsClear : Prop :=
  ¬SectStart L.banks q.first ∨ SectStop L.banks q.last ∨ Held L.banks q.first q.last

variable {L q}

theorem fill_right (hclear : SectsClear L q) :
    (fillSectRanges L.banks q.first q.last).rcode = 0
      ∧ (fillSectRanges L.banks q.first q.last).count ≠ 0
        ↔ SectorUnion L.banks q.first q.last := by
  rw [sectorUnion_iff L.ordered q.le]
  by_cases hstart : SectStart L.banks q.first
  · have hfill := rangeFilled L.banks L.ordered q.le q.lt hstart
    rw [and_iff_left_of_imp hfill.count, hfill.rcode]
    have := hclear.resolve_left (not_not.2 hstart)
    tauto
  · have := fill_not_start q.le L.banks L.ordered hstart
    tauto

theorem fill_exact (hunion : SectorUnion L.banks q.first q.last) (a : ℕ) :
    q.Has a ↔ Planned L.banks (fillSectRanges L.banks q.first q.last).ranges a := by
  obtain ⟨hstart, hstop, hheld⟩ := (sectorUnion_iff L.ordered q.le).1 hunion
  have hfill := rangeFilled L.banks L.ordered q.le q.lt hstart
  exact hfill.exact (hfill.rcode.2 (iff_of_true hstop hheld)) hheld a

/-- The address is one of the plan by the numbers of the bank and of the sector. -/
theorem planned_iff {ranges : List (Option ℕ × Option ℕ)} {a : ℕ} : Planned L.banks ranges a ↔
    ∃ (j : ℕ) (b : FlashInfo) (s t i : ℕ), L.banks[j]? = some b
      ∧ ranges[j]? = some (some s, some t) ∧ s ≤ i ∧ i ≤ t ∧ b.InSector i a := by
  simp only [Planned, List.mem_iff_getElem?, List.getElem?_zip_eq_some]
  constructor
  · rintro ⟨⟨b, r⟩, ⟨j, hb, hr⟩, s, t, i, rfl, hs, ht, hi⟩
    exact ⟨j, b, s, t, i, hb, hr, hs, ht, hi⟩
  · rintro ⟨j, b, s, t, i, hb, hr, hs, ht, hi⟩
    exact ⟨(b, some s, some t), ⟨j, hb, hr⟩, s, t, i, rfl, hs, ht, hi⟩

theorem sectErased (hclear : SectsClear L q) {σ : Type} (h : σ → SectErase → ℤ × σ) :
    Prog.Traces h (flashSectErase L.banks q.first q.last) (SectErased L q) := by
  have hright := fill_right hclear
  refine Prog.Traces.ite (fun hplan => ?_) fun hplan => ?_
  · have hunion := hright.1 ⟨hplan.2, hplan.1⟩
    have hexact := fill_exact hunion
    have hclosed := fill_closed L.banks q.first hplan.2
    refine (eraseRanges_traces h _ 0).mono ?_
    rintro ret log ⟨hlog, hwhole, hret⟩
    refine ⟨fun x hx hnone => ?_, fun x hx a ha => ?_, fun h0 a ha => ?_, fun _ => hret,
      fun hno => absurd hunion hno⟩
    · obtain ⟨j, -, hj⟩ := hlog x hx
      obtain ⟨-, -, -, u, hu⟩ := hclosed.getElem hj
      simp [hnone] at hu
    · obtain ⟨j, hbank, hj⟩ := hlog x hx
      obtain ⟨b, t, i, hb, ht, hs, hi, hin⟩ := ha
      rw [hbank, Nat.zero_add] at hb
      rw [ht] at hj
      exact (hexact a).2 (planned_iff.2 ⟨j, b, _, t, i, hb, hj, hs, hi, hin⟩)
    · obtain ⟨j, b, s, t, i, hb, hj, hs, hi, hin⟩ := planned_iff.1 ((hexact a).1 ha)
      obtain ⟨x, hx, hcall⟩ := hwhole h0 j s _ hj
      rw [Nat.zero_add] at hcall
      exact ⟨x, hx, b, t, i, by rw [hcall]; exact hb, by rw [hcall], by rw [hcall]; exact hs, hi,
        hin⟩
  · have hno : ¬SectorUnion L.banks q.first q.last := fun hunion =>
      hplan ⟨(hright.2 hunion).2, (hright.2 hunion).1⟩
    refine Prog.Traces.ite (fun hcode => Prog.traces_pure ?_) fun hcode => Prog.traces_pure ?_
    all_goals
      refine ⟨by simp, by simp, fun h0 => ?_, fun hunion => absurd hunion hno, fun _ => ⟨rfl, ?_⟩⟩
    · simp at h0
    · simp
    · exact absurd (by exact_mod_cast h0) hcode
    · exact_mod_cast hcode

theorem sectProtected (hclear : SectsClear L q) {σ : Type} (h : σ → SectProtect → ℤ × σ)
    (real : Bool) (p : ℕ) :
    Prog.Traces h (flashSectProtect real L.banks p q.first q.last) (SectProtected L q p) := by
  have hright := fill_right hclear
  refine Prog.Traces.ite (fun hplan => ?_) fun hplan => ?_
  · have hunion := hright.1 ⟨hplan.2, hplan.1⟩
    have hexact := fill_exact hunion
    have hclosed := fill_closed L.banks q.first hplan.2
    refine (protectRanges_traces h real p _ 0 0).mono ?_
    rintro ret log ⟨hlog, hwhole⟩
    refine ⟨fun x hx => ?_, fun x hx a ha => ?_, fun _ a ha => ?_, fun hno => absurd hunion hno⟩
    · obtain ⟨_, _, -, hcall⟩ := hlog x hx
      rw [hcall]
    · obtain ⟨j, i, ⟨b, s, t, hj, -, hs, hi⟩, hcall⟩ := hlog x hx
      obtain ⟨c, hc, hin⟩ := ha
      rw [hcall] at hc hin
      obtain ⟨-, hr⟩ := List.getElem?_zip_eq_some.1 hj
      exact (hexact a).2 (planned_iff.2 ⟨j, c, s, t, i, by simpa using hc, hr, hs, hi, hin⟩)
    · obtain ⟨j, b, s, t, i, hb, hj, hs, hi, hin⟩ := planned_iff.1 ((hexact a).1 ha)
      obtain ⟨c, hc, hk, -⟩ := hclosed.getElem hj
      obtain rfl := Option.some.inj (hb.symm.trans hc)
      obtain ⟨x, hx, hcall⟩ := hwhole j i
        ⟨b, s, t, List.getElem?_zip_eq_some.2 ⟨hb, hj⟩, hk, hs, hi⟩
      rw [Nat.zero_add] at hcall
      exact ⟨x, hx, b, by rw [hcall]; exact hb, by rw [hcall]; exact hin⟩
  · have hno : ¬SectorUnion L.banks q.first q.last := fun hunion =>
      hplan ⟨(hright.2 hunion).2, (hright.2 hunion).1⟩
    refine Prog.Traces.ite (fun hcode => Prog.traces_pure ?_) fun hcode => Prog.traces_pure ?_
    all_goals
      refine ⟨by simp, by simp, fun hunion => absurd hunion hno, fun _ => ⟨rfl, ?_⟩⟩
    · simp
    · exact_mod_cast hcode

theorem sectsClear_of_right (hright : SectsRight L q) : SectsClear L q := by
  by_contra hclear
  rw [SectsClear, not_or, not_or, not_not] at hclear
  obtain ⟨hstart, hstop, hheld⟩ := hclear
  have hfill := rangeFilled L.banks L.ordered q.le q.lt hstart
  have hcode := hfill.rcode.2 (iff_of_false hstop hheld)
  have hunion := hright.fill.1 ⟨hcode, hfill.count hcode⟩
  exact hstop ((sectorUnion_iff L.ordered q.le).1 hunion).2.1

theorem sectsRight_iff (L : FlashLayout) (q : SectRange) : SectsRight L q ↔ SectsClear L q :=
  ⟨sectsClear_of_right, fun hclear =>
    ⟨fill_right hclear, fill_exact, sectErased hclear, sectProtected hclear⟩⟩

/-- One bank with one sector. -/
def oneSector : FlashInfo where
  known := true
  size := 0x100
  sectorCount := 1
  start := fun _ => 0
  protect := fun _ => 0

theorem oneSector_end (i : ℕ) (hi : i < oneSector.sectorCount) : oneSector.sectorEnd i = 0x100 := by
  obtain rfl : i = 0 := Nat.lt_one_iff.1 hi
  rfl

theorem oneSector_valid : oneSector.Valid where
  size_pos := by simp [oneSector]
  size_lt := by simp [oneSector]
  top := by simp [oneSector]
  sectors := Nat.one_pos
  few := by simp [oneSector]
  ordered i hi := by
    rw [oneSector_end i hi]
    simp [oneSector]

def oneLayout : FlashLayout where
  banks := [oneSector]
  ordered := ⟨by simp [oneSector_valid], List.pairwise_singleton _ _⟩

/-- A range that goes on behind the last bank is erased as far as there is a bank. -/
theorem sectsRight_beyond : ¬SectsRight oneLayout ⟨0, 0x1ff, by omega, by omega⟩ := fun h => by
  obtain hstart | ⟨b, hb, -, i, hi, hstop⟩ | hheld := sectsClear_of_right h
  · exact hstart ⟨oneSector, List.mem_singleton.2 rfl, rfl, 0, Nat.one_pos, rfl⟩
  · obtain rfl := List.mem_singleton.1 hb
    rw [oneSector_end i hi] at hstop
    simp at hstop
  · obtain ⟨b, hb, -, -, hlt⟩ := hheld 0x100 (by simp) (by simp)
    obtain rfl := List.mem_singleton.1 hb
    simp [oneSector] at hlt

end Plans

end InfotmUboot
