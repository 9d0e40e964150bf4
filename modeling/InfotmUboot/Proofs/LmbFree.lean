import InfotmUboot.Proofs.LmbRun

/-!
# What a failed `lmb_free` leaves

`lmb_free` shortens the region it splits before it adds the rest of it, and an addition that fails
does not take that back. `lmb_free_atomic_iff` says when this shows: the range lies inside a region
of a full table and the rest is no neighbour of another region.
-/

namespace InfotmUboot

open Lib

section Free

variable (rgn : LmbRegion) (base size : ℕ)

/-- Whether the range belongs to the region at an index. -/
def LmbRegion.Contains (i : ℕ) : Prop :=
  (rgn.region i).base ≤ base ∧
    u32 (base + size) ≤ u32 ((rgn.region i).base + (rgn.region i).size)

/-- The table with what comes before the range as its region `i`. -/
def LmbRegion.cut (i : ℕ) : LmbRegion :=
  rgn.set i ⟨(rgn.region i).base, sub32 base (rgn.region i).base⟩

/-- What comes behind the range in region `i`. -/
def LmbRegion.rest (i : ℕ) : LmbProperty :=
  let stop := u32 (base + size)
  ⟨stop, sub32 (u32 ((rgn.region i).base + (rgn.region i).size)) stop⟩

/-- A table where a range cannot be added: it is full, and the range neither is a region nor lies
next to one. -/
def LmbRegion.NoRoom (r : LmbProperty) : Prop :=
  MAX_LMB_REGIONS ≤ rgn.cnt ∧ ∀ j < rgn.cnt, rgn.region j ≠ r ∧
    lmbAddrsAdjacent r.base r.size (rgn.region j).base (rgn.region j).size = 0

/-- The range lies inside the first region that it belongs to, so that this is shortened, and the
rest does not fit in the table. -/
def LmbRegion.SplitStuck : Prop :=
  ∃ i < rgn.cnt, rgn.Contains base size i ∧ (∀ j < i, ¬rgn.Contains base size j) ∧
    (rgn.region i).base ≠ base ∧
    u32 ((rgn.region i).base + (rgn.region i).size) ≠ u32 (base + size) ∧
    sub32 base (rgn.region i).base ≠ (rgn.region i).size ∧
    (rgn.cut base i).NoRoom (rgn.rest base size i)

instance (i : ℕ) : Decidable (rgn.Contains base size i) := inferInstanceAs (Decidable (_ ∧ _))

instance (r : LmbProperty) : Decidable (rgn.NoRoom r) :=
    inferInstanceAs (Decidable (_ ∧ ∀ _ < _, _))

instance : Decidable (rgn.SplitStuck base size) :=
  inferInstanceAs (Decidable (∃ i < rgn.cnt, _ ∧ (∀ _ < i, ¬_) ∧ _))

variable {rgn base size}

theorem freeLoop_first (b stop : ℕ) : ∀ {n i j : ℕ}, freeLoop rgn b stop n i = some j →
    ∀ k, i ≤ k → k < j →
      ¬((rgn.region k).base ≤ b ∧ stop ≤ u32 ((rgn.region k).base + (rgn.region k).size))
  | 0, _, _, h, _, _, _ => by cases h
  | n + 1, i, j, h, k, hik, hkj => by
    rw [freeLoop] at h
    split_ifs at h with hin
    · obtain rfl := Option.some.inj h
      omega
    · by_cases hk : k = i
      · exact hk ▸ hin
      · exact freeLoop_first b stop h k (by omega) hkj

theorem freeLoop_none (b stop : ℕ) : ∀ {n i : ℕ}, freeLoop rgn b stop n i = none →
    ∀ k, i ≤ k → k < i + n →
      ¬((rgn.region k).base ≤ b ∧ stop ≤ u32 ((rgn.region k).base + (rgn.region k).size))
  | 0, _, _, _, _, _ => by omega
  | n + 1, i, h, k, hik, hki => by
    rw [freeLoop] at h
    split_ifs at h with hin
    by_cases hk : k = i
    · exact hk ▸ hin
    · exact freeLoop_none b stop h k (by omega) (by omega)

/-- The first region of a range is the one that `lmb_free` finds. -/
theorem freeLoop_eq {i : ℕ} (hi : i < rgn.cnt) (hin : rgn.Contains base size i)
    (hfirst : ∀ j < i, ¬rgn.Contains base size j) :
    freeLoop rgn base (u32 (base + size)) rgn.cnt 0 = some i := by
  rcases hl : freeLoop rgn base (u32 (base + size)) rgn.cnt 0 with _ | j
  · exact absurd hin (freeLoop_none _ _ hl i (Nat.zero_le i) (by omega))
  · obtain ⟨-, -, hj⟩ := freeLoop_some _ _ hl
    rcases Nat.lt_trichotomy i j with h | h | h
    · exact absurd hin (freeLoop_first _ _ hl i (Nat.zero_le i) h)
    · rw [h]
    · exact absurd hj (hfirst j h)

/-- An addition to a table that is in use has a result, and it fails just when there is no room,
with the table as it was. -/
theorem addRegion_fails (hcnt : 0 < rgn.cnt) (r : LmbProperty)
    (hused : ¬(rgn.cnt = 1 ∧ (rgn.region 0).size = 0)) :
    ∃ rc rgn', lmbAddRegion rgn r.base r.size = some (rc, rgn') ∧
      (rc < 0 ↔ rgn.NoRoom r) ∧ (rc < 0 → rgn' = rgn) := by
  rw [lmbAddRegion, if_neg hused]
  have hspec := addLoop_spec rgn r.base r.size rgn.cnt 0
  rcases hl : addLoop rgn r.base r.size rgn.cnt 0 with _ | ⟨rgn1, i, c⟩
  · rw [hl] at hspec
    obtain ⟨j, -, hj, heq⟩ := hspec
    exact ⟨0, rgn, rfl, iff_of_false (by decide) fun h => (h.2 j (by omega)).1 heq,
      fun h => absurd h (by decide)⟩
  rw [hl] at hspec
  obtain ⟨hbefore, hend⟩ := hspec
  dsimp only
  rcases hend with ⟨rfl, rfl, rfl⟩ | ⟨rfl, -, hi, hne, hadj⟩
  · have hlast : ¬(0 + rgn1.cnt < sub32 rgn1.cnt 1 ∧
        lmbRegionsAdjacent rgn1 (0 + rgn1.cnt) (0 + rgn1.cnt + 1) ≠ 0) := by
      rintro ⟨h, -⟩
      unfold sub32 toU32 at h
      omega
    rw [if_neg hlast, if_neg (by decide)]
    split_ifs with hfull
    · exact ⟨-1, rgn1, rfl, iff_of_true (by decide)
        ⟨hfull, fun j hj => hbefore j (Nat.zero_le j) (by omega)⟩, fun _ => rfl⟩
    · exact ⟨0, _, rfl, iff_of_false (by decide) fun h => hfull h.1, fun h => absurd h (by decide)⟩
  · have hroom : ¬rgn.NoRoom r := fun h => by
      have := (h.2 i (by omega)).2
      rcases hadj with ⟨h1, -⟩ | ⟨h1, -⟩ <;> omega
    have hcnt1 : rgn1.cnt = rgn.cnt := by
      rcases hadj with ⟨-, rfl⟩ | ⟨-, rfl⟩ <;> rfl
    by_cases hnext : i < sub32 rgn1.cnt 1 ∧ lmbRegionsAdjacent rgn1 i (i + 1) ≠ 0
    · have hco : ∃ rgn2, lmbCoalesceRegions rgn1 i (i + 1) = some rgn2 := by
        rw [lmbCoalesceRegions, lmbRemoveRegion]
        exact ⟨_, if_neg (by rw [LmbRegion.set_cnt]; omega)⟩
      obtain ⟨rgn2, hco⟩ := hco
      rw [if_pos hnext, hco]
      exact ⟨1 + 1, rgn2, rfl, iff_of_false (by decide) hroom, fun h => absurd h (by decide)⟩
    · rw [if_neg hnext, if_pos (by decide)]
      exact ⟨1, rgn1, rfl, iff_of_false (by decide) hroom, fun h => absurd h (by decide)⟩

/-- The call has a result, and if that is an error the table of reserved regions is as it was. -/
def FreeAtomic (lmb : Lmb) (base size : ℕ) : Prop :=
  ∃ rc lmb', lmbFree lmb base size = some (rc, lmb') ∧ (rc < 0 → lmb'.reserved = lmb.reserved)

theorem freeAtomic_of_region {lmb : Lmb} {rc : ℤ} {rgn' : LmbRegion}
    (h : lmbFreeRegion lmb.reserved base size = some (rc, rgn')) :
    FreeAtomic lmb base size ↔ (rc < 0 → rgn' = lmb.reserved) := by
  unfold FreeAtomic lmbFree
  rw [h]
  constructor
  · rintro ⟨_, _, heq, hsame⟩
    obtain ⟨rfl, rfl⟩ := Prod.mk.inj (Option.some.inj heq)
    exact hsame
  · exact fun hsame => ⟨_, _, rfl, hsame⟩

/-- A region that was shortened differs. -/
theorem LmbRegion.cut_eq_iff {i : ℕ} :
    rgn.cut base i = rgn ↔ sub32 base (rgn.region i).base = (rgn.region i).size := by
  constructor
  · intro h
    have hi : (rgn.cut base i).region i = rgn.region i := by rw [h]
    rw [LmbRegion.cut, LmbRegion.set_region_self] at hi
    exact congrArg LmbProperty.size hi
  · intro h
    rw [LmbRegion.cut, h]
    unfold LmbRegion.set
    congr
    funext j
    split_ifs with hj
    · rw [hj]
    · rfl

/-- A failed `lmb_free` leaves the reserved regions as they were unless it got stuck in a split. -/
theorem lmb_free_atomic_iff (lmb : Lmb) {base : ℕ} (hbase : base < 2 ^ 32) (size : ℕ) :
    FreeAtomic lmb base size ↔ ¬lmb.reserved.SplitStuck base size := by
  rcases hl : freeLoop lmb.reserved base (u32 (base + size)) lmb.reserved.cnt 0 with _ | i
  · have hfree : lmbFreeRegion lmb.reserved base size = some (-1, lmb.reserved) := by
      simp only [lmbFreeRegion, hl]
    refine (freeAtomic_of_region hfree).trans (iff_of_true (fun _ => rfl) ?_)
    rintro ⟨i, hi, hin, -⟩
    exact freeLoop_none _ _ hl i (Nat.zero_le i) (by omega) hin
  obtain ⟨-, hi, hin⟩ := freeLoop_some _ _ hl
  have hfirst := freeLoop_first _ _ hl
  have hstuck : lmb.reserved.SplitStuck base size ↔ (lmb.reserved.region i).base ≠ base ∧
      u32 ((lmb.reserved.region i).base + (lmb.reserved.region i).size) ≠ u32 (base + size) ∧
      sub32 base (lmb.reserved.region i).base ≠ (lmb.reserved.region i).size ∧
      (lmb.reserved.cut base i).NoRoom (lmb.reserved.rest base size i) := by
    constructor
    · rintro ⟨j, hj, hjin, hjfirst, h⟩
      obtain rfl : j = i := Option.some.inj ((freeLoop_eq hj hjin hjfirst).symm.trans hl)
      exact h
    · exact fun h => ⟨i, by omega, hin, fun j hj => hfirst j (Nat.zero_le j) hj, h⟩
  rw [hstuck]
  by_cases hfront : (lmb.reserved.region i).base = base
  · have hfree : ∃ rgn', lmbFreeRegion lmb.reserved base size = some (0, rgn') := by
      simp only [lmbFreeRegion, hl]
      split_ifs
      · rw [lmbRemoveRegion, if_neg (by omega)]
        exact ⟨_, rfl⟩
      · exact ⟨_, rfl⟩
    obtain ⟨rgn', hfree⟩ := hfree
    exact (freeAtomic_of_region hfree).trans
      (iff_of_true (fun h => absurd h (by decide)) fun h => h.1 hfront)
  by_cases hend : u32 ((lmb.reserved.region i).base + (lmb.reserved.region i).size) =
      u32 (base + size)
  · have hfree : ∃ rgn', lmbFreeRegion lmb.reserved base size = some (0, rgn') := by
      simp only [lmbFreeRegion, hl]
      rw [if_neg fun h => hfront h.1, if_neg hfront, if_pos hend]
      exact ⟨_, rfl⟩
    obtain ⟨rgn', hfree⟩ := hfree
    exact (freeAtomic_of_region hfree).trans
      (iff_of_true (fun h => absurd h (by decide)) fun h => h.2.1 hend)
  -- the region is split, and the result is that of adding the rest
  have hle := hin.1
  have hcut : 0 < sub32 base (lmb.reserved.region i).base := by
    rw [sub32_of_le hle hbase]
    omega
  have hused : ¬((lmb.reserved.cut base i).cnt = 1 ∧
      ((lmb.reserved.cut base i).region 0).size = 0) := by
    rintro ⟨hone, hsize⟩
    have hone' : lmb.reserved.cnt = 1 := hone
    obtain rfl : i = 0 := by omega
    rw [LmbRegion.cut, LmbRegion.set_region_self] at hsize
    exact hcut.ne' hsize
  have hpos : 0 < (lmb.reserved.cut base i).cnt := by
    rw [LmbRegion.cut, LmbRegion.set_cnt]
    omega
  obtain ⟨rc, rgn', hadd, hfails, hsame⟩ := addRegion_fails hpos
    (lmb.reserved.rest base size i) hused
  have hfree : lmbFreeRegion lmb.reserved base size = some (rc, rgn') := by
    simp only [lmbFreeRegion, hl]
    rw [if_neg fun h => hfront h.1, if_neg hfront, if_neg hend]
    exact hadd
  rw [freeAtomic_of_region hfree]
  constructor
  · rintro h ⟨-, -, hne, hroom⟩
    have hrc := hfails.2 hroom
    exact hne (LmbRegion.cut_eq_iff.1 ((hsame hrc).symm.trans (h hrc)))
  · intro h hrc
    by_contra hne
    refine h ⟨hfront, hend, fun hcut => hne ?_, hfails.1 hrc⟩
    rw [hsame hrc, LmbRegion.cut_eq_iff.2 hcut]

/-- Eight regions, the most a table has. -/
def fullLmb : Lmb :=
  ⟨zeroLmb.memory, ⟨8, fun i => ⟨0x10000 * (i + 1), 0x3000⟩⟩⟩

/-- A free that takes the front off a region of a full table. -/
theorem lmb_free_atomic_front :
    FreeAtomic fullLmb 0x10000 0x1000 ↔ ¬fullLmb.reserved.SplitStuck 0x10000 0x1000 :=
  lmb_free_atomic_iff fullLmb (by decide) 0x1000

/-- One that takes the middle out fails, and the region has lost its end. -/
theorem lmb_free_not_atomic : ¬∀ (lmb : Lmb) (base size : ℕ), FreeAtomic lmb base size := by
  intro h
  obtain ⟨rc, lmb', hfree, hsame⟩ := h fullLmb 0x11000 0x1000
  have hval : (lmbFree fullLmb 0x11000 0x1000).map (fun r => (r.1, (r.2.reserved.region 0).size)) =
      some (-1, 0x1000) := by decide
  rw [hfree, Option.map_some, Option.some.injEq, Prod.mk.injEq] at hval
  obtain ⟨hrc, hsize⟩ := hval
  have hneg : rc < 0 := by
    dsimp only at hrc
    omega
  dsimp only at hsize
  rw [hsame hneg] at hsize
  exact absurd hsize (by decide)

end Free

end InfotmUboot
