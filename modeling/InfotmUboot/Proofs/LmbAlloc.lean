import InfotmUboot.Proofs.LmbRun

/-!
# Allocation of memory blocks

`__lmb_alloc_base` on tables of any shape, whose regions do not go over the end of the addresses: a
block that it gives is aligned, inside one memory region, was free and is reserved
(`allocBase_right`).
-/

namespace InfotmUboot

open Lib Lib.Extent LmbRegion

section Cover

variable {rgn : LmbRegion} {b s : ℕ}

theorem points_subset {b s b' s' : ℕ} (h1 : b' ≤ b) (h2 : b + s ≤ b' + s') :
    points ⟨b, s⟩ ⊆ points ⟨b', s'⟩ := Set.Ico_subset_Ico h1 h2

/-- A region of a table that has the range covers it. -/
theorem covers_of_region {i : ℕ} (hi : i < rgn.cnt) (h1 : (rgn.region i).base ≤ b)
    (h2 : b + s ≤ (rgn.region i).base + (rgn.region i).size) :
    points ⟨b, s⟩ ⊆ covered rgn.extents :=
  (points_subset h1 h2).trans (points_subset_covered (mem_extents.2 ⟨i, hi, rfl⟩))

theorem insert_covers (h0 : 0 < rgn.cnt) :
    points ⟨b, s⟩ ⊆ covered (lmbInsert rgn b s).extents := by
  obtain ⟨p, hp, habove, -, heq⟩ := insertLoop_eq b s rgn.cnt rgn
  have hcnt : (lmbInsert rgn b s).cnt = rgn.cnt + 1 := by
    rw [lmbInsert, heq]
    dsimp only
    split_ifs <;> rfl
  have hreg : (lmbInsert rgn b s).region p = ⟨b, s⟩ := by
    rw [lmbInsert, heq]
    dsimp only
    by_cases hp0 : p = 0
    · subst hp0
      simp [habove 0 le_rfl h0]
    · split_ifs <;> simp [LmbRegion.set, hp0, Nat.pos_of_ne_zero hp0]
  exact covers_of_region (i := p) (by omega) (by rw [hreg]) (by rw [hreg])

/-- A region next to a range grows over it, and does not go round. -/
theorem addLoop_grows (hin : Unwound (2 ^ 32) (⟨b, s⟩ :: rgn.extents)) {j : ℕ} (hj : j < rgn.cnt)
    {rgn1 : LmbRegion}
    (hside : lmbAddrsAdjacent b s (rgn.region j).base (rgn.region j).size > 0 ∧
        rgn1 = rgn.set j ⟨sub32 (rgn.region j).base s, u32 ((rgn.region j).size + s)⟩ ∨
      lmbAddrsAdjacent b s (rgn.region j).base (rgn.region j).size < 0 ∧
        rgn1 = rgn.set j ⟨(rgn.region j).base, u32 ((rgn.region j).size + s)⟩) :
    ∃ r, rgn1 = rgn.set j r ∧ r.base ≤ b ∧ b + s ≤ r.base + r.size ∧
      Unwound (2 ^ 32) (r.extent :: rgn.extents) := by
  have hmem : (rgn.region j).extent ∈ (⟨b, s⟩ :: rgn.extents : List Extent) :=
    List.mem_cons_of_mem _ (extent_mem hj)
  have hjlt : (rgn.region j).base < 2 ^ 32 := hin.start_lt _ hmem
  -- the region and the range are one region
  have hgrown : ∀ r : LmbProperty, r.base < 2 ^ 32 →
      (r.base = b ∧ r.base + r.size = (rgn.region j).base + (rgn.region j).size ∨
        r.base = (rgn.region j).base ∧ r.base + r.size = b + s) →
      Unwound (2 ^ 32) (r.extent :: rgn.extents) ∧ r.size < 2 ^ 32 := by
    intro r hlt hr
    have hbig : Unwound (2 ^ 32) (r.extent :: ⟨b, s⟩ :: rgn.extents) := by
      rcases hr with ⟨h1, h2⟩ | ⟨h1, h2⟩
      · exact hin.between hlt ⟨⟨b, s⟩, List.mem_cons_self, h1.ge⟩ ⟨_, hmem, h2.le⟩
      · exact hin.between hlt ⟨_, hmem, h1.ge⟩ ⟨⟨b, s⟩, List.mem_cons_self, h2.le⟩
    exact ⟨hbig.mono (List.cons_subset_cons _ (List.subset_cons_self _ _)),
      hbig.size_lt (e := r.extent) List.mem_cons_self⟩
  rw [adjacent_eq (r := ⟨b, s⟩) hin List.mem_cons_self hmem] at hside
  dsimp only at hside
  rcases hside with ⟨hpos, rfl⟩ | ⟨hneg, rfl⟩
  · have hbase : (rgn.region j).base = b + s := by
      by_contra hc
      rw [if_neg hc] at hpos
      split_ifs at hpos <;> omega
    obtain ⟨hval, hsize⟩ := hgrown ⟨b, (rgn.region j).size + s⟩ (by dsimp only; omega)
      (Or.inl ⟨rfl, by dsimp only; omega⟩)
    have hsub : sub32 (rgn.region j).base s = b := by
      rw [sub32_of_le (by omega) hjlt]
      omega
    rw [hsub, u32_of_lt hsize]
    exact ⟨_, rfl, le_rfl, by dsimp only; omega, hval⟩
  · have hbase : b = (rgn.region j).base + (rgn.region j).size := by
      by_contra hc
      split_ifs at hneg <;> omega
    obtain ⟨hval, hsize⟩ := hgrown ⟨(rgn.region j).base, (rgn.region j).size + s⟩ hjlt
      (Or.inr ⟨rfl, by dsimp only; omega⟩)
    rw [u32_of_lt hsize]
    exact ⟨_, rfl, by dsimp only; omega, by dsimp only; omega, hval⟩

/-- A range that is added to a table is covered. -/
theorem addRegion_covers (h0 : 0 < rgn.cnt) (hcl : rgn.cnt < 2 ^ 32)
    (hin : ¬rgn.Dummy → Unwound (2 ^ 32) (⟨b, s⟩ :: rgn.extents)) :
    ∃ rc rgn', lmbAddRegion rgn b s = some (rc, rgn') ∧
      (rc < 0 → rgn' = rgn) ∧ (0 ≤ rc → points ⟨b, s⟩ ⊆ covered rgn'.extents) := by
  rw [lmbAddRegion]
  unfold LmbRegion.Dummy at hin
  by_cases hv : rgn.cnt = 1 ∧ (rgn.region 0).size = 0
  · rw [if_pos hv]
    refine ⟨0, _, rfl, fun h => absurd h (lt_irrefl 0), fun _ => ?_⟩
    exact covers_of_region (i := 0) h0 (by rw [set_region_self]) (by rw [set_region_self])
  replace hin := hin hv
  rw [if_neg hv]
  have hspec := addLoop_spec rgn b s rgn.cnt 0
  have hsub : sub32 rgn.cnt 1 = rgn.cnt - 1 := sub32_of_le h0 hcl
  rcases hl : addLoop rgn b s rgn.cnt 0 with _ | ⟨rgn1, j, c⟩
  · rw [hl] at hspec
    obtain ⟨j, -, hj, hreg⟩ := hspec
    refine ⟨0, rgn, rfl, fun _ => rfl, fun _ => ?_⟩
    exact covers_of_region (i := j) (by omega) (by rw [hreg]) (by rw [hreg])
  rw [hl] at hspec
  dsimp only at hspec ⊢
  obtain ⟨-, hend⟩ := hspec
  rcases hend with ⟨rfl, hj, rfl⟩ | ⟨rfl, -, hj, -, hside⟩
  · rw [if_neg (by rw [hsub]; omega), if_neg (by omega)]
    split_ifs with hfull
    · exact ⟨-1, _, rfl, fun _ => rfl, fun h => absurd h (by decide)⟩
    · exact ⟨0, _, rfl, fun h => absurd h (lt_irrefl 0), fun _ => insert_covers h0⟩
  -- the range is part of the region at `j`
  have hjc : j < rgn.cnt := by omega
  obtain ⟨r, rfl, hr1, hr2, hr3⟩ := addLoop_grows hin hjc hside
  rw [set_cnt, hsub]
  by_cases hco : j < rgn.cnt - 1 ∧ lmbRegionsAdjacent (rgn.set j r) j (j + 1) ≠ 0
  · rw [if_pos hco]
    have hmem : (rgn.region (j + 1)).extent ∈ r.extent :: rgn.extents :=
      List.mem_cons_of_mem _ (extent_mem (by omega))
    have hadj := hco.2
    rw [lmbRegionsAdjacent, set_region_self, set_region_ne _ (by omega),
      adjacent_eq hr3 List.mem_cons_self hmem] at hadj
    have hsize : u32 (r.size + (rgn.region (j + 1)).size) = r.size + (rgn.region (j + 1)).size := by
      refine u32_of_lt ?_
      split_ifs at hadj with hnext hback
      · exact hr3.sizes_lt List.mem_cons_self hmem hnext.symm
      · exact (Nat.add_comm _ _).trans_lt (hr3.sizes_lt hmem List.mem_cons_self hback.symm)
      · exact absurd rfl hadj
    generalize hbig : (⟨r.base, r.size + (rgn.region (j + 1)).size⟩ : LmbProperty) = big
    obtain ⟨rgn', hrem, -, hex⟩ := extents_remove
      (show j + 1 < ((rgn.set j r).set j big).cnt by rw [set_cnt, set_cnt]; omega)
    refine ⟨1 + 1, rgn', ?_, fun h => absurd h (by decide), fun _ => ?_⟩
    · rw [lmbCoalesceRegions, set_region_self, set_region_ne _ (by omega)]
      rw [hsize, hbig, hrem]
      rfl
    · rw [hex, front_succ, set_region_self]
      refine Set.Subset.trans (points_subset ?_ ?_) (points_subset_covered (e := big.extent) ?_)
      · rw [← hbig]
        exact hr1
      · rw [← hbig]
        dsimp only
        omega
      · exact List.mem_append_left _ (List.mem_append_right _ (List.mem_singleton.2 rfl))
  · rw [if_neg hco, if_pos (by decide)]
    refine ⟨1, _, rfl, fun h => absurd h (by decide), fun _ => ?_⟩
    exact covers_of_region (i := j) hjc (by rwa [set_region_self]) (by rwa [set_region_self])

theorem removeRegion_cnt {i : ℕ} {rgn' : LmbRegion} (h : lmbRemoveRegion rgn i = some rgn') :
    rgn'.cnt = rgn.cnt - 1 := by
  unfold lmbRemoveRegion at h
  split_ifs at h
  rw [← Option.some.inj h]

theorem addRegion_cnt_le {rc : ℤ} {rgn' : LmbRegion} (hcl : rgn.cnt ≤ MAX_LMB_REGIONS)
    (h : lmbAddRegion rgn b s = some (rc, rgn')) : rgn'.cnt ≤ MAX_LMB_REGIONS := by
  rw [lmbAddRegion] at h
  split_ifs at h with hv
  · obtain ⟨-, rfl⟩ := Prod.mk.inj (Option.some.inj h)
    exact hcl
  have hspec := addLoop_spec rgn b s rgn.cnt 0
  rcases hl : addLoop rgn b s rgn.cnt 0 with _ | ⟨rgn1, j, c⟩
  · rw [hl] at h
    obtain ⟨-, rfl⟩ := Prod.mk.inj (Option.some.inj h)
    exact hcl
  rw [hl] at hspec h
  have hcnt : rgn1.cnt = rgn.cnt := by
    rcases hspec.2 with ⟨-, -, rfl⟩ | ⟨-, -, -, -, ⟨-, rfl⟩ | ⟨-, rfl⟩⟩ <;> rfl
  dsimp only at h
  split_ifs at h with h1 h2 h3
  · obtain ⟨rgn2, hco, heq⟩ := Option.map_eq_some_iff.1 h
    obtain ⟨-, rfl⟩ := Prod.mk.inj heq
    rw [removeRegion_cnt hco, set_cnt]
    omega
  · obtain ⟨-, rfl⟩ := Prod.mk.inj (Option.some.inj h)
    omega
  · obtain ⟨-, rfl⟩ := Prod.mk.inj (Option.some.inj h)
    omega
  · obtain ⟨-, rfl⟩ := Prod.mk.inj (Option.some.inj h)
    obtain ⟨p, -, -, -, heq⟩ := insertLoop_eq b s rgn1.cnt rgn1
    have hins : (lmbInsert rgn1 b s).cnt = rgn1.cnt + 1 := by
      rw [lmbInsert, heq]
      dsimp only
      split_ifs <;> rfl
    omega

theorem freeRegion_cnt_le {rc : ℤ} {rgn' : LmbRegion} (hcl : rgn.cnt ≤ MAX_LMB_REGIONS)
    (h : lmbFreeRegion rgn b s = some (rc, rgn')) : rgn'.cnt ≤ MAX_LMB_REGIONS := by
  rw [lmbFreeRegion] at h
  dsimp only at h
  split at h
  · obtain ⟨-, rfl⟩ := Prod.mk.inj (Option.some.inj h)
    exact hcl
  · split_ifs at h
    · obtain ⟨rgn2, hrem, heq⟩ := Option.map_eq_some_iff.1 h
      obtain ⟨-, rfl⟩ := Prod.mk.inj heq
      rw [removeRegion_cnt hrem]
      omega
    · obtain ⟨-, rfl⟩ := Prod.mk.inj (Option.some.inj h)
      exact hcl
    · obtain ⟨-, rfl⟩ := Prod.mk.inj (Option.some.inj h)
      exact hcl
    · have hset : ∀ i r, (rgn.set i r).cnt ≤ MAX_LMB_REGIONS := fun _ _ => hcl
      exact addRegion_cnt_le (hset _ _) h

end Cover

section Search

variable {rgn : LmbRegion} {b s : ℕ}

theorem overlapsLoop_none : ∀ {n i : ℕ}, overlapsLoop rgn b s n i = none →
    ∀ j, i ≤ j → j < i + n → lmbAddrsOverlap b s (rgn.region j).base (rgn.region j).size = false
  | 0, i, _, j, h1, h2 => absurd h2 (by omega)
  | n + 1, i, h, j, h1, h2 => by
    rw [overlapsLoop] at h
    split_ifs at h with hov
    by_cases hj : j = i
    · exact hj ▸ Bool.eq_false_iff.2 hov
    · exact overlapsLoop_none h j (by omega) (by omega)

theorem overlapsLoop_some : ∀ {n i j : ℕ}, overlapsLoop rgn b s n i = some j →
    j < i + n ∧ lmbAddrsOverlap b s (rgn.region j).base (rgn.region j).size = true
  | 0, _, _, h => by cases h
  | n + 1, i, j, h => by
    rw [overlapsLoop] at h
    split_ifs at h with hov
    · obtain rfl := Option.some.inj h
      exact ⟨by omega, hov⟩
    · obtain ⟨h1, h2⟩ := overlapsLoop_some h
      exact ⟨by omega, h2⟩

/-- Ranges that the code finds to overlap do so. -/
theorem overlap_meets {b s b' s' : ℕ} (h : lmbAddrsOverlap b s b' s' = true) :
    b < b' + s' ∧ b' < b + s := by
  obtain ⟨h1, h2⟩ := of_decide_eq_true h
  exact ⟨h1.trans_le (u32_le _), h2.trans_le (u32_le _)⟩

theorem overlap_of_lt {b1 s1 b2 s2 : ℕ} (h1 : b1 + s1 < 2 ^ 32) (h2 : b2 + s2 < 2 ^ 32) :
    lmbAddrsOverlap b1 s1 b2 s2 = false ↔ b2 + s2 ≤ b1 ∨ b1 + s1 ≤ b2 := by
  rw [lmbAddrsOverlap, u32_of_lt h1, u32_of_lt h2, decide_eq_false_iff_not]
  omega

/-- A block and a region between which the code finds no overlap, where neither end is cut to 0
while they have addresses in common. -/
theorem overlap_apart {b s b' s' top : ℕ} (htop : top ≤ 2 ^ 32) (hle : b + s ≤ top)
    (hend : b' + s' ≤ 2 ^ 32) (hlast : b' + s' = 2 ^ 32 → top ≤ b')
    (hfirst : b + s = 2 ^ 32 → b' + s' ≤ b) (h : lmbAddrsOverlap b s b' s' = false) :
    b' + s' ≤ b ∨ b + s ≤ b' := by
  rcases hend.lt_or_eq with hend | hend
  · rcases (hle.trans htop).lt_or_eq with hlt | heq
    · exact (overlap_of_lt hlt hend).1 h
    · exact Or.inl (hfirst heq)
  · exact Or.inr (hle.trans (hlast hend))

theorem sub32_one {align : ℕ} (h0 : 0 < align) (h : align < 2 ^ 32) : sub32 align 1 = align - 1 :=
  sub32_of_le h0 h

variable {align k : ℕ}

theorem alignDown_eq (ha : align = 2 ^ k) (hk : k < 32) (addr : ℕ) :
    lmbAlignDown addr align = addr - addr % align := by
  have hpos : 0 < align := ha ▸ Nat.two_pow_pos k
  have hlt : align < 2 ^ 32 := ha ▸ Nat.pow_lt_pow_right (by omega) hk
  rw [lmbAlignDown, sub32_one hpos hlt, andNot_mask ha]

theorem alignDown_le (ha : align = 2 ^ k) (hk : k < 32) (addr : ℕ) :
    lmbAlignDown addr align ≤ addr := by
  rw [alignDown_eq ha hk]
  exact Nat.sub_le _ _

theorem dvd_alignDown (ha : align = 2 ^ k) (hk : k < 32) (addr : ℕ) :
    align ∣ lmbAlignDown addr align := by
  rw [alignDown_eq ha hk]
  exact Nat.dvd_sub_mod addr

/-- The size of a block rounded up: the block does not go over the end of the addresses then. -/
theorem alignUp_bounds (ha : align = 2 ^ k) (hk : k < 32) (size : ℕ) {base : ℕ}
    (hdvd : align ∣ base) (hend : base + size ≤ 2 ^ 32) (hbase : 0 < base) :
    size ≤ lmbAlignUp size align ∧ lmbAlignUp size align < size + align ∧
      base + lmbAlignUp size align ≤ 2 ^ 32 := by
  have hpos : 0 < align := ha ▸ Nat.two_pow_pos k
  have hlt : align < 2 ^ 32 := ha ▸ Nat.pow_lt_pow_right (by omega) hk
  have hge := Nat.le_of_dvd hbase hdvd
  have hup : lmbAlignUp size align = size + (align - 1) - (size + (align - 1)) % align := by
    rw [lmbAlignUp, sub32_one hpos hlt, u32_of_lt (by omega), andNot_mask ha]
  have hmod := Nat.mod_lt (size + (align - 1)) hpos
  refine ⟨by omega, by omega, ?_⟩
  -- all of it is a whole number of `align`, and so are the addresses
  have hall : align ∣ base + lmbAlignUp size align := by
    rw [hup]
    exact Nat.dvd_add hdvd (Nat.dvd_sub_mod _)
  have hspace : align ∣ 2 ^ 32 := ha ▸ Nat.pow_dvd_pow 2 hk.le
  obtain ⟨x, hx⟩ := hall
  obtain ⟨y, hy⟩ := hspace
  have hxy : x ≤ y := by
    by_contra hc
    have hmul := Nat.mul_le_mul_left align (not_le.1 hc)
    rw [Nat.mul_succ] at hmul
    omega
  rw [hx, hy]
  exact Nat.mul_le_mul_left align hxy

/-- The search down a memory region: it ends, with a block that overlaps nothing reserved or with
none. -/
theorem allocWhile_spec {lmb : Lmb} (hends : Unwound (2 ^ 32) lmb.reserved.extents)
    (ha : align = 2 ^ k) (hk : k < 32) {size top : ℕ} (lmbbase : ℕ) (htop : top ≤ 2 ^ 32)
    (hlast : ∀ i < lmb.reserved.cnt, (lmb.reserved.region i).base + (lmb.reserved.region i).size =
      2 ^ 32 → top ≤ (lmb.reserved.region i).base) : ∀ (n base : ℕ), base < n → base < 2 ^ 32 →
      align ∣ base → base + size ≤ top → (base + size = 2 ^ 32 → ∀ i < lmb.reserved.cnt,
        (lmb.reserved.region i).base + (lmb.reserved.region i).size ≤ base) →
      ∃ o, allocWhile lmb size align lmbbase n base = some o ∧
        ∀ r, o = some r → r ≠ 0 ∧ r < 2 ^ 32 ∧ lmbbase ≤ r ∧ align ∣ r ∧ r + size ≤ top ∧
          ∀ i < lmb.reserved.cnt, (lmb.reserved.region i).base + (lmb.reserved.region i).size ≤ r ∨
            r + size ≤ (lmb.reserved.region i).base
  | 0, base, hn, _, _, _, _ => absurd hn (Nat.not_lt_zero _)
  | n + 1, base, hn, hlt, hdvd, hle, hfirst => by
    rw [allocWhile]
    split_ifs with hgo
    · rcases hov : lmbOverlapsRegion lmb.reserved base size with _ | j
      · refine ⟨_, rfl, fun r hr => ?_⟩
        obtain rfl := Option.some.inj hr
        refine ⟨hgo.1, hlt, hgo.2, hdvd, hle, fun i hi => ?_⟩
        exact overlap_apart htop hle (hends.stop_le _ (extent_mem hi)) (hlast i hi)
          (fun h => hfirst h i hi) (overlapsLoop_none hov i (Nat.zero_le i) (by omega))
      · obtain ⟨hj, hov'⟩ := overlapsLoop_some hov
        have hjs := hends.start_lt _ (extent_mem (show j < lmb.reserved.cnt by omega))
        rw [LmbProperty.extent_start] at hjs
        have hmeet := (overlap_meets hov').2
        dsimp only
        split_ifs with hlow
        · exact ⟨none, rfl, fun r hr => by cases hr⟩
        · have hsub : sub32 (lmb.reserved.region j).base size =
            (lmb.reserved.region j).base - size :=
            sub32_of_le (not_lt.1 hlow) hjs
          rw [hsub]
          have hdown := alignDown_le ha hk ((lmb.reserved.region j).base - size)
          exact allocWhile_spec hends ha hk lmbbase htop hlast n _ (by omega) (by omega)
            (dvd_alignDown ha hk _) (by omega) (fun h => by omega)
    · exact ⟨none, rfl, fun r hr => by cases hr⟩

end Search

section Requests

/-- A request for a block: `align` is a power of two, and all are 32-bit words. -/
structure AllocArgs where
  size : ℕ
  align : ℕ
  maxAddr : ℕ
  size_lt : size < 2 ^ 32
  align_pow : ∃ k < 32, align = 2 ^ k
  max_lt : maxAddr < 2 ^ 32

def Lmb.alloc (lmb : Lmb) (a : AllocArgs) : Option (ℕ × Lmb) :=
  lmbAllocBase lmb a.size a.align a.maxAddr

/-- What is asked of a block: it is aligned, inside a memory region and below the limit, free before
and reserved afterwards; and without one nothing changes. -/
def AllocRight (lmb : Lmb) (a : AllocArgs) : Prop :=
  ∃ r lmb', lmb.alloc a = some (r, lmb') ∧ (r = 0 → lmb' = lmb) ∧
    (r ≠ 0 → a.align ∣ r ∧ (a.maxAddr ≠ LMB_ALLOC_ANYWHERE → r + a.size ≤ a.maxAddr) ∧
      (∃ i < lmb.memory.cnt, (lmb.memory.region i).base ≤ r ∧
        r + a.size ≤ (lmb.memory.region i).base + (lmb.memory.region i).size) ∧
      Disjoint (points ⟨r, a.size⟩) (covered lmb.reserved.extents) ∧
      points ⟨r, a.size⟩ ⊆ covered lmb'.reserved.extents)

/-- Whether the search looks at a memory region. -/
def AllocArgs.Searches (a : AllocArgs) (r : LmbProperty) : Prop :=
  a.size ≤ r.size ∧ (a.maxAddr = LMB_ALLOC_ANYWHERE ∨ r.base < a.maxAddr)

/-- Where a block in a memory region ends at the latest. -/
def AllocArgs.top (a : AllocArgs) (r : LmbProperty) : ℕ :=
  if a.maxAddr = LMB_ALLOC_ANYWHERE then r.base + r.size else min (r.base + r.size) a.maxAddr

/-- When the search of a memory region meets no end of `2 ^ 32` that it takes for 0: with a limit,
the region ends before that and the limit is not below the size; a reserved region that ends there
lies behind all blocks; the block that ends there, if the search begins with one, is free; and where
a reservation can end there, no reserved region begins at 0. -/
def AllocArgs.FitsIn (a : AllocArgs) (reserved : LmbRegion) (r : LmbProperty) : Prop :=
  r.base + r.size ≤ 2 ^ 32 ∧
    (a.maxAddr ≠ LMB_ALLOC_ANYWHERE → r.base + r.size < 2 ^ 32 ∧ a.size ≤ a.maxAddr) ∧
    (∀ j < reserved.cnt,
      let e := reserved.region j
      (e.base + e.size = 2 ^ 32 → a.top r ≤ e.base) ∧
        (a.top r = 2 ^ 32 → a.align ∣ a.size → e.base + e.size ≤ 2 ^ 32 - a.size)) ∧
    (2 ^ 32 < a.top r + a.align →
      reserved.Dummy ∨ ∀ j < reserved.cnt, (reserved.region j).base ≠ 0)

/-- When a request is served right: the reserved table has an entry and goes round nowhere, and the
request fits in every memory region that is searched. -/
def AllocArgs.Fits (a : AllocArgs) (lmb : Lmb) : Prop :=
  0 < lmb.reserved.cnt ∧ Unwound (2 ^ 32) lmb.reserved.extents ∧
    ∀ i < lmb.memory.cnt, a.Searches (lmb.memory.region i) →
      a.FitsIn lmb.reserved (lmb.memory.region i)

variable {lmb : Lmb} {a : AllocArgs}

theorem AllocArgs.top_le {r : LmbProperty} : a.top r ≤ r.base + r.size := by
  unfold AllocArgs.top
  split_ifs
  · exact le_rfl
  · exact min_le_left _ _

theorem AllocArgs.top_le_max {r : LmbProperty} (h : a.maxAddr ≠ LMB_ALLOC_ANYWHERE) :
    a.top r ≤ a.maxAddr := by
  unfold AllocArgs.top
  rw [if_neg h]
  exact min_le_right _ _

/-- Where the search in a memory region begins. -/
theorem allocStart_some {rgn : LmbRegion} {r : LmbProperty}
    (h : a.Searches r → a.FitsIn rgn r) {base : ℕ}
    (hs : allocStart a.size a.align a.maxAddr r = some base) :
    a.FitsIn rgn r ∧ base + a.size ≤ a.top r ∧ base < 2 ^ 32 ∧ a.align ∣ base := by
  obtain ⟨k, hk, ha⟩ := a.align_pow
  have hmax := a.max_lt
  unfold allocStart at hs
  split_ifs at hs with hsize hany hbelow
  · have hfits := h ⟨not_lt.1 hsize, Or.inl hany⟩
    obtain rfl := Option.some.inj hs
    have hdown := alignDown_le ha hk (sub32 (u32 (r.base + r.size)) a.size)
    have hstart : sub32 (u32 (r.base + r.size)) a.size + a.size ≤ r.base + r.size ∧
        sub32 (u32 (r.base + r.size)) a.size < 2 ^ 32 := by
      have hend := hfits.1
      unfold sub32 toU32 u32
      omega
    refine ⟨hfits, ?_, hdown.trans_lt hstart.2, dvd_alignDown ha hk _⟩
    rw [AllocArgs.top, if_pos hany]
    omega
  · have hfits := h ⟨not_lt.1 hsize, Or.inr hbelow⟩
    obtain ⟨hend, hfit⟩ := hfits.2.1 hany
    obtain rfl := Option.some.inj hs
    have hmin : a.size ≤ min (r.base + r.size) a.maxAddr := le_min (by omega) hfit
    rw [u32_of_lt hend, sub32_of_le hmin (by omega)]
    have hdown := alignDown_le ha hk (min (r.base + r.size) a.maxAddr - a.size)
    refine ⟨hfits, ?_, by omega, dvd_alignDown ha hk _⟩
    rw [AllocArgs.top, if_neg hany]
    omega

/-- The block that a search begins with is free if it ends at `2 ^ 32`. -/
theorem first_free {rgn : LmbRegion} {r : LmbProperty} (h : a.FitsIn rgn r) {base : ℕ}
    (hle : base + a.size ≤ a.top r) (hdvd : a.align ∣ base) (hend : base + a.size = 2 ^ 32) :
    ∀ i < rgn.cnt, (rgn.region i).base + (rgn.region i).size ≤ base := by
  intro i hi
  obtain ⟨k, hk, ha⟩ := a.align_pow
  have htop : a.top r = 2 ^ 32 := le_antisymm (AllocArgs.top_le.trans h.1) (hend ▸ hle)
  have hall : a.align ∣ base + a.size := by
    rw [hend, ha]
    exact Nat.pow_dvd_pow 2 hk.le
  have hfree := (h.2.2.1 i hi).2 htop ((Nat.dvd_add_right hdvd).1 hall)
  omega

/-- The reservation of a block does not go round. -/
theorem reserve_unwound {rgn : LmbRegion} {r : LmbProperty} (h : a.FitsIn rgn r)
    (hin : Unwound (2 ^ 32) rgn.extents) {base : ℕ} (h0 : base ≠ 0) (hlt : base < 2 ^ 32)
    (hdvd : a.align ∣ base) (hle : base + a.size ≤ a.top r) :
    a.size ≤ lmbAlignUp a.size a.align ∧ (¬rgn.Dummy →
      Unwound (2 ^ 32) (⟨base, lmbAlignUp a.size a.align⟩ :: rgn.extents)) := by
  obtain ⟨k, hk, ha⟩ := a.align_pow
  have htop : a.top r ≤ 2 ^ 32 := AllocArgs.top_le.trans h.1
  obtain ⟨hup1, hup2, hup3⟩ := alignUp_bounds ha hk a.size hdvd (hle.trans htop)
    (Nat.pos_of_ne_zero h0)
  refine ⟨hup1, fun hv => hin.insert hlt (by dsimp only; omega) hup3 fun f hf =>
    ⟨fun hend => ?_, ?_⟩⟩
  · obtain ⟨j, hj, rfl⟩ := mem_extents.1 hf
    rw [stop] at hend
    dsimp only at hend
    exact (h.2.2.2 (by omega)).resolve_left hv j hj
  · exact fun hz => absurd hz h0

/-- The search of the memory regions below `n`. -/
theorem allocLoop_right (h : a.Fits lmb) (hcl : lmb.reserved.cnt ≤ MAX_LMB_REGIONS) : ∀ n ≤
    lmb.memory.cnt,
    ∃ r lmb', allocLoop lmb a.size a.align a.maxAddr n = some (r, lmb') ∧ (r = 0 → lmb' = lmb) ∧
      (r ≠ 0 → a.align ∣ r ∧ (a.maxAddr ≠ LMB_ALLOC_ANYWHERE → r + a.size ≤ a.maxAddr) ∧
        (∃ i < lmb.memory.cnt, (lmb.memory.region i).base ≤ r ∧
          r + a.size ≤ (lmb.memory.region i).base + (lmb.memory.region i).size) ∧
        Disjoint (points ⟨r, a.size⟩) (covered lmb.reserved.extents) ∧
        points ⟨r, a.size⟩ ⊆ covered lmb'.reserved.extents)
  | 0, _ => ⟨0, lmb, rfl, fun _ => rfl, fun h => absurd rfl h⟩
  | i + 1, hn => by
    have ih := allocLoop_right h hcl i (by omega)
    obtain ⟨k, hk, ha⟩ := a.align_pow
    rw [allocLoop]
    rcases hs : allocStart a.size a.align a.maxAddr (lmb.memory.region i) with _ | base
    · exact ih
    obtain ⟨hfits, hle, hlt, hdvd⟩ := allocStart_some (h.2.2 i hn) hs
    obtain ⟨o, hw, ho⟩ := allocWhile_spec h.2.1 ha hk (lmb.memory.region i).base
      (AllocArgs.top_le.trans hfits.1) (fun j hj => (hfits.2.2.1 j hj).1) (base + 1) base
      (Nat.lt_succ_self _) hlt hdvd hle (first_free hfits hle hdvd)
    dsimp only
    rw [hw]
    rcases o with _ | r
    · exact ih
    obtain ⟨hr0, hrlt, hrlow, hrdvd, hrtop, hfree⟩ := ho r rfl
    obtain ⟨hup, hin⟩ := reserve_unwound hfits h.2.1 hr0 hrlt hrdvd hrtop
    obtain ⟨rc, rgn, hadd, hfail, hcov⟩ := addRegion_covers h.1
      (hcl.trans_lt (by decide : MAX_LMB_REGIONS < 2 ^ 32)) hin
    dsimp only
    rw [hadd]
    refine ⟨_, _, rfl, fun hz => ?_, fun hz => ?_⟩
    · split_ifs at hz with hrc
      · rw [hfail hrc]
      · exact absurd hz hr0
    · split_ifs at hz ⊢ with hrc
      · exact absurd rfl hz
      refine ⟨hrdvd, fun hne => hrtop.trans (AllocArgs.top_le_max hne),
        ⟨i, hn, hrlow, hrtop.trans AllocArgs.top_le⟩, ?_,
        (points_subset le_rfl (by omega)).trans (hcov (not_lt.1 hrc))⟩
      refine Set.disjoint_left.2 fun x hx hcx => ?_
      obtain ⟨e, he, hxe⟩ := hcx
      obtain ⟨j, hj, rfl⟩ := mem_extents.1 he
      have hx1 := hx.1
      have hx2 := hx.2
      have hx3 := hxe.1
      have hx4 := hxe.2
      rw [LmbProperty.extent_start] at hx3
      rw [LmbProperty.extent_stop] at hx4
      unfold stop at hx2
      dsimp only at hx1 hx2
      have := hfree j hj
      omega

/-- A request that fits is answered right. -/
theorem allocBase_right (h : a.Fits lmb) (hcl : lmb.reserved.cnt ≤ MAX_LMB_REGIONS) :
    AllocRight lmb a := allocLoop_right h hcl _ le_rfl

/-- A call of the block allocator, or of one of the functions that change the tables. -/
inductive LmbCall where
  | op (o : LmbOp)
  | alloc (a : AllocArgs)

/-- In a run, of every request in the state it meets. -/
def EveryAlloc (p : Lmb → AllocArgs → Prop) : List LmbCall → Lmb → Prop
  | [], _ => True
  | .op o :: cs, lmb =>
    match lmbStep lmb o with
    | none => True
    | some (_, lmb) => EveryAlloc p cs lmb
  | .alloc a :: cs, lmb => p lmb a ∧
    match lmb.alloc a with
    | none => True
    | some (_, lmb) => EveryAlloc p cs lmb

theorem allocLoop_cnt_le {size align maxAddr : ℕ} (hcl : lmb.reserved.cnt ≤ MAX_LMB_REGIONS) :
    ∀ {n r : ℕ} {lmb' : Lmb}, allocLoop lmb size align maxAddr n = some (r, lmb') →
      lmb'.reserved.cnt ≤ MAX_LMB_REGIONS
  | 0, r, lmb', h => by
    obtain ⟨-, rfl⟩ := Prod.mk.inj (Option.some.inj h)
    exact hcl
  | i + 1, r, lmb', h => by
    rw [allocLoop] at h
    split at h
    · exact allocLoop_cnt_le hcl h
    · split at h
      · cases h
      · exact allocLoop_cnt_le hcl h
      · split at h
        · cases h
        · rename_i hadd
          obtain ⟨-, rfl⟩ := Prod.mk.inj (Option.some.inj h)
          exact addRegion_cnt_le hcl hadd

/-- No call makes the reserved table longer than it may be. -/
theorem lmbStep_cnt_le {op : LmbOp} {rc : ℤ} {lmb' : Lmb} (h : lmbStep lmb op = some (rc, lmb'))
    (hcl : lmb.reserved.cnt ≤ MAX_LMB_REGIONS) : lmb'.reserved.cnt ≤ MAX_LMB_REGIONS := by
  cases op with
  | add base size =>
    rw [lmbStep, lmbAdd, Option.map_eq_some_iff] at h
    obtain ⟨r, -, heq⟩ := h
    obtain ⟨-, rfl⟩ := Prod.mk.inj heq
    exact hcl
  | reserve base size =>
    rw [lmbStep, lmbReserve, Option.map_eq_some_iff] at h
    obtain ⟨r, hadd, heq⟩ := h
    obtain ⟨-, rfl⟩ := Prod.mk.inj heq
    exact addRegion_cnt_le hcl hadd
  | free base size =>
    rw [lmbStep, lmbFree, Option.map_eq_some_iff] at h
    obtain ⟨r, hfree, heq⟩ := h
    obtain ⟨-, rfl⟩ := Prod.mk.inj heq
    exact freeRegion_cnt_le hcl hfree

theorem everyAlloc_right : ∀ (cs : List LmbCall) {lmb : Lmb},
    lmb.reserved.cnt ≤ MAX_LMB_REGIONS → EveryAlloc (fun lmb a => a.Fits lmb) cs lmb →
    EveryAlloc AllocRight cs lmb
  | [], _, _, _ => trivial
  | .op o :: cs, lmb, hcl, h => by
    rw [EveryAlloc] at h ⊢
    rcases hc : lmbStep lmb o with _ | ⟨rc, lmb'⟩ <;> rw [hc] at h <;> dsimp only at h ⊢
    exact everyAlloc_right cs (lmbStep_cnt_le hc hcl) h
  | .alloc a :: cs, lmb, hcl, h => by
    rw [EveryAlloc] at h ⊢
    refine ⟨allocBase_right h.1 hcl, ?_⟩
    have hrest := h.2
    rcases hc : lmb.alloc a with _ | ⟨r, lmb'⟩ <;> rw [hc] at hrest <;> dsimp only at hrest ⊢
    exact everyAlloc_right cs (allocLoop_cnt_le hcl hc) hrest

/-- In every run of calls from `lmb_init` whose requests fit, each of them is answered right. -/
theorem lmb_alloc_right (old : Lmb) (cs : List LmbCall)
    (h : EveryAlloc (fun lmb a => a.Fits lmb) cs (lmbInit old)) :
    EveryAlloc AllocRight cs (lmbInit old) :=
  everyAlloc_right cs (by decide : 1 ≤ MAX_LMB_REGIONS) h

instance (a : AllocArgs) (r : LmbProperty) : Decidable (a.Searches r) :=
  inferInstanceAs (Decidable (_ ∧ (_ ∨ _)))

instance (a : AllocArgs) (rgn : LmbRegion) (r : LmbProperty) : Decidable (a.FitsIn rgn r) :=
  inferInstanceAs (Decidable (_ ∧ (_ → _ ∧ _) ∧ (∀ j < _, (_ → _) ∧ (_ → _ → _)) ∧
    (_ → _ ∨ ∀ j < _, _ ≠ _)))

instance (lmb : Lmb) (a : AllocArgs) : Decidable (a.Fits lmb) :=
  inferInstanceAs (Decidable (_ ∧ _ ∧ ∀ i < _, _ → _))

instance decEveryAlloc (p : Lmb → AllocArgs → Prop) [∀ lmb a, Decidable (p lmb a)] :
    ∀ (cs : List LmbCall) (lmb : Lmb), Decidable (EveryAlloc p cs lmb)
  | [], _ => isTrue trivial
  | .op o :: cs, lmb =>
    show Decidable (match lmbStep lmb o with
      | none => True
      | some (_, lmb) => EveryAlloc p cs lmb) from
    match lmbStep lmb o with
    | none => isTrue trivial
    | some (_, lmb) => decEveryAlloc p cs lmb
  | .alloc a :: cs, lmb =>
    let rest : Decidable (match lmb.alloc a with
        | none => True
        | some (_, lmb) => EveryAlloc p cs lmb) :=
      match lmb.alloc a with
      | none => isTrue trivial
      | some (_, lmb) => decEveryAlloc p cs lmb
    @instDecidableAnd _ _ _ rest

/-- A page below a limit in a bank of memory. -/
def pageArgs : AllocArgs :=
  ⟨0x1000, 0x1000, 0x8000a000, by decide, ⟨12, by decide, rfl⟩, by decide⟩

theorem lmb_alloc_right_page : EveryAlloc AllocRight
    [.op (.add 0x80000000 0x10000000), .op (.reserve 0x80009000 0x1000), .alloc pageArgs]
    (lmbInit zeroLmb) :=
  lmb_alloc_right _ _ (by decide)

/-- A request for more than lies below its limit. -/
def lowArgs : AllocArgs := ⟨0x1000, 1, 0x100, by decide, ⟨0, by decide, rfl⟩, by decide⟩

/-- A bank of memory, nothing of it reserved. -/
def bankLmb : Lmb := ⟨zeroLmb.memory.init.set 0 ⟨0, 0x10000⟩, zeroLmb.reserved.init⟩

/-- The size is taken off a limit that is smaller: the block lies outside all memory. -/
theorem lmb_alloc_fails :
    ¬∀ (old : Lmb) (cs : List LmbCall), EveryAlloc AllocRight cs (lmbInit old) := by
  intro h
  have hall := h zeroLmb [.op (.add 0 0x10000), .alloc lowArgs]
  have hstep : lmbStep (lmbInit zeroLmb) (.add 0 0x10000) = some (0, bankLmb) := rfl
  rw [EveryAlloc, hstep] at hall
  obtain ⟨r, lmb', halloc, -, hright⟩ := hall.1
  have hval : (bankLmb.alloc lowArgs).map Prod.fst = some 0xfffff100 := by decide
  rw [halloc, Option.map_some, Option.some.injEq] at hval
  change r = 0xfffff100 at hval
  obtain ⟨-, -, ⟨i, hi, -, hin⟩, -⟩ := hright (by rw [hval]; decide)
  obtain rfl : i = 0 := Nat.lt_one_iff.1 hi
  rw [hval] at hin
  exact absurd hin (by decide)

end Requests

end InfotmUboot
