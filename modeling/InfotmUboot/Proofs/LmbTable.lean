import InfotmUboot.Lmb
import InfotmUboot.Lib.Extent

/-!
# The tables of memory blocks

A valid table is a list of extents in order with room between them. On one, `lmb_add_region` adds
its range if that overlaps no region (`addRegion_valid`), and `lmb_free` takes its range out
(`freeRegion_valid`).
-/

namespace InfotmUboot

open Lib Lib.Extent

theorem sub32_of_le {a b : ℕ} (hb : b ≤ a) (ha : a < 2 ^ 32) : sub32 a b = a - b := by
  unfold sub32 toU32
  omega

def LmbProperty.extent (r : LmbProperty) : Extent := ⟨r.base, r.size⟩

@[simp] theorem LmbProperty.extent_start (r : LmbProperty) : r.extent.start = r.base := rfl

@[simp] theorem LmbProperty.extent_stop (r : LmbProperty) : r.extent.stop = r.base + r.size := rfl

namespace LmbRegion

variable (rgn : LmbRegion)

/-- The regions of a table. -/
def extents : List Extent := (List.range rgn.cnt).map fun i => (rgn.region i).extent

def front (i : ℕ) : List Extent := (List.range i).map fun j => (rgn.region j).extent

def back (i : ℕ) : List Extent :=
  (List.range (rgn.cnt - 1 - i)).map fun k => (rgn.region (i + 1 + k)).extent

variable {rgn} {i : ℕ}

theorem mem_extents {e : Extent} : e ∈ rgn.extents ↔ ∃ i < rgn.cnt, (rgn.region i).extent = e := by
  simp [extents]

theorem mem_front {e : Extent} : e ∈ rgn.front i ↔ ∃ j < i, (rgn.region j).extent = e := by
  simp [front]

theorem mem_back {e : Extent} :
    e ∈ rgn.back i ↔ ∃ j, i < j ∧ j < rgn.cnt ∧ (rgn.region j).extent = e := by
  simp only [back, List.mem_map, List.mem_range]
  constructor
  · rintro ⟨k, hk, rfl⟩
    exact ⟨i + 1 + k, by omega, by omega, rfl⟩
  · rintro ⟨j, hij, hj, rfl⟩
    refine ⟨j - (i + 1), by omega, ?_⟩
    rw [show i + 1 + (j - (i + 1)) = j by omega]

theorem extents_split (h : i < rgn.cnt) :
    rgn.extents = rgn.front i ++ (rgn.region i).extent :: rgn.back i := by
  obtain ⟨m, hm⟩ : ∃ m, rgn.cnt = i + (m + 1) := ⟨rgn.cnt - i - 1, by omega⟩
  rw [extents, front, back, hm, List.range_add, List.range_succ_eq_map,
    show i + (m + 1) - 1 - i = m by omega]
  simp [Function.comp_def, Nat.add_comm, Nat.add_left_comm]

@[simp] theorem set_cnt (i : ℕ) (r : LmbProperty) : (rgn.set i r).cnt = rgn.cnt := rfl

@[simp] theorem set_region_self (i : ℕ) (r : LmbProperty) : (rgn.set i r).region i = r := if_pos rfl

theorem set_region_ne (r : LmbProperty) {j : ℕ} (h : j ≠ i) :
    (rgn.set i r).region j = rgn.region j := if_neg h

theorem front_set (r : LmbProperty) : (rgn.set i r).front i = rgn.front i := by
  refine List.map_congr_left fun j hj => ?_
  rw [set_region_ne r (by have := List.mem_range.1 hj; omega)]

theorem back_set (r : LmbProperty) : (rgn.set i r).back i = rgn.back i := by
  refine List.map_congr_left fun k _ => ?_
  rw [set_region_ne r (by omega)]

theorem front_succ (i : ℕ) : rgn.front (i + 1) = rgn.front i ++ [(rgn.region i).extent] := by
  rw [front, List.range_succ, List.map_append, List.map_singleton, ← front]

theorem back_succ (h : i + 1 < rgn.cnt) :
    rgn.back i = (rgn.region (i + 1)).extent :: rgn.back (i + 1) := by
  obtain ⟨m, hm⟩ : ∃ m, rgn.cnt - 1 - i = m + 1 := ⟨rgn.cnt - 1 - i - 1, by omega⟩
  rw [back, back, hm, List.range_succ_eq_map, show rgn.cnt - 1 - (i + 1) = m by omega]
  simp [Function.comp_def, Nat.add_comm, Nat.add_left_comm]

theorem extents_set (h : i < rgn.cnt) (r : LmbProperty) :
    (rgn.set i r).extents = rgn.front i ++ r.extent :: rgn.back i := by
  have hset : i < (rgn.set i r).cnt := h
  rw [extents_split hset, front_set, back_set, set_region_self]

theorem extents_set_subset (h : i < rgn.cnt) (r : LmbProperty) :
    (rgn.set i r).extents ⊆ r.extent :: rgn.extents := by
  intro e he
  rw [extents_set h] at he
  rw [extents_split h]
  rcases List.mem_append.1 he with he | he
  · exact List.mem_cons_of_mem _ (List.mem_append_left _ he)
  · rcases List.mem_cons.1 he with rfl | he
    · exact List.mem_cons_self
    · exact List.mem_cons_of_mem _ (List.mem_append_right _ (List.mem_cons_of_mem _ he))

end LmbRegion

open LmbRegion

section Loops

variable {rgn : LmbRegion}

theorem removeLoop_eq : ∀ (n i : ℕ) (rgn : LmbRegion), removeLoop n i rgn =
    { rgn with region := fun j => if i ≤ j ∧ j < i + n then rgn.region (j + 1) else rgn.region j }
  | 0, i, rgn => by
    have h : ∀ j, ¬(i ≤ j ∧ j < i + 0) := fun j => by omega
    simp only [removeLoop, h, if_false]
  | n + 1, i, rgn => by
    rw [removeLoop, removeLoop_eq n]
    simp only [LmbRegion.set, LmbRegion.mk.injEq, true_and]
    funext j
    split_ifs <;> first | rfl | omega | (congr 1; omega)

theorem extents_remove {i : ℕ} (h : i < rgn.cnt) :
    ∃ rgn', lmbRemoveRegion rgn i = some rgn' ∧ rgn'.cnt = rgn.cnt - 1 ∧
      rgn'.extents = rgn.front i ++ rgn.back i := by
  rw [lmbRemoveRegion, if_neg (by omega), removeLoop_eq]
  refine ⟨_, rfl, rfl, ?_⟩
  have hcnt : rgn.cnt - 1 = i + (rgn.cnt - 1 - i) := by omega
  rw [extents, front, back]
  dsimp only
  generalize rgn.cnt - 1 - i = m at hcnt ⊢
  rw [hcnt, List.range_add, List.map_append, List.map_map]
  congr 1
  · refine List.map_congr_left fun j hj => ?_
    rw [if_neg (by have := List.mem_range.1 hj; omega)]
  · refine List.map_congr_left fun k hk => ?_
    dsimp only [Function.comp]
    rw [if_pos (by have := List.mem_range.1 hk; omega), show i + k + 1 = i + 1 + k by omega]

theorem insertLoop_eq (b s : ℕ) : ∀ (n : ℕ) (rgn : LmbRegion), ∃ p ≤ n,
    (∀ k, p ≤ k → k < n → b < (rgn.region k).base) ∧
    (0 < p → (rgn.region (p - 1)).base ≤ b) ∧
    insertLoop b s n rgn = { rgn with region := fun j =>
      if 0 < p ∧ j = p then ⟨b, s⟩ else if p < j ∧ j ≤ n then rgn.region (j - 1) else rgn.region j }
  | 0, rgn => by
    refine ⟨0, le_rfl, fun k _ hk => absurd hk (Nat.not_lt_zero k), fun h => absurd h (by omega),
      ?_⟩
    have h : ∀ j, ¬(0 < j ∧ j ≤ 0) := fun j => by omega
    simp only [insertLoop, h, lt_irrefl, false_and, if_false]
  | n + 1, rgn => by
    rw [insertLoop]
    split_ifs with hlt
    · obtain ⟨p, hp, habove, hbelow, heq⟩ := insertLoop_eq b s n (rgn.set (n + 1) (rgn.region n))
      have hsame : ∀ k, k < n + 1 → (rgn.set (n + 1) (rgn.region n)).region k = rgn.region k :=
        fun k hk => set_region_ne _ (by omega)
      refine ⟨p, by omega, fun k h1 h2 => ?_, fun h => ?_, ?_⟩
      · by_cases hk : k = n
        · exact hk ▸ hlt
        · have := habove k h1 (by omega)
          rwa [hsame k h2] at this
      · have := hbelow h
        rwa [hsame _ (by omega)] at this
      · rw [heq]
        simp only [LmbRegion.set, LmbRegion.mk.injEq, true_and]
        funext j
        split_ifs <;> first | rfl | omega | (congr 1; omega)
    · refine ⟨n + 1, le_rfl, fun k h1 h2 => by omega, fun _ => not_lt.1 hlt, ?_⟩
      simp only [LmbRegion.set, LmbRegion.mk.injEq, true_and]
      funext j
      split_ifs <;> first | rfl | omega

theorem addLoop_spec (rgn : LmbRegion) (b s : ℕ) : ∀ (n i : ℕ), match addLoop rgn b s n i with
    | none => ∃ j, i ≤ j ∧ j < i + n ∧ rgn.region j = ⟨b, s⟩
    | some (rgn', j, c) =>
      (∀ k, i ≤ k → k < j → rgn.region k ≠ ⟨b, s⟩ ∧
          lmbAddrsAdjacent b s (rgn.region k).base (rgn.region k).size = 0) ∧
        (c = 0 ∧ j = i + n ∧ rgn' = rgn ∨
          c = 1 ∧ i ≤ j ∧ j < i + n ∧ rgn.region j ≠ ⟨b, s⟩ ∧
            (lmbAddrsAdjacent b s (rgn.region j).base (rgn.region j).size > 0 ∧
                rgn' = rgn.set j ⟨sub32 (rgn.region j).base s, u32 ((rgn.region j).size + s)⟩ ∨
              lmbAddrsAdjacent b s (rgn.region j).base (rgn.region j).size < 0 ∧
                rgn' = rgn.set j ⟨(rgn.region j).base, u32 ((rgn.region j).size + s)⟩))
  | 0, i => ⟨fun k h1 h2 => absurd h2 (by omega), Or.inl ⟨rfl, rfl, rfl⟩⟩
  | n + 1, i => by
    rw [addLoop]
    dsimp only
    by_cases heq : (rgn.region i).base = b ∧ (rgn.region i).size = s
    · rw [if_pos heq]
      exact ⟨i, le_rfl, by omega, by rw [← heq.1, ← heq.2]⟩
    have hne : rgn.region i ≠ ⟨b, s⟩ := fun h => heq (by rw [h]; exact ⟨rfl, rfl⟩)
    rw [if_neg heq]
    split_ifs with hpos hneg
    · exact ⟨fun k h1 h2 => absurd h2 (by omega),
        Or.inr ⟨rfl, le_rfl, by omega, hne, Or.inl ⟨hpos, rfl⟩⟩⟩
    · exact ⟨fun k h1 h2 => absurd h2 (by omega),
        Or.inr ⟨rfl, le_rfl, by omega, hne, Or.inr ⟨hneg, rfl⟩⟩⟩
    · have hzero : lmbAddrsAdjacent b s (rgn.region i).base (rgn.region i).size = 0 := by omega
      have ih := addLoop_spec rgn b s n (i + 1)
      rcases hl : addLoop rgn b s n (i + 1) with _ | ⟨rgn', j, c⟩ <;> rw [hl]
        at ih <;> dsimp only at ih ⊢
      · obtain ⟨j, h1, h2, h3⟩ := ih
        exact ⟨j, by omega, by omega, h3⟩
      · obtain ⟨hbefore, hend⟩ := ih
        refine ⟨fun k h1 h2 => ?_, ?_⟩
        · by_cases hk : k = i
          · exact hk ▸ ⟨hne, hzero⟩
          · exact hbefore k (by omega) h2
        · rcases hend with ⟨h1, h2, h3⟩ | ⟨h1, h2, h3, h4⟩
          · exact Or.inl ⟨h1, by omega, h3⟩
          · exact Or.inr ⟨h1, by omega, by omega, h4⟩

theorem freeLoop_some (b stop : ℕ) : ∀ {n i j : ℕ}, freeLoop rgn b stop n i = some j →
    i ≤ j ∧ j < i + n ∧ (rgn.region j).base ≤ b ∧
      stop ≤ u32 ((rgn.region j).base + (rgn.region j).size)
  | 0, _, _, h => by cases h
  | n + 1, i, j, h => by
    rw [freeLoop] at h
    split_ifs at h with hin
    · obtain rfl := Option.some.inj h
      exact ⟨le_rfl, by omega, hin⟩
    · obtain ⟨h1, h2, h3⟩ := freeLoop_some b stop h
      exact ⟨by omega, by omega, h3⟩

end Loops

section Valid

variable {rgn : LmbRegion} {b s : ℕ}

/-- A table that is in order: its regions keep away from one another, round the end of the address
space too. -/
structure LmbRegion.Valid (rgn : LmbRegion) : Prop where
  cnt_le : rgn.cnt ≤ MAX_LMB_REGIONS
  spaced : Spaced rgn.extents
  inside : Unwound (2 ^ 32) rgn.extents

theorem LmbRegion.extent_mem {i : ℕ} (hi : i < rgn.cnt) : (rgn.region i).extent ∈ rgn.extents :=
  mem_extents.2 ⟨i, hi, rfl⟩

theorem LmbRegion.Valid.stop_le (h : rgn.Valid) {i : ℕ} (hi : i < rgn.cnt) :
    (rgn.region i).base + (rgn.region i).size ≤ 2 ^ 32 :=
  h.inside.stop_le _ (extent_mem hi)

theorem LmbRegion.Valid.split (h : rgn.Valid) {i : ℕ} (hi : i < rgn.cnt) :
    Spaced (rgn.front i ++ (rgn.region i).extent :: rgn.back i) := by
  rw [← extents_split hi]
  exact h.spaced

theorem LmbRegion.Valid.lt (h : rgn.Valid) {i j : ℕ} (hij : i < j) (hj : j < rgn.cnt) :
    (rgn.region i).base + (rgn.region i).size < (rgn.region j).base :=
  (spaced_middle.1 (h.split hj)).2.1 _ (mem_front.2 ⟨i, hij, rfl⟩)

/-- Another region in the place of one. -/
theorem LmbRegion.Valid.set (h : rgn.Valid) {i : ℕ} (hi : i < rgn.cnt) {r : LmbProperty}
    (h1 : ∀ j < i, (rgn.region j).base + (rgn.region j).size < r.base)
    (h2 : ∀ j, i < j → j < rgn.cnt → r.base + r.size < (rgn.region j).base)
    (h3 : Unwound (2 ^ 32) (r.extent :: rgn.extents)) : (rgn.set i r).Valid := by
  have hsplit := h.split hi
  refine ⟨h.cnt_le, ?_, h3.mono (extents_set_subset hi r)⟩
  rw [extents_set hi]
  refine hsplit.replace ?_ ?_
  · intro e he
    obtain ⟨j, hj, rfl⟩ := mem_front.1 he
    exact h1 j hj
  · intro e he
    obtain ⟨j, hij, hj, rfl⟩ := mem_back.1 he
    exact h2 j hij hj

/-- A region removed. -/
theorem LmbRegion.Valid.remove (h : rgn.Valid) {i : ℕ} (hi : i < rgn.cnt) {rgn' : LmbRegion}
    (hcnt : rgn'.cnt = rgn.cnt - 1) (hex : rgn'.extents = rgn.front i ++ rgn.back i) :
    rgn'.Valid := by
  have hcl := h.cnt_le
  refine ⟨by omega, ?_, ?_⟩
  · rw [hex]
    exact (spaced_middle.1 (h.split hi)).1
  · refine h.inside.mono fun e he => ?_
    rw [hex] at he
    rw [extents_split hi]
    rcases List.mem_append.1 he with he | he
    · exact List.mem_append_left _ he
    · exact List.mem_append_right _ (List.mem_cons_of_mem _ he)

theorem covered_set {i : ℕ} (hi : i < rgn.cnt) (r : LmbProperty) :
    covered (rgn.set i r).extents =
      covered (rgn.front i) ∪ (r.extent.points ∪ covered (rgn.back i)) := by
  rw [extents_set hi, covered_append, covered_cons]

theorem covered_split {i : ℕ} (hi : i < rgn.cnt) :
    covered rgn.extents =
      covered (rgn.front i) ∪ ((rgn.region i).extent.points ∪ covered (rgn.back i)) := by
  rw [extents_split hi, covered_append, covered_cons]

/-- Among extents that do not go round, those are adjacent that meet. -/
theorem adjacent_eq {es : List Extent} (h : Unwound (2 ^ 32) es) {r t : LmbProperty}
    (hr : r.extent ∈ es) (ht : t.extent ∈ es) :
    lmbAddrsAdjacent r.base r.size t.base t.size =
      if t.base = r.base + r.size then 1 else if r.base = t.base + t.size then -1 else 0 :=
  if_congr (h.meets_iff hr ht) rfl (if_congr (h.meets_iff ht hr) rfl rfl)

/-- A region that is not there yet comes into its place. -/
theorem insert_valid (h : rgn.Valid) (h0 : 0 < rgn.cnt) (h8 : rgn.cnt < MAX_LMB_REGIONS)
    (hb : Unwound (2 ^ 32) (⟨b, s⟩ :: rgn.extents))
    (hap : ∀ i < rgn.cnt, (rgn.region i).base + (rgn.region i).size < b ∨
      b + s < (rgn.region i).base) :
    (lmbInsert rgn b s).Valid ∧
      covered (lmbInsert rgn b s).extents = covered rgn.extents ∪ points ⟨b, s⟩ := by
  obtain ⟨p, hp, habove, hbelow, heq⟩ := insertLoop_eq b s rgn.cnt rgn
  have hlow : ∀ j < p, (rgn.region j).base + (rgn.region j).size < b := by
    intro j hj
    have hlast := hbelow (by omega)
    rcases hap j (by omega) with hj' | hj'
    · exact hj'
    · by_cases hjp : j = p - 1
      · subst hjp
        omega
      · have := h.lt (show j < p - 1 by omega) (by omega)
        omega
  have hhigh : ∀ j, p ≤ j → j < rgn.cnt → b + s < (rgn.region j).base := by
    intro j hj hjc
    rcases hap j hjc with hj' | hj'
    · have := habove j hj hjc
      omega
    · exact hj'
  have hins : lmbInsert rgn b s = ⟨rgn.cnt + 1, fun j =>
      if j = p then ⟨b, s⟩ else if p < j ∧ j ≤ rgn.cnt then rgn.region (j - 1)
        else rgn.region j⟩ := by
    rw [lmbInsert, heq]
    dsimp only
    by_cases hp0 : p = 0
    · subst hp0
      have hfirst := habove 0 le_rfl h0
      simp only [lt_irrefl, false_and, if_false, hfirst, if_true, LmbRegion.set]
    · have hfirst : ¬b < (rgn.region 0).base := by
        have := hlow 0 (by omega)
        omega
      have hz : ¬(p < 0 ∧ 0 ≤ rgn.cnt) := by omega
      have hz' : ¬0 = p := fun h => hp0 h.symm
      simp only [Nat.pos_of_ne_zero hp0, true_and, hz, hz', if_false, hfirst]
  have hex : (lmbInsert rgn b s).extents = rgn.front p ++ ⟨b, s⟩ ::
      (List.range (rgn.cnt - p)).map fun k => (rgn.region (p + k)).extent := by
    have hcnt : rgn.cnt + 1 = p + ((rgn.cnt - p) + 1) := by omega
    rw [hins, extents, front]
    dsimp only
    generalize hm : rgn.cnt - p = m at hcnt ⊢
    rw [hcnt, List.range_add, List.map_append, List.range_succ_eq_map, List.map_cons, List.map_map,
      List.map_cons, List.map_map]
    congr 1
    · refine List.map_congr_left fun j hj => ?_
      have := List.mem_range.1 hj
      rw [if_neg (by omega), if_neg (by omega)]
    · rw [Nat.add_zero, if_pos rfl]
      congr 1
      refine List.map_congr_left fun k hk => ?_
      have := List.mem_range.1 hk
      dsimp only [Function.comp]
      rw [if_neg (by omega), if_pos (by omega), show p + (k + 1) - 1 = p + k by omega]
  have hold : rgn.extents =
      rgn.front p ++ (List.range (rgn.cnt - p)).map fun k => (rgn.region (p + k)).extent := by
    have hcnt : rgn.cnt = p + (rgn.cnt - p) := by omega
    rw [extents, front]
    generalize rgn.cnt - p = m at hcnt ⊢
    rw [hcnt, List.range_add, List.map_append, List.map_map]
    rfl
  have hcnt : (lmbInsert rgn b s).cnt = rgn.cnt + 1 := by rw [hins]
  have hsp := h.spaced
  rw [hold] at hsp hb
  refine ⟨⟨?_, ?_, ?_⟩, ?_⟩
  · omega
  · rw [hex]
    refine spaced_middle.2 ⟨hsp, ?_, ?_⟩
    · intro e he
      obtain ⟨j, hj, rfl⟩ := mem_front.1 he
      exact hlow j hj
    · intro e he
      obtain ⟨k, hk, rfl⟩ := List.mem_map.1 he
      exact hhigh (p + k) (by omega) (by have := List.mem_range.1 hk; omega)
  · rw [hex]
    exact hb.mono List.perm_middle.subset
  · rw [hex, hold, covered_append, covered_cons, covered_append, Set.union_assoc]
    congr 1
    exact Set.union_comm _ _

/-- A region that grows up to the next one becomes one with it. -/
theorem coalesce_valid (h : rgn.Valid) {j : ℕ} (hj : j + 1 < rgn.cnt) {r : LmbProperty}
    (hstart : r.base = (rgn.region j).base) (hstop : r.base + r.size = (rgn.region (j + 1)).base) :
    ∃ rgn', lmbCoalesceRegions (rgn.set j r) j (j + 1) = some rgn' ∧ rgn'.Valid ∧ 0 < rgn'.cnt ∧
      covered rgn'.extents = covered (rgn.set j r).extents := by
  generalize hbig : (⟨r.base, r.size + (rgn.region (j + 1)).size⟩ : LmbProperty) = big
  have hbase : big.base = (rgn.region j).base := by rw [← hbig, ← hstart]
  have hstopb : big.base + big.size = (rgn.region (j + 1)).base + (rgn.region (j + 1)).size := by
    rw [← hbig]
    dsimp only
    omega
  have hin : Unwound (2 ^ 32) (big.extent :: rgn.extents) := by
    have hmem := extent_mem (show j < rgn.cnt by omega)
    refine h.inside.between (hbase.trans_lt (h.inside.start_lt _ hmem)) ⟨_, hmem, hbase.ge⟩
      ⟨_, extent_mem hj, hstopb.le⟩
  have hsize : u32 (r.size + (rgn.region (j + 1)).size) = r.size + (rgn.region (j + 1)).size := by
    have hlt : big.size < 2 ^ 32 := hin.size_lt (e := big.extent) List.mem_cons_self
    rw [← hbig] at hlt
    exact u32_of_lt hlt
  have hset : (rgn.set j r).set j big = rgn.set j big := by
    simp only [LmbRegion.set, LmbRegion.mk.injEq, true_and]
    funext k
    split_ifs <;> rfl
  obtain ⟨rgn', hrem, hcnt, hex⟩ := extents_remove
    (show j + 1 < (rgn.set j big).cnt from hj)
  have hfront : (rgn.set j big).front (j + 1) = rgn.front j ++ [big.extent] := by
    rw [front_succ, front_set, set_region_self]
  have hback : (rgn.set j big).back (j + 1) = rgn.back (j + 1) := by
    refine List.map_congr_left fun k _ => ?_
    rw [set_region_ne _ (by omega)]
  rw [hfront, hback, List.append_assoc, List.singleton_append] at hex
  have hsplit := h.split (show j < rgn.cnt by omega)
  rw [back_succ hj] at hsplit
  obtain ⟨hrest, hlow, hhigh⟩ := spaced_middle.1 hsplit
  have hnx := spaced_middle.1 hrest
  rw [set_cnt] at hcnt
  have hcl := h.cnt_le
  refine ⟨rgn', ?_, ⟨by omega, ?_, ?_⟩, by omega, ?_⟩
  · rw [lmbCoalesceRegions, set_region_self, set_region_ne r (by omega)]
    rw [hsize, hbig, hset]
    exact hrem
  · rw [hex]
    refine spaced_middle.2 ⟨hnx.1, ?_, ?_⟩
    · intro e he
      rw [LmbProperty.extent_start, ← hbig, hstart]
      exact hlow e he
    · intro e he
      rw [LmbProperty.extent_stop, hstopb]
      exact hnx.2.2 e he
  · refine hin.mono fun e he => ?_
    rw [hex] at he
    rcases List.mem_append.1 he with he | he
    · obtain ⟨k, hk, rfl⟩ := mem_front.1 he
      exact List.mem_cons_of_mem _ (extent_mem (by omega))
    · rcases List.mem_cons.1 he with rfl | he
      · exact List.mem_cons_self
      · obtain ⟨k, -, hk, rfl⟩ := mem_back.1 he
        exact List.mem_cons_of_mem _ (extent_mem hk)
  · have hmerge : big.extent.points = r.extent.points ∪ (rgn.region (j + 1)).extent.points := by
      rw [← hbig]
      exact points_merge (e := r.extent) (f := (rgn.region (j + 1)).extent) hstop
    rw [hex, covered_set (by omega), back_succ hj, covered_append, covered_cons, covered_cons,
      hmerge,
      Set.union_assoc]

/-- `lmb_add_region` of a range that overlaps no region: nothing is left out of the table, unless
there is no room for it. -/
theorem addRegion_valid (h : rgn.Valid) (h0 : 0 < rgn.cnt) (hb : Unwound (2 ^ 32) [⟨b, s⟩])
    (hap : ¬(rgn.cnt = 1 ∧ (rgn.region 0).size = 0) → (∃ i < rgn.cnt, rgn.region i = ⟨b, s⟩) ∨
      Unwound (2 ^ 32) (⟨b, s⟩ :: rgn.extents) ∧
        ∀ i < rgn.cnt, Apart ⟨b, s⟩ (rgn.region i).extent) :
    ∃ rc rgn', lmbAddRegion rgn b s = some (rc, rgn') ∧
      (0 ≤ rc → rgn'.Valid ∧ 0 < rgn'.cnt ∧
        covered rgn'.extents = covered rgn.extents ∪ points ⟨b, s⟩) := by
  rw [lmbAddRegion]
  by_cases hv : rgn.cnt = 1 ∧ (rgn.region 0).size = 0
  · rw [if_pos hv]
    have hone : (rgn.set 0 ⟨b, s⟩).extents = [⟨b, s⟩] := by
      rw [extents, set_cnt, hv.1]
      rfl
    refine ⟨0, _, rfl, fun _ => ⟨⟨h.cnt_le, ?_, ?_⟩, h0, ?_⟩⟩
    · rw [hone]
      exact List.pairwise_singleton _ _
    · rw [hone]
      exact hb
    have hempty : (rgn.region 0).extent.points = ∅ := by
      unfold points
      rw [LmbProperty.extent_stop, hv.2, Nat.add_zero, LmbProperty.extent_start, Set.Ico_self]
    rw [covered_set h0, covered_split h0, hempty, Set.empty_union, Set.union_assoc]
    congr 1
    exact Set.union_comm _ _
  rw [if_neg hv]
  have hspec := addLoop_spec rgn b s rgn.cnt 0
  rcases hl : addLoop rgn b s rgn.cnt 0 with _ | ⟨rgn1, j, c⟩
  · -- the region is there
    rw [hl] at hspec
    obtain ⟨j, -, hj, hreg⟩ := hspec
    refine ⟨0, rgn, rfl, fun _ => ⟨h, h0, ?_⟩⟩
    rw [Set.union_eq_self_of_subset_right]
    exact points_subset_covered (mem_extents.2 ⟨j, by omega, by rw [hreg]; rfl⟩)
  rw [hl] at hspec
  dsimp only at hspec ⊢
  obtain ⟨hbefore, hend⟩ := hspec
  have hin : Unwound (2 ^ 32) (⟨b, s⟩ :: rgn.extents) := by
    rcases hap hv with ⟨k, hk, hreg⟩ | ⟨hin, -⟩
    · have hmem : (⟨b, s⟩ : Extent) ∈ rgn.extents := mem_extents.2 ⟨k, hk, by rw [hreg]; rfl⟩
      exact h.inside.mono (List.cons_subset.2 ⟨hmem, List.Subset.refl _⟩)
    · exact hin
  have hadj : ∀ k < rgn.cnt, lmbAddrsAdjacent b s (rgn.region k).base (rgn.region k).size =
      if (rgn.region k).base = b + s then 1
      else if b = (rgn.region k).base + (rgn.region k).size then -1 else 0 :=
    fun k hk => adjacent_eq (r := ⟨b, s⟩) hin List.mem_cons_self
      (List.mem_cons_of_mem _ (extent_mem hk))
  have hno : ∀ i < rgn.cnt, (rgn.region i).base + (rgn.region i).size ≤ b ∨
      b + s ≤ (rgn.region i).base := by
    rcases hap hv with ⟨k, hk, hreg⟩ | ⟨-, hno⟩
    · exfalso
      rcases hend with ⟨-, hj, -⟩ | ⟨-, -, hj, hne, hside⟩
      · exact (hbefore k (by omega) (by omega)).1 hreg
      · rcases Nat.lt_trichotomy k j with hkj | rfl | hkj
        · exact (hbefore k (by omega) hkj).1 hreg
        · exact hne hreg
        · have hlt := h.lt hkj hk
          rw [hreg] at hlt
          rw [hadj j (by omega)] at hside
          dsimp only at hlt
          rw [if_neg (by omega), if_neg (by omega)] at hside
          omega
    · exact fun i hi => (hno i hi).symm
  have hsub : sub32 rgn.cnt 1 = rgn.cnt - 1 :=
    sub32_of_le (by omega) (by have := h.cnt_le; unfold MAX_LMB_REGIONS at this; omega)
  have hclear : ∀ k < j, k < rgn.cnt → (rgn.region k).base + (rgn.region k).size < b ∨
      b + s < (rgn.region k).base := by
    intro k hkj hk
    have hz := (hbefore k (by omega) hkj).2
    rw [hadj k hk] at hz
    have hor := hno k hk
    split_ifs at hz <;> omega
  rcases hend with ⟨rfl, hj, rfl⟩ | ⟨rfl, -, hj, -, ⟨hpos, rfl⟩ | ⟨hneg, rfl⟩⟩
  · -- next to no region
    rw [if_neg (by rw [hsub]; omega), if_neg (by omega)]
    split_ifs with hfull
    · exact ⟨-1, _, rfl, fun hc => absurd hc (by omega)⟩
    · obtain ⟨hval, hcov⟩ := insert_valid h h0 (by omega) hin fun k hk => hclear k (by omega) hk
      exact ⟨0, _, rfl, fun _ => ⟨hval, Nat.succ_pos _, hcov⟩⟩
  · -- before the region at `j`
    rw [hadj j (by omega)] at hpos
    have hbase : (rgn.region j).base = b + s := by
      by_contra hc
      rw [if_neg hc] at hpos
      split_ifs at hpos <;> omega
    have hmem := extent_mem (show j < rgn.cnt by omega)
    have hgrown : Unwound (2 ^ 32)
        (LmbProperty.extent ⟨b, s + (rgn.region j).size⟩ :: ⟨b, s⟩ :: rgn.extents) := by
      refine hin.between (hin.start_lt ⟨b, s⟩ List.mem_cons_self)
        ⟨⟨b, s⟩, List.mem_cons_self, le_rfl⟩ ⟨_, List.mem_cons_of_mem _ hmem, ?_⟩
      rw [LmbProperty.extent_stop, LmbProperty.extent_stop]
      dsimp only
      omega
    have hsize : s + (rgn.region j).size < 2 ^ 32 :=
      hgrown.size_lt (e := LmbProperty.extent ⟨b, s + (rgn.region j).size⟩) List.mem_cons_self
    have hjlt : (rgn.region j).base < 2 ^ 32 := h.inside.start_lt _ hmem
    have hnew : (⟨sub32 (rgn.region j).base s, u32 ((rgn.region j).size + s)⟩ : LmbProperty) =
        ⟨b, s + (rgn.region j).size⟩ := by
      rw [sub32_of_le (by omega) hjlt, u32_of_lt (by omega), LmbProperty.mk.injEq]
      omega
    rw [hnew, set_cnt, hsub]
    have hnadj : ¬(j < rgn.cnt - 1 ∧
        lmbRegionsAdjacent (rgn.set j ⟨b, s + (rgn.region j).size⟩) j (j + 1) ≠ 0) := by
      rintro ⟨hlast, hne⟩
      have hlt := h.lt (show j < j + 1 by omega) (by omega)
      rw [lmbRegionsAdjacent, set_region_self, set_region_ne _ (by omega),
        adjacent_eq hgrown List.mem_cons_self (List.mem_cons_of_mem _
          (List.mem_cons_of_mem _ (extent_mem (by omega))))] at hne
      dsimp only at hne
      rw [if_neg (by omega), if_neg (by omega)] at hne
      exact hne rfl
    rw [if_neg hnadj, if_pos (by decide)]
    refine ⟨1, _, rfl, fun _ => ⟨h.set (by omega) ?_ ?_ (hgrown.mono ?_), h0, ?_⟩⟩
    · intro k hk
      have := hclear k hk (by omega)
      have := h.lt hk (by omega)
      dsimp only
      omega
    · intro k hk hkc
      have := h.lt hk hkc
      dsimp only
      omega
    · exact List.cons_subset_cons _ (List.subset_cons_self _ _)
    · have hmerge : (LmbProperty.extent ⟨b, s + (rgn.region j).size⟩).points =
          points ⟨b, s⟩ ∪ (rgn.region j).extent.points :=
        points_merge (e := ⟨b, s⟩) (f := (rgn.region j).extent) hbase.symm
      rw [covered_set (by omega), covered_split (i := j) (by omega), hmerge,
        Set.union_comm (points ⟨b, s⟩), Set.union_right_comm (rgn.region j).extent.points,
        Set.union_assoc (covered (rgn.front j))]
  · -- behind the region at `j`
    rw [hadj j (by omega)] at hneg
    have hbase : b = (rgn.region j).base + (rgn.region j).size := by
      by_contra hc
      rw [if_neg hc] at hneg
      split_ifs at hneg <;> omega
    have hmem := extent_mem (show j < rgn.cnt by omega)
    have hgrown : Unwound (2 ^ 32)
        (LmbProperty.extent ⟨(rgn.region j).base, (rgn.region j).size + s⟩ ::
          ⟨b, s⟩ :: rgn.extents) := by
      refine hin.between (h.inside.start_lt (rgn.region j).extent hmem)
        ⟨_, List.mem_cons_of_mem _ hmem, le_rfl⟩ ⟨⟨b, s⟩, List.mem_cons_self, ?_⟩
      rw [LmbProperty.extent_stop, stop]
      dsimp only
      omega
    have hsize : (rgn.region j).size + s < 2 ^ 32 := hgrown.size_lt
      (e := LmbProperty.extent ⟨(rgn.region j).base, (rgn.region j).size + s⟩) List.mem_cons_self
    have hnextadj : ∀ hj : j + 1 < rgn.cnt, lmbRegionsAdjacent
        (rgn.set j ⟨(rgn.region j).base, (rgn.region j).size + s⟩) j (j + 1) =
          if (rgn.region (j + 1)).base = b + s then 1 else if (rgn.region j).base =
            (rgn.region (j + 1)).base + (rgn.region (j + 1)).size then -1 else 0 := by
      intro hj
      rw [lmbRegionsAdjacent, set_region_self, set_region_ne _ (by omega),
        adjacent_eq hgrown List.mem_cons_self (List.mem_cons_of_mem _
          (List.mem_cons_of_mem _ (extent_mem hj)))]
      dsimp only
      rw [hbase, Nat.add_assoc]
    have hmerge : (LmbProperty.extent ⟨(rgn.region j).base, (rgn.region j).size + s⟩).points =
        (rgn.region j).extent.points ∪ points ⟨b, s⟩ :=
      points_merge (e := (rgn.region j).extent) (f := ⟨b, s⟩) hbase.symm
    have hcov : covered (rgn.set j ⟨(rgn.region j).base, (rgn.region j).size + s⟩).extents =
        covered rgn.extents ∪ points ⟨b, s⟩ := by
      rw [covered_set (by omega), covered_split (i := j) (by omega), hmerge,
        Set.union_right_comm (rgn.region j).extent.points, Set.union_assoc (covered (rgn.front j))]
    have hhigh : ∀ k, j < k → k < rgn.cnt → b + s ≤ (rgn.region k).base := by
      intro k hk hkc
      have hlt := h.lt hk hkc
      have hor := hno k hkc
      omega
    rw [u32_of_lt hsize, set_cnt, hsub]
    by_cases hnext : j < rgn.cnt - 1 ∧ (rgn.region (j + 1)).base = b + s
    · obtain ⟨rgn', hco, hval, hpos, hcov'⟩ := coalesce_valid h (j := j)
        (r := ⟨(rgn.region j).base, (rgn.region j).size + s⟩) (by omega) rfl
        (by dsimp only; omega)
      rw [if_pos, hco]
      · exact ⟨1 + 1, rgn', rfl, fun _ => ⟨hval, hpos, hcov'.trans hcov⟩⟩
      · refine ⟨hnext.1, ?_⟩
        rw [hnextadj (by omega), if_pos hnext.2]
        decide
    · have hnadj : ¬(j < rgn.cnt - 1 ∧ lmbRegionsAdjacent
          (rgn.set j ⟨(rgn.region j).base, (rgn.region j).size + s⟩) j (j + 1) ≠ 0) := by
        rintro ⟨hlast, hne⟩
        have hlt := h.lt (show j < j + 1 by omega) (by omega)
        rw [hnextadj (by omega), if_neg fun heq => hnext ⟨hlast, heq⟩, if_neg (by omega)] at hne
        exact hne rfl
      rw [if_neg hnadj, if_pos (by decide)]
      refine ⟨1, _, rfl, fun _ => ⟨h.set (by omega) ?_ ?_ (hgrown.mono ?_), h0, hcov⟩⟩
      · intro k hk
        exact h.lt hk (by omega)
      · intro k hk hkc
        have hk1 := hhigh (j + 1) (by omega) (by omega)
        dsimp only
        by_cases hkj : k = j + 1
        · subst hkj
          omega
        · have := h.lt (show j + 1 < k by omega) hkc
          omega
      · exact List.cons_subset_cons _ (List.subset_cons_self _ _)

/-- `lmb_add_region` on a table without a region, whose first entry is a stale one. -/
theorem addRegion_empty (h0 : rgn.cnt = 0) (hb : Unwound (2 ^ 32) [⟨b, s⟩])
    (hadj : lmbRegionsAdjacent rgn 0 1 = 0)
    (hfirst : b < (rgn.region 0).base ∨ rgn.region 0 = ⟨b, s⟩) :
    ∃ rgn', lmbAddRegion rgn b s = some (0, rgn') ∧ rgn'.Valid ∧ 0 < rgn'.cnt ∧
      covered rgn'.extents = covered rgn.extents ∪ points ⟨b, s⟩ := by
  have hold : rgn.extents = [] := by rw [extents, h0]; rfl
  have hins : (lmbInsert rgn b s).extents = [⟨b, s⟩] := by
    rw [lmbInsert, h0, insertLoop]
    rcases hfirst with hlt | heq
    · rw [if_pos hlt, extents]
      simp [LmbRegion.set, LmbProperty.extent, h0]
    · have hlt : ¬b < (rgn.region 0).base := by rw [heq]; exact lt_irrefl b
      rw [if_neg hlt, extents]
      simp [heq, LmbProperty.extent, h0]
  have hcnt : (lmbInsert rgn b s).cnt = 1 := by
    rw [lmbInsert, h0, insertLoop]
    dsimp only
    split_ifs <;> simp [h0]
  refine ⟨lmbInsert rgn b s, ?_, ⟨?_, ?_, ?_⟩, ?_, ?_⟩
  · rw [lmbAddRegion, if_neg (by omega), h0, addLoop]
    dsimp only
    rw [if_neg (fun h => h.2 hadj), if_neg (by decide), h0, if_neg (by decide)]
  · rw [hcnt]
    decide
  · rw [hins]
    exact List.pairwise_singleton _ _
  · rw [hins]
    exact hb
  · omega
  · rw [hins, hold, covered_cons, covered_nil, Set.union_empty, Set.empty_union]

theorem points_diff {b' s' : ℕ} (h1 : b' ≤ b) (h2 : b + s ≤ b' + s') :
    points ⟨b', s'⟩ \ points ⟨b, s⟩ = Set.Ico b' b ∪ Set.Ico (b + s) (b' + s') := by
  ext a
  simp only [points, stop, Set.mem_sdiff, Set.mem_union, Set.mem_Ico]
  omega

/-- The region that `lmb_free` finds has the range, though both ends are compared after a cut. -/
theorem freed_stop (h : rgn.Valid) (hb : b + s ≤ 2 ^ 32) (hlast : b + s = 2 ^ 32 →
    ∀ i < rgn.cnt, (rgn.region i).base ≤ b → (rgn.region i).base + (rgn.region i).size = 2 ^ 32)
    {i : ℕ} (hi : i < rgn.cnt) (hstart : (rgn.region i).base ≤ b)
    (hwrap : u32 (b + s) ≤ u32 ((rgn.region i).base + (rgn.region i).size)) :
    b + s ≤ (rgn.region i).base + (rgn.region i).size ∧
      (u32 ((rgn.region i).base + (rgn.region i).size) = u32 (b + s) ↔
        (rgn.region i).base + (rgn.region i).size = b + s) ∧
      (b + s < 2 ^ 32 → (rgn.region i).base + (rgn.region i).size < 2 ^ 32) := by
  have hend := h.stop_le hi
  rcases hb.lt_or_eq with hlt | heq
  · have hpart := h.inside.parted _ (extent_mem hi)
    rw [u32_of_lt hlt] at hwrap ⊢
    have hbelow : (rgn.region i).base + (rgn.region i).size < 2 ^ 32 := by
      refine hend.lt_of_ne fun htop => ?_
      have hzero : b + s = 0 := by
        rw [htop] at hwrap
        exact Nat.le_zero.1 hwrap
      exact hpart htop _ (extent_mem hi) (by rw [LmbProperty.extent_start]; omega)
    rw [u32_of_lt hbelow] at hwrap ⊢
    exact ⟨hwrap, Iff.rfl, fun _ => hbelow⟩
  · have htop := hlast heq i hi hstart
    rw [htop, heq]
    exact ⟨le_rfl, iff_of_true rfl rfl, fun hc => absurd hc (lt_irrefl _)⟩

/-- `lmb_free` of a range: it is taken out of the region it lies in, unless there is none or the
table has no room for the rest. -/
theorem freeRegion_valid (h : rgn.Valid) (hb : b + s ≤ 2 ^ 32) (hlast : b + s = 2 ^ 32 →
    ∀ i < rgn.cnt, (rgn.region i).base ≤ b → (rgn.region i).base + (rgn.region i).size = 2 ^ 32) :
    ∃ rc rgn', lmbFreeRegion rgn b s = some (rc, rgn') ∧
      (0 ≤ rc → rgn'.Valid ∧ covered rgn'.extents = covered rgn.extents \ points ⟨b, s⟩) := by
  rw [lmbFreeRegion]
  dsimp only
  rcases hl : freeLoop rgn b (u32 (b + s)) rgn.cnt 0 with _ | i
  · exact ⟨-1, rgn, rfl, fun hc => absurd hc (by decide)⟩
  obtain ⟨-, hi, hstart, hwrap⟩ := freeLoop_some b (u32 (b + s)) hl
  rw [Nat.zero_add] at hi
  have hmem := extent_mem hi
  have hstop := freed_stop h hb hlast hi hstart hwrap
  have hend := h.stop_le hi
  have hsize : (rgn.region i).size < 2 ^ 32 := h.inside.size_lt hmem
  have hsub : sub32 (rgn.region i).size s = (rgn.region i).size - s :=
    sub32_of_le (by omega) hsize
  dsimp only
  rw [hsub]
  have hlow : ∀ j < i, (rgn.region j).base + (rgn.region j).size < (rgn.region i).base :=
    fun j hj => h.lt hj hi
  have hhigh : ∀ j, i < j → j < rgn.cnt →
      (rgn.region i).base + (rgn.region i).size < (rgn.region j).base := fun j hij hj => h.lt hij hj
  have hdiff : covered rgn.extents \ points ⟨b, s⟩ = covered (rgn.front i) ∪
      (Set.Ico (rgn.region i).base b ∪
        Set.Ico (b + s) ((rgn.region i).base + (rgn.region i).size)) ∪ covered (rgn.back i) := by
    rw [extents_split hi, (h.split hi).covered_diff]
    · rw [LmbProperty.extent, points_diff hstart hstop.1]
    · exact Set.Ico_subset_Ico hstart hstop.1
  -- what is left of the region
  have hpart : ∀ t : LmbProperty, t.base < 2 ^ 32 → (rgn.region i).base ≤ t.base →
      t.base + t.size ≤ (rgn.region i).base + (rgn.region i).size →
      Unwound (2 ^ 32) (t.extent :: rgn.extents) ∧ (rgn.set i t).Valid := by
    intro t ht h1 h2
    have hin : Unwound (2 ^ 32) (t.extent :: rgn.extents) :=
      h.inside.between ht ⟨_, hmem, h1⟩ ⟨_, hmem, h2⟩
    exact ⟨hin, h.set hi (fun j hj => (hlow j hj).trans_le h1)
      (fun j hij hj => h2.trans_lt (hhigh j hij hj)) hin⟩
  have hbase : (rgn.region i).base < 2 ^ 32 := h.inside.start_lt _ hmem
  split_ifs with hall hfront hback
  · -- the whole region
    obtain ⟨rgn', hrem, hcnt, hex⟩ := extents_remove hi
    rw [hrem]
    refine ⟨0, rgn', rfl, fun _ => ⟨h.remove hi hcnt hex, ?_⟩⟩
    rw [hdiff, hex, covered_append, hstop.2.1.1 hall.2, hall.1, Set.Ico_self, Set.Ico_self,
      Set.union_empty, Set.union_empty]
  · -- its front
    have hne : (rgn.region i).base + (rgn.region i).size ≠ b + s := fun heq =>
      hall ⟨hfront, hstop.2.1.2 heq⟩
    rw [u32_of_lt (by omega : b + s < 2 ^ 32)]
    refine ⟨0, _, rfl, fun _ => ⟨(hpart ⟨b + s, (rgn.region i).size - s⟩
      (by dsimp only; omega) (by dsimp only; omega) (by dsimp only; omega)).2, ?_⟩⟩
    have hpts : (LmbProperty.extent ⟨b + s, (rgn.region i).size - s⟩).points =
        Set.Ico (b + s) ((rgn.region i).base + (rgn.region i).size) := by
      rw [points, LmbProperty.extent_stop, LmbProperty.extent_start]
      dsimp only
      congr 1
      omega
    rw [hdiff, covered_set hi, hpts, hfront, Set.Ico_self, Set.empty_union, Set.union_assoc]
  · -- its end
    have heq := hstop.2.1.1 hback
    refine ⟨0, _, rfl, fun _ => ⟨(hpart ⟨(rgn.region i).base, (rgn.region i).size - s⟩ hbase le_rfl
      (by dsimp only; omega)).2, ?_⟩⟩
    have hpts : (LmbProperty.extent ⟨(rgn.region i).base, (rgn.region i).size - s⟩).points =
        Set.Ico (rgn.region i).base b := by
      rw [points, LmbProperty.extent_stop, LmbProperty.extent_start]
      dsimp only
      congr 1
      omega
    rw [hdiff, covered_set hi, hpts, heq, Set.Ico_self, Set.union_empty, Set.union_assoc]
  · -- from its middle
    have hne : (rgn.region i).base + (rgn.region i).size ≠ b + s := fun heq =>
      hback (hstop.2.1.2 heq)
    have hlt : b + s < 2 ^ 32 := by omega
    have hend' := hstop.2.2 hlt
    rw [u32_of_lt hlt, u32_of_lt hend', sub32_of_le hstart (by omega), sub32_of_le hstop.1 hend']
    obtain ⟨hin, hset⟩ := hpart ⟨(rgn.region i).base, b - (rgn.region i).base⟩ hbase le_rfl
      (by dsimp only; omega)
    have hrestin : Unwound (2 ^ 32)
        (⟨b + s, (rgn.region i).base + (rgn.region i).size - (b + s)⟩ ::
          LmbProperty.extent ⟨(rgn.region i).base, b - (rgn.region i).base⟩ :: rgn.extents) := by
      refine hin.between hlt ⟨_, List.mem_cons_self, ?_⟩ ⟨_, List.mem_cons_of_mem _ hmem, ?_⟩
      · rw [LmbProperty.extent_start]
        dsimp only
        omega
      · rw [LmbProperty.extent_stop, stop]
        dsimp only
        omega
    obtain ⟨rc, rgn', hadd, hval⟩ := addRegion_valid (b := b + s)
      (s := (rgn.region i).base + (rgn.region i).size - (b + s)) hset (Nat.zero_lt_of_lt hi)
        (hrestin.mono (List.cons_subset_cons _ (List.nil_subset _)))
      (by
        refine fun _ => Or.inr ⟨hrestin.mono (List.cons_subset_cons _ (extents_set_subset hi _)),
          fun j hj => ?_⟩
        unfold Apart
        rw [LmbProperty.extent_start, LmbProperty.extent_stop, stop]
        dsimp only
        rcases Nat.lt_trichotomy j i with hji | rfl | hij
        · rw [set_region_ne _ (by omega)]
          have := hlow j hji
          omega
        · rw [set_region_self]
          dsimp only
          omega
        · rw [set_region_ne _ (by omega)]
          have := hhigh j hij hj
          omega)
    refine ⟨rc, rgn', hadd, fun hrc => ?_⟩
    obtain ⟨hval', -, hcov⟩ := hval hrc
    refine ⟨hval', ?_⟩
    have hpts : (LmbProperty.extent ⟨(rgn.region i).base, b - (rgn.region i).base⟩).points =
        Set.Ico (rgn.region i).base b := by
      rw [points, LmbProperty.extent_stop, LmbProperty.extent_start]
      dsimp only
      congr 1
      omega
    have hrest : points ⟨b + s, (rgn.region i).base + (rgn.region i).size - (b + s)⟩ =
        Set.Ico (b + s) ((rgn.region i).base + (rgn.region i).size) := by
      rw [points, stop]
      dsimp only
      congr 1
      omega
    rw [hcov, hdiff, covered_set hi, hpts, hrest, ← Set.union_assoc, Set.union_right_comm,
      Set.union_assoc (covered (rgn.front i))]

end Valid

end InfotmUboot
