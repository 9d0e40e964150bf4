import InfotmUboot.Proofs.PartConfig

/-!
# The chain of partition tables

Where `init_part_location` puts the partitions, which tables `block_partition` writes for them, and
what they describe when they are read back.
-/

namespace InfotmUboot

open Lib

section Location

variable {s : List ℕ}

theorem fillLocation_step {n i : ℕ} (loc : ℕ → PartTable) (hi : i + 1 < s.length) :
    fillLocation s (n + 1) i loc =
      if s.getD (i + 1) 0 = 0 then some (Function.update loc i ((loc i).fill (s.getD i 0)))
      else fillLocation s n (i + 1) (Function.update loc i ((loc i).fill (s.getD i 0))) := by
  have hget : s[i + 1]? = some (s.getD (i + 1) 0) := by
    rw [List.getD_eq_getElem?_getD, List.getElem?_eq_getElem hi]
    rfl
  rw [fillLocation]
  simp only [hget]
  rcases hz : s.getD (i + 1) 0 with _ | x
  · rfl
  · rfl

/-- The entries from `i` on that have a size, up to `k`. -/
def filled (s : List ℕ) (i k : ℕ) (loc : ℕ → PartTable) (j : ℕ) : PartTable :=
  if i ≤ j ∧ j < k then (loc j).fill (s.getD j 0) else loc j

theorem filled_step {i k : ℕ} (loc : ℕ → PartTable) (hi : i < k) :
    filled s (i + 1) k (Function.update loc i ((loc i).fill (s.getD i 0))) = filled s i k loc := by
  funext j
  unfold filled
  by_cases hj : j = i
  · subst hj
    simp [hi]
  · rw [Function.update_of_ne hj]
    by_cases h : i + 1 ≤ j ∧ j < k
    · rw [if_pos h, if_pos (by omega)]
    · rw [if_neg h, if_neg (by omega)]

/-- The first loop fills the entries up to the first size of 0, or up to the last. -/
theorem fillLocation_eq {k : ℕ} (hlen : k < s.length) : ∀ (n i : ℕ) (loc : ℕ → PartTable),
    i ≤ k → k ≤ i + n → (i = k → n = 0) → (∀ m, i < m → m < k → s.getD m 0 ≠ 0) →
    (k < i + n → s.getD k 0 = 0) → fillLocation s n i loc = some (filled s i k loc)
  | 0, i, loc, hi, hk, _, _, _ => by
    obtain rfl : i = k := by omega
    rw [fillLocation]
    refine congrArg some (funext fun j => ?_)
    rw [filled, if_neg (by omega)]
  | n + 1, i, loc, hi, hk, hn, hne, hz => by
    have hik : i < k := by omega
    rw [fillLocation_step loc (by omega)]
    by_cases h : s.getD (i + 1) 0 = 0
    · obtain rfl : k = i + 1 := by
        by_contra hne'
        exact hne (i + 1) (by omega) (by omega) h
      rw [if_pos h]
      refine congrArg some (funext fun j => ?_)
      unfold filled
      by_cases hj : j = i
      · subst hj
        simp
      · rw [Function.update_of_ne hj, if_neg (by omega)]
    · rw [if_neg h, ← filled_step loc hik]
      refine fillLocation_eq hlen n (i + 1) _ (by omega) (by omega) ?_ ?_ ?_
      · rintro rfl
        by_contra hn0
        exact h (hz (by omega))
      · intro m hm1 hm2
        exact hne m (by omega) hm2
      · intro hlt
        exact hz (by omega)

/-- Where the primary partitions of these sizes begin, one after the other. -/
def primaryStart (spare : ℕ) (size : ℕ → ℕ) : ℕ → ℕ
  | 0 => u32 spare
  | j + 1 => u32 (primaryStart spare size j + size j)

theorem u32_mod64 {x : ℕ} (h : x % 64 = 0) : u32 x % 64 = 0 := by
  unfold u32
  omega

theorem primaryStart_mod {spare : ℕ} (size : ℕ → ℕ) (hs : spare % 64 = 0) : ∀ j,
    (∀ i < j, size i % 64 = 0) → primaryStart spare size j % 64 = 0
  | 0, _ => u32_mod64 hs
  | j + 1, h => by
    have ih := primaryStart_mod size hs j fun i hi => h i (by omega)
    have hj := h j (by omega)
    exact u32_mod64 (by omega)

theorem PartTable.place_aligned {l : PartTable} {start : ℕ} (h : start % 0x40 = 0) :
    l.place start = { l with startLBA := start } := by
  unfold place
  rw [if_neg (by omega)]

/-- The entries of `init_part_location`, those up to `n` in their places. -/
def placedUpTo (partnum spare n : ℕ) (loc : ℕ → PartTable) (j : ℕ) : PartTable :=
  { loc j with
    startCHS := if j = 0 then (1, 1, 0) else (loc j).startCHS
    parttype := if j = 3 ∧ 4 < partnum then 0x05 else (loc j).parttype
    startLBA :=
      if j ≤ n then primaryStart spare (fun i => (loc i).sizeinsectors) j else (loc j).startLBA }

theorem placedUpTo_zero (partnum spare : ℕ) {loc loc' : ℕ → PartTable}
    (h : loc' = if 4 < partnum then Function.update loc 3 { loc 3 with parttype := 0x05 }
      else loc) :
    Function.update loc' 0 { loc' 0 with startCHS := (1, 1, 0), startLBA := u32 spare } =
      placedUpTo partnum spare 0 loc := by
  subst h
  funext j
  unfold placedUpTo
  by_cases h4 : 4 < partnum
  · rcases eq_or_ne j 0 with rfl | h0
    · simp [h4, primaryStart]
    · rcases eq_or_ne j 3 with rfl | h3
      · simp [h4]
      · simp [h4, h0, h3]
  · rcases eq_or_ne j 0 with rfl | h0
    · simp [h4, primaryStart]
    · simp [h4, h0]

theorem placedUpTo_succ {partnum spare n : ℕ} {loc : ℕ → PartTable} (hn : n + 1 < partnum)
    (h : (primaryStart spare (fun i => (loc i).sizeinsectors) n + (loc n).sizeinsectors) % 64 = 0) :
    placeNext partnum (n + 1) (placedUpTo partnum spare n loc) =
      placedUpTo partnum spare (n + 1) loc := by
  have hprev : (placedUpTo partnum spare n loc n).startLBA =
      primaryStart spare (fun i => (loc i).sizeinsectors) n := if_pos le_rfl
  have hsize : (placedUpTo partnum spare n loc n).sizeinsectors = (loc n).sizeinsectors := rfl
  unfold placeNext
  rw [if_pos hn, Nat.add_sub_cancel, hprev, hsize, PartTable.place_aligned (u32_mod64 h)]
  funext j
  rcases eq_or_ne j (n + 1) with rfl | hj
  · rw [Function.update_self]
    simp [placedUpTo, primaryStart]
  · rw [Function.update_of_ne hj]
    unfold placedUpTo
    have hle : j ≤ n + 1 ↔ j ≤ n := by omega
    simp only [hle]

/-- The entries of `init_part_location` in their places. -/
def placed (partnum spare : ℕ) (loc : ℕ → PartTable) (j : ℕ) : PartTable :=
  if 4 ≤ j ∧ j < partnum then { loc j with startLBA := 0x10 }
  else placedUpTo partnum spare 3 loc j

theorem placeLocation_eq {partnum spare : ℕ} {loc : ℕ → PartTable} (hp : 4 ≤ partnum)
    (hs : spare % 64 = 0) (hz : ∀ j < 3, (loc j).sizeinsectors % 64 = 0) :
    placeLocation partnum spare loc = placed partnum spare loc := by
  have hstart (n : ℕ) (hn : n < 3) :
      (primaryStart spare (fun i => (loc i).sizeinsectors) n + (loc n).sizeinsectors) % 64 = 0 := by
    have h1 := primaryStart_mod (fun i => (loc i).sizeinsectors) hs n
      fun i hi => hz i (by omega)
    have h2 := hz n hn
    omega
  unfold placeLocation
  simp only []
  rw [placedUpTo_zero partnum spare rfl, placedUpTo_succ (by omega) (hstart 0 (by omega)),
    placedUpTo_succ (by omega) (hstart 1 (by omega)),
    placedUpTo_succ (by omega) (hstart 2 (by omega))]
  funext j
  unfold placed
  split_ifs with hj
  · obtain ⟨h4, -⟩ := hj
    unfold placedUpTo
    rw [if_neg (by omega), if_neg (by omega)]
  · rfl

end Location

section Tables

variable (loc : ℕ → PartTable) (p : ℕ)

/-- How far the tables of `n` logical partitions and these themselves reach. -/
def reach (n : ℕ) : ℕ := ((List.range n).map fun i => 0x10 + (loc (i + 4)).sizeinsectors).sum

/-- The block of the table of a logical partition. -/
def tableAt (i : ℕ) : ℕ := u32 ((loc 3).startLBA + reach loc i)

/-- The second entry of a table, the link to the next one. -/
def link (i : ℕ) : PartTable :=
  if i + 1 < p - 4 then
    { loc (i + 5) with parttype := 0x05, startLBA := u32 (reach loc (i + 1)) }
  else PartTable.zero

def tableOf (i : ℕ) : Sector :=
  .table [loc (i + 4), link loc p i, PartTable.zero, PartTable.zero] false

@[simp] theorem reach_zero : reach loc 0 = 0 := rfl

theorem reach_succ (n : ℕ) : reach loc (n + 1) = reach loc n +
    (0x10 + (loc (n + 4)).sizeinsectors) := by
  simp [reach, List.range_succ]

variable {loc p}

theorem initPartTable_eq {i t : ℕ} (hi : i < p - 4) (h3 : (loc 3).startLBA < 2 ^ 32)
    (ht : i ≠ 0 → t = tableAt loc (i - 1)) :
    initPartTable loc p (i + 1) t =
      some ([loc (i + 4), link loc p i, PartTable.zero, PartTable.zero], tableAt loc i) := by
  have haddr : (if i + 1 = 1 then (loc 3).startLBA
      else u32 (t + 0x10 + (loc (i + 1 + 2)).sizeinsectors)) = tableAt loc i := by
    rcases i with _ | i
    · simp [tableAt, u32_of_lt h3]
    · have hr := reach_succ loc i
      rw [if_neg (by omega), ht (by omega), Nat.add_sub_cancel, show i + 1 + 1 + 2 = i + 4 from rfl]
      unfold tableAt u32
      omega
  unfold initPartTable
  rw [if_neg (by omega), if_neg (by omega), haddr]
  unfold link reach
  rfl

theorem writeTables_eq (h3 : (loc 3).startLBA < 2 ^ 32) : ∀ (n i t : ℕ), i + n = p - 4 →
    (i ≠ 0 → t = tableAt loc (i - 1)) → writeTables loc p n (i + 1) t =
      ((List.range' i n).map fun k => (tableAt loc k, tableOf loc p k),
        (List.range' i n).map fun k => u32 (tableAt loc k + 0x10))
  | 0, _, _, _, _ => rfl
  | n + 1, i, t, hn, ht => by
    have ih := writeTables_eq h3 n (i + 1) (tableAt loc i) (by omega) fun _ => rfl
    unfold writeTables
    rw [initPartTable_eq (by omega) h3 ht]
    simp only [ih]
    rfl

theorem written_of_unique {w : List (ℕ × Sector)} {b : ℕ} {s : Sector} (hmem : (b, s) ∈ w)
    (huniq : ∀ s', (b, s') ∈ w → s' = s) : written w b = some s := by
  unfold written
  rcases hf : w.reverse.find? (fun x => x.1 = b) with _ | ⟨b', s'⟩
  · have hnone := List.find?_eq_none.1 hf (b, s) (List.mem_reverse.2 hmem)
    simp at hnone
  · have hb : b' = b := by simpa using List.find?_some hf
    subst hb
    rw [hf, ← huniq s' (List.mem_reverse.1 (List.mem_of_find?_eq_some hf))]
    rfl

theorem mem_of_written {w : List (ℕ × Sector)} {b : ℕ} {s : Sector} (h : written w b = some s) :
    (b, s) ∈ w := by
  unfold written at h
  rcases hf : w.reverse.find? (fun x => x.1 = b) with _ | ⟨b', s'⟩
  · rw [hf] at h
    cases h
  · have hb : b' = b := by simpa using List.find?_some hf
    subst hb
    rw [hf] at h
    cases h
    exact List.mem_reverse.1 (List.mem_of_find?_eq_some hf)

theorem tableAt_succ (i : ℕ) :
    u32 ((loc 3).startLBA + u32 (reach loc (i + 1))) = tableAt loc (i + 1) := by
  unfold tableAt u32
  omega

theorem link_last {i : ℕ} (h : i + 1 = p - 4) : link loc p i = PartTable.zero :=
  if_neg (by omega)

theorem link_next {i : ℕ} (h : i + 1 < p - 4) :
    link loc p i =
      { loc (i + 5) with parttype := 0x05, startLBA := u32 (reach loc (i + 1)) } := if_pos h

/-- The logical partition of a table. -/
def logicalAt (loc : ℕ → PartTable) (i : ℕ) : Extent :=
  ⟨tableAt loc i + (loc (i + 4)).startLBA, (loc (i + 4)).sizeinsectors⟩

variable {w : List (ℕ × Sector)}

theorem logicals_last {n i : ℕ} (hw : written w (tableAt loc i) = some (tableOf loc p i))
    (ht : (loc (i + 4)).parttype = 0x83) (hi : i + 1 = p - 4) :
    logicals w (loc 3).startLBA (n + 1) (tableAt loc i) = some [logicalAt loc i] := by
  unfold logicals
  simp only [hw, tableOf, link_last hi, ht, if_true]
  rfl

theorem logicals_next {n i : ℕ} (hw : written w (tableAt loc i) = some (tableOf loc p i))
    (ht : (loc (i + 4)).parttype = 0x83) (hi : i + 1 < p - 4) :
    logicals w (loc 3).startLBA (n + 1) (tableAt loc i) =
      (logicals w (loc 3).startLBA n (tableAt loc (i + 1))).map (logicalAt loc i :: ·) := by
  rw [logicals]
  simp only [hw, tableOf, link_next hi, ht, if_true, tableAt_succ]
  rfl

theorem logicals_none {n i : ℕ} (hw : written w (tableAt loc i) = some (tableOf loc p i))
    (ht : (loc (i + 4)).parttype ≠ 0x83) :
    logicals w (loc 3).startLBA (n + 1) (tableAt loc i) = none := by
  unfold logicals
  simp only [hw, tableOf, ht, if_false]

/-- The tables lead through all of the logical partitions. -/
theorem logicals_eq (hw : ∀ k < p - 4, written w (tableAt loc k) = some (tableOf loc p k))
    (ht : ∀ k < p - 4, (loc (k + 4)).parttype = 0x83) : ∀ (n f i : ℕ), i + (n + 1) = p - 4 → n < f →
    logicals w (loc 3).startLBA f (tableAt loc i) =
      some ((List.range' i (n + 1)).map (logicalAt loc))
  | n, 0, i, _, hf => by omega
  | 0, f + 1, i, hi, _ => logicals_last (hw i (by omega)) (ht i (by omega)) hi
  | n + 1, f + 1, i, hi, hf => by
    rw [logicals_next (hw i (by omega)) (ht i (by omega)) (by omega),
      logicals_eq hw ht n f (i + 1) (by omega) (by omega)]
    rfl

/-- The tables lead to an entry that is none. -/
theorem logicals_broken {k : ℕ} (hk : k < p - 4)
    (hw : ∀ j ≤ k, written w (tableAt loc j) = some (tableOf loc p j))
    (ht : (loc (k + 4)).parttype ≠ 0x83) : ∀ (n f i : ℕ), i + n = k →
    logicals w (loc 3).startLBA f (tableAt loc i) = none
  | n, 0, i, _ => rfl
  | 0, f + 1, i, hi => by
    obtain rfl : i = k := hi
    exact logicals_none (hw i le_rfl) ht
  | n + 1, f + 1, i, hi => by
    by_cases hti : (loc (i + 4)).parttype = 0x83
    · rw [logicals_next (hw i (by omega)) hti (by omega),
        logicals_broken hk hw ht n f (i + 1) (by omega)]
      rfl
    · exact logicals_none (hw i (by omega)) hti

/-- The blocks of a run: the tables of the logical partitions, the first table and the
information. -/
def blocksOf (loc : ℕ → PartTable) (p : ℕ) (psz : List PartSz) : List (ℕ × Sector) :=
  ((List.range' 0 (p - 4)).map fun k => (tableAt loc k, tableOf loc p k)) ++
    [(0, .table [loc 0, loc 1, loc 2, loc 3] true), (1, .info psz)]

/-- The tables have blocks of their own, clear of the first table and the information. -/
structure Separate (loc : ℕ → PartTable) (n : ℕ) : Prop where
  clear : ∀ k < n, 1 < tableAt loc k
  inj : ∀ j < n, ∀ k < n, tableAt loc j = tableAt loc k → j = k

variable {psz : List PartSz}

theorem mem_blocksOf {b : ℕ} {s : Sector} (h : (b, s) ∈ blocksOf loc p psz) :
    (∃ k < p - 4, b = tableAt loc k ∧ s = tableOf loc p k) ∨
      (b = 0 ∧ s = .table [loc 0, loc 1, loc 2, loc 3] true) ∨ (b = 1 ∧ s = .info psz) := by
  unfold blocksOf at h
  rcases List.mem_append.1 h with h | h
  · obtain ⟨k, hk, he⟩ := List.mem_map.1 h
    cases he
    obtain ⟨-, hk⟩ := List.mem_range'_1.1 hk
    exact Or.inl ⟨k, by omega, rfl, rfl⟩
  · simpa using Or.inr h

theorem written_table {k : ℕ} (hk : k < p - 4) (h1 : 1 < tableAt loc k)
    (hinj : ∀ j < p - 4, tableAt loc j = tableAt loc k → j = k) :
    written (blocksOf loc p psz) (tableAt loc k) = some (tableOf loc p k) := by
  refine written_of_unique ?_ ?_
  · refine List.mem_append_left _ (List.mem_map.2 ⟨k, ?_, rfl⟩)
    exact List.mem_range'_1.2 ⟨by omega, by omega⟩
  · intro s' hmem
    rcases mem_blocksOf hmem with ⟨j, hj, hb, rfl⟩ | ⟨hb, -⟩ | ⟨hb, -⟩
    · rw [hinj j hj hb.symm]
    · omega
    · omega

/-- The first table is written after those of the logical partitions. -/
theorem written_info : written (blocksOf loc p psz) 1 = some (.info psz) := by
  unfold written blocksOf
  simp

theorem written_first :
    written (blocksOf loc p psz) 0 = some (.table [loc 0, loc 1, loc 2, loc 3] true) := by
  unfold written blocksOf
  simp

/-- The primary partitions as the first table has them. -/
def primary (loc : ℕ → PartTable) (i : ℕ) : Extent := ⟨(loc i).startLBA, (loc i).sizeinsectors⟩

theorem chain_extended (hw : written w 0 = some (.table [loc 0, loc 1, loc 2, loc 3] true))
    (ht : ∀ i < 3, (loc i).parttype = 0x83) (h3 : (loc 3).parttype = 0x05) :
    chain w = (logicals w (loc 3).startLBA w.length (loc 3).startLBA).map
      ([primary loc 0, primary loc 1, primary loc 2] ++ ·) := by
  have h0 := ht 0 (by omega)
  have h1 := ht 1 (by omega)
  have h2 := ht 2 (by omega)
  unfold chain
  simp only [hw, h0, h1, h2, h3]
  rfl

theorem chain_untyped {i : ℕ} (hw : written w 0 = some (.table [loc 0, loc 1, loc 2, loc 3] true))
    (hi : i < 3) (ht : (loc i).parttype ≠ 0x83) : chain w = none := by
  unfold chain
  simp only [hw]
  rw [if_neg]
  rintro ⟨h0, h1, h2⟩
  rcases i with _ | _ | _ | i
  · exact ht h0
  · exact ht h1
  · exact ht h2
  · omega

theorem chain_blocksOf (hp : 4 < p) (hs : Separate loc (p - 4)) (h3 : (loc 3).startLBA < 2 ^ 32)
    (ht : ∀ i < p, i ≠ 3 → (loc i).parttype = 0x83) (h5 : (loc 3).parttype = 0x05) :
    chain (blocksOf loc p psz) =
      some ([primary loc 0, primary loc 1, primary loc 2] ++
        (List.range' 0 (p - 4)).map (logicalAt loc)) := by
  have h0 : tableAt loc 0 = (loc 3).startLBA := by simp [tableAt, u32_of_lt h3]
  have hl := logicals_eq (w := blocksOf loc p psz) (p := p)
    (fun k hk => written_table hk (hs.clear k hk) fun j hj => hs.inj j hj k hk)
    (fun k hk => ht (k + 4) (by omega) (by omega)) (p - 5) (blocksOf loc p psz).length 0 (by omega)
    (by simp [blocksOf]; omega)
  rw [h0] at hl
  rw [chain_extended written_first (fun i hi => ht i (by omega) (by omega)) h5, hl,
    show p - 5 + 1 = p - 4 by omega]
  rfl

/-- Tables of partitions whose sizes are multiples of 256. -/
theorem separate_of_mod {n : ℕ} (h3 : (loc 3).startLBA % 256 = 64)
    (hz : ∀ i < n, (loc (i + 4)).sizeinsectors % 256 = 0) (hn : n ≤ 8) : Separate loc n := by
  have hreach (k : ℕ) (hk : k ≤ n) : reach loc k % 256 = 16 * k % 256 := by
    induction k with
    | zero => rfl
    | succ k ih =>
      have h1 := ih (by omega)
      have h2 := hz k (by omega)
      rw [reach_succ]
      omega
  have hmod (k : ℕ) (hk : k < n) : tableAt loc k % 256 = (64 + 16 * k) % 256 := by
    have h1 := hreach k hk.le
    unfold tableAt u32
    omega
  constructor
  · intro k hk
    have h1 := hmod k hk
    omega
  · intro j hj k hk he
    have h1 := hmod j hj
    have h2 := hmod k hk
    rw [he] at h1
    omega

/-- Entries of which one has no type. -/
theorem chain_blocksOf_broken {k : ℕ} (hp : 4 < p) (hs : Separate loc (p - 4))
    (h3 : (loc 3).startLBA < 2 ^ 32) (hk : k < p) (hk3 : k ≠ 3) (ht : (loc k).parttype ≠ 0x83)
    (h5 : (loc 3).parttype = 0x05) : chain (blocksOf loc p psz) = none := by
  by_cases hprim : ∀ i < 3, (loc i).parttype = 0x83
  · have h4 : 4 ≤ k := by
      by_contra hlt
      exact ht (hprim k (by omega))
    have h0 : tableAt loc 0 = (loc 3).startLBA := by simp [tableAt, u32_of_lt h3]
    have hl := logicals_broken (w := blocksOf loc p psz) (p := p) (k := k - 4) (by omega)
      (fun j hj => written_table (by omega) (hs.clear j (by omega)) fun i hi =>
        hs.inj i hi j (by omega)) (by rwa [Nat.sub_add_cancel h4]) (k - 4)
      (blocksOf loc p psz).length 0 (by omega)
    rw [h0] at hl
    rw [chain_extended written_first hprim h5, hl]
    rfl
  · simp only [not_forall] at hprim
    obtain ⟨i, hi, hti⟩ := hprim
    exact chain_untyped written_first hi hti

/-- The sizes of the logical partitions. -/
def logicalSizes (loc : ℕ → PartTable) (n : ℕ) : List ℕ :=
  (List.range n).map fun k => (loc (k + 4)).sizeinsectors

theorem serialEnd_logical (b n : ℕ) :
    Extent.serialEnd 0x10 b (logicalSizes loc n) = b + reach loc n := by
  rw [Extent.serialEnd_eq, logicalSizes, List.map_map]
  rfl

theorem reach_mono (loc : ℕ → PartTable) {m n : ℕ} (h : m ≤ n) : reach loc m ≤ reach loc n := by
  induction n, h using Nat.le_induction with
  | base => exact le_rfl
  | succ n _ ih =>
    rw [reach_succ]
    omega

theorem tableAt_eq {k n : ℕ} (hk : k ≤ n) (h : (loc 3).startLBA + reach loc n < 2 ^ 32) :
    tableAt loc k = (loc 3).startLBA + reach loc k := by
  have hm := reach_mono loc hk
  exact u32_of_lt (by omega)

theorem separate_of_lt {n m : ℕ} (h1 : 1 < (loc 3).startLBA) (hn : n ≤ m + 1)
    (h : (loc 3).startLBA + reach loc m < 2 ^ 32) : Separate loc n where
  clear := by
    intro k hk
    rw [tableAt_eq (show k ≤ m by omega) h]
    omega
  inj := by
    intro j hj k hk he
    rw [tableAt_eq (show j ≤ m by omega) h, tableAt_eq (show k ≤ m by omega) h] at he
    rcases Nat.lt_trichotomy j k with hlt | rfl | hlt
    · have hm := reach_mono loc (Nat.succ_le_of_lt hlt)
      rw [Nat.succ_eq_add_one, reach_succ] at hm
      omega
    · rfl
    · have hm := reach_mono loc (Nat.succ_le_of_lt hlt)
      rw [Nat.succ_eq_add_one, reach_succ] at hm
      omega

/-- The logical partitions lie one after the other, each behind its table. -/
theorem logicals_serial {n m : ℕ} (hn : n ≤ m + 1) (h : (loc 3).startLBA + reach loc m < 2 ^ 32)
    (h16 : ∀ k < n, (loc (k + 4)).startLBA = 0x10) :
    (List.range' 0 n).map (logicalAt loc) =
      Extent.serial 0x10 (loc 3).startLBA (logicalSizes loc n) := by
  induction n with
  | zero => rfl
  | succ n ih =>
    have hsucc : logicalSizes loc (n + 1) = logicalSizes loc n ++
      [(loc (n + 4)).sizeinsectors] := by
      simp [logicalSizes, List.range_succ]
    rw [← List.range_eq_range', List.range_succ, List.range_eq_range', List.map_append,
      ih (by omega) fun k hk => h16 k (by omega), hsucc, Extent.serial_append, serialEnd_logical]
    simp only [List.map_cons, List.map_nil, logicalAt, tableAt_eq (show n ≤ m by omega) h,
      h16 n (by omega)]
    rfl

end Tables

section Run

variable {loc : ℕ → PartTable} {g : PartGlobals}

/-- Where the partitions begin, as `block_partition` collects it. -/
def baseOf (loc : ℕ → PartTable) (j : ℕ) : ℕ :=
  if j < 4 then (loc j).startLBA else u32 (tableAt loc (j - 4) + 0x10)

/-- The information block: an entry for each partition, some of them with a place. -/
def infoOf (loc : ℕ → PartTable) (p : ℕ) (psz : List PartSz) : List PartSz :=
  (infoSlots p).foldl
    (fun psz slot => psz.modify (slot.1 + INFO_SPARE_IMAGES) fun q =>
      { q with offs := s32 (baseOf loc slot.2) }) psz

theorem infoSlots_lt {p : ℕ} (hp : 4 ≤ p) (hp8 : p ≤ 8) : ∀ slot ∈ infoSlots p, slot.2 < p := by
  intro slot hmem
  obtain rfl | rfl | rfl | rfl | rfl : p = 4 ∨ p = 5 ∨ p = 6 ∨ p = 7 ∨ p = 8 := by omega
  all_goals
    revert slot
    decide

theorem foldlM_setOffs {p : ℕ} : ∀ (slots : List (ℕ × ℕ)) (psz : List PartSz),
    (∀ slot ∈ slots, slot.2 < p) →
    slots.foldlM (setOffs ((List.range p).map (baseOf loc))) psz =
      some (slots.foldl
        (fun psz slot => psz.modify (slot.1 + INFO_SPARE_IMAGES) fun q =>
          { q with offs := s32 (baseOf loc slot.2) }) psz)
  | [], _, _ => rfl
  | slot :: slots, psz, h => by
    have hslot : ((List.range p).map (baseOf loc))[slot.2]? = some (baseOf loc slot.2) := by
      rw [List.getElem?_map, List.getElem?_range (h slot List.mem_cons_self)]
      rfl
    simp only [List.foldlM_cons, List.foldl_cons, setOffs, hslot]
    exact foldlM_setOffs slots _ fun s hs => h s (List.mem_cons_of_mem _ hs)

theorem imagebase_eq {p : ℕ} (hp : 4 ≤ p) :
    (List.range (min 4 p)).map (fun i => (loc i).startLBA) ++
      (List.range' 0 (p - 4)).map (fun k => u32 (tableAt loc k + 0x10)) =
      (List.range p).map (baseOf loc) := by
  have hsplit : List.range p = List.range 4 ++ List.range' 4 (p - 4) := by
    rw [List.range_eq_range', List.range_eq_range', List.range'_append_1]
    congr 1
    omega
  have hshift : List.range' 4 (p - 4) = (List.range' 0 (p - 4)).map (4 + ·) := by
    rw [List.map_add_range']
  rw [hsplit, List.map_append, Nat.min_eq_left hp, hshift, List.map_map]
  congr 1
  refine List.map_congr_left fun k _ => ?_
  simp [baseOf]

theorem writePartitions_eq (hp : 4 ≤ g.partnum) (hp8 : g.partnum ≤ 8) (after : PartSz)
    (h3 : (loc 3).startLBA < 2 ^ 32) :
    writePartitions g after loc =
      some ⟨0, g, blocksOf loc g.partnum (infoOf loc g.partnum (g.cfg ++ [after]))⟩ := by
  have ht := writeTables_eq (p := g.partnum) h3 (g.partnum - 4) 0 0 (by omega)
    fun h => absurd rfl h
  unfold writePartitions
  simp only [ht, imagebase_eq hp, foldlM_setOffs _ _ (infoSlots_lt hp hp8)]
  rfl

/-- The entries of a run, the first `k` of them with a size. -/
def locOf (g : PartGlobals) (k : ℕ) (junk : ℕ → PartTable) : ℕ → PartTable :=
  placed g.partnum g.spareArea (filled g.sectors 0 k junk)

variable {k : ℕ} {junk : ℕ → PartTable}

theorem filled_size (i : ℕ) :
    (filled g.sectors 0 k junk i).sizeinsectors =
      if i < k then g.sectors.getD i 0 else (junk i).sizeinsectors := by
  unfold filled
  by_cases h : i < k
  · rw [if_pos ⟨Nat.zero_le _, h⟩, if_pos h]
    rfl
  · rw [if_neg (by omega), if_neg h]

theorem locOf_size (i : ℕ) :
    (locOf g k junk i).sizeinsectors =
      if i < k then g.sectors.getD i 0 else (junk i).sizeinsectors := by
  rw [← filled_size]
  unfold locOf placed
  split_ifs <;> rfl

theorem locOf_type (i : ℕ) :
    (locOf g k junk i).parttype =
      if i = 3 ∧ 4 < g.partnum then 0x05 else if i < k then 0x83 else (junk i).parttype := by
  have hf : (filled g.sectors 0 k junk i).parttype = if i < k then 0x83 else (junk i).parttype := by
    unfold filled
    by_cases h : i < k
    · rw [if_pos ⟨Nat.zero_le _, h⟩, if_pos h]
      rfl
    · rw [if_neg (by omega), if_neg h]
  rw [← hf]
  unfold locOf placed
  by_cases h4 : 4 ≤ i ∧ i < g.partnum
  · rw [if_pos h4, if_neg (by omega)]
  · rw [if_neg h4]
    rfl

theorem locOf_start {i : ℕ} (hi : i < 4) :
    (locOf g k junk i).startLBA =
      primaryStart g.spareArea
        (fun j => if j < k then g.sectors.getD j 0 else (junk j).sizeinsectors) i := by
  unfold locOf placed
  rw [if_neg (by omega)]
  unfold placedUpTo
  simp only [filled_size]
  rw [if_pos (by omega)]

theorem locOf_logical {i : ℕ} (h4 : 4 ≤ i) (hi : i < g.partnum) :
    (locOf g k junk i).startLBA = 0x10 := by
  unfold locOf placed
  rw [if_pos ⟨h4, hi⟩]

theorem primaryStart_lt (spare : ℕ) (size : ℕ → ℕ) : ∀ j, primaryStart spare size j < 2 ^ 32
  | 0 => u32_lt _
  | _ + 1 => u32_lt _

theorem initPartLocation_eq (hp4 : 4 ≤ g.partnum) (hp8 : g.partnum ≤ 8)
    (hlen : g.sectors.length = 8) (hk : k ≤ g.partnum) (hk8 : k < 8) (hk0 : 0 < k)
    (hne : ∀ m, 0 < m → m < k → g.sectors.getD m 0 ≠ 0)
    (hz : k < g.partnum → g.sectors.getD k 0 = 0) (hs : g.spareArea % 64 = 0)
    (h64 : ∀ i < 3, (if i < k then g.sectors.getD i 0 else (junk i).sizeinsectors) % 64 = 0) :
    initPartLocation g junk = some (locOf g k junk) := by
  unfold initPartLocation
  rw [if_neg (by unfold INFO_MAX_PARTITIONS; omega),
    fillLocation_eq (k := k) (by omega) _ 0 _ (by omega) (by omega) (by omega) hne
      (fun h => hz (by omega))]
  simp only []
  rw [placeLocation_eq hp4 hs fun i hi => by rw [filled_size]; exact h64 i hi]
  rfl

/-- The memory that holds no entries. -/
def blank : ℕ → PartTable := fun _ => PartTable.zero

theorem u32_mod256 {x r : ℕ} (h : x % 256 = r) : u32 x % 256 = r := by
  unfold u32
  omega

theorem primaryStart_mod256 {spare : ℕ} (size : ℕ → ℕ) (hs : spare % 256 = 64) : ∀ j,
    (∀ i < j, size i % 256 = 0) → primaryStart spare size j % 256 = 64
  | 0, _ => u32_mod256 hs
  | j + 1, h => by
    have ih := primaryStart_mod256 size hs j fun i hi => h i (by omega)
    have hj := h j (by omega)
    exact u32_mod256 (by omega)

/-- A run whose sizes break off before the last partition: it goes on with an entry that it has not
filled, and where that is blank the tables are no chain. -/
theorem broken (hp : 4 < g.partnum) (hp8 : g.partnum ≤ 8) (hlen : g.sectors.length = 8)
    (hk : k < g.partnum) (hk0 : 0 < k) (hne : ∀ m, 0 < m → m < k → g.sectors.getD m 0 ≠ 0)
    (hz : g.sectors.getD k 0 = 0) (hs : g.spareArea % 256 = 64)
    (h256 : ∀ i < k, i ≠ 3 → g.sectors.getD i 0 % 256 = 0) :
    initPartLocation g blank = some (locOf g k blank) ∧
      ∀ psz, chain (blocksOf (locOf g k blank) g.partnum psz) = none := by
  have hsize (i : ℕ) (hi : i ≠ 3) : (locOf g k blank i).sizeinsectors % 256 = 0 := by
    rw [locOf_size]
    split_ifs with h
    · exact h256 i h hi
    · rfl
  have hstart : (locOf g k blank 3).startLBA % 256 = 64 := by
    rw [locOf_start (by omega)]
    refine primaryStart_mod256 _ hs 3 fun i hi => ?_
    rw [← locOf_size]
    exact hsize i (by omega)
  have hlt : (locOf g k blank 3).startLBA < 2 ^ 32 := by
    rw [locOf_start (by omega)]
    exact primaryStart_lt _ _ 3
  have h5 : (locOf g k blank 3).parttype = 0x05 := by
    rw [locOf_type, if_pos ⟨rfl, hp⟩]
  have htype (i : ℕ) (hi : i ≠ 3) (hki : k ≤ i) : (locOf g k blank i).parttype ≠ 0x83 := by
    rw [locOf_type, if_neg (by omega), if_neg (by omega)]
    exact (by decide : (0 : UInt8) ≠ 0x83)
  refine ⟨initPartLocation_eq (by omega) hp8 hlen hk.le (by omega) hk0 hne (fun _ => hz)
    (by omega) ?_,
    ?_⟩
  · intro i hi
    rw [← locOf_size]
    have := hsize i (by omega)
    omega
  · intro psz
    have hsep : Separate (locOf g k blank) (g.partnum - 4) :=
      separate_of_mod hstart (fun i _ => hsize (i + 4) (by omega)) (by omega)
    by_cases hk3 : k = 3
    · exact chain_blocksOf_broken hp hsep hlt (k := 4) hp (by omega) (htype 4 (by omega) (by omega))
        h5
    · exact chain_blocksOf_broken hp hsep hlt hk hk3 (htype k hk3 le_rfl) h5

theorem blockPartition_eq {d : Disk} {g₀ : PartGlobals} {rc : ℤ} {junk : ℕ → PartTable}
    (hd : d.lba ≠ 0) (hr : reformatPartSize d.blksz (s32 d.lba) g₀ = some (rc, g))
    (hl : initPartLocation g junk = some loc) (hp : 4 ≤ g.partnum) (hp8 : g.partnum ≤ 8)
    (h3 : (loc 3).startLBA < 2 ^ 32) (buffer : Bool) (after : PartSz) :
    blockPartition d ⟨some junk, buffer, after⟩ g₀ =
      if buffer then
        some ⟨0, g, blocksOf loc g.partnum (infoOf loc g.partnum (g.cfg ++ [after]))⟩
      else some ⟨-1, g, []⟩ := by
  have hw := writePartitions_eq hp hp8 after h3
  unfold blockPartition
  rw [if_neg hd, hr]
  simp only []
  rw [hl]
  simp only []
  rw [hw]

end Run

section Full

variable (d : BlockDisk) (c : PartConfig) (e : ℕ) (zs : List ℕ)

/-- Sizes of which none is missing; that of the first partition makes no difference. -/
structure Whole : Prop where
  misc : d.secs c.misc ≠ 0
  cache : d.secs c.cache ≠ 0
  extended : e ≠ 0
  nonempty : zs ≠ []
  length : zs.length ≤ 3
  logical : ∀ z ∈ zs, z ≠ 0

/-- The entries of a run with these sizes. -/
def fullLoc (junk : ℕ → PartTable) : ℕ → PartTable := locOf (full d c e zs) (4 + zs.length) junk

theorem BlockDisk.spare_mod : d.spare % 64 = 0 := by
  unfold spare
  rcases d.multip_eq with h | h | h | h <;> rw [h]

theorem BlockDisk.spare_lt : d.spare < 2 ^ 32 := by
  unfold spare
  rcases d.multip_eq with h | h | h | h <;> rw [h] <;> norm_num

theorem full_getD {j : ℕ} (hj : j < zs.length) :
    (full d c e zs).sectors.getD (j + 4) 0 = zs.getD j 0 := by
  have hlen : [d.secs c.system, d.secs c.misc, d.secs c.cache, e].length = 4 := rfl
  unfold full after
  simp only [List.getD_eq_getElem?_getD]
  rw [List.append_assoc, List.getElem?_append_right (by omega), hlen, Nat.add_sub_cancel,
    List.getElem?_append_left hj]

variable {d c e zs} {junk : ℕ → PartTable}

theorem Whole.ne (h : Whole d c e zs) :
    ∀ m, 0 < m → m < 4 + zs.length → (full d c e zs).sectors.getD m 0 ≠ 0
  | 0, h0, _ => absurd h0 (lt_irrefl 0)
  | 1, _, _ => h.misc
  | 2, _, _ => h.cache
  | 3, _, _ => h.extended
  | m + 4, _, hm => by
    rw [full_getD d c e zs (by omega), List.getD_eq_getElem _ _ (by omega)]
    exact h.logical _ (List.getElem_mem _)

theorem Whole.location (h : Whole d c e zs) :
    initPartLocation (full d c e zs) junk = some (fullLoc d c e zs junk) := by
  have hlen := h.length
  have hp : (full d c e zs).partnum = 4 + zs.length := rfl
  refine initPartLocation_eq (k := 4 + zs.length) (by omega) (by omega) ?_ hp.ge (by omega)
    (by omega) ?_ ?_ d.spare_mod ?_
  · simp [full, after]
    omega
  · intro m h0 hm
    exact h.ne m h0 hm
  · intro hlt
    omega
  · intro i hi
    rw [if_pos (by omega)]
    have h0 := d.secs_mod c.system
    have h1 := d.secs_mod c.misc
    have h2 := d.secs_mod c.cache
    rcases i with _ | _ | _ | i
    · change d.secs c.system % 64 = 0
      omega
    · change d.secs c.misc % 64 = 0
      omega
    · change d.secs c.cache % 64 = 0
      omega
    · omega

theorem fullLoc_size {i : ℕ} (hi : i < 4 + zs.length) :
    (fullLoc d c e zs junk i).sizeinsectors = (full d c e zs).sectors.getD i 0 := by
  rw [fullLoc, locOf_size, if_pos hi]

theorem fullLoc_sizes (d : BlockDisk) (c : PartConfig) (e : ℕ) (zs : List ℕ)
    (junk : ℕ → PartTable) : logicalSizes (fullLoc d c e zs junk) zs.length = zs := by
  unfold logicalSizes
  refine List.ext_getElem (by simp) fun j h1 h2 => ?_
  rw [List.getElem_map, List.getElem_range, fullLoc_size (by omega), full_getD d c e zs h2,
    List.getD_eq_getElem _ _ h2]

theorem fullLoc_start {i : ℕ} (hi : i < 4) :
    (fullLoc d c e zs junk i).startLBA =
      primaryStart d.spare (fun j => (full d c e zs).sectors.getD j 0) i := by
  rw [fullLoc, locOf_start hi]
  rcases i with _ | _ | _ | _ | i
  · rfl
  · simp only [primaryStart]
    rw [if_pos (by omega)]
    rfl
  · simp only [primaryStart]
    rw [if_pos (by omega), if_pos (by omega)]
    rfl
  · simp only [primaryStart]
    rw [if_pos (by omega), if_pos (by omega), if_pos (by omega)]
    rfl
  · omega

theorem fullLoc_three (h : d.spare + primaries d c < 2 ^ 32) :
    (fullLoc d c e zs junk 3).startLBA = d.spare + primaries d c := by
  have hs := d.spare_lt
  unfold primaries at h ⊢
  rw [fullLoc_start (by omega)]
  change u32 (u32 (u32 (u32 d.spare + d.secs c.system) + d.secs c.misc) + d.secs c.cache) = _
  rw [u32_of_lt hs, u32_of_lt (show d.spare + d.secs c.system < 2 ^ 32 by omega),
    u32_of_lt (show d.spare + d.secs c.system + d.secs c.misc < 2 ^ 32 by omega),
    u32_of_lt (by omega)]
  omega

theorem fullLoc_primaries (h : d.spare + primaries d c < 2 ^ 32) :
    [primary (fullLoc d c e zs junk) 0, primary (fullLoc d c e zs junk) 1,
        primary (fullLoc d c e zs junk) 2] =
      Extent.serial 0 d.spare [d.secs c.system, d.secs c.misc, d.secs c.cache] := by
  have hs := d.spare_lt
  unfold primaries at h
  have h0 : (fullLoc d c e zs junk 0).startLBA = d.spare := by
    rw [fullLoc_start (by omega)]
    exact u32_of_lt hs
  have h1 : (fullLoc d c e zs junk 1).startLBA = d.spare + d.secs c.system := by
    rw [fullLoc_start (by omega)]
    change u32 (u32 d.spare + d.secs c.system) = _
    rw [u32_of_lt hs, u32_of_lt (by omega)]
  have h2 : (fullLoc d c e zs junk 2).startLBA = d.spare + d.secs c.system + d.secs c.misc := by
    rw [fullLoc_start (by omega)]
    change u32 (u32 (u32 d.spare + d.secs c.system) + d.secs c.misc) = _
    rw [u32_of_lt hs, u32_of_lt (show d.spare + d.secs c.system < 2 ^ 32 by omega),
      u32_of_lt (by omega)]
  unfold primary
  rw [h0, h1, h2, fullLoc_size (by omega), fullLoc_size (by omega), fullLoc_size (by omega)]
  rfl

theorem fullLoc_dropLast :
    logicalSizes (fullLoc d c e zs junk) (zs.length - 1) = zs.dropLast := by
  have h := congrArg List.dropLast (fullLoc_sizes d c e zs junk)
  rw [← h]
  unfold logicalSizes
  rw [← List.map_dropLast]
  rcases zs.length with _ | n
  · rfl
  · rw [List.range_succ, List.dropLast_concat]
    rfl

/-- What the tables of a run say whose sizes are all there. -/
theorem Whole.chain_eq (h : Whole d c e zs) {psz : List PartSz}
    (hlt : Extent.serialEnd 0x10 (d.spare + primaries d c) zs.dropLast < 2 ^ 32) :
    chain (blocksOf (fullLoc d c e zs junk) (4 + zs.length) psz) =
      some (Extent.serial 0 d.spare [d.secs c.system, d.secs c.misc, d.secs c.cache] ++
        Extent.serial 0x10 (d.spare + primaries d c) zs) := by
  have hn : 0 < zs.length := List.length_pos_iff.2 h.nonempty
  have hle := Extent.le_serialEnd 0x10 (d.spare + primaries d c) zs.dropLast
  have hX : (fullLoc d c e zs junk 3).startLBA = d.spare + primaries d c :=
    fullLoc_three (by omega)
  have hreach : (fullLoc d c e zs junk 3).startLBA + reach (fullLoc d c e zs junk) (zs.length - 1)
      < 2 ^ 32 := by
    rwa [← serialEnd_logical, fullLoc_dropLast, hX]
  have hone : 1 < (fullLoc d c e zs junk 3).startLBA := by
    rw [hX]
    unfold BlockDisk.spare
    omega
  have hp : 4 + zs.length - 4 = zs.length := by omega
  rw [chain_blocksOf (by omega) (by rw [hp]; exact separate_of_lt hone (by omega) hreach)
    (by omega),
    hp, fullLoc_primaries (by omega), logicals_serial (by omega) hreach, fullLoc_sizes, hX]
  · intro k hk
    exact locOf_logical (by omega) (show k + 4 < 4 + zs.length by omega)
  · intro i hi h3
    rw [fullLoc, locOf_type, if_neg (by omega), if_pos hi]
  · rw [fullLoc, locOf_type, if_pos ⟨rfl, show 4 < 4 + zs.length by omega⟩]

end Full

end InfotmUboot
