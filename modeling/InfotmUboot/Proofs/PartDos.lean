import InfotmUboot.PartDos
import InfotmUboot.Proofs.Block

/-!
# Reading the partitions back

What the DOS partition reader makes of the tables that `block_partition` writes, and when it finds
the partitions of the configuration under their numbers, and no others.
-/

namespace InfotmUboot

open Lib

section Bytes

theorem le32_eq {buffer : List UInt8} {o n : ℕ}
    (h : ∀ i < 4, buffer.getD (o + i) 0 = (bytes32 n).getD i 0) : le32 buffer o = u32 n := by
  have h0 := h 0 (by omega)
  have h1 := h 1 (by omega)
  have h2 := h 2 (by omega)
  have h3 := h 3 (by omega)
  rw [Nat.add_zero] at h0
  unfold le32 Mem.get32 Mem.get16 u32
  simp only [Nat.add_assoc, Nat.reduceAdd, h0, h1, h2, h3]
  simp only [bytes32, List.getD_cons_zero, List.getD_cons_succ, UInt8.toNat_ofNat']
  omega

theorem PartTable.length_bytes (e : PartTable) : e.bytes.length = 16 := rfl

theorem PartSz.length_bytes (p : PartSz) : p.bytes.length = 20 := by
  simp [bytes]

/-- An entry as the reader takes it. -/
def PartTable.dos (e : PartTable) : DosPartition :=
  ⟨e.bootableflag, e.parttype, u32 e.startLBA, u32 e.sizeinsectors⟩

variable {head tail : List UInt8}

theorem getD_entry {e : PartTable} : ∀ (es : List PartTable) (i : ℕ) {j : ℕ}, j < 16 →
    es[i]? = some e → (es.flatMap PartTable.bytes ++ tail).getD (16 * i + j) 0 = e.bytes.getD j 0
  | [], i, j, _, h => by simp at h
  | e' :: es, 0, j, hj, h => by
    obtain rfl : e' = e := by simpa using h
    rw [List.flatMap_cons, List.append_assoc, Nat.mul_zero, Nat.zero_add,
      List.getD_append _ _ _ _ (by rw [e'.length_bytes]; exact hj)]
  | e' :: es, i + 1, j, hj, h => by
    rw [List.flatMap_cons, List.append_assoc,
      List.getD_append_right _ _ _ _ (by rw [e'.length_bytes]; omega), e'.length_bytes,
      show 16 * (i + 1) + j - 16 = 16 * i + j by omega]
    exact getD_entry es i hj (by simpa using h)

theorem dosPartition_entry {es : List PartTable} {e : PartTable} {i : ℕ} (hh : head.length = 446)
    (he : es[i]? = some e) :
    dosPartition (head ++ (es.flatMap PartTable.bytes ++ tail)) i = e.dos := by
  have hget (j : ℕ) (hj : j < 16) :
      (head ++ (es.flatMap PartTable.bytes ++ tail)).getD (446 + 16 * i + j) 0 =
        e.bytes.getD j 0 := by
    rw [List.getD_append_right _ _ _ _ (by omega), hh, Nat.add_assoc, Nat.add_sub_cancel_left]
    exact getD_entry es i hj he
  have h0 := hget 0 (by omega)
  rw [Nat.add_zero] at h0
  unfold dosPartition PartTable.dos DOS_PART_TBL_OFFSET
  dsimp only
  rw [h0, hget 4 (by omega), le32_eq (n := e.startLBA) ?_, le32_eq (n := e.sizeinsectors) ?_]
  · rfl
  · intro j hj
    rw [Nat.add_assoc, hget (12 + j) (by omega)]
    rcases j with _ | _ | _ | _ | j
    · rfl
    · rfl
    · rfl
    · rfl
    · omega
  · intro j hj
    rw [Nat.add_assoc, hget (8 + j) (by omega)]
    rcases j with _ | _ | _ | _ | j
    · rfl
    · rfl
    · rfl
    · rfl
    · omega

/-- The table of these entries is in a block. -/
def HoldsTable (blockRead : ℕ → Option (List UInt8)) (b : ℕ) (es : List PartTable) : Prop :=
  ∃ buffer, blockRead b = some buffer ∧ buffer.getD DOS_PART_MAGIC_OFFSET 0 = 0x55 ∧
    buffer.getD (DOS_PART_MAGIC_OFFSET + 1) 0 = 0xaa ∧
    (List.range 4).map (dosPartition buffer) = es.map PartTable.dos

theorem holdsTable_of {blockRead : ℕ → Option (List UInt8)} {b : ℕ} {e₀ e₁ e₂ e₃ : PartTable}
    (hh : head.length = 446)
    (hb : blockRead b = some
      (head ++ ([e₀, e₁, e₂, e₃].flatMap PartTable.bytes ++ ([0x55, 0xaa] ++ tail)))) :
    HoldsTable blockRead b [e₀, e₁, e₂, e₃] := by
  have hlen : ([e₀, e₁, e₂, e₃].flatMap PartTable.bytes).length = 64 := rfl
  refine ⟨_, hb, ?_, ?_, ?_⟩
  · unfold DOS_PART_MAGIC_OFFSET
    rw [List.getD_append_right _ _ _ _ (by omega), hh,
      List.getD_append_right _ _ _ _ (by omega), hlen]
    rfl
  · unfold DOS_PART_MAGIC_OFFSET
    rw [List.getD_append_right _ _ _ _ (by omega), hh,
      List.getD_append_right _ _ _ _ (by omega), hlen]
    rfl
  · simp only [List.range_succ, List.range_zero, List.nil_append, List.map_cons, List.map_nil,
      List.cons_append]
    rw [dosPartition_entry (e := e₀) hh rfl, dosPartition_entry (e := e₁) hh rfl,
      dosPartition_entry (e := e₂) hh rfl, dosPartition_entry (e := e₃) hh rfl]

/-- What is in front of the entries of a table. -/
def tableHead (parted : Bool) : List UInt8 :=
  List.replicate 0x120 0 ++ (if parted then bytes32 DISK_PARTITIONED else List.replicate 4 0) ++
    List.replicate (446 - 0x124) 0

theorem length_tableHead (parted : Bool) : (tableHead parted).length = 446 := by
  unfold tableHead
  simp only [List.length_append, List.length_replicate]
  cases parted <;> rfl

theorem tableBlock_eq {blksz : ℕ} (h : 512 ≤ blksz) (e₀ e₁ e₂ e₃ : PartTable) (parted : Bool) :
    tableBlock blksz [e₀, e₁, e₂, e₃] parted =
      tableHead parted ++ ([e₀, e₁, e₂, e₃].flatMap PartTable.bytes ++
        ([0x55, 0xaa] ++ List.replicate (blksz - 512) 0)) := by
  have hlen : ([e₀, e₁, e₂, e₃].flatMap PartTable.bytes).length = 64 := rfl
  have hall : (tableHead parted ++ [e₀, e₁, e₂, e₃].flatMap PartTable.bytes ++
      [0x55, 0xaa]).length = 512 := by
    simp only [List.length_append, length_tableHead, hlen, List.length_cons, List.length_nil]
  change fit blksz (tableHead parted ++ [e₀, e₁, e₂, e₃].flatMap PartTable.bytes ++ [0x55, 0xaa]) =
    _
  unfold fit
  rw [List.take_of_length_le (by omega), hall]
  simp only [List.append_assoc]

variable {d : BlockDisk} {old : ℕ → List UInt8} {writes : List (ℕ × Sector)}

theorem BlockDisk.blksz_ge (d : BlockDisk) : 512 ≤ d.blksz := by
  rcases d.blksz_ok with h | h | h | h <;> omega

theorem holdsTable_table {b : ℕ} {e₀ e₁ e₂ e₃ : PartTable} {parted : Bool}
    (hw : written writes b = some (.table [e₀, e₁, e₂, e₃] parted)) (hb : (b : ℤ) < d.capacity) :
    HoldsTable (d.blockRead old writes) b [e₀, e₁, e₂, e₃] := by
  have hblock : d.blockRead old writes b = some (tableBlock d.blksz [e₀, e₁, e₂, e₃] parted) := by
    unfold Disk.blockRead Disk.block
    rw [if_pos hb, hw]
  rw [tableBlock_eq d.blksz_ge] at hblock
  exact holdsTable_of (length_tableHead parted) hblock

/-- The information does not reach the entries of the table that the buffer had before. -/
theorem holdsTable_info {b : ℕ} {e₀ e₁ e₂ e₃ : PartTable} {parted : Bool} {psz : List PartSz}
    (hw : written writes b = some (.info psz)) (hlen : psz.length = 18)
    (hw0 : written writes 0 = some (.table [e₀, e₁, e₂, e₃] parted)) (hb : (b : ℤ) < d.capacity) :
    HoldsTable (d.blockRead old writes) b [e₀, e₁, e₂, e₃] := by
  have hinfo : (psz.flatMap PartSz.bytes).length = 360 := by
    rw [List.length_flatMap, List.map_congr_left fun p _ => p.length_bytes]
    simp [hlen]
  have hhead : (psz.flatMap PartSz.bytes ++ (tableHead parted).drop 360).length = 446 := by
    rw [List.length_append, List.length_drop, length_tableHead, hinfo]
  have hblock : d.blockRead old writes b = some (psz.flatMap PartSz.bytes ++
      (tableBlock d.blksz [e₀, e₁, e₂, e₃] parted).drop (psz.flatMap PartSz.bytes).length) := by
    unfold Disk.blockRead Disk.block
    rw [if_pos hb, hw]
    dsimp only
    rw [hw0]
  rw [tableBlock_eq d.blksz_ge, hinfo, List.drop_append_of_le_length
    (by rw [length_tableHead]; omega), ← List.append_assoc] at hblock
  exact holdsTable_of hhead hblock

end Bytes

section Reader

variable {blockRead : ℕ → Option (List UInt8)} {which : ℤ} {b rel num : ℕ}

/-- The reader comes back with `x` from the table at `b`. -/
def Returns (blockRead : ℕ → Option (List UInt8)) (which : ℤ) (b rel num : ℕ)
    (x : Option DiskPartition) : Prop :=
  ∃ n, getPartitionInfoExtended blockRead which n b rel num = some x

theorem returns_unread {x : Option DiskPartition} (h : blockRead b = none) :
    Returns blockRead which b rel num x ↔ x = none := by
  constructor
  · rintro ⟨n, hn⟩
    rcases n with _ | n
    · cases hn
    · rw [getPartitionInfoExtended, h] at hn
      cases hn
      rfl
  · rintro rfl
    exact ⟨1, by rw [getPartitionInfoExtended, h]⟩

/-- The reader with the entries of a table. -/
theorem returns_table {es : List PartTable} {x : Option DiskPartition}
    (h : HoldsTable blockRead b es) :
    Returns blockRead which b rel num x ↔
      match findPart b which (es.map PartTable.dos) num with
      | .inl info => x = some info
      | .inr num' =>
        match (es.map PartTable.dos).find? fun pt => isExtended pt.sysInd with
        | none => x = none
        | some pt => Returns blockRead which (u32 (pt.start4 + rel))
            (if b = 0 then u32 (pt.start4 + rel) else rel) num' x := by
  obtain ⟨buffer, hb, h55, haa, hpts⟩ := h
  have hround (n : ℕ) : getPartitionInfoExtended blockRead which (n + 1) b rel num =
      match findPart b which (es.map PartTable.dos) num with
      | .inl info => some (some info)
      | .inr num' =>
        match (es.map PartTable.dos).find? fun pt => isExtended pt.sysInd with
        | none => some none
        | some pt => getPartitionInfoExtended blockRead which n (u32 (pt.start4 + rel))
            (if b = 0 then u32 (pt.start4 + rel) else rel) num' := by
    rw [getPartitionInfoExtended, hb]
    dsimp only
    rw [if_neg (by rintro (hne | hne); exacts [hne h55, hne haa])]
    exact hpts ▸ rfl
  have hend {y : Option DiskPartition}
      (hy : ∀ n, getPartitionInfoExtended blockRead which (n + 1) b rel num = some y) :
      Returns blockRead which b rel num x ↔ x = y := by
    constructor
    · rintro ⟨_ | n, hn⟩
      · cases hn
      · rw [hy] at hn
        cases hn
        rfl
    · rintro rfl
      exact ⟨1, hy 0⟩
  rcases hf : findPart b which (es.map PartTable.dos) num with info | num'
  · exact hend fun n => by rw [hround, hf]
  · rcases hx : (es.map PartTable.dos).find? fun pt => isExtended pt.sysInd with _ | pt
    · simp only [hf, hx] at hround ⊢
      exact hend hround
    · simp only [hf, hx] at hround ⊢
      constructor
      · rintro ⟨_ | n, hn⟩
        · cases hn
        · exact ⟨n, by rw [← hround, hn]⟩
      · rintro ⟨n, hn⟩
        exact ⟨n + 1, by rw [hround, hn]⟩

/-- An entry that is filled. -/
structure Live (e : PartTable) : Prop where
  boot : e.bootableflag = 0
  type : e.parttype = 0x83

theorem findPart_live {e : PartTable} {pts : List DosPartition} (h : Live e) :
    findPart b which (e.dos :: pts) num =
      if (num : ℤ) = which then .inl ⟨u32 (b + u32 e.startLBA), u32 e.sizeinsectors, 512⟩
      else findPart b which pts (num + 1) := by
  have hext : isExtended 0x83 = false := rfl
  rw [findPart]
  unfold PartTable.dos
  simp only [h.boot, h.type, hext]
  simp

/-- An entry that is none, or leads to another table, is counted in the first table only. -/
theorem findPart_skip {pt : DosPartition} {pts : List DosPartition}
    (h : pt.sysInd = 0 ∨ pt.sysInd = 0x05) :
    findPart b which (pt :: pts) num =
      findPart b which pts (if b = 0 then num + 1 else num) := by
  have h5 : isExtended 0x05 = true := rfl
  rw [findPart]
  rcases h with h | h
  · rw [if_neg (by rintro ⟨-, hne, -⟩; exact hne h)]
    by_cases hb : b = 0
    · rw [if_pos (Or.inl hb), if_pos hb]
    · rw [if_neg (by rintro (h0 | ⟨hne, -⟩); exacts [hb h0, hne h]), if_neg hb]
  · rw [if_neg (by rintro ⟨-, -, -, hne⟩; exact hne (by rw [h, h5]))]
    by_cases hb : b = 0
    · rw [if_pos (Or.inl hb), if_pos hb]
    · rw [if_neg (by rintro (h0 | ⟨-, hne⟩); exacts [hb h0, hne (by rw [h, h5])]), if_neg hb]

theorem findPart_ge : ∀ (pts : List DosPartition) (num : ℕ),
    match findPart b which pts num with
    | .inl _ => (num : ℤ) ≤ which
    | .inr num' => num ≤ num'
  | [], num => le_rfl
  | pt :: pts, num => by
    have ih := findPart_ge pts
    rw [findPart]
    split_ifs with h1 h2
    · exact h1.2.2.1.le
    · have h := ih (num + 1)
      split at h <;> omega
    · exact ih num

/-- A number that is passed does not come again. -/
theorem not_returns_lt : ∀ (n : ℕ) {b rel num : ℕ} {info : DiskPartition}, which < num →
    getPartitionInfoExtended blockRead which n b rel num ≠ some (some info)
  | 0, _, _, _, _, _ => by simp [getPartitionInfoExtended]
  | n + 1, b, rel, num, info, hlt => by
    rw [getPartitionInfoExtended]
    rcases blockRead b with _ | buffer
    · simp
    · dsimp only
      split
      · simp
      · have hge := @findPart_ge which b ((List.range 4).map (dosPartition buffer)) num
        rcases hf : findPart b which ((List.range 4).map (dosPartition buffer)) num with _ | num'
        · rw [hf] at hge
          exact absurd hge (not_le.2 hlt)
        · rw [hf] at hge
          dsimp only at hge ⊢
          split
          · simp
          · exact not_returns_lt n (by omega)

end Reader

section Walk

variable {blockRead : ℕ → Option (List UInt8)} {which : ℤ} {num : ℕ} {loc : ℕ → PartTable} {p : ℕ}
  {x : Option DiskPartition}

/-- The reader goes on to the next table of a logical partition, or ends. -/
def Onward (blockRead : ℕ → Option (List UInt8)) (which : ℤ) (loc : ℕ → PartTable) (p i num : ℕ)
    (x : Option DiskPartition) : Prop :=
  if i + 1 < p - 4 then Returns blockRead which (tableAt loc (i + 1)) (loc 3).startLBA num x
  else x = none

/-- The table of a logical partition is in its block. -/
def TableRead (blockRead : ℕ → Option (List UInt8)) (loc : ℕ → PartTable) (p i : ℕ) : Prop :=
  HoldsTable blockRead (tableAt loc i) [loc (i + 4), link loc p i, PartTable.zero, PartTable.zero]

theorem findPart_rest {b i : ℕ} (hb : b ≠ 0) :
    findPart b which ([link loc p i, PartTable.zero, PartTable.zero].map PartTable.dos) num =
      .inr num := by
  have hl : (link loc p i).dos.sysInd = 0 ∨ (link loc p i).dos.sysInd = 0x05 := by
    unfold link
    split_ifs
    · exact Or.inr rfl
    · exact Or.inl rfl
  have hz : PartTable.zero.dos.sysInd = 0 ∨ PartTable.zero.dos.sysInd = 0x05 := Or.inl rfl
  simp only [List.map_cons, List.map_nil]
  rw [findPart_skip hl, findPart_skip hz, findPart_skip hz, if_neg hb, if_neg hb, if_neg hb]
  rfl

theorem onward_of_find {i : ℕ} (h : (loc (i + 4)).parttype = 0x83 ∨ (loc (i + 4)).parttype = 0) :
    (match ([loc (i + 4), link loc p i, PartTable.zero, PartTable.zero].map PartTable.dos).find?
        fun pt => isExtended pt.sysInd with
      | none => x = none
      | some pt => Returns blockRead which (u32 (pt.start4 + (loc 3).startLBA))
          (loc 3).startLBA num x) ↔ Onward blockRead which loc p i num x := by
  have h0 : isExtended (loc (i + 4)).dos.sysInd = false := by
    unfold PartTable.dos
    rcases h with h | h <;> rw [h] <;> rfl
  have hz : isExtended PartTable.zero.dos.sysInd = false := rfl
  simp only [List.map_cons, List.map_nil, List.find?_cons, h0, hz, List.find?_nil]
  unfold Onward
  by_cases hi : i + 1 < p - 4
  · have hext : isExtended (link loc p i).dos.sysInd = true := by
      rw [link_next hi]
      rfl
    have hstart : u32 ((link loc p i).dos.start4 + (loc 3).startLBA) = tableAt loc (i + 1) := by
      rw [link_next hi, ← tableAt_succ]
      unfold PartTable.dos u32
      dsimp only
      omega
    rw [hext, if_pos hi, ← hstart]
  · have hext : isExtended (link loc p i).dos.sysInd = false := by
      unfold link
      rw [if_neg hi]
      rfl
    rw [hext, if_neg hi]

/-- At the table of a partition that is there. -/
theorem returns_live {i : ℕ} (h : TableRead blockRead loc p i) (h0 : tableAt loc i ≠ 0)
    (hl : Live (loc (i + 4))) :
    Returns blockRead which (tableAt loc i) (loc 3).startLBA num x ↔
      if (num : ℤ) = which then
        x = some ⟨u32 (tableAt loc i + u32 (loc (i + 4)).startLBA),
          u32 (loc (i + 4)).sizeinsectors, 512⟩
      else Onward blockRead which loc p i (num + 1) x := by
  rw [returns_table h, List.map_cons, findPart_live hl]
  by_cases hn : (num : ℤ) = which
  · rw [if_pos hn, if_pos hn]
  · rw [if_neg hn, if_neg hn, findPart_rest h0]
    simp only [if_neg h0]
    exact onward_of_find (Or.inl hl.type)

/-- At the table of an entry that is none. -/
theorem returns_dead {i : ℕ} (h : TableRead blockRead loc p i) (h0 : tableAt loc i ≠ 0)
    (ht : (loc (i + 4)).parttype = 0) :
    Returns blockRead which (tableAt loc i) (loc 3).startLBA num x ↔
      Onward blockRead which loc p i num x := by
  rw [returns_table h, List.map_cons, findPart_skip (Or.inl ht), if_neg h0, findPart_rest h0]
  simp only [if_neg h0]
  exact onward_of_find (Or.inr ht)

/-- The partition of table `i`, as the reader gives it. -/
def partAt (loc : ℕ → PartTable) (i : ℕ) : DiskPartition :=
  ⟨u32 (tableAt loc i + 0x10), u32 (loc (i + 4)).sizeinsectors, 512⟩

/-- The reader finds the logical partitions that are left. -/
theorem returns_logicals (hT : ∀ i < p - 4, TableRead blockRead loc p i)
    (h0 : ∀ i < p - 4, tableAt loc i ≠ 0) (hl : ∀ i < p - 4, Live (loc (i + 4)))
    (h16 : ∀ i < p - 4, (loc (i + 4)).startLBA = 0x10) : ∀ (n i : ℕ), i + (n + 1) = p - 4 →
    (Returns blockRead which (tableAt loc i) (loc 3).startLBA (5 + i) x ↔
      x = if (5 + i : ℕ) ≤ which ∧ which ≤ p then some (partAt loc (which - 5).toNat) else none)
  | n, i, hi => by
    have hstart : u32 (tableAt loc i + u32 (loc (i + 4)).startLBA) =
      u32 (tableAt loc i + 0x10) := by
      rw [h16 i (by omega)]
      rfl
    rw [returns_live (hT i (by omega)) (h0 i (by omega)) (hl i (by omega)), hstart]
    by_cases hw : ((5 + i : ℕ) : ℤ) = which
    · rw [if_pos hw, if_pos (by omega), show (which - 5).toNat = i by omega]
      rfl
    · rw [if_neg hw]
      unfold Onward
      rcases n with _ | n
      · rw [if_neg (by omega), if_neg (by omega)]
      · rw [if_pos (by omega), Nat.add_assoc 5 i 1,
          returns_logicals hT h0 hl h16 n (i + 1) (by omega)]
        have hiff : ((5 + (i + 1) : ℕ) : ℤ) ≤ which ∧ which ≤ p ↔
            ((5 + i : ℕ) : ℤ) ≤ which ∧ which ≤ p := by omega
        simp only [hiff]

variable {info : DiskPartition}

/-- No partition is found where the entries are none. -/
theorem not_returns_dead {m : ℕ}
    (hT : ∀ i < p - 4, m ≤ i → blockRead (tableAt loc i) = none ∨ TableRead blockRead loc p i)
    (h0 : ∀ i < p - 4, tableAt loc i ≠ 0)
    (ht : ∀ i < p - 4, m ≤ i → (loc (i + 4)).parttype = 0) : ∀ (n i : ℕ), m ≤ i →
    i + (n + 1) = p - 4 →
    ¬Returns blockRead which (tableAt loc i) (loc 3).startLBA num (some info)
  | n, i, hm, hi => by
    rcases hT i (by omega) hm with hnone | hread
    · rw [returns_unread hnone]
      simp
    · rw [returns_dead hread (h0 i (by omega)) (ht i (by omega) hm)]
      unfold Onward
      rcases n with _ | n
      · rw [if_neg (by omega)]
        simp
      · rw [if_pos (by omega)]
        exact not_returns_dead hT h0 ht n (i + 1) (by omega) (by omega)

/-- A partition that is not found from its table on is not found from one before. -/
theorem not_returns_upto {m : ℕ} (hm : m < p - 4)
    (hT : ∀ i < m, blockRead (tableAt loc i) = none ∨ TableRead blockRead loc p i)
    (h0 : ∀ i < m, tableAt loc i ≠ 0) (hl : ∀ i < m, Live (loc (i + 4)))
    (hend : ¬Returns blockRead which (tableAt loc m) (loc 3).startLBA (5 + m) (some info))
    (hw : which = (5 + m : ℕ)) : ∀ (n i : ℕ), i + n = m →
    ¬Returns blockRead which (tableAt loc i) (loc 3).startLBA (5 + i) (some info)
  | 0, i, hi => by
    obtain rfl : i = m := hi
    exact hend
  | n + 1, i, hi => by
    rcases hT i (by omega) with hnone | hread
    · rw [returns_unread hnone]
      simp
    · rw [returns_live hread (h0 i (by omega)) (hl i (by omega)), if_neg (by omega)]
      unfold Onward
      rw [if_pos (by omega), Nat.add_assoc 5 i 1]
      exact not_returns_upto hm hT h0 hl hend hw n (i + 1) (by omega)

/-- A primary partition, as the reader gives it. -/
def firstAt (loc : ℕ → PartTable) (i : ℕ) : DiskPartition :=
  ⟨u32 (loc i).startLBA, u32 (loc i).sizeinsectors, 512⟩

theorem u32_u32 (n : ℕ) : u32 (u32 n) = u32 n := Nat.mod_mod _ _

theorem findPart_first (pts : List DosPartition) : ∀ (n j : ℕ),
    (∀ i, j ≤ i → i < j + n → Live (loc i)) →
    findPart 0 which ((List.range' j n).map (fun i => (loc i).dos) ++ pts) (j + 1) =
      if (j + 1 : ℕ) ≤ which ∧ which ≤ (j + n : ℕ) then .inl (firstAt loc (which - 1).toNat)
      else findPart 0 which pts (j + n + 1)
  | 0, j, _ => by
    rw [if_neg (by omega)]
    rfl
  | n + 1, j, hl => by
    have ih := findPart_first pts n (j + 1) fun i h1 h2 => hl i (by omega) (by omega)
    rw [List.range'_succ, List.map_cons, List.cons_append, findPart_live (hl j le_rfl (by omega)),
      ih]
    by_cases hw : ((j + 1 : ℕ) : ℤ) = which
    · rw [if_pos hw, if_pos (by omega), show (which - 1).toNat = j by omega, Nat.zero_add, u32_u32]
      rfl
    · have hiff : ((j + 1 + 1 : ℕ) : ℤ) ≤ which ∧ which ≤ (j + 1 + n : ℕ) ↔
          ((j + 1 : ℕ) : ℤ) ≤ which ∧ which ≤ (j + (n + 1) : ℕ) := by omega
      rw [if_neg hw, show j + 1 + n + 1 = j + (n + 1) + 1 by omega]
      simp only [hiff]

theorem map_dos_split (n : ℕ) (hn : n ≤ 4) :
    [loc 0, loc 1, loc 2, loc 3].map PartTable.dos =
      (List.range' 0 n).map (fun i => (loc i).dos) ++
        (List.range' n (4 - n)).map (fun i => (loc i).dos) := by
  have h4 : [loc 0, loc 1, loc 2, loc 3].map PartTable.dos =
      (List.range' 0 4).map (fun i => (loc i).dos) := rfl
  rw [h4, ← List.map_append, show List.range' n (4 - n) = List.range' (0 + n)
    (4 - n) by rw [Nat.zero_add],
    List.range'_append_1, Nat.add_sub_cancel' hn]

theorem Live.not_extended {e : PartTable} (h : Live e) : isExtended e.dos.sysInd = false := by
  unfold PartTable.dos
  rw [h.type]
  rfl

/-- The first table, with partitions in the extended one. -/
theorem returns_first (h : HoldsTable blockRead 0 [loc 0, loc 1, loc 2, loc 3])
    (hl : ∀ i < 3, Live (loc i)) (h5 : (loc 3).parttype = 0x05) (hlt : (loc 3).startLBA < 2 ^ 32) :
    Returns blockRead which 0 0 1 x ↔
      if 1 ≤ which ∧ which ≤ 3 then x = some (firstAt loc (which - 1).toNat)
      else Returns blockRead which (tableAt loc 0) (loc 3).startLBA 5 x := by
  have h3 : (loc 3).dos.sysInd = 0 ∨ (loc 3).dos.sysInd = 0x05 := Or.inr h5
  have hfind : ([loc 0, loc 1, loc 2, loc 3].map PartTable.dos).find?
      (fun pt => isExtended pt.sysInd) = some (loc 3).dos := by
    have hext : isExtended (loc 3).dos.sysInd = true := by
      unfold PartTable.dos
      rw [h5]
      rfl
    simp only [List.map_cons, List.map_nil, List.find?_cons, (hl 0 (by omega)).not_extended,
      (hl 1 (by omega)).not_extended, (hl 2 (by omega)).not_extended, hext]
  have hstart : u32 ((loc 3).dos.start4 + 0) = (loc 3).startLBA := by
    unfold PartTable.dos
    rw [Nat.add_zero, u32_u32, u32_of_lt hlt]
  have htable : tableAt loc 0 = (loc 3).startLBA := by
    simp [tableAt, u32_of_lt hlt]
  rw [returns_table h, hfind, map_dos_split 3 (by omega),
    findPart_first _ 3 0 fun i _ hi => hl i (by omega)]
  by_cases hw : 1 ≤ which ∧ which ≤ 3
  · rw [if_pos (by omega), if_pos hw]
  · rw [if_neg (by omega), if_neg hw, show List.range' 3 (4 - 3) = [3] from rfl, List.map_cons,
      findPart_skip h3]
    simp only [List.map_nil, findPart, hstart, htable, if_true]

/-- The first table, without an extended partition. -/
theorem returns_four (h : HoldsTable blockRead 0 [loc 0, loc 1, loc 2, loc 3])
    (hl : ∀ i < 4, Live (loc i)) :
    Returns blockRead which 0 0 1 x ↔
      x = if 1 ≤ which ∧ which ≤ 4 then some (firstAt loc (which - 1).toNat) else none := by
  have hfind : ([loc 0, loc 1, loc 2, loc 3].map PartTable.dos).find?
      (fun pt => isExtended pt.sysInd) = none := by
    simp only [List.map_cons, List.map_nil, List.find?_cons, (hl 0 (by omega)).not_extended,
      (hl 1 (by omega)).not_extended, (hl 2 (by omega)).not_extended,
      (hl 3 (by omega)).not_extended, List.find?_nil]
  rw [returns_table h, hfind, map_dos_split 4 (by omega),
    findPart_first _ 4 0 fun i _ hi => hl i (by omega)]
  by_cases hw : 1 ≤ which ∧ which ≤ 4
  · rw [if_pos (by omega), if_pos hw]
  · rw [if_neg (by omega), if_neg hw]
    rfl

/-- A primary partition whose entry is none is not found. -/
theorem not_returns_first {k : ℕ} (h : HoldsTable blockRead 0 [loc 0, loc 1, loc 2, loc 3])
    (hk : k < 4) (hl : ∀ i < k, Live (loc i)) (ht : (loc k).parttype = 0) {info : DiskPartition} :
    ¬Returns blockRead (k + 1 : ℕ) 0 0 1 (some info) := by
  have hsplit : (List.range' k (4 - k)).map (fun i => (loc i).dos) =
      (loc k).dos :: (List.range' (k + 1) (3 - k)).map (fun i => (loc i).dos) := by
    rw [show 4 - k = 3 - k + 1 by omega, List.range'_succ, List.map_cons]
  rw [returns_table h, map_dos_split k (by omega), hsplit,
    findPart_first _ k 0 fun i _ hi => hl i (by omega), if_neg (by omega),
    findPart_skip (Or.inl ht), if_pos rfl]
  have hge := @findPart_ge (k + 1 : ℕ) 0 ((List.range' (k + 1) (3 - k)).map fun i => (loc i).dos)
    (0 + k + 1 + 1)
  rcases hf : findPart 0 (k + 1 : ℕ) ((List.range' (k + 1) (3 - k)).map fun i => (loc i).dos)
    (0 + k + 1 + 1) with found | num'
  · rw [hf] at hge
    dsimp only at hge
    omega
  · rw [hf] at hge
    dsimp only at hge ⊢
    split
    · simp
    · rintro ⟨n, hn⟩
      exact not_returns_lt n (by omega) hn

end Walk

section Sizes

/-- The blocks of a partition. -/
def PartGlobals.size (g : PartGlobals) (i : ℕ) : ℕ := g.sectors.getD i 0

/-- What is known of the sizes that `reformat_part_size` leaves, also where it gives up. -/
structure Reformatted (d : BlockDisk) (g : PartGlobals) : Prop where
  spare : g.spareArea = d.spare
  length : g.sectors.length = 8
  ge : 4 ≤ g.partnum
  le : g.partnum ≤ 8
  lt : ∀ i, g.size i < 2 ^ 32
  primary : ∀ i < 3, g.size i % 256 = 0
  last : g.size 7 = 0
  four : g.partnum = 4 → g.size 3 ≠ 0
  rest : (∀ i, i ≠ 3 → g.size i % 256 = 0) ∨
    g.partnum ≤ 7 ∧ (g.size 4 = 0 ∨ (g.size 4 + 0x10) % 256 = 0 ∧ g.size 4 + 0x10 < 2 ^ 32) ∧
      (∀ i, 5 ≤ i → i < g.partnum → g.size i ≠ 0) ∧ (g.partnum = 7 → g.size 5 + 0x10 < 2 ^ 32)

variable {d : BlockDisk} {c : PartConfig} {rc : ℤ} {g : PartGlobals}

theorem slots_lt {e l a : ℕ} (he : e < 2 ^ 32) (hl : l < 2 ^ 32) (ha : a < 2 ^ 32) :
    ∀ i, (slots d c e l a).getD i 0 < 2 ^ 32
  | 0 => d.secs_lt _
  | 1 => d.secs_lt _
  | 2 => d.secs_lt _
  | 3 => he
  | 4 => d.secs_lt _
  | 5 => hl
  | 6 => ha
  | 7 => Nat.two_pow_pos 32
  | _ + 8 => Nat.two_pow_pos 32

theorem reformatted_slots {e l a : ℕ} (he : e < 2 ^ 32) (hl : l < 2 ^ 32) (ha : a < 2 ^ 32)
    (hl' : l % 256 = 0) (ha' : a % 256 = 0) :
    Reformatted d (after d c (c.count + 1) (slots d c e l a)) where
  spare := rfl
  length := rfl
  ge := by
    have h4 := c.count_ge
    change 4 ≤ c.count + 1
    omega
  le := by
    have h7 := c.count_le
    change c.count + 1 ≤ 8
    omega
  lt := slots_lt he hl ha
  primary := fun i hi => slots_mod hl' ha' i (by omega)
  last := rfl
  four := by
    intro h
    have h4 := c.count_ge
    change c.count + 1 = 4 at h
    omega
  rest := Or.inl (slots_mod hl' ha')

theorem lastPart_slots {a0 a1 a2 e x y z : ℕ} (h : e ≠ 0 ∨ y ≠ 0) :
    4 ≤ lastPart [a0, a1, a2, e, x, y, z, 0] ∧ lastPart [a0, a1, a2, e, x, y, z, 0] ≤ 7 ∧
      (lastPart [a0, a1, a2, e, x, y, z, 0] = 4 → e ≠ 0) ∧
      (lastPart [a0, a1, a2, e, x, y, z, 0] = 6 → y ≠ 0) ∧
      (lastPart [a0, a1, a2, e, x, y, z, 0] = 7 → z ≠ 0) := by
  unfold lastPart
  by_cases hz : z = 0 <;> by_cases hy : y = 0 <;> by_cases hx : x = 0 <;> by_cases he : e = 0 <;>
    simp_all

theorem trim_lt (x : ℕ) : trim x < 2 ^ 32 := by
  unfold trim
  split_ifs with h
  · exact u32_lt _
  · rw [not_not.1 h]
    exact Nat.two_pow_pos 32

theorem reformatTrim_slots (d : BlockDisk) (c : PartConfig) (e l a : ℕ) :
    reformatTrim (c.count + 1) (slots d c e l a) =
      [d.secs c.system, d.secs c.misc, d.secs c.cache, e, trim (d.secs c.userdata),
        if 5 ≤ c.count then trim l else l, if 6 ≤ c.count then trim a else a, 0] := by
  rcases count_cases c with h | h | h | h <;> simp [h, reformatTrim, slots, trim_zero]

theorem reformatted_done {e l a : ℕ} (he : e < 2 ^ 32) (hl : l < 2 ^ 32) (ha : a < 2 ^ 32)
    (h4 : e ≠ 0 ∨ 5 ≤ c.count ∧ 0x10 < l) (h6 : a ≠ 0 → 6 ≤ c.count ∧ 0x10 < l)
    (h : reformatDone d c (slots d c e l a) = some (rc, g)) : Reformatted d g := by
  unfold reformatDone at h
  dsimp only at h
  rw [reformatTrim_slots] at h
  generalize hx : (if 5 ≤ c.count then trim l else l) = x at h
  generalize hz : (if 6 ≤ c.count then trim a else a) = z at h
  have hxlt : x < 2 ^ 32 := by
    rw [← hx]
    split_ifs
    · exact trim_lt _
    · exact hl
  have hzlt : z < 2 ^ 32 := by
    rw [← hz]
    split_ifs
    · exact trim_lt _
    · exact ha
  have hx0 : 5 ≤ c.count ∧ 0x10 < l → x ≠ 0 ∧ x + 0x10 < 2 ^ 32 := by
    rintro ⟨h5, h16⟩
    rw [if_pos h5, trim_of_ge h16.le hl] at hx
    omega
  have hz0 : z ≠ 0 → x ≠ 0 ∧ x + 0x10 < 2 ^ 32 := by
    intro hne
    have ha0 : a ≠ 0 := by
      rintro rfl
      simp [trim_zero] at hz
      exact hne hz.symm
    obtain ⟨h6', h16⟩ := h6 ha0
    exact hx0 ⟨by omega, h16⟩
  have hu : trim (d.secs c.userdata) = 0 ∨ (trim (d.secs c.userdata) + 0x10) % 256 = 0 ∧
      trim (d.secs c.userdata) + 0x10 < 2 ^ 32 := by
    by_cases hu : d.secs c.userdata = 0
    · exact Or.inl (by rw [hu, trim_zero])
    · have hm := d.secs_mod c.userdata
      have hlt := d.secs_lt c.userdata
      rw [d.trim_secs hu]
      omega
  have hx4 : e ≠ 0 ∨ x ≠ 0 := h4.imp_right fun hl => (hx0 hl).1
  obtain ⟨hge, hle, hfour, hsix, hseven⟩ := @lastPart_slots (d.secs c.system) (d.secs c.misc)
    (d.secs c.cache) e (trim (d.secs c.userdata)) x z hx4
  generalize hp : lastPart [d.secs c.system, d.secs c.misc, d.secs c.cache, e,
    trim (d.secs c.userdata), x, z, 0] = p at h hge hle hfour hsix hseven
  rw [if_neg (by omega)] at h
  cases h
  refine ⟨rfl, rfl, hge, hle.trans (by omega), ?_, ?_, rfl, hfour, Or.inr ⟨hle, hu, ?_, ?_⟩⟩
  · intro i
    rcases i with _ | _ | _ | _ | _ | _ | _ | _ | i
    · exact d.secs_lt _
    · exact d.secs_lt _
    · exact d.secs_lt _
    · exact he
    · exact trim_lt _
    · exact hxlt
    · exact hzlt
    · exact Nat.two_pow_pos 32
    · exact Nat.two_pow_pos 32
  · intro i hi
    rcases i with _ | _ | _ | i
    · exact d.secs_mod _
    · exact d.secs_mod _
    · exact d.secs_mod _
    · omega
  · intro i h5 hi
    change i < p at hi
    obtain ⟨rfl, hp6⟩ | ⟨rfl, hp7⟩ | ⟨rfl, hp7⟩ : i = 5 ∧ p = 6 ∨ i = 5 ∧ p = 7 ∨ i = 6 ∧
      p = 7 := by
      omega
    · exact hsix hp6
    · exact (hz0 (hseven hp7)).1
    · exact hseven hp7
  · intro hp7
    exact (hz0 (hseven hp7)).2

theorem extended_lt (d : BlockDisk) (c : PartConfig) : extended d c < 2 ^ 32 := by
  unfold extended toU32
  omega

theorem reformatted (h : reformatPartSize d.blksz (s32 d.lba) c.globals = some (rc, g)) :
    Reformatted d g := by
  have he := extended_lt d c
  have ha0 : d.secs c.add1 ≠ 0 → 6 ≤ c.count := by
    intro hne
    by_contra hlt
    rw [c.add1_slot (by omega), d.secs_zero] at hne
    exact hne rfl
  rcases lt_or_ge (s32 (primaries d c)) (s32 d.lba) with hpass | hsmall
  · by_cases hl : d.secs c.localSize = 0
    · rcases Nat.lt_or_ge (inner d c) (extended d c) with hroom | hover
      · have hm := d.multip_pos
        rcases Nat.lt_or_ge (32 * multip d.blksz) (extended d c - inner d c) with hrest | hclosed
        · rw [reformat_rest d c hpass hl hroom hrest] at h
          exact reformatted_done he (by omega) (d.secs_lt _) (Or.inl (by omega))
            (fun hne => ⟨ha0 hne, by omega⟩) h
        · rw [reformat_closed d c hpass hl hroom hclosed] at h
          split_ifs at h
          exact reformatted_done he (d.secs_lt _) (by norm_num) (Or.inl (by omega))
            (fun hne => absurd rfl hne) h
      · rw [reformat_over d c hpass hl hover] at h
        cases h
        exact reformatted_slots he (by norm_num) (d.secs_lt _) rfl (d.secs_mod _)
    · have hge := d.secs_ge hl
      have h5 : 5 ≤ c.count := by
        by_contra hlt
        have hge4 := c.count_ge
        rw [c.local_slot (by omega), d.secs_zero] at hl
        exact hl rfl
      rw [reformat_local d c hpass hl] at h
      exact reformatted_done he (d.secs_lt _) (d.secs_lt _) (Or.inr ⟨h5, by omega⟩)
        (fun hne => ⟨ha0 hne, by omega⟩) h
  · rw [reformat_small d c hsmall] at h
    cases h
    exact reformatted_slots (d.secs_lt _) (d.secs_lt _) (d.secs_lt _) (d.secs_mod _) (d.secs_mod _)

end Sizes

section Read

/-- Where the table of a logical partition goes, by the sizes. -/
def PartGlobals.tableStart (g : PartGlobals) (i : ℕ) : ℕ :=
  u32 (primaryStart g.spareArea g.size 3 + ((List.range i).map fun j => 0x10 + g.size (j + 4)).sum)

/-- Where a partition begins, by the sizes. -/
def PartGlobals.place (g : PartGlobals) (i : ℕ) : ℕ :=
  if i < 4 then primaryStart g.spareArea g.size i else u32 (g.tableStart (i - 4) + 0x10)

/-- The partition of a number: the slots are numbered from 1 on, and that of the extended partition
has none. -/
def PartGlobals.partition (g : PartGlobals) (which : ℤ) : Option Extent :=
  if 1 ≤ which ∧ which ≤ g.partnum ∧ ¬(which = 4 ∧ 4 < g.partnum) then
    some ⟨g.place (which - 1).toNat, g.size (which - 1).toNat⟩
  else none

def DiskPartition.extent (x : DiskPartition) : Extent := ⟨x.start, x.size⟩

/-- What a run promises the reader: it finds the partitions under their numbers, and no others. -/
def PartitionsRead (d : BlockDisk) (c : PartConfig) : Prop :=
  ∀ (h : Heap) (old : ℕ → List UInt8) (r : BlockRun),
    blockPartition d.toDisk h c.globals = some r → r.ret = 0 →
    ∀ which : ℤ, ∃ n x, getPartitionInfoDos (d.blockRead old r.writes) which n = some x ∧
      x.map DiskPartition.extent = r.globals.partition which

/-- The sizes do not break off, and the tables have blocks of the disk to themselves. -/
structure TablesFit (d : BlockDisk) (g : PartGlobals) : Prop where
  first : 0 < d.capacity
  size_ne : ∀ i < g.partnum, 0 < i → g.size i ≠ 0
  clear : ∀ i < g.partnum - 4, 1 < g.tableStart i
  inside : ∀ i < g.partnum - 4, (g.tableStart i : ℤ) < d.capacity
  inj : ∀ i < g.partnum - 4, ∀ j < g.partnum - 4, g.tableStart i = g.tableStart j → i = j

variable {d : BlockDisk} {c : PartConfig} {g : PartGlobals} {k : ℕ} {junk : ℕ → PartTable}

theorem primaryStart_congr {spare : ℕ} {f f' : ℕ → ℕ} : ∀ n, (∀ i < n, f i = f' i) →
    primaryStart spare f n = primaryStart spare f' n
  | 0, _ => rfl
  | n + 1, h => by
    rw [primaryStart, primaryStart, primaryStart_congr n fun i hi => h i (by omega), h n (by omega)]

theorem locOf_boot {i : ℕ} (hi : i < k) : (locOf g k junk i).bootableflag = 0 := by
  have hf : (filled g.sectors 0 k junk i).bootableflag = 0 := by
    unfold filled
    rw [if_pos ⟨Nat.zero_le _, hi⟩]
    rfl
  rw [← hf]
  unfold locOf placed
  split_ifs <;> rfl

theorem locOf_live {i : ℕ} (hi : i < k) (h3 : ¬(i = 3 ∧ 4 < g.partnum)) :
    Live (locOf g k junk i) where
  boot := locOf_boot hi
  type := by rw [locOf_type, if_neg h3, if_pos hi]

theorem locOf_dead {i : ℕ} (hi : k ≤ i) (h3 : ¬(i = 3 ∧ 4 < g.partnum)) :
    (locOf g k blank i).parttype = 0 := by
  rw [locOf_type, if_neg h3, if_neg (by omega)]
  rfl

theorem locOf_place {i : ℕ} (hk : i ≤ k) (hi : i < 4) : (locOf g k junk i).startLBA =
    g.place i := by
  rw [locOf_start hi]
  unfold PartGlobals.place
  rw [if_pos hi]
  refine primaryStart_congr i fun j hj => ?_
  rw [if_pos (by omega)]
  rfl

theorem tableAt_locOf {i : ℕ} (hk : 4 ≤ k) (hi : i + 4 ≤ k) :
    tableAt (locOf g k junk) i = g.tableStart i := by
  have h3 : (locOf g k junk 3).startLBA = primaryStart g.spareArea g.size 3 :=
    locOf_place (by omega) (by omega)
  unfold tableAt PartGlobals.tableStart
  rw [h3]
  unfold reach
  refine congrArg (fun n => u32 (_ + List.sum n)) (List.map_congr_left fun j hj => ?_)
  have hlt := List.mem_range.1 hj
  rw [locOf_size, if_pos (by omega)]
  rfl

theorem firstAt_extent {i : ℕ} (hs : Reformatted d g) (hk : i < k) (hi : i < 4) :
    (firstAt (locOf g k junk) i).extent = ⟨g.place i, g.size i⟩ := by
  have hlt : g.place i < 2 ^ 32 := by
    unfold PartGlobals.place
    rw [if_pos hi]
    exact primaryStart_lt _ _ i
  unfold firstAt DiskPartition.extent
  rw [locOf_place hk.le hi, locOf_size, if_pos hk, u32_of_lt hlt]
  exact congrArg (Extent.mk _) (u32_of_lt (hs.lt i))

theorem partAt_extent {i : ℕ} (hs : Reformatted d g) (hi : i + 4 < k) :
    (partAt (locOf g k junk) i).extent = ⟨g.place (i + 4), g.size (i + 4)⟩ := by
  unfold partAt DiskPartition.extent PartGlobals.place
  rw [tableAt_locOf (by omega) hi.le, locOf_size, if_pos hi, if_neg (by omega)]
  exact congrArg (Extent.mk _) (u32_of_lt (hs.lt (i + 4)))

/-- Where the sizes do not break off, or do so at `k`, the entries are filled up to there. -/
theorem Reformatted.located (hs : Reformatted d g) (hk : k ≤ g.partnum) (hk8 : k < 8) (hk0 : 0 < k)
    (hne : ∀ m, 0 < m → m < k → g.size m ≠ 0) (hz : k < g.partnum → g.size k = 0)
    (hjunk : k < 3 → junk = blank) : initPartLocation g junk = some (locOf g k junk) := by
  refine initPartLocation_eq hs.ge hs.le hs.length hk hk8 hk0 hne hz ?_ fun i hi => ?_
  · rw [hs.spare]
    exact d.spare_mod
  · split_ifs with hik
    · have hp := hs.primary i hi
      change g.size i % 64 = 0
      omega
    · rw [hjunk (by omega)]
      rfl

theorem locOf_three_lt : (locOf g k junk 3).startLBA < 2 ^ 32 := by
  rw [locOf_start (by omega)]
  exact primaryStart_lt _ _ 3

variable {old : ℕ → List UInt8} {psz : List PartSz} {loc : ℕ → PartTable} {p : ℕ}

theorem holdsTable_first (h : 0 < d.capacity) :
    HoldsTable (d.blockRead old (blocksOf loc p psz)) 0 [loc 0, loc 1, loc 2, loc 3] :=
  holdsTable_table written_first h

theorem tableRead_of (hsep : Separate loc (p - 4)) {i : ℕ} (hi : i < p - 4)
    (h : (tableAt loc i : ℤ) < d.capacity) :
    TableRead (d.blockRead old (blocksOf loc p psz)) loc p i :=
  holdsTable_table
    (written_table hi (hsep.clear i hi) fun j hj => hsep.inj j hj i hi) h

theorem tableRead_or (hsep : Separate loc (p - 4)) {i : ℕ} (hi : i < p - 4) :
    d.blockRead old (blocksOf loc p psz) (tableAt loc i) = none ∨
      TableRead (d.blockRead old (blocksOf loc p psz)) loc p i := by
  by_cases h : (tableAt loc i : ℤ) < d.capacity
  · exact Or.inr (tableRead_of hsep hi h)
  · exact Or.inl (if_neg h)

/-- Where the tables fit, the reader finds all of the partitions. -/
theorem TablesFit.reads (hf : TablesFit d g) (hs : Reformatted d g) (which : ℤ) :
    ∃ x, Returns (d.blockRead old (blocksOf (locOf g g.partnum junk) g.partnum psz)) which 0 0 1 x ∧
      x.map DiskPartition.extent = g.partition which := by
  have hge := hs.ge
  have hfirst := @holdsTable_first d old psz (locOf g g.partnum junk) g.partnum hf.first
  unfold PartGlobals.partition
  rcases Nat.eq_or_lt_of_le hs.ge with h4 | h4
  · refine ⟨_, (returns_four hfirst fun i hi => locOf_live (by omega) (by omega)).2 rfl, ?_⟩
    by_cases hw : 1 ≤ which ∧ which ≤ 4
    · rw [if_pos hw, if_pos (by omega)]
      exact congrArg some (firstAt_extent hs (by omega) (by omega))
    · rw [if_neg hw, if_neg (by omega)]
      rfl
  · have h5 : (locOf g g.partnum junk 3).parttype = 0x05 := by rw [locOf_type, if_pos ⟨rfl, h4⟩]
    have htable (i : ℕ) (hi : i < g.partnum - 4) :
        tableAt (locOf g g.partnum junk) i = g.tableStart i := tableAt_locOf hge (by omega)
    have hsep : Separate (locOf g g.partnum junk) (g.partnum - 4) := by
      constructor
      · intro i hi
        rw [htable i hi]
        exact hf.clear i hi
      · intro i hi j hj he
        rw [htable i hi, htable j hj] at he
        exact hf.inj i hi j hj he
    have hread (x : Option DiskPartition) := @returns_first _ which _ x hfirst
      (fun i hi => locOf_live (by omega) (by omega)) h5 locOf_three_lt
    by_cases hw : 1 ≤ which ∧ which ≤ 3
    · simp only [if_pos hw] at hread
      refine ⟨_, (hread _).2 rfl, ?_⟩
      rw [if_pos (by omega)]
      exact congrArg some (firstAt_extent hs (by omega) (by omega))
    · simp only [if_neg hw] at hread
      have hin (i : ℕ) (hi : i < g.partnum - 4) :
          (tableAt (locOf g g.partnum junk) i : ℤ) < d.capacity := by
        rw [htable i hi]
        exact hf.inside i hi
      have hne (i : ℕ) (hi : i < g.partnum - 4) : tableAt (locOf g g.partnum junk) i ≠ 0 :=
        (hsep.clear i hi).ne_bot
      have hlog (x : Option DiskPartition) := @returns_logicals _ which _ _ x
        (fun i hi => @tableRead_of d old psz _ _ hsep i hi (hin i hi)) hne
        (fun i hi => locOf_live (by omega) (by omega)) (fun i hi => locOf_logical (by omega)
          (by omega))
        (g.partnum - 5) 0 (by omega)
      refine ⟨_, (hread _).2 ((hlog _).2 rfl), ?_⟩
      by_cases h5w : 5 ≤ which ∧ which ≤ g.partnum
      · rw [if_pos (by omega), if_pos (by omega)]
        have hextent := @partAt_extent d g g.partnum junk (which - 5).toNat hs (by omega)
        rw [show (which - 5).toNat + 4 = (which - 1).toNat by omega] at hextent
        exact congrArg some hextent
      · rw [if_neg (by omega), if_neg (by omega)]
        rfl

/-- The sizes in front of a gap are those of the configuration. -/
theorem Reformatted.before_gap (hs : Reformatted d g) (hk : k < g.partnum) (hz : g.size k = 0) :
    ∀ i < k, i ≠ 3 → g.size i % 256 = 0 := by
  intro i hi h3
  rcases hs.rest with hall | ⟨-, h4, h5, -⟩
  · exact hall i h3
  · rcases Nat.lt_or_ge i 3 with hlt | hge
    · exact hs.primary i hlt
    · exact absurd hz (h5 k (by omega) hk)

theorem Reformatted.gap_separate (hs : Reformatted d g) (hk : k < g.partnum) (hz : g.size k = 0) :
    Separate (locOf g k blank) (g.partnum - 4) := by
  have hle := hs.le
  have hsize (i : ℕ) (hi : i ≠ 3) : (locOf g k blank i).sizeinsectors % 256 = 0 := by
    rw [locOf_size]
    split_ifs with h
    · exact hs.before_gap hk hz i h hi
    · rfl
  refine separate_of_mod ?_ (fun i _ => hsize (i + 4) (by omega)) (by omega)
  rw [locOf_start (by omega), hs.spare]
  refine primaryStart_mod256 _ d.spare_mod256 3 fun i hi => ?_
  rw [← locOf_size]
  exact hsize i (by omega)

/-- Where no size is missing, only the table of the third logical partition may get the block of
another table or of the information. -/
theorem Reformatted.separate (hs : Reformatted d g) (h4 : 4 < g.partnum)
    (hne : ∀ i < g.partnum, 0 < i → g.size i ≠ 0) :
    Separate (locOf g g.partnum blank) (g.partnum - 4) ∨
      g.partnum = 7 ∧ 1 < g.tableStart 0 ∧ 1 < g.tableStart 1 ∧ g.tableStart 0 ≠ g.tableStart 1 ∧
        g.tableStart 1 ≠ g.tableStart 2 ∧
        (g.tableStart 2 = g.tableStart 0 ∨ g.tableStart 2 ≤ 1) := by
  have hle := hs.le
  have h3 : primaryStart g.spareArea g.size 3 % 256 = 64 := by
    rw [hs.spare]
    exact primaryStart_mod256 _ d.spare_mod256 3 hs.primary
  have htable (i : ℕ) (hi : i < g.partnum - 4) :
      tableAt (locOf g g.partnum blank) i = g.tableStart i := tableAt_locOf h4.le (by omega)
  rcases hs.rest with hall | ⟨h7, hfour, h5, h57⟩
  · left
    refine separate_of_mod ?_ (fun i hi => ?_) (by omega)
    · rw [locOf_place (by omega) (by omega)]
      exact h3
    · rw [locOf_size, if_pos (by omega)]
      exact hall (i + 4) (by omega)
  · obtain ⟨hmod4, hlt4⟩ := hfour.resolve_left (hne 4 h4 (by omega))
    have ht0 : g.tableStart 0 = u32 (primaryStart g.spareArea g.size 3) := rfl
    have ht1 : g.tableStart 1 = u32 (primaryStart g.spareArea g.size 3 + (0x10 + g.size 4)) := rfl
    have ht2 : g.tableStart 2 = u32 (primaryStart g.spareArea g.size 3 +
        (0x10 + g.size 4 + (0x10 + g.size 5))) := by
      simp [PartGlobals.tableStart, List.range_succ]
    have hne4 := hne 4 h4 (by omega)
    unfold u32 at ht0 ht1 ht2
    by_cases hp7 : g.partnum = 7
    · have hlt5 := h57 hp7
      by_cases hbad : g.tableStart 2 = g.tableStart 0 ∨ g.tableStart 2 ≤ 1
      · exact Or.inr ⟨hp7, by omega, by omega, by omega, by omega, hbad⟩
      · left
        rw [not_or, not_le] at hbad
        constructor
        · intro i hi
          rw [htable i hi]
          obtain rfl | rfl | rfl : i = 0 ∨ i = 1 ∨ i = 2 := by omega
          · omega
          · omega
          · exact hbad.2
        · intro i hi j hj he
          rw [htable i hi, htable j hj] at he
          obtain rfl | rfl | rfl : i = 0 ∨ i = 1 ∨ i = 2 := by omega
          all_goals obtain rfl | rfl | rfl : j = 0 ∨ j = 1 ∨ j = 2 := by omega
          all_goals omega
    · left
      constructor
      · intro i hi
        rw [htable i hi]
        obtain rfl | rfl : i = 0 ∨ i = 1 := by omega
        · omega
        · omega
      · intro i hi j hj he
        rw [htable i hi, htable j hj] at he
        obtain rfl | rfl : i = 0 ∨ i = 1 := by omega
        all_goals obtain rfl | rfl : j = 0 ∨ j = 1 := by omega
        all_goals omega

/-- The entries of a run, where the sizes break off at `k` or do not. -/
structure Breaks (g : PartGlobals) (k : ℕ) : Prop where
  pos : 0 < k
  le : k ≤ g.partnum
  before : ∀ m, 0 < m → m < k → g.size m ≠ 0
  zero : k < g.partnum → g.size k = 0

theorem exists_breaks (h : 0 < g.partnum) : ∃ k, Breaks g k := by
  classical
  have hex : ∃ k, 0 < k ∧ (k = g.partnum ∨ g.size k = 0) := ⟨g.partnum, h, Or.inl rfl⟩
  refine ⟨Nat.find hex, (Nat.find_spec hex).1, Nat.find_min' hex ⟨h, Or.inl rfl⟩, ?_, ?_⟩
  · intro m h0 hm hz
    exact Nat.find_min hex hm ⟨h0, Or.inr hz⟩
  · intro hlt
    exact (Nat.find_spec hex).2.resolve_left hlt.ne

theorem Reformatted.breaks_lt (hs : Reformatted d g) (hk : Breaks g k) : k < 8 := by
  have hle := hs.le
  have hkle := hk.le
  by_contra hge
  exact hk.before 7 (by omega) (by omega) hs.last

/-- The reader finds the partitions after a run on memory that holds no entries. -/
def ReadsBlank (d : BlockDisk) (g : PartGlobals) (k : ℕ) : Prop :=
  ∃ psz, psz.length = 18 ∧ ∀ which, ∃ x,
    Returns (d.blockRead (fun _ => []) (blocksOf (locOf g k blank) g.partnum psz)) which 0 0 1 x ∧
      x.map DiskPartition.extent = g.partition which

theorem length_infoOf (loc : ℕ → PartTable) (p : ℕ) (psz : List PartSz) :
    (infoOf loc p psz).length = psz.length := by
  unfold infoOf
  generalize infoSlots p = slots
  induction slots generalizing psz with
  | nil => rfl
  | cons slot slots ih => rw [List.foldl_cons, ih, List.length_modify]

theorem PartConfig.length_cfg (c : PartConfig) : c.cfg.length = 17 := by
  have h := congrArg List.length c.names
  rw [List.length_map, List.length_map] at h
  exact h

theorem reformatPartSize_cfg {blksz : ℕ} {n : ℤ} {r : ℤ × PartGlobals} {g₀ : PartGlobals}
    (h : reformatPartSize blksz n g₀ = some r) : r.2.cfg = g₀.cfg := by
  unfold reformatPartSize at h
  simp only [] at h
  by_cases hsmall : n ≤ s32 ((reformatShift blksz g₀.sectors).take 3).sum
  · rw [if_pos hsmall] at h
    cases h
    rfl
  · rw [if_neg hsmall] at h
    split at h
    · cases h
    · cases h
      rfl
    · split_ifs at h
      cases h
      rfl

theorem PartitionsRead.blank {rc : ℤ} (h : PartitionsRead d c) (hd : d.lba ≠ 0)
    (hr : reformatPartSize d.blksz (s32 d.lba) c.globals = some (rc, g)) (hs : Reformatted d g)
    (hk : Breaks g k) : ReadsBlank d g k := by
  have hl : initPartLocation g InfotmUboot.blank = some (locOf g k InfotmUboot.blank) :=
    hs.located hk.le (hs.breaks_lt hk) hk.pos hk.before hk.zero fun _ => rfl
  have hrun := blockPartition_eq hd hr hl hs.ge hs.le locOf_three_lt true ⟨[], 0, 0⟩
  refine ⟨infoOf (locOf g k InfotmUboot.blank) g.partnum (g.cfg ++ [⟨[], 0, 0⟩]), ?_,
    fun which => ?_⟩
  · have hcfg := reformatPartSize_cfg hr
    rw [length_infoOf, List.length_append, hcfg, show c.globals.cfg = c.cfg from rfl, c.length_cfg]
    rfl
  · obtain ⟨n, x, hx, hp⟩ := h _ (fun _ => []) _ hrun rfl which
    exact ⟨x, ⟨n, hx⟩, hp⟩

theorem ReadsBlank.first (h : ReadsBlank d g k) (hs : Reformatted d g) : 0 < d.capacity := by
  have hge := hs.ge
  obtain ⟨psz, -, h⟩ := h
  by_contra hcap
  obtain ⟨x, hx, hp⟩ := h 1
  have hnone : d.blockRead (fun _ => []) (blocksOf (locOf g k blank) g.partnum psz) 0 = none := by
    unfold Disk.blockRead
    exact if_neg hcap
  rw [(returns_unread hnone).1 hx] at hp
  unfold PartGlobals.partition at hp
  rw [if_pos (by omega)] at hp
  cases hp

/-- From the first table on the reader finds a logical partition. -/
theorem logical_found {psz : List PartSz} {m : ℕ} (hcap : 0 < d.capacity)
    (hk3 : 3 ≤ k) (h4 : 4 < g.partnum) (hm : m < g.partnum - 4)
    (h : ∃ x, Returns (d.blockRead (fun _ => []) (blocksOf (locOf g k blank) g.partnum psz))
      (5 + m : ℕ) 0 0 1 x ∧ x.map DiskPartition.extent = g.partition (5 + m : ℕ)) :
    ∃ info : DiskPartition, info.extent = ⟨g.place (m + 4), g.size (m + 4)⟩ ∧
      Returns (d.blockRead (fun _ => []) (blocksOf (locOf g k blank) g.partnum psz)) (5 + m : ℕ)
        (tableAt (locOf g k blank) 0) (locOf g k blank 3).startLBA (5 + 0) (some info) := by
  obtain ⟨x, hx, hp⟩ := h
  have h5 : (locOf g k blank 3).parttype = 0x05 := by rw [locOf_type, if_pos ⟨rfl, h4⟩]
  have hl (i : ℕ) (hi : i < 3) : Live (locOf g k blank i) := locOf_live (by omega) (by omega)
  have hfirst := @holdsTable_first d (fun _ => []) psz (locOf g k blank) g.partnum hcap
  have hread := (@returns_first _ (5 + m : ℕ) _ x hfirst hl h5 locOf_three_lt).1 hx
  rw [if_neg (by omega)] at hread
  have hpart : g.partition (5 + m : ℕ) = some ⟨g.place (m + 4), g.size (m + 4)⟩ := by
    unfold PartGlobals.partition
    rw [if_pos (by omega), show (((5 + m : ℕ) : ℤ) - 1).toNat = m + 4 by omega]
  rw [hpart] at hp
  rcases x with _ | info
  · simp at hp
  · rw [Option.map_some] at hp
    exact ⟨info, Option.some.inj hp, hread⟩

/-- A size that is missing makes a partition that is not found. -/
theorem ReadsBlank.size_ne (h : ReadsBlank d g k) (hs : Reformatted d g) (hk : Breaks g k) :
    k = g.partnum := by
  have hcap := h.first hs
  have hge := hs.ge
  obtain ⟨psz, -, h⟩ := h
  by_contra hne
  have hlt : k < g.partnum := lt_of_le_of_ne hk.le hne
  have hz := hk.zero hlt
  have hsep := hs.gap_separate hlt hz
  have h34 : k = 3 → 4 < g.partnum := by
    rintro rfl
    have := hs.four
    omega
  rcases Nat.lt_or_ge k 3 with hk3 | hk3
  · obtain ⟨x, hx, hp⟩ := h (k + 1 : ℕ)
    unfold PartGlobals.partition at hp
    rw [if_pos (by omega)] at hp
    rcases x with _ | info
    · cases hp
    · exact not_returns_first (holdsTable_first hcap) (by omega)
        (fun i hi => locOf_live hi (by omega)) (locOf_dead le_rfl (by omega)) hx
  · have h4 : 4 < g.partnum := by
      by_cases h3 : k = 3
      · exact h34 h3
      · omega
    have hclear (i : ℕ) (hi : i < g.partnum - 4) : tableAt (locOf g k blank) i ≠ 0 :=
      (hsep.clear i hi).ne_bot
    have hdead (i : ℕ) (hi : k - 4 ≤ i) : (locOf g k blank (i + 4)).parttype = 0 :=
      locOf_dead (by omega) (by omega)
    obtain ⟨info, -, hx⟩ := logical_found (m := k - 4) hcap hk3 h4 (by omega) (h _)
    refine not_returns_upto (m := k - 4) (by omega) (fun i hi => tableRead_or hsep (by omega))
      (fun i hi => hclear i (by omega)) (fun i hi => locOf_live (by omega) (by omega)) ?_
        rfl (k - 4) 0
      (by omega) hx
    exact not_returns_dead (m := k - 4) (fun i hi _ => tableRead_or hsep hi) hclear
      (fun i _ hi => hdead i hi) (g.partnum - 5 - (k - 4)) (k - 4) le_rfl (by omega)

/-- The third table comes last, also where the first one was in its block. -/
theorem written_third {loc : ℕ → PartTable} {psz : List PartSz} (h : 1 < tableAt loc 2) :
    written (blocksOf loc 7 psz) (tableAt loc 2) = some (tableOf loc 7 2) := by
  have h0 : 0 ≠ tableAt loc 2 := by omega
  have h1 : 1 ≠ tableAt loc 2 := by omega
  unfold written blocksOf
  simp [h0, h1, List.range'_succ]

/-- The block of the information, and that before it, hold the entries of the first table. -/
theorem holdsTable_low {b : ℕ} (hb : b ≤ 1) (hin : (b : ℤ) < d.capacity) (hlen : psz.length = 18) :
    HoldsTable (d.blockRead old (blocksOf loc p psz)) b [loc 0, loc 1, loc 2, loc 3] := by
  obtain rfl | rfl : b = 0 ∨ b = 1 := by omega
  · exact holdsTable_table written_first hin
  · exact holdsTable_info written_info hlen written_first hin

theorem ReadsBlank.separate (h : ReadsBlank d g g.partnum) (hs : Reformatted d g)
    (h4 : 4 < g.partnum)
    (hne : ∀ i < g.partnum, 0 < i → g.size i ≠ 0) :
    Separate (locOf g g.partnum blank) (g.partnum - 4) := by
  have hcap := h.first hs
  rcases hs.separate h4 hne with hsep | ⟨h7, h0, h1, h01, h12, hbad⟩
  · exact hsep
  · exfalso
    obtain ⟨psz, hlen, h⟩ := h
    have htable (i : ℕ) (hi : i < 3) : tableAt (locOf g g.partnum blank) i = g.tableStart i :=
      tableAt_locOf h4.le (by omega)
    rw [← htable 0 (by omega)] at h0 h01 hbad
    rw [← htable 1 (by omega)] at h1 h01 h12
    rw [← htable 2 (by omega)] at h12 hbad
    have hlive (i : ℕ) (hi : i < 3) : Live (locOf g g.partnum blank (i + 4)) :=
      locOf_live (by omega) (by omega)
    obtain hsame | hlow := hbad
    · -- the second table is lost to the reader, as the first block holds the third one
      obtain ⟨info, -, hx⟩ := logical_found (m := 1) hcap (by omega) h4 (by omega) (h _)
      by_cases hin : (tableAt (locOf g g.partnum blank) 2 : ℤ) < d.capacity
      · have hw := @written_third (locOf g g.partnum blank) psz (by omega)
        rw [← h7] at hw
        have hread : TableRead
            (d.blockRead (fun _ => []) (blocksOf (locOf g g.partnum blank) g.partnum psz))
            (locOf g g.partnum blank) g.partnum 2 := holdsTable_table hw hin
        rw [← hsame, returns_live hread (by omega) (hlive 2 (by omega)), if_neg (by omega)] at hx
        unfold Onward at hx
        rw [if_neg (by omega)] at hx
        cases hx
      · rw [← hsame, returns_unread (if_neg hin)] at hx
        cases hx
    · -- the third table is lost, and the first partition comes in its place
      obtain ⟨info, hext, hx⟩ := logical_found (m := 2) hcap (by omega) h4 (by omega) (h _)
      have hread (i : ℕ) (hi : i < 2) :
          d.blockRead (fun _ => []) (blocksOf (locOf g g.partnum blank) g.partnum psz)
              (tableAt (locOf g g.partnum blank) i) = none ∨
            TableRead (d.blockRead (fun _ => []) (blocksOf (locOf g g.partnum blank) g.partnum psz))
              (locOf g g.partnum blank) g.partnum i := by
        by_cases hin : (tableAt (locOf g g.partnum blank) i : ℤ) < d.capacity
        · refine Or.inr (holdsTable_table (written_table (by omega) ?_ fun j hj he => ?_) hin)
          · obtain rfl | rfl : i = 0 ∨ i = 1 := by omega
            · exact h0
            · exact h1
          · obtain rfl | rfl : i = 0 ∨ i = 1 := by omega
            all_goals obtain rfl | rfl | rfl : j = 0 ∨ j = 1 ∨ j = 2 := by omega
            all_goals omega
        · exact Or.inl (if_neg hin)
      refine not_returns_upto (m := 2) (by omega) hread ?_ (fun i hi => hlive i (by omega)) ?_ rfl 2
        0
        rfl hx
      · intro i hi
        obtain rfl | rfl : i = 0 ∨ i = 1 := by omega
        · omega
        · omega
      · intro hend
        by_cases hin : (tableAt (locOf g g.partnum blank) 2 : ℤ) < d.capacity
        · rw [returns_table (holdsTable_low hlow hin hlen), List.map_cons,
            findPart_live (locOf_live (by omega) (by omega)), if_pos rfl] at hend
          have hstart := congrArg Extent.start ((congrArg DiskPartition.extent
            (Option.some.inj hend)).symm.trans hext)
          have hplace : g.place (2 + 4) = u32 (tableAt (locOf g g.partnum blank) 2 + 0x10) := by
            rw [htable 2 (by omega)]
            rfl
          rw [hplace, locOf_place (by omega) (by omega)] at hstart
          have hspare : g.place 0 = d.spare := by
            rw [← u32_of_lt d.spare_lt, ← hs.spare]
            rfl
          rw [hspare] at hstart
          have hlt : d.spare = 128 * multip d.blksz + 0x40 := rfl
          unfold DiskPartition.extent u32 at hstart
          dsimp only at hstart
          rcases d.multip_eq with hm | hm | hm | hm <;> rw [hm] at hlt <;> omega
        · rw [returns_unread (if_neg hin)] at hend
          cases hend

theorem ReadsBlank.fits (h : ReadsBlank d g k) (hs : Reformatted d g) (hk : Breaks g k) :
    TablesFit d g := by
  have hcap := h.first hs
  obtain rfl := h.size_ne hs hk
  have hge := hs.ge
  have hne (i : ℕ) (hi : i < g.partnum) (h0 : 0 < i) : g.size i ≠ 0 := hk.before i h0 hi
  have htable (i : ℕ) (hi : i < g.partnum - 4) :
      tableAt (locOf g g.partnum blank) i = g.tableStart i := tableAt_locOf hge (by omega)
  rcases Nat.eq_or_lt_of_le hge with h4 | h4
  · exact ⟨hcap, hne, fun i hi => by omega, fun i hi => by omega, fun i hi => by omega⟩
  · have hsep := h.separate hs h4 hne
    refine ⟨hcap, hne, fun i hi => ?_, fun i hi => ?_, fun i hi j hj he => ?_⟩
    · rw [← htable i hi]
      exact hsep.clear i hi
    · by_contra hout
      rw [← htable i hi] at hout
      obtain ⟨psz, -, h⟩ := h
      obtain ⟨info, -, hx⟩ := logical_found (m := i) hcap (by omega) h4 hi (h _)
      refine not_returns_upto (m := i) hi (fun j hj => tableRead_or hsep (by omega))
        (fun j hj => (hsep.clear j (by omega)).ne_bot) (fun j hj => locOf_live (by omega)
          (by omega))
        ?_ rfl i 0 (by omega) hx
      rw [returns_unread (if_neg hout)]
      simp
    · rw [← htable i hi, ← htable j hj] at he
      exact hsep.inj i hi j hj he

theorem PartitionsRead.fits (h : PartitionsRead d c) (hd : d.lba ≠ 0) {r : ℤ × PartGlobals}
    (hr : reformatPartSize d.blksz (s32 d.lba) c.globals = some r) : TablesFit d r.2 := by
  obtain ⟨rc, g⟩ := r
  have hs := reformatted hr
  have hge := hs.ge
  obtain ⟨k, hk⟩ := exists_breaks (show 0 < g.partnum by omega)
  exact (h.blank hd hr hs hk).fits hs hk

theorem TablesFit.run {rc : ℤ} {h : Heap} {r : BlockRun} (hf : TablesFit d g) (hs : Reformatted d g)
    (hd : d.lba ≠ 0) (hr : reformatPartSize d.blksz (s32 d.lba) c.globals = some (rc, g))
    (hrun : blockPartition d.toDisk h c.globals = some r) (hret : r.ret = 0) :
    ∃ junk psz, r = ⟨0, g, blocksOf (locOf g g.partnum junk) g.partnum psz⟩ := by
  have hm1 : (-1 : ℤ) ≠ 0 := by decide
  have hge := hs.ge
  have hlt : g.partnum < 8 := by
    by_contra h8
    exact hf.size_ne 7 (by omega) (by omega) hs.last
  obtain ⟨_ | junk, buffer, after⟩ := h
  · unfold blockPartition at hrun
    rw [if_neg hd] at hrun
    cases hrun
    exact absurd hret hm1
  · have hl : initPartLocation g junk = some (locOf g g.partnum junk) :=
      hs.located le_rfl hlt (by omega) (fun m h0 hm => hf.size_ne m hm h0)
        (fun hlt => absurd hlt (lt_irrefl _)) (fun h3 => by omega)
    rw [blockPartition_eq hd hr hl hge hs.le locOf_three_lt] at hrun
    rcases buffer with _ | _
    · cases hrun
      exact absurd hret hm1
    · cases hrun
      exact ⟨junk, _, rfl⟩

/-- The reader finds the partitions of a configuration on the disk just where `block_partition`
gives up for want of a disk, or the sizes it comes to do not break off and their tables have blocks
of the disk to themselves. -/
theorem partitions_read_iff (d : BlockDisk) (c : PartConfig) :
    PartitionsRead d c ↔ d.lba = 0 ∨
      ∀ r, reformatPartSize d.blksz (s32 d.lba) c.globals = some r → TablesFit d r.2 := by
  constructor
  · intro h
    by_cases hd : d.lba = 0
    · exact Or.inl hd
    · exact Or.inr fun r hr => h.fits hd hr
  · intro hcond h old r hrun hret which
    by_cases hd : d.lba = 0
    · unfold blockPartition at hrun
      rw [if_pos hd] at hrun
      cases hrun
      exact absurd hret (by decide : (-1 : ℤ) ≠ 0)
    · rcases hr : reformatPartSize d.blksz (s32 d.lba) c.globals with _ | ⟨rc, g⟩
      · unfold blockPartition at hrun
        rw [if_neg hd, hr] at hrun
        rcases hj : h.locationtable with _ | junk
        · rw [hj] at hrun
          cases hrun
          exact absurd hret (by decide : (-1 : ℤ) ≠ 0)
        · rw [hj] at hrun
          cases hrun
      · have hs := reformatted hr
        have hf : TablesFit d g := hcond.resolve_left hd _ hr
        obtain ⟨junk, psz, rfl⟩ := hf.run hs hd hr hrun hret
        obtain ⟨x, ⟨n, hx⟩, hp⟩ := hf.reads hs which
        exact ⟨n, x, hx, hp⟩

/-- A disk of 128MB. -/
def disk128M : BlockDisk := ⟨⟨512, 262144⟩, Or.inl rfl⟩

/-- The default sizes are too much for the disk, which `reformat_part_size` says and nobody hears:
the table of `userdata` is behind the end of the disk. -/
theorem partitions_read_fails : ¬∀ (d : BlockDisk) (c : PartConfig), PartitionsRead d c := by
  intro h
  have hr := reformat_small disk128M defaultConfig (by decide)
  have hin := ((h disk128M defaultConfig).fits (by decide) hr).inside 0 (by decide)
  exact absurd hin (by decide)

end Read

end InfotmUboot
