import InfotmUboot.Proofs.Block

/-!
# `block_get_base`

When the base that the information block has for a partition is where the chain of tables puts it.
-/

namespace InfotmUboot

open Lib

section Names

/-- The name of a file-system partition. -/
def partName (i : ℕ) : List UInt8 := (defaultCfg.map PartSz.name).getD (i + INFO_SPARE_IMAGES) []

/-- Which partitions the chain describes, if it describes `n`: those with a size, and `local` if
there is one more. -/
def PartConfig.named (c : PartConfig) (n : ℕ) : List ℕ :=
  let sized := (List.range 7).filter fun i => c.globals.sectors.getD i 0 ≠ 0
  (List.range 7).filter fun i => c.globals.sectors.getD i 0 ≠ 0 ∨ i = 4 ∧ sized.length < n

/-- `block_get_base` of every partition that a run has made gives the place that the chain has for
it, whatever the run gets of memory. -/
def BasesAgree (d : BlockDisk) (c : PartConfig) : Prop :=
  ∀ h : Heap, ∃ r, blockPartition d.toDisk h c.globals = some r ∧
    (r.ret = 0 → ∃ es psz, chain r.writes = some es ∧ written r.writes 1 = some (.info psz) ∧
      ∀ k i : ℕ, (c.named es.length)[k]? = some i →
        ∃ e : Extent, es[k]? = some e ∧ blockGetBaseOf d.toDisk psz (partName i) =
          e.start * d.blksz)

variable (c : PartConfig)

theorem named_eq (n : ℕ) :
    c.named n = [0, 1, 2, 3] ++
      (if c.localSize ≠ 0 ∨ (if c.add1 ≠ 0 then 5 else 4) < n then [4] else []) ++
      (if c.add1 ≠ 0 then [5] else []) := by
  have h0 := c.system_ne
  have h1 := c.misc_ne
  have h2 := c.cache_ne
  have h3 := c.userdata_ne
  unfold PartConfig.named PartConfig.globals
  by_cases hl : c.localSize = 0 <;> by_cases ha : c.add1 = 0 <;> by_cases h4 : 4 < n <;>
    by_cases h5 : 5 < n
  all_goals simp [List.range_succ, hl, ha, h0, h1, h2, h3, h4, h5]

end Names

section Info

variable {loc : ℕ → PartTable} {psz : List PartSz}

theorem modify_offs_name (o : ℤ) : ∀ (i : ℕ) (psz : List PartSz),
    (psz.modify i fun q => { q with offs := o }).map PartSz.name = psz.map PartSz.name
  | 0, [] => rfl
  | _ + 1, [] => rfl
  | 0, _ :: _ => rfl
  | i + 1, q :: psz => by
    rw [List.modify_succ_cons, List.map_cons, modify_offs_name o i psz, List.map_cons]

/-- The base that a slot gets. -/
def putBase (loc : ℕ → PartTable) (psz : List PartSz) (slot : ℕ × ℕ) : List PartSz :=
  psz.modify (slot.1 + INFO_SPARE_IMAGES) fun q => { q with offs := s32 (baseOf loc slot.2) }

theorem infoOf_eq (p : ℕ) : infoOf loc p psz = (infoSlots p).foldl (putBase loc) psz := rfl

theorem foldl_putBase_name : ∀ (slots : List (ℕ × ℕ)) (psz : List PartSz),
    (slots.foldl (putBase loc) psz).map PartSz.name = psz.map PartSz.name
  | [], _ => rfl
  | slot :: slots, psz => by
    rw [List.foldl_cons, foldl_putBase_name slots, putBase, modify_offs_name]

theorem putBase_offs (slot : ℕ × ℕ) (j : ℕ) :
    ((putBase loc psz slot)[j + INFO_SPARE_IMAGES]?).map PartSz.offs =
      if slot.1 = j then (psz[j + INFO_SPARE_IMAGES]?).map fun _ => s32 (baseOf loc slot.2)
      else (psz[j + INFO_SPARE_IMAGES]?).map PartSz.offs := by
  unfold putBase
  rw [List.getElem?_modify]
  by_cases h : slot.1 = j
  · rw [if_pos h, h]
    rcases psz[j + INFO_SPARE_IMAGES]? with _ | q
    · simp only [Option.map_eq_map, Option.map_none]
    · simp only [Option.map_eq_map, Option.map_some, if_true]
  · have hne : ¬slot.1 + INFO_SPARE_IMAGES = j + INFO_SPARE_IMAGES := by omega
    rw [if_neg h]
    rcases psz[j + INFO_SPARE_IMAGES]? with _ | q
    · simp only [Option.map_eq_map, Option.map_none]
    · simp only [Option.map_eq_map, Option.map_some, hne, if_false]

/-- A partition without a slot keeps what `default_cfg` has. -/
theorem foldl_putBase_unset {j : ℕ} : ∀ (slots : List (ℕ × ℕ)) (psz : List PartSz),
    (∀ slot ∈ slots, slot.1 ≠ j) →
    ((slots.foldl (putBase loc) psz)[j + INFO_SPARE_IMAGES]?).map PartSz.offs =
      (psz[j + INFO_SPARE_IMAGES]?).map PartSz.offs
  | [], _, _ => rfl
  | slot :: slots, psz, h => by
    rw [List.foldl_cons, foldl_putBase_unset slots _ fun s hs => h s (List.mem_cons_of_mem _ hs),
      putBase_offs, if_neg (h slot List.mem_cons_self)]

/-- A partition gets the base of its slot. -/
theorem foldl_putBase_set {j k : ℕ} : ∀ (slots : List (ℕ × ℕ)) (psz : List PartSz),
    (j, k) ∈ slots → (slots.map Prod.fst).Nodup → j + INFO_SPARE_IMAGES < psz.length →
    ((slots.foldl (putBase loc) psz)[j + INFO_SPARE_IMAGES]?).map PartSz.offs =
      some (s32 (baseOf loc k))
  | slot :: slots, psz, hmem, hnd, hlen => by
    rw [List.map_cons, List.nodup_cons] at hnd
    rw [List.foldl_cons]
    rcases List.mem_cons.1 hmem with rfl | hmem
    · rw [foldl_putBase_unset slots, putBase_offs, if_pos rfl, List.getElem?_eq_getElem hlen]
      · rfl
      · intro s hs he
        exact hnd.1 (List.mem_map.2 ⟨s, hs, he⟩)
    · refine foldl_putBase_set slots _ hmem hnd.2 ?_
      unfold putBase
      rwa [List.length_modify]

theorem partName_findIdx {i : ℕ} (hi : i < 7) :
    (defaultCfg.map PartSz.name).findIdx (fun n => n = partName i) = i + INFO_SPARE_IMAGES := by
  revert i
  decide

/-- What `block_get_base` makes of the offset of a partition. -/
theorem blockGetBaseOf_eq (d : Disk) {i : ℕ} (hi : i < 7) {x : List UInt8} {o : ℤ}
    (hname : psz.map PartSz.name = defaultCfg.map PartSz.name ++ [x])
    (ho : (psz[i + INFO_SPARE_IMAGES]?).map PartSz.offs = some o) :
    blockGetBaseOf d psz (partName i) =
      if d.capacity * d.blksz < o * d.blksz then -1 else o * d.blksz := by
  have hidx : psz.findIdx (fun p => p.name = partName i) = i + INFO_SPARE_IMAGES := by
    have h17 : (defaultCfg.map PartSz.name).length = 17 := rfl
    have hm : psz.findIdx (fun p => p.name = partName i) =
        (psz.map PartSz.name).findIdx (fun n => n = partName i) := by
      rw [List.findIdx_map]
      rfl
    rw [hm, hname, List.findIdx_append, partName_findIdx hi, if_pos]
    rw [h17]
    unfold INFO_SPARE_IMAGES
    omega
  unfold blockGetBaseOf
  have hge : ¬i + INFO_SPARE_IMAGES < INFO_SPARE_IMAGES := by omega
  simp only [hidx, ho, Option.getD_some, hge, if_false]

end Info

section Base

variable (d : BlockDisk) (c : PartConfig) (loc : ℕ → PartTable) (p : ℕ) (after : PartSz)

theorem infoOf_name :
    (infoOf loc p (c.cfg ++ [after])).map PartSz.name =
      defaultCfg.map PartSz.name ++ [after.name] := by
  rw [infoOf_eq, foldl_putBase_name, List.map_append, c.names]
  rfl

theorem cfg_length : c.cfg.length = 17 := by
  have h := congrArg List.length c.names
  rwa [List.length_map, List.length_map] at h

theorem cfg_offs {i : ℕ} (hi : i < 7) :
    ((c.cfg ++ [after])[i + INFO_SPARE_IMAGES]?).map PartSz.offs = some 0 := by
  have hlen := cfg_length c
  have hoffs : (c.cfg[i + INFO_SPARE_IMAGES]?).map PartSz.offs =
      (defaultCfg.map PartSz.offs)[i + INFO_SPARE_IMAGES]? := by
    rw [← c.offs, List.getElem?_map]
  rw [List.getElem?_append_left (by unfold INFO_SPARE_IMAGES; omega), hoffs]
  clear hoffs
  revert i
  decide

variable {d c loc p after} {i : ℕ}

/-- A partition that no slot is for has its base at 0. -/
theorem base_unset (hi : i < 7) (h : ∀ slot ∈ infoSlots p, slot.1 ≠ i) {e : Extent}
    (he : e.start ≠ 0) :
    blockGetBaseOf d.toDisk (infoOf loc p (c.cfg ++ [after])) (partName i) ≠ e.start * d.blksz := by
  have hb : 0 < d.blksz := by
    rcases d.blksz_ok with hb | hb | hb | hb <;> omega
  have hpos : (0 : ℤ) < e.start * d.blksz := by positivity
  rw [blockGetBaseOf_eq d.toDisk hi (infoOf_name c loc p after)
    (by rw [infoOf_eq, foldl_putBase_unset _ _ h, cfg_offs c after hi])]
  split_ifs <;> omega

theorem infoSlots_nodup (p : ℕ) : ((infoSlots p).map Prod.fst).Nodup := by
  unfold infoSlots INFO_MAX_PARTITIONS
  split_ifs <;> simp

theorem base_set {k : ℕ} (hi : i < 7) (h : (i, k) ∈ infoSlots p) :
    blockGetBaseOf d.toDisk (infoOf loc p (c.cfg ++ [after])) (partName i) =
      if d.capacity * d.blksz < s32 (baseOf loc k) * d.blksz then -1
      else s32 (baseOf loc k) * d.blksz := by
  refine blockGetBaseOf_eq d.toDisk hi (infoOf_name c loc p after) ?_
  rw [infoOf_eq, foldl_putBase_set _ _ h (infoSlots_nodup p)]
  rw [List.length_append, cfg_length]
  unfold INFO_SPARE_IMAGES
  simp only [List.length_cons, List.length_nil]
  omega

/-- A base is right if its block has a signed number and lies on the disk. -/
theorem base_right {n : ℕ} (hi : i < 7) {k : ℕ} (h : (i, k) ∈ infoSlots p)
    (hn : baseOf loc k = u32 n) :
    blockGetBaseOf d.toDisk (infoOf loc p (c.cfg ++ [after])) (partName i) = n * d.blksz ↔
      n < 2 ^ 31 ∧ (n : ℤ) ≤ d.capacity := by
  have hb : (0 : ℤ) < d.blksz := by
    rcases d.blksz_ok with hb | hb | hb | hb <;> omega
  have hs := s32_natCast (u32_lt n)
  rw [base_set hi h, hn]
  constructor
  · intro he
    split_ifs at he with hlt
    · have hnn := mul_nonneg (Int.natCast_nonneg n) hb.le
      omega
    · have hn' : s32 (u32 n) = n := mul_right_cancel₀ hb.ne' he
      have hle := le_of_mul_le_mul_right (not_lt.1 hlt) hb
      rw [hn'] at hs hle
      split_ifs at hs
      · exact ⟨by omega, hle⟩
      · have := u32_lt n
        omega
  · rintro ⟨h31, hcap⟩
    rw [u32_of_lt (by omega)] at hs ⊢
    rw [if_pos h31] at hs
    rw [hs, if_neg (not_lt.2 (mul_le_mul_of_nonneg_right hcap hb.le))]

end Base

section Unset

variable {w : List (ℕ × Sector)}

/-- No logical partition begins at the first block, if no table says so. -/
theorem logicals_start {ext : ℕ}
    (hw : ∀ b e rest m, (b, .table (e :: rest) m) ∈ w → PartTable.startLBA e ≠ 0) :
    ∀ (f b : ℕ) {ls : List Extent}, logicals w ext f b = some ls →
      ls ≠ [] ∧ ∀ x ∈ ls, x.start ≠ 0
  | 0, b, ls, h => by cases h
  | f + 1, b, ls, h => by
    unfold logicals at h
    split at h
    · rename_i e next rest m heq
      have hpos := hw _ _ _ _ (mem_of_written heq)
      split_ifs at h
      · cases h
        refine ⟨by simp, ?_⟩
        simp only [List.mem_singleton, forall_eq]
        omega
      · rcases hrec : logicals w ext f (u32 (ext + next.startLBA)) with _ | ls'
        · rw [hrec] at h
          cases h
        · rw [hrec] at h
          cases h
          obtain ⟨-, hx⟩ := logicals_start hw f _ hrec
          refine ⟨by simp, ?_⟩
          intro x hmem
          rcases List.mem_cons.1 hmem with rfl | hmem
          · change b + e.startLBA ≠ 0
            omega
          · exact hx x hmem
    · cases h

variable {loc : ℕ → PartTable} {p : ℕ} {psz : List PartSz}

theorem blocksOf_start (h16 : ∀ k, 4 ≤ k → k < p → (loc k).startLBA = 0x10)
    (h0 : (loc 0).startLBA ≠ 0) :
    ∀ b e rest m, (b, .table (e :: rest) m) ∈ blocksOf loc p psz → PartTable.startLBA e ≠ 0 := by
  intro b e rest m hmem
  rcases mem_blocksOf hmem with ⟨k, hk, -, he⟩ | ⟨-, he⟩ | ⟨-, he⟩
  · unfold tableOf at he
    cases he
    rw [h16 (k + 4) (by omega) (by omega)]
    decide
  · cases he
    exact h0
  · cases he

theorem logicals_two (hw : ∀ b e rest m, (b, .table (e :: rest) m) ∈ w → PartTable.startLBA e ≠ 0)
    (h0 : written w (tableAt loc 0) = some (tableOf loc p 0)) (hp : 1 < p - 4) {f : ℕ}
    {ls : List Extent} (h : logicals w (loc 3).startLBA f (tableAt loc 0) = some ls) :
    2 ≤ ls.length := by
  rcases f with _ | f
  · cases h
  · by_cases ht : (loc (0 + 4)).parttype = 0x83
    · rw [logicals_next h0 ht hp] at h
      rcases hrec : logicals w (loc 3).startLBA f (tableAt loc (0 + 1)) with _ | ls'
      · rw [hrec] at h
        cases h
      · rw [hrec] at h
        cases h
        have hne := List.length_pos_iff.2 (logicals_start hw f _ hrec).1
        rw [List.length_cons]
        omega
    · rw [logicals_none h0 ht] at h
      cases h

variable {d : BlockDisk} {c : PartConfig} {g : PartGlobals} {rc : ℤ}

/-- A run whose chain goes through a partition that no slot is for. -/
theorem not_agree_of_unset (hd : d.lba ≠ 0)
    (hr : reformatPartSize d.blksz (s32 d.lba) c.globals = some (rc, g)) (hcfg : g.cfg = c.cfg)
    (hl : initPartLocation g blank = some loc) (hp : 4 < g.partnum) (hp8 : g.partnum ≤ 8)
    (h3 : (loc 3).startLBA < 2 ^ 32) (h5 : (loc 3).parttype = 0x05)
    (h16 : ∀ k, 4 ≤ k → k < g.partnum → (loc k).startLBA = 0x10) (h0 : (loc 0).startLBA ≠ 0)
    (hname : ∀ psz f ls,
      logicals (blocksOf loc g.partnum psz) (loc 3).startLBA f (tableAt loc 0) = some ls →
        ∃ k i, 3 ≤ k ∧ (c.named (3 + ls.length))[k]? = some i ∧ i < 7 ∧
          ∀ slot ∈ infoSlots g.partnum, slot.1 ≠ i) : ¬BasesAgree d c := by
  intro h
  obtain ⟨r, hrun, hes⟩ := h ⟨some blank, true, ⟨[], 0, 0⟩⟩
  rw [blockPartition_eq hd hr hl hp.le hp8 h3] at hrun
  cases hrun
  obtain ⟨es, psz, hchain, hinfo, hbase⟩ := hes rfl
  rw [written_info] at hinfo
  cases hinfo
  have htab : tableAt loc 0 = (loc 3).startLBA := by simp [tableAt, u32_of_lt h3]
  by_cases ht : ∀ i < 3, (loc i).parttype = 0x83
  · rw [chain_extended written_first ht h5] at hchain
    rcases hls : logicals _ (loc 3).startLBA _ (loc 3).startLBA with _ | ls
    · rw [hls] at hchain
      cases hchain
    · rw [hls] at hchain
      cases hchain
      obtain ⟨-, hstart⟩ := logicals_start (blocksOf_start h16 h0) _ _ hls
      obtain ⟨k, i, hk, hn, hi, hslot⟩ := hname _ _ ls (by rw [htab]; exact hls)
      have hlen : ([primary loc 0, primary loc 1, primary loc 2] ++ ls).length = 3 + ls.length := by
        simp only [List.length_append, List.length_cons, List.length_nil]
      obtain ⟨e, he, hb⟩ := hbase k i (by rw [hlen]; exact hn)
      rw [List.getElem?_append_right hk] at he
      rw [hcfg] at hb
      exact base_unset hi hslot (hstart e (List.mem_of_getElem? he)) hb
  · simp only [not_forall] at ht
    obtain ⟨i, hi, hti⟩ := ht
    rw [chain_untyped written_first hi hti] at hchain
    cases hchain

theorem not_agree_of_fault (hd : d.lba ≠ 0)
    (hr : reformatPartSize d.blksz (s32 d.lba) c.globals = none) : ¬BasesAgree d c := by
  intro h
  obtain ⟨r, hrun, -⟩ := h ⟨some blank, true, ⟨[], 0, 0⟩⟩
  unfold blockPartition at hrun
  rw [if_neg hd, hr] at hrun
  cases hrun

theorem not_agree_of_broken (hd : d.lba ≠ 0)
    (hr : reformatPartSize d.blksz (s32 d.lba) c.globals = some (rc, g)) {k : ℕ}
    (hp : 4 < g.partnum) (hp8 : g.partnum ≤ 8) (hlen : g.sectors.length = 8)
    (hk : k < g.partnum) (hk0 : 0 < k) (hne : ∀ m, 0 < m → m < k → g.sectors.getD m 0 ≠ 0)
    (hz : g.sectors.getD k 0 = 0) (hs : g.spareArea % 256 = 64)
    (h256 : ∀ i < k, i ≠ 3 → g.sectors.getD i 0 % 256 = 0) : ¬BasesAgree d c := by
  intro h
  obtain ⟨hl, hchain⟩ := broken hp hp8 hlen hk hk0 hne hz hs h256
  have h3 : (locOf g k blank 3).startLBA < 2 ^ 32 := by
    rw [locOf_start (by omega)]
    exact primaryStart_lt _ _ 3
  obtain ⟨r, hrun, hes⟩ := h ⟨some blank, true, ⟨[], 0, 0⟩⟩
  rw [blockPartition_eq hd hr hl hp.le hp8 h3] at hrun
  cases hrun
  obtain ⟨es, psz, hes, -⟩ := hes rfl
  rw [hchain] at hes
  cases hes

theorem named_five {n : ℕ} (h : 5 ≤ n) : ∃ i, (i = 4 ∨ i = 5) ∧ (c.named n)[4]? = some i := by
  rw [named_eq]
  by_cases ha : c.add1 = 0
  · have h4 : 4 < n := h
    exact ⟨4, Or.inl rfl, by simp [ha, h4]⟩
  · by_cases hl : c.localSize ≠ 0 ∨ 5 < n
    · exact ⟨4, Or.inl rfl, by simp [ha, hl]⟩
    · exact ⟨5, Or.inr rfl, by simp [ha, hl]⟩

theorem named_add1 (n : ℕ) (h : c.add1 ≠ 0) : ∃ k, 3 ≤ k ∧ (c.named n)[k]? = some 5 := by
  rw [named_eq]
  by_cases hl : c.localSize ≠ 0 ∨ 5 < n
  · exact ⟨5, by omega, by simp [h, hl]⟩
  · exact ⟨4, by omega, by simp [h, hl]⟩

variable {e : ℕ} {zs : List ℕ}

theorem fullLoc_first (junk : ℕ → PartTable) :
    (fullLoc d c e zs junk 0).startLBA = d.spare := by
  rw [fullLoc_start (by omega)]
  exact u32_of_lt d.spare_lt

theorem BlockDisk.spare_ne (d : BlockDisk) : d.spare ≠ 0 := by
  have h := d.spare_mod256
  omega

theorem Whole.unset (h : Whole d c e zs) (hd : d.lba ≠ 0)
    (hr : reformatPartSize d.blksz (s32 d.lba) c.globals = some (rc, full d c e zs))
    (hname : ∀ psz f ls, logicals (blocksOf (fullLoc d c e zs blank) (4 + zs.length) psz)
      (fullLoc d c e zs blank 3).startLBA f (tableAt (fullLoc d c e zs blank) 0) = some ls →
        ∃ k i, 3 ≤ k ∧ (c.named (3 + ls.length))[k]? = some i ∧ i < 7 ∧
          ∀ slot ∈ infoSlots (4 + zs.length), slot.1 ≠ i) : ¬BasesAgree d c := by
  have hn : 0 < zs.length := List.length_pos_iff.2 h.nonempty
  have hlen := h.length
  refine not_agree_of_unset hd hr rfl h.location (show 4 < 4 + zs.length by omega)
    (show 4 + zs.length ≤ 8 by omega) (fullLoc_lt blank) ?_ (fun k h4 hk => locOf_logical h4 hk) ?_
    hname
  · rw [fullLoc, locOf_type, if_pos ⟨rfl, show 4 < 4 + zs.length by omega⟩]
  · rw [fullLoc_first]
    exact d.spare_ne

/-- Three logical partitions, the last of them `add1`. -/
theorem Whole.not_agree_three (h : Whole d c e zs) (hd : d.lba ≠ 0)
    (hr : reformatPartSize d.blksz (s32 d.lba) c.globals = some (rc, full d c e zs))
    (hlen : zs.length = 3) (ha : c.add1 ≠ 0) : ¬BasesAgree d c := by
  refine h.unset hd hr fun psz f ls _ => ?_
  obtain ⟨k, hk, hn⟩ := named_add1 (3 + ls.length) ha
  refine ⟨k, 5, hk, hn, by omega, ?_⟩
  rw [hlen]
  decide

theorem fullLoc_mod (junk : ℕ → PartTable) :
    (fullLoc d c e zs junk 3).startLBA % 256 = 64 := by
  rw [fullLoc_start (by omega)]
  refine primaryStart_mod256 _ d.spare_mod256 3 fun i hi => ?_
  rcases i with _ | _ | _ | i
  · exact d.secs_mod c.system
  · exact d.secs_mod c.misc
  · exact d.secs_mod c.cache
  · omega

/-- Two logical partitions. -/
theorem Whole.not_agree_two {z z' : ℕ} (h : Whole d c e [z, z']) (hd : d.lba ≠ 0)
    (hr : reformatPartSize d.blksz (s32 d.lba) c.globals = some (rc, full d c e [z, z']))
    (hz : (0x10 + z) % 2 ^ 32 ≠ 0) : ¬BasesAgree d c := by
  have hX : (fullLoc d c e [z, z'] blank 3).startLBA < 2 ^ 32 := fullLoc_lt blank
  have hmod : (fullLoc d c e [z, z'] blank 3).startLBA % 256 = 64 := fullLoc_mod blank
  have hsize : (fullLoc d c e [z, z'] blank 4).sizeinsectors = z := fullLoc_size (by simp)
  have htab : tableAt (fullLoc d c e [z, z'] blank) 0 =
      (fullLoc d c e [z, z'] blank 3).startLBA := by
    simp [tableAt, u32_of_lt hX]
  have hreach : reach (fullLoc d c e [z, z'] blank) 1 = 0x10 + z := by
    rw [reach_succ, reach_zero, zero_add, hsize]
  refine h.unset hd hr fun psz f ls hls => ?_
  have h0 : written (blocksOf (fullLoc d c e [z, z'] blank) (4 + [z, z'].length) psz)
      (tableAt (fullLoc d c e [z, z'] blank) 0) =
      some (tableOf (fullLoc d c e [z, z'] blank) (4 + [z, z'].length) 0) := by
    refine written_table (by simp) (by omega) fun j hj he => ?_
    obtain rfl | rfl : j = 0 ∨ j = 1 := by
      simp only [List.length_cons, List.length_nil] at hj
      omega
    · rfl
    · rw [htab] at he
      unfold tableAt u32 at he
      rw [hreach] at he
      omega
  have hfirst : (fullLoc d c e [z, z'] blank 0).startLBA ≠ 0 := by
    rw [fullLoc_first]
    exact d.spare_ne
  have htwo := logicals_two (blocksOf_start (fun k h4 hk => locOf_logical h4 hk) hfirst)
    h0 (by simp)
    hls
  obtain ⟨i, hi, hn⟩ := named_five (c := c) (n := 3 + ls.length) (by omega)
  refine ⟨4, i, by omega, hn, by omega, ?_⟩
  change ∀ slot ∈ infoSlots 6, slot.1 ≠ i
  rcases hi with rfl | rfl <;> decide

/-- The partitions begin on blocks with a signed number, on the disk. -/
def PartConfig.Reachable (d : BlockDisk) (c : PartConfig) : Prop :=
  ∀ n ∈ [d.spare, u32 (d.spare + d.secs c.system),
      u32 (d.spare + (d.secs c.system + d.secs c.misc)), u32 (d.spare + primaries d c) + 0x10],
    n < 2 ^ 31 ∧ (n : ℤ) ≤ d.capacity

/-- Where the partitions of a run begin. -/
theorem fullLoc_starts (d : BlockDisk) (c : PartConfig) (e : ℕ) (zs : List ℕ)
    (junk : ℕ → PartTable) :
    (fullLoc d c e zs junk 1).startLBA = u32 (d.spare + d.secs c.system) ∧
      (fullLoc d c e zs junk 2).startLBA = u32 (d.spare + (d.secs c.system + d.secs c.misc)) ∧
      (fullLoc d c e zs junk 3).startLBA = u32 (d.spare + primaries d c) := by
  refine ⟨?_, ?_, ?_⟩
  · rw [fullLoc_start (by omega)]
    change u32 (u32 d.spare + d.secs c.system) = _
    unfold u32
    omega
  · rw [fullLoc_start (by omega)]
    change u32 (u32 (u32 d.spare + d.secs c.system) + d.secs c.misc) = _
    unfold u32
    omega
  · rw [fullLoc_start (by omega)]
    change u32 (u32 (u32 (u32 d.spare + d.secs c.system) + d.secs c.misc) + d.secs c.cache) = _
    unfold primaries u32
    omega

/-- The tables of a run with a single logical partition. -/
theorem fullLoc_chain {z : ℕ} (junk : ℕ → PartTable) (psz : List PartSz) :
    chain (blocksOf (fullLoc d c e [z] junk) 5 psz) =
      some [⟨d.spare, d.secs c.system⟩, ⟨u32 (d.spare + d.secs c.system), d.secs c.misc⟩,
        ⟨u32 (d.spare + (d.secs c.system + d.secs c.misc)), d.secs c.cache⟩,
        ⟨u32 (d.spare + primaries d c) + 0x10, z⟩] := by
  have hX : (fullLoc d c e [z] junk 3).startLBA < 2 ^ 32 := fullLoc_lt junk
  have hmod : (fullLoc d c e [z] junk 3).startLBA % 256 = 64 := fullLoc_mod junk
  obtain ⟨h1, h2, h3⟩ := fullLoc_starts d c e [z] junk
  have htab : tableAt (fullLoc d c e [z] junk) 0 = u32 (d.spare + primaries d c) := by
    rw [← h3]
    simp [tableAt, u32_of_lt hX]
  have hsep : Separate (fullLoc d c e [z] junk) (5 - 4) := by
    constructor
    · intro k hk
      obtain rfl : k = 0 := by omega
      rw [htab, ← h3]
      omega
    · intro j hj k hk _
      omega
  rw [chain_blocksOf (by omega) hsep hX, show List.range' 0 (5 - 4) = [0] from rfl]
  · have hl : (fullLoc d c e [z] junk 4).startLBA = 0x10 :=
      locOf_logical le_rfl (show 4 < 4 + [z].length by simp)
    have hz : (fullLoc d c e [z] junk 4).sizeinsectors = z := fullLoc_size (by simp)
    have hs0 : (fullLoc d c e [z] junk 0).sizeinsectors = d.secs c.system := fullLoc_size (by simp)
    have hs1 : (fullLoc d c e [z] junk 1).sizeinsectors = d.secs c.misc := fullLoc_size (by simp)
    have hs2 : (fullLoc d c e [z] junk 2).sizeinsectors = d.secs c.cache := fullLoc_size (by simp)
    simp only [primary, logicalAt, List.map_cons, List.map_nil, Nat.zero_add, htab, h1, h2, hl, hz,
      hs0, hs1, hs2, fullLoc_first, List.cons_append, List.nil_append]
  · intro i hi h3
    rw [fullLoc, locOf_type, if_neg (by omega), if_pos (by simpa using hi)]
  · rw [fullLoc, locOf_type, if_pos ⟨rfl, show 4 < 4 + [z].length by simp⟩]

theorem named_of_zero (hl : c.localSize = 0) (ha : c.add1 = 0) : c.named 4 = [0, 1, 2, 3] := by
  rw [named_eq]
  simp [hl, ha]

theorem named_of_ne (h : c.localSize ≠ 0 ∨ c.add1 ≠ 0) (n : ℕ) :
    ∃ i, (c.named n)[4]? = some i := by
  rw [named_eq]
  by_cases hl : c.localSize = 0
  · have ha := h.resolve_left (not_not.2 hl)
    by_cases hn : 5 < n
    · exact ⟨4, by simp [hl, ha, hn]⟩
    · exact ⟨5, by simp [hl, ha, hn]⟩
  · exact ⟨4, by simp [hl]⟩

/-- The bases of a run with a single logical partition. -/
theorem bases_one {z : ℕ} (junk : ℕ → PartTable) {n i : ℕ} (after : PartSz)
    (h : [d.spare, u32 (d.spare + d.secs c.system),
      u32 (d.spare + (d.secs c.system + d.secs c.misc)),
      u32 (d.spare + primaries d c) + 0x10][i]? = some n) :
    blockGetBaseOf d.toDisk (infoOf (fullLoc d c e [z] junk) 5 (c.cfg ++ [after])) (partName i) =
        n * d.blksz ↔ n < 2 ^ 31 ∧ (n : ℤ) ≤ d.capacity := by
  have hX : (fullLoc d c e [z] junk 3).startLBA < 2 ^ 32 := fullLoc_lt junk
  obtain ⟨h1, h2, h3⟩ := fullLoc_starts d c e [z] junk
  have htab : tableAt (fullLoc d c e [z] junk) 0 = u32 (d.spare + primaries d c) := by
    rw [← h3]
    simp [tableAt, u32_of_lt hX]
  rcases i with _ | _ | _ | _ | i
  · cases h
    refine base_right (k := 0) (by omega) (by decide) ?_
    rw [baseOf, if_pos (by omega), fullLoc_first, u32_of_lt d.spare_lt]
  · cases h
    refine base_right (k := 1) (by omega) (by decide) ?_
    rw [baseOf, if_pos (by omega), h1, u32_of_lt (u32_lt _)]
  · cases h
    refine base_right (k := 2) (by omega) (by decide) ?_
    rw [baseOf, if_pos (by omega), h2, u32_of_lt (u32_lt _)]
  · cases h
    refine base_right (k := 4) (by omega) (by decide) ?_
    rw [baseOf, if_neg (by omega), htab]
  · simp at h

/-- A single logical partition. -/
theorem Whole.agree_one {z : ℕ} (h : Whole d c e [z]) (hd : d.lba ≠ 0)
    (hr : reformatPartSize d.blksz (s32 d.lba) c.globals = some (rc, full d c e [z])) :
    BasesAgree d c ↔ c.localSize = 0 ∧ c.add1 = 0 ∧ c.Reachable d := by
  have hrun (junk : ℕ → PartTable) (buffer : Bool) (after : PartSz) :=
    h.run hd hr junk buffer after
  constructor
  · intro hagree
    obtain ⟨r, hblock, hes⟩ := hagree ⟨some blank, true, ⟨[], 0, 0⟩⟩
    rw [hrun] at hblock
    cases hblock
    obtain ⟨es, psz, hchain, hinfo, hbase⟩ := hes rfl
    change written (blocksOf (fullLoc d c e [z] blank) 5 _) 1 = _ at hinfo
    change chain (blocksOf (fullLoc d c e [z] blank) 5 _) = _ at hchain
    rw [written_info] at hinfo
    rw [fullLoc_chain, Option.some.injEq] at hchain
    have hlen : es.length = 4 := by
      rw [← hchain]
      rfl
    rw [hlen] at hbase
    cases hinfo
    subst hchain
    have hsizes : c.localSize = 0 ∧ c.add1 = 0 := by
      by_contra hne
      obtain ⟨i, hi⟩ := named_of_ne (not_and_or.1 hne) 4
      obtain ⟨x, hx, -⟩ := hbase 4 i hi
      cases hx
    refine ⟨hsizes.1, hsizes.2, fun n hmem => ?_⟩
    obtain ⟨i, hi⟩ := List.getElem?_of_mem hmem
    have hlt : i < 4 := (List.getElem?_eq_some_iff.1 hi).1
    have hnamed : (c.named 4)[i]? = some i := by
      rw [named_of_zero hsizes.1 hsizes.2]
      obtain rfl | rfl | rfl | rfl : i = 0 ∨ i = 1 ∨ i = 2 ∨ i = 3 := by omega
      all_goals rfl
    obtain ⟨x, hx, hb⟩ := hbase i i hnamed
    have hstart : x.start = n := by
      obtain rfl | rfl | rfl | rfl : i = 0 ∨ i = 1 ∨ i = 2 ∨ i = 3 := by omega
      all_goals
        cases hi
        cases hx
        rfl
    rw [hstart] at hb
    exact (bases_one blank _ hi).1 hb
  · rintro ⟨hl, ha, hreach⟩ ⟨_ | junk, buffer, after⟩
    · refine ⟨⟨-1, c.globals, []⟩, ?_, fun h => absurd h (by decide : (-1 : ℤ) ≠ 0)⟩
      unfold blockPartition
      rw [if_neg hd]
    · rw [hrun]
      rcases buffer with _ | _
      · exact ⟨_, rfl, fun h => absurd h (by decide : (-1 : ℤ) ≠ 0)⟩
      · refine ⟨_, rfl, fun _ => ⟨_, _, fullLoc_chain junk _, written_info, fun k i hk => ?_⟩⟩
        change (c.named 4)[k]? = some i at hk
        rw [named_of_zero hl ha] at hk
        have hlt : k < 4 := (List.getElem?_eq_some_iff.1 hk).1
        have hb (n : ℕ) (hi : _) := (bases_one (c := c) (e := e) (z := z) junk (n := n) (i := k)
          after hi).2
          (hreach n (List.mem_of_getElem? hi))
        obtain rfl | rfl | rfl | rfl : k = 0 ∨ k = 1 ∨ k = 2 ∨ k = 3 := by omega
        all_goals
          cases hk
          exact ⟨_, rfl, hb _ rfl⟩

end Unset

section Missing

variable {d : BlockDisk} {c : PartConfig} {g : PartGlobals} {rc : ℤ}

/-- An entry behind a size of 0 is not filled. -/
theorem fillLocation_beyond {s : List ℕ} {j : ℕ} : ∀ (n i : ℕ) {loc loc' : ℕ → PartTable},
    (∃ m, i < m ∧ m ≤ j ∧ s.getD m 0 = 0) → fillLocation s n i loc = some loc' → loc' j = loc j
  | 0, _, _, _, _, h => by
    cases h
    rfl
  | n + 1, i, loc, loc', ⟨m, him, hmj, hm⟩, h => by
    by_cases hlen : i + 1 < s.length
    · rw [fillLocation_step loc hlen] at h
      split_ifs at h with hz
      · cases h
        rw [Function.update_of_ne (by omega)]
      · have hne : m ≠ i + 1 := by
          rintro rfl
          exact hz hm
        rw [fillLocation_beyond n (i + 1) ⟨m, by omega, hmj, hm⟩ h, Function.update_of_ne
          (by omega)]
    · rw [fillLocation] at h
      simp only [List.getElem?_eq_none (show s.length ≤ i + 1 by omega)] at h
      cases h

theorem placeNext_type (partnum i j : ℕ) (loc : ℕ → PartTable) :
    (placeNext partnum i loc j).parttype = (loc j).parttype := by
  unfold placeNext PartTable.place
  split_ifs
  · by_cases hj : j = i
    · subst hj
      rw [Function.update_self]
    · rw [Function.update_of_ne hj]
  · by_cases hj : j = i
    · subst hj
      rw [Function.update_self]
    · rw [Function.update_of_ne hj]
  · rfl

theorem placeLocation_type (partnum spare : ℕ) (loc : ℕ → PartTable) {j : ℕ} (h0 : j ≠ 0)
    (h3 : j < 3) : (placeLocation partnum spare loc j).parttype = (loc j).parttype := by
  unfold placeLocation
  simp only []
  rw [if_neg (by omega), placeNext_type, placeNext_type, placeNext_type,
    Function.update_of_ne h0]
  split_ifs
  · rw [Function.update_of_ne (by omega)]
  · rfl

/-- A run of which a primary partition has no size. -/
theorem not_agree_of_primary (hd : d.lba ≠ 0)
    (hr : reformatPartSize d.blksz (s32 d.lba) c.globals = some (rc, g)) {j : ℕ} (h0 : j ≠ 0)
    (h3 : j < 3) (hz : g.sectors.getD j 0 = 0) : ¬BasesAgree d c := by
  intro h
  obtain ⟨r, hrun, hes⟩ := h ⟨some blank, true, ⟨[], 0, 0⟩⟩
  unfold blockPartition at hrun
  rw [if_neg hd, hr] at hrun
  simp only [] at hrun
  rcases hl : initPartLocation g blank with _ | loc
  · rw [hl] at hrun
    cases hrun
  rw [hl] at hrun
  have hret := writePartitions_ret hrun
  have hfirst := (writePartitions_first hrun).2 []
  obtain ⟨es, psz, hchain, -⟩ := hes hret
  have htype : (loc j).parttype ≠ 0x83 := by
    unfold initPartLocation at hl
    split_ifs at hl
    rcases hf : fillLocation g.sectors g.partnum 0 blank with _ | loc'
    · rw [hf] at hl
      cases hl
    · rw [hf] at hl
      cases hl
      rw [placeLocation_type _ _ _ h0 h3,
        fillLocation_beyond g.partnum 0 ⟨j, by omega, le_rfl, hz⟩ hf]
      exact (by decide : (0 : UInt8) ≠ 0x83)
  rw [List.nil_append] at hfirst
  rw [chain_untyped hfirst h3 htype] at hchain
  cases hchain

/-- What `reformat_part_size` leaves begins with the sizes of the first partitions. -/
theorem reformat_first (hr : reformatPartSize d.blksz (s32 d.lba) c.globals = some (rc, g)) :
    g.sectors.getD 1 0 = d.secs c.misc ∧ g.sectors.getD 2 0 = d.secs c.cache := by
  have hdone (e l a : ℕ) (h : reformatDone d c (slots d c e l a) = some (rc, g)) :
      g.sectors.getD 1 0 = d.secs c.misc ∧ g.sectors.getD 2 0 = d.secs c.cache := by
    unfold reformatDone at h
    simp only [] at h
    split_ifs at h
    cases h
    exact ⟨rfl, rfl⟩
  rcases le_or_gt (s32 d.lba) (s32 (primaries d c)) with hpass | hpass
  · rw [reformat_small d c hpass] at hr
    cases hr
    exact ⟨rfl, rfl⟩
  by_cases hl : d.secs c.localSize = 0
  · rcases Nat.lt_or_ge (inner d c) (extended d c) with he | he
    · rcases Nat.lt_or_ge (32 * multip d.blksz) (extended d c - inner d c) with hm | hm
      · rw [reformat_rest d c hpass hl he hm] at hr
        exact hdone _ _ _ hr
      · rw [reformat_closed d c hpass hl he hm] at hr
        split_ifs at hr
        exact hdone _ _ _ hr
    · rw [reformat_over d c hpass hl he] at hr
      cases hr
      exact ⟨rfl, rfl⟩
  · rw [reformat_local d c hpass hl] at hr
    exact hdone _ _ _ hr

/-- A run with the primary partitions alone: `userdata` is the last of them and has no slot. -/
theorem not_agree_of_four (hd : d.lba ≠ 0)
    (hr : reformatPartSize d.blksz (s32 d.lba) c.globals = some (rc, g)) (hcfg : g.cfg = c.cfg)
    (hp : g.partnum = 4) (hlen : g.sectors.length = 8)
    (hne : ∀ m, 0 < m → m < 4 → g.sectors.getD m 0 ≠ 0) (hs : g.spareArea % 256 = 64)
    (h256 : ∀ i < 3, g.sectors.getD i 0 % 256 = 0) : ¬BasesAgree d c := by
  have hl : initPartLocation g blank = some (locOf g 4 blank) := by
    refine initPartLocation_eq hp.ge (by omega) hlen hp.ge (by omega) (by omega) hne (by omega)
      (by omega) fun i hi => ?_
    rw [if_pos (by omega)]
    have := h256 i hi
    omega
  have h3 : (locOf g 4 blank 3).startLBA < 2 ^ 32 := by
    rw [locOf_start (by omega)]
    exact primaryStart_lt _ _ 3
  have hstart : (locOf g 4 blank 3).startLBA % 256 = 64 := by
    rw [locOf_start (by omega)]
    refine primaryStart_mod256 _ hs 3 fun i hi => ?_
    rw [if_pos (by omega)]
    exact h256 i hi
  have htype (i : ℕ) (hi : i < 4) : (locOf g 4 blank i).parttype = 0x83 := by
    rw [locOf_type, if_neg (by omega), if_pos hi]
  intro h
  obtain ⟨r, hrun, hes⟩ := h ⟨some blank, true, ⟨[], 0, 0⟩⟩
  rw [blockPartition_eq hd hr hl hp.ge (by omega) h3] at hrun
  cases hrun
  obtain ⟨es, psz, hchain, hinfo, hbase⟩ := hes rfl
  rw [written_info] at hinfo
  cases hinfo
  unfold chain at hchain
  simp only [written_first, htype 0 (by omega), htype 1 (by omega), htype 2 (by omega),
    htype 3 (by omega)] at hchain
  cases hchain
  have hnamed : (c.named 4)[3]? = some 3 := by
    rw [named_eq]
    rfl
  obtain ⟨e, he, hb⟩ := hbase 3 3 hnamed
  cases he
  rw [hcfg, hp] at hb
  refine base_unset (by omega) ?_ ?_ hb
  · decide
  · change (locOf g 4 blank 3).startLBA ≠ 0
    omega

/-- Sizes that break off with that of the extended partition, or with that of `userdata`. -/
theorem not_agree_of_gap (hd : d.lba ≠ 0) (h1 : d.secs c.misc ≠ 0) (h2 : d.secs c.cache ≠ 0)
    {p e y z w : ℕ} (hp : 4 < p) (hp8 : p ≤ 8)
    (hr : reformatPartSize d.blksz (s32 d.lba) c.globals = some (rc, after d c p
      [d.secs c.system, d.secs c.misc, d.secs c.cache, e, 0, y, z, w])) : ¬BasesAgree d c := by
  have h256 (i : ℕ) (hi : i < 3) :
      [d.secs c.system, d.secs c.misc, d.secs c.cache, e, 0, y, z, w].getD i 0 % 256 = 0 := by
    rcases i with _ | _ | _ | i
    · exact d.secs_mod c.system
    · exact d.secs_mod c.misc
    · exact d.secs_mod c.cache
    · omega
  by_cases he : e = 0
  · refine not_agree_of_broken hd hr (k := 3) hp hp8 rfl (show 3 < p by omega) (by omega) ?_ he
      d.spare_mod256 fun i hi _ => h256 i hi
    intro m h0 hm
    obtain rfl | rfl : m = 1 ∨ m = 2 := by omega
    · exact h1
    · exact h2
  · refine not_agree_of_broken hd hr (k := 4) hp hp8 rfl hp (by omega) ?_ rfl
      d.spare_mod256 fun i hi h3 => h256 i (by omega)
    intro m h0 hm
    obtain rfl | rfl | rfl : m = 1 ∨ m = 2 ∨ m = 3 := by omega
    · exact h1
    · exact h2
    · exact he

/-- Sizes without that of `userdata`, once they are trimmed. -/
theorem trim_slots (hu : d.secs c.userdata = 0) (e l a : ℕ) :
    ∃ y z, reformatTrim (c.count + 1) (slots d c e l a) =
        [d.secs c.system, d.secs c.misc, d.secs c.cache, e, 0, y, z, 0] ∧
      (y = l ∨ y = trim l) := by
  unfold slots
  rw [hu]
  rcases count_cases c with h | h | h | h <;> rw [h]
  · exact ⟨l, a, rfl, Or.inl rfl⟩
  · exact ⟨trim l, a, rfl, Or.inr rfl⟩
  · exact ⟨trim l, trim a, rfl, Or.inr rfl⟩
  · exact ⟨trim l, trim a, rfl, Or.inr rfl⟩

theorem lastPart_gap {a0 a1 a2 e y z : ℕ} (h : e ≠ 0 ∨ y ≠ 0) :
    lastPart [a0, a1, a2, e, 0, y, z, 0] = if z ≠ 0 then 7 else if y ≠ 0 then 6 else 4 := by
  unfold lastPart
  by_cases hz : z = 0 <;> by_cases hy : y = 0 <;> simp_all

theorem not_agree_of_done (hd : d.lba ≠ 0) (h1 : d.secs c.misc ≠ 0) (h2 : d.secs c.cache ≠ 0)
    (hu : d.secs c.userdata = 0) {e l a : ℕ} (hel : e ≠ 0 ∨ l ≠ 0 ∧ trim l ≠ 0)
    (hr : reformatPartSize d.blksz (s32 d.lba) c.globals = reformatDone d c (slots d c e l a)) :
    ¬BasesAgree d c := by
  obtain ⟨y, z, hs, hy⟩ := trim_slots hu e l a
  have hey : e ≠ 0 ∨ y ≠ 0 := by
    rcases hel with he | ⟨hl, ht⟩
    · exact Or.inl he
    · rcases hy with rfl | rfl
      · exact Or.inr hl
      · exact Or.inr ht
  have hlast : lastPart [d.secs c.system, d.secs c.misc, d.secs c.cache, e, 0, y, z, 0] =
      if z ≠ 0 then 7 else if y ≠ 0 then 6 else 4 := lastPart_gap hey
  have hne : (if z ≠ 0 then 7 else if y ≠ 0 then 6 else 4) ≠ 0 := by
    split_ifs <;> decide
  unfold reformatDone at hr
  simp only [hs, hlast] at hr
  rw [if_neg hne] at hr
  by_cases hz : z = 0
  · rw [if_neg (not_not.2 hz)] at hr
    by_cases hy0 : y = 0
    · rw [if_neg (not_not.2 hy0)] at hr
      refine not_agree_of_four hd hr rfl rfl rfl ?_ d.spare_mod256 ?_
      · intro m h0 hm
        obtain rfl | rfl | rfl : m = 1 ∨ m = 2 ∨ m = 3 := by omega
        · exact h1
        · exact h2
        · exact hey.resolve_right (not_not.2 hy0)
      · intro i hi
        rcases i with _ | _ | _ | i
        · exact d.secs_mod c.system
        · exact d.secs_mod c.misc
        · exact d.secs_mod c.cache
        · omega
    · rw [if_pos hy0] at hr
      exact not_agree_of_gap hd h1 h2 (by omega) (by omega) hr
  · rw [if_pos hz] at hr
    exact not_agree_of_gap hd h1 h2 (by omega) (by omega) hr

/-- A run of which `userdata` has no size. -/
theorem not_agree_of_userdata (hd : d.lba ≠ 0) (h1 : d.secs c.misc ≠ 0) (h2 : d.secs c.cache ≠ 0)
    (hu : d.secs c.userdata = 0) : ¬BasesAgree d c := by
  have h4 := c.count_ge
  have h7 := c.count_le
  rcases le_or_gt (s32 d.lba) (s32 (primaries d c)) with hpass | hpass
  · have hr := reformat_small d c hpass
    unfold slots at hr
    rw [hu] at hr
    exact not_agree_of_gap hd h1 h2 (by omega) (by omega) hr
  by_cases hl : d.secs c.localSize = 0
  · rcases Nat.lt_or_ge (inner d c) (extended d c) with he | he
    · rcases Nat.lt_or_ge (32 * multip d.blksz) (extended d c - inner d c) with hm | hm
      · exact not_agree_of_done hd h1 h2 hu (Or.inl (by omega)) (reformat_rest d c hpass hl he hm)
      · have hr := reformat_closed d c hpass hl he hm
        split_ifs at hr with hc
        · exact not_agree_of_fault hd hr
        · exact not_agree_of_done hd h1 h2 hu (Or.inl (by omega)) hr
    · have hr := reformat_over d c hpass hl he
      unfold slots at hr
      rw [hu] at hr
      exact not_agree_of_gap hd h1 h2 (by omega) (by omega) hr
  · exact not_agree_of_done hd h1 h2 hu (Or.inr ⟨hl, d.trim_secs_ne hl⟩)
      (reformat_local d c hpass hl)

end Missing

section Agree

variable {d : BlockDisk} {c : PartConfig}

/-- When the bases of a configuration are those of the chain: the sizes in blocks are there and the
partitions begin on blocks with a signed number, on the disk; and `userdata` is the only logical
partition, since what is left behind it is no more than 32MB. -/
def PartConfig.Matches (d : BlockDisk) (c : PartConfig) : Prop :=
  let fitted := s32 (primaries d c) < s32 d.lba
  let rest := d.secs c.userdata + 32 * multip d.blksz
  d.secs c.misc ≠ 0 ∧ d.secs c.cache ≠ 0 ∧ d.secs c.userdata ≠ 0 ∧ c.Reachable d ∧
    (c.count = 4 ∧ (fitted → extended d c ≠ 0 ∧ extended d c ≤ rest) ∨
      c.count ≠ 4 ∧ c.count ≠ 7 ∧ c.localSize = 0 ∧ c.add1 = 0 ∧ fitted ∧
        d.secs c.userdata < extended d c ∧ extended d c ≤ rest)

/-- All sizes but perhaps those behind `userdata` are there. -/
structure Sized (d : BlockDisk) (c : PartConfig) : Prop where
  lba : d.lba ≠ 0
  misc : d.secs c.misc ≠ 0
  cache : d.secs c.cache ≠ 0
  userdata : d.secs c.userdata ≠ 0

variable {e : ℕ} {zs : List ℕ} {rc : ℤ}

theorem Sized.whole (h : Sized d c) (he : e ≠ 0) (hzs : zs ≠ []) (hlen : zs.length ≤ 3)
    (hz : ∀ z ∈ zs, z ≠ 0) : Whole d c e zs :=
  ⟨h.misc, h.cache, he, hzs, hlen, hz⟩

theorem secs_config {x : ℕ} (h : d.secs x ≠ 0) : x ≠ 0 := by
  rintro rfl
  exact h d.secs_zero

theorem present_eq {x : ℕ} :
    present (d.secs x) = if d.secs x = 0 then [] else [d.secs x - 0x10] := by
  unfold present
  split_ifs with h
  · rfl
  · rw [d.trim_secs h]

/-- A second logical partition behind `userdata`. -/
theorem Sized.not_agree_more (h : Sized d c) {l : ℕ} (hl : l ≠ 0)
    (hr : reformatPartSize d.blksz (s32 d.lba) c.globals =
      some (rc, full d c e ([trim (d.secs c.userdata), l] ++ present (d.secs c.add1)))) :
    ¬BasesAgree d c := by
  have hmod := d.secs_mod c.userdata
  have hlt := d.secs_lt c.userdata
  have hge := d.secs_ge h.userdata
  have hu := d.trim_secs h.userdata
  by_cases he : e = 0
  · subst he
    have hlen := present_length (d.secs c.add1)
    refine not_agree_of_broken h.lba hr (k := 3) ?_ ?_ ?_ ?_ (by omega) ?_ rfl d.spare_mod256 ?_
    · simp [full, after]
    · simp [full, after]
      omega
    · simp [full, after]
      omega
    · simp [full, after]
      omega
    · intro m h0 hm
      obtain rfl | rfl : m = 1 ∨ m = 2 := by omega
      · exact h.misc
      · exact h.cache
    · intro i hi _
      obtain rfl | rfl | rfl : i = 0 ∨ i = 1 ∨ i = 2 := by omega
      · exact d.secs_mod c.system
      · exact d.secs_mod c.misc
      · exact d.secs_mod c.cache
  by_cases ha : d.secs c.add1 = 0
  · rw [present_eq, if_pos ha, List.append_nil] at hr
    refine (h.whole he (by simp) (by simp) ?_).not_agree_two h.lba hr (by omega)
    simp only [List.mem_cons, List.not_mem_nil, or_false, forall_eq_or_imp, forall_eq]
    exact ⟨d.trim_secs_ne h.userdata, hl⟩
  · have hga := d.secs_ge ha
    rw [present_eq, if_neg ha] at hr
    refine (h.whole he (by simp) (by simp) ?_).not_agree_three h.lba hr (by simp) (secs_config ha)
    simp only [List.cons_append, List.nil_append, List.mem_cons, List.not_mem_nil, or_false,
      forall_eq_or_imp, forall_eq]
    exact ⟨d.trim_secs_ne h.userdata, hl, by omega⟩

/-- A disk that is not fitted. -/
theorem Sized.agree_small (h : Sized d c) (hpass : s32 d.lba ≤ s32 (primaries d c)) :
    BasesAgree d c ↔ c.count = 4 ∧ c.Reachable d := by
  have hr := reformat_small d c hpass
  have hml := d.secs_mod c.localSize
  have hma := d.secs_mod c.add1
  have hmu := d.secs_mod c.userdata
  have h7 := c.count_le
  have hgap (k : ℕ) (hk5 : 5 ≤ k) (hk : k < c.count + 1) (hl : 5 < k → d.secs c.localSize ≠ 0)
      (ha : 6 < k → d.secs c.add1 ≠ 0)
      (hz : (slots d c (d.secs c.userdata) (d.secs c.localSize) (d.secs c.add1)).getD k 0 = 0) :
      ¬BasesAgree d c := by
    refine not_agree_of_broken h.lba hr (k := k) (show 4 < c.count + 1 by omega)
      (show c.count + 1 ≤ 8 by omega) rfl hk (by omega) ?_ hz d.spare_mod256
      fun i _ => slots_mod hml hma i
    intro m _ hm
    rcases m with _ | _ | _ | _ | _ | _ | _ | m
    · omega
    · exact h.misc
    · exact h.cache
    · exact h.userdata
    · exact h.userdata
    · exact hl (by omega)
    · exact ha (by omega)
    · omega
  by_cases hc4 : c.count = 4
  · have hl0 := c.local_slot hc4
    have ha0 := c.add1_slot (by omega)
    rw [hc4, hl0, ha0, d.secs_zero] at hr
    have hw : Whole d c (d.secs c.userdata) [d.secs c.userdata] :=
      h.whole h.userdata (by simp) (by simp) (by simpa using h.userdata)
    rw [hw.agree_one h.lba hr]
    simp only [hc4, hl0, ha0, true_and]
  · have hc := c.count_ge
    refine iff_of_false ?_ fun hand => hc4 hand.1
    by_cases hl : d.secs c.localSize = 0
    · exact hgap 5 le_rfl (by omega) (by omega) (by omega) (by rw [slots_local, hl])
    by_cases hc5 : c.count = 5
    · rw [hc5, c.add1_slot (by omega), d.secs_zero] at hr
      have hw : Whole d c (d.secs c.userdata) [d.secs c.userdata, d.secs c.localSize] := by
        refine h.whole h.userdata (by simp) (by simp) ?_
        simp only [List.mem_cons, List.not_mem_nil, or_false, forall_eq_or_imp, forall_eq]
        exact ⟨h.userdata, hl⟩
      exact hw.not_agree_two h.lba hr (by omega)
    by_cases ha : d.secs c.add1 = 0
    · exact hgap 6 (by omega) (by omega) (fun _ => hl) (by omega) ha
    by_cases hc6 : c.count = 6
    · rw [hc6] at hr
      have hw : Whole d c (d.secs c.userdata)
          [d.secs c.userdata, d.secs c.localSize, d.secs c.add1] := by
        refine h.whole h.userdata (by simp) (by simp) ?_
        simp only [List.mem_cons, List.not_mem_nil, or_false, forall_eq_or_imp, forall_eq]
        exact ⟨h.userdata, hl, ha⟩
      exact hw.not_agree_three h.lba hr rfl (secs_config ha)
    · exact hgap 7 (by omega) (by omega) (fun _ => hl) (fun _ => ha) rfl

/-- Without a size for `local` the tables stop after `userdata`, though more are to come. -/
theorem Sized.not_agree_gap (h : Sized d c) {rc : ℤ} {e a : ℕ}
    (hr : reformatPartSize d.blksz (s32 d.lba) c.globals =
      some (rc, after d c (c.count + 1) (slots d c e 0 a)))
    (hma : a % 256 = 0) (hc : 5 ≤ c.count) (he : e ≠ 0) : ¬BasesAgree d c := by
  have h7 := c.count_le
  refine not_agree_of_broken h.lba hr (k := 5) (show 4 < c.count + 1 by omega)
    (show c.count + 1 ≤ 8 by omega) rfl (show 5 < c.count + 1 by omega) (by omega) ?_
    (slots_local d c _ _ _) d.spare_mod256 fun i _ => slots_mod rfl hma i
  intro m h0 hm
  obtain rfl | rfl | rfl | rfl : m = 1 ∨ m = 2 ∨ m = 3 ∨ m = 4 := by omega
  · exact h.misc
  · exact h.cache
  · exact he
  · exact h.userdata

theorem Sized.agree_over (h : Sized d c) (hpass : s32 (primaries d c) < s32 d.lba)
    (hl : d.secs c.localSize = 0) (he : extended d c ≤ inner d c) :
    BasesAgree d c ↔ c.count = 4 ∧ extended d c ≠ 0 ∧ c.Reachable d := by
  have hr := reformat_over d c hpass hl he
  have hma := d.secs_mod c.add1
  have hc := c.count_ge
  have h7 := c.count_le
  by_cases he0 : extended d c = 0
  · refine iff_of_false ?_ fun hand => hand.2.1 he0
    rw [he0] at hr
    refine not_agree_of_broken h.lba hr (k := 3) (show 4 < c.count + 1 by omega)
      (show c.count + 1 ≤ 8 by omega) rfl (show 3 < c.count + 1 by omega) (by omega) ?_
      (slots_extended d c _ _ _) d.spare_mod256 fun i _ => slots_mod rfl hma i
    intro m h0 hm
    obtain rfl | rfl : m = 1 ∨ m = 2 := by omega
    · exact h.misc
    · exact h.cache
  by_cases hc4 : c.count = 4
  · have ha0 := c.add1_slot (by omega)
    rw [hc4, ha0, d.secs_zero] at hr
    have hw : Whole d c (extended d c) [d.secs c.userdata] :=
      h.whole he0 (by simp) (by simp) (by simpa using h.userdata)
    rw [hw.agree_one h.lba hr]
    simp only [hc4, he0, c.local_slot hc4, ha0, true_and, ne_eq, not_false_eq_true]
  · refine iff_of_false ?_ fun hand => hc4 hand.1
    exact h.not_agree_gap hr hma (by omega) he0

theorem Sized.agree_closed (h : Sized d c) (hpass : s32 (primaries d c) < s32 d.lba)
    (hl : d.secs c.localSize = 0) (he : inner d c < extended d c)
    (hm : extended d c - inner d c ≤ 32 * multip d.blksz) :
    BasesAgree d c ↔ c.count ≠ 7 ∧ c.localSize = 0 ∧ c.add1 = 0 ∧ c.Reachable d := by
  have hr := reformat_closed d c hpass hl he hm
  have he0 : extended d c ≠ 0 := by omega
  have htu := d.trim_secs_ne h.userdata
  have hone : Whole d c (extended d c) [trim (d.secs c.userdata)] :=
    h.whole he0 (by simp) (by simp) (by simpa using htu)
  by_cases hc7 : c.count = 7
  · rw [if_pos hc7] at hr
    exact iff_of_false (not_agree_of_fault h.lba hr) fun hand => hand.1 hc7
  rw [if_neg hc7] at hr
  by_cases hc4 : c.count = 4
  · rw [c.add1_slot (by omega), d.secs_zero, reformatDone_four d c h.userdata hc4, if_pos rfl] at hr
    rw [hone.agree_one h.lba hr]
    simp only [hc7, ne_eq, not_false_eq_true, true_and]
  rw [reformatDone_closed d c h.userdata hc4 hc7
    (fun h5 => by rw [c.add1_slot (by omega), d.secs_zero]) trim_secs_zero, present_eq] at hr
  by_cases ha : d.secs c.add1 = 0
  · rw [if_pos ha] at hr
    rw [hone.agree_one h.lba hr]
    simp only [hc7, ne_eq, not_false_eq_true, true_and]
  · have hga := d.secs_ge ha
    have hgu := d.secs_ge h.userdata
    have hlt := d.secs_lt c.userdata
    have hu := d.trim_secs h.userdata
    rw [if_neg ha] at hr
    refine iff_of_false ?_ fun hand => secs_config ha hand.2.2.1
    refine (h.whole he0 (by simp) (by simp) ?_).not_agree_two h.lba hr (by omega)
    simp only [List.mem_cons, List.not_mem_nil, or_false, forall_eq_or_imp, forall_eq]
    exact ⟨htu, by omega⟩

theorem Sized.not_agree_rest (h : Sized d c) (hpass : s32 (primaries d c) < s32 d.lba)
    (hl : d.secs c.localSize = 0) (he : inner d c < extended d c)
    (hm : 32 * multip d.blksz < extended d c - inner d c) : ¬BasesAgree d c := by
  have hr := reformat_rest d c hpass hl he hm
  have he0 : extended d c ≠ 0 := by omega
  have hpos := d.multip_pos
  have hlt : extended d c < 2 ^ 32 := by
    unfold extended toU32
    omega
  by_cases hc4 : c.count = 4
  · have hrest : extended d c - inner d c ≠ 0 := by omega
    rw [c.add1_slot (by omega), d.secs_zero, reformatDone_four d c h.userdata hc4,
      if_neg hrest] at hr
    have hr' : reformatPartSize d.blksz (s32 d.lba) c.globals = some (0, full d c (extended d c)
        ([trim (d.secs c.userdata), extended d c - inner d c] ++ present (d.secs c.add1))) := by
      rw [c.add1_slot (by omega), d.secs_zero]
      exact hr
    exact h.not_agree_more hrest hr'
  · have hc := c.count_ge
    have ht : trim (extended d c - inner d c) ≠ 0 := by
      rw [trim_of_ge (by omega) (by omega)]
      omega
    rw [reformatDone_more d c h.userdata (by omega) ht
      (fun h5 => by rw [c.add1_slot (by omega), d.secs_zero]) trim_secs_zero] at hr
    exact h.not_agree_more ht hr

theorem Sized.not_agree_local (h : Sized d c) (hpass : s32 (primaries d c) < s32 d.lba)
    (hl : d.secs c.localSize ≠ 0) : ¬BasesAgree d c := by
  have hr := reformat_local d c hpass hl
  have hc := c.count_ge
  have hc4 : c.count ≠ 4 := fun h4 => secs_config hl (c.local_slot h4)
  rw [reformatDone_more d c h.userdata (by omega) (d.trim_secs_ne hl)
    (fun h5 => by rw [c.add1_slot (by omega), d.secs_zero]) trim_secs_zero] at hr
  exact h.not_agree_more (d.trim_secs_ne hl) hr

theorem inner_of_zero (ha : c.add1 = 0) : inner d c = d.secs c.userdata := by
  unfold inner
  rw [ha, d.secs_zero, add_zero]
  exact u32_of_lt (d.secs_lt _)

/-- `block_get_base` agrees with the chain of tables just when the disk has no capacity or all is as
`Matches` has it. -/
theorem bases_agree_iff (d : BlockDisk) (c : PartConfig) :
    BasesAgree d c ↔ d.lba = 0 ∨ c.Matches d := by
  by_cases hd : d.lba = 0
  · refine iff_of_true (fun h => ?_) (Or.inl hd)
    refine ⟨⟨-1, c.globals, []⟩, ?_, fun h => absurd h (by decide : (-1 : ℤ) ≠ 0)⟩
    unfold blockPartition
    rw [if_pos hd]
  have hor : d.lba = 0 ∨ c.Matches d ↔ c.Matches d := or_iff_right hd
  rw [hor]
  unfold PartConfig.Matches
  simp only []
  by_cases h1 : d.secs c.misc = 0
  · refine iff_of_false ?_ fun hand => hand.1 h1
    rcases hr : reformatPartSize d.blksz (s32 d.lba) c.globals with _ | ⟨rc, g⟩
    · exact not_agree_of_fault hd hr
    · exact not_agree_of_primary hd hr (j := 1) (by omega) (by omega)
        ((reformat_first hr).1.trans h1)
  by_cases h2 : d.secs c.cache = 0
  · refine iff_of_false ?_ fun hand => hand.2.1 h2
    rcases hr : reformatPartSize d.blksz (s32 d.lba) c.globals with _ | ⟨rc, g⟩
    · exact not_agree_of_fault hd hr
    · exact not_agree_of_primary hd hr (j := 2) (by omega) (by omega)
        ((reformat_first hr).2.trans h2)
  by_cases hu : d.secs c.userdata = 0
  · exact iff_of_false (not_agree_of_userdata hd h1 h2 hu) fun hand => hand.2.2.1 hu
  have h : Sized d c := ⟨hd, h1, h2, hu⟩
  simp only [ne_eq, h1, h2, hu, not_false_eq_true, true_and]
  rcases le_or_gt (s32 d.lba) (s32 (primaries d c)) with hpass | hpass
  · rw [h.agree_small hpass]
    simp only [not_lt.2 hpass, false_imp_iff, false_and, and_false, or_false, and_true]
    exact and_comm
  simp only [hpass, true_imp_iff, true_and]
  by_cases hl : d.secs c.localSize = 0
  · rcases Nat.lt_or_ge (inner d c) (extended d c) with he | he
    · rcases Nat.lt_or_ge (32 * multip d.blksz) (extended d c - inner d c) with hm | hm
      · refine iff_of_false (h.not_agree_rest hpass hl he hm) ?_
        rintro ⟨-, ⟨h4, -, hle⟩ | ⟨-, -, -, ha, -, hle⟩⟩
        · rw [inner_of_zero (c.add1_slot (by omega))] at hm
          omega
        · rw [inner_of_zero ha] at hm
          omega
      · rw [h.agree_closed hpass hl he hm]
        constructor
        · rintro ⟨h7, hl0, ha, hreach⟩
          rw [inner_of_zero ha] at he hm
          refine ⟨hreach, ?_⟩
          by_cases h4 : c.count = 4
          · exact Or.inl ⟨h4, by omega, by omega⟩
          · exact Or.inr ⟨h4, h7, hl0, ha, he, by omega⟩
        · rintro ⟨hreach, ⟨h4, -⟩ | ⟨-, h7, hl0, ha, -⟩⟩
          · exact ⟨by omega, c.local_slot h4, c.add1_slot (by omega), hreach⟩
          · exact ⟨h7, hl0, ha, hreach⟩
    · rw [h.agree_over hpass hl he]
      constructor
      · rintro ⟨h4, he0, hreach⟩
        rw [inner_of_zero (c.add1_slot (by omega))] at he
        exact ⟨hreach, Or.inl ⟨h4, he0, by omega⟩⟩
      · rintro ⟨hreach, ⟨h4, he0, -⟩ | ⟨-, -, -, ha, hlt, -⟩⟩
        · exact ⟨h4, he0, hreach⟩
        · rw [inner_of_zero ha] at he
          omega
  · refine iff_of_false (h.not_agree_local hpass hl) ?_
    rintro ⟨-, ⟨h4, -⟩ | ⟨-, -, hl0, -⟩⟩
    · exact secs_config hl (c.local_slot h4)
    · exact secs_config hl hl0

/-- The partition behind `userdata`, which the default configuration makes `local`: its base goes to
the last entry of the information block, and `block_get_base` has 0 for it. -/
theorem bases_agree_fails : ¬∀ (d : BlockDisk) (c : PartConfig), BasesAgree d c := by
  intro h
  have hs : Sized disk4G defaultConfig :=
    ⟨by decide, by decide, by decide, by decide⟩
  exact hs.not_agree_rest (by decide) (by decide) (by decide)
    (by decide) (h disk4G defaultConfig)

end Agree

end InfotmUboot
