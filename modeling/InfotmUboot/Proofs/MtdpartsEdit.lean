import InfotmUboot.Proofs.Mtdparts

/-!
# Edits of the partition lists

A device that is added, a partition that is inserted and one that is deleted leave the lists in
order (`deviceAdd_edited`, `partSortAdd_edited`, `partDel_edited`). The current partition stays the
current one, except behind some deletions (`partDel_current`).
-/

namespace InfotmUboot

open Lib

section Defs

variable (mtd : ℕ → ℕ → Option MtdInfo)

structure DeviceKept (dev : MtdDevice) : Prop where
  sorted : dev.parts.Pairwise PartInfo.Before
  numParts : dev.numParts = dev.parts.length
  nonempty : dev.parts ≠ []
  parts : ∀ part ∈ dev.parts, PartKept mtd dev.id part

/-- A device as it is parsed: its count has 16 bits. -/
structure DeviceSound (dev : MtdDevice) : Prop where
  sorted : dev.parts.Pairwise PartInfo.Before
  numParts : dev.numParts = dev.parts.length % 2 ^ 16
  nonempty : dev.parts ≠ []
  parts : ∀ part ∈ dev.parts, PartKept mtd dev.id part

/-- The partition that `current_mtd_dev` and `current_mtd_partnum` denote. -/
def Mtdparts.currentPart (m : Mtdparts) : Option PartInfo := do
  let key ← m.currentMtdDev
  let dev ← deviceFind m.devices key
  mtdPartInfo dev m.currentMtdPartnum

/-- The addresses of the partitions. -/
def linksOf (devices : List MtdDevice) : List ℕ := devices.flatMap fun dev => dev.parts.map (·.link)

/-- The partition at this address is in a list. -/
def Mtdparts.Has (m : Mtdparts) (link : ℕ) : Prop := link ∈ linksOf m.devices

structure ListsSound (m : Mtdparts) : Prop where
  devices : ∀ dev ∈ m.devices, DeviceSound mtd dev
  keys : (m.devices.map (·.id.key)).Nodup
  links : (linksOf m.devices).Nodup
  fresh : ∀ link, m.Has link → link < m.heap

/-- The lists are in order, and the `mtdparts` variable is the text they were last written as. -/
structure ListsKept (m : Mtdparts) : Prop extends ListsSound mtd m where
  few : ∀ dev ∈ m.devices, dev.parts.length < 2 ^ 8
  saved : m.mtdparts = if m.lastParts = [] then none else some m.lastParts

/-- What an edit of the lists leaves: an address is not used again. -/
structure Edited (m m' : Mtdparts) : Prop extends ListsSound mtd m' where
  heap : m.heap ≤ m'.heap
  old : ∀ link, link < m.heap → m'.Has link → m.Has link

structure MtdKept (m : Mtdparts) : Prop extends ListsKept mtd m where
  current : m.devices ≠ [] → m.currentPart.isSome

end Defs

section Find

variable {devices : List MtdDevice} {dev d : MtdDevice} {key : ℕ × ℕ}

theorem deviceFind_mem (h : deviceFind devices key = some dev) : dev ∈ devices ∧ dev.id.key = key :=
  ⟨List.mem_of_find?_eq_some h, by simpa using List.find?_some h⟩

theorem deviceFind_of_mem : ∀ {devices : List MtdDevice}, (devices.map (·.id.key)).Nodup →
    dev ∈ devices → deviceFind devices dev.id.key = some dev
  | d :: devices, hn, h => by
    rw [List.map_cons, List.nodup_cons] at hn
    unfold deviceFind
    rcases List.mem_cons.mp h with rfl | h
    · exact List.find?_cons_of_pos (by simp)
    · have hne : d.id.key ≠ dev.id.key := fun he =>
        hn.1 (he ▸ List.mem_map_of_mem (f := fun x : MtdDevice => x.id.key) h)
      rw [List.find?_cons_of_neg (by simpa using hne)]
      exact deviceFind_of_mem hn.2 h

theorem deviceFind_none (h : deviceFind devices key = none) : ∀ d ∈ devices, d.id.key ≠ key := by
  intro d hd
  have := List.find?_eq_none.mp h d hd
  simpa using this

theorem mtdPartInfo_eq {dev : MtdDevice} (hn : dev.numParts = dev.parts.length) (num : ℕ) :
    mtdPartInfo dev num = dev.parts[num]? := by
  unfold mtdPartInfo
  split_ifs with h
  · exact (List.getElem?_eq_none (by omega)).symm
  · rfl

theorem findByName_mem {id : List UInt8} {num : ℕ} {part : PartInfo} :
    ∀ {devices : List MtdDevice}, findByName id devices = some (dev, num, part) →
      dev ∈ devices ∧ part ∈ dev.parts
  | d :: devices, h => by
    unfold findByName at h
    rcases hf : d.parts.find? (·.name = id) with _ | p
    · rw [hf] at h
      obtain ⟨hd, hp⟩ := findByName_mem h
      exact ⟨List.mem_cons_of_mem _ hd, hp⟩
    · rw [hf] at h
      simp only [Option.some.injEq, Prod.mk.injEq] at h
      obtain ⟨rfl, -, rfl⟩ := h
      exact ⟨List.mem_cons_self, List.mem_of_find?_eq_some hf⟩

theorem mtdPartInfo_mem {num : ℕ} {part : PartInfo} (h : mtdPartInfo dev num = some part) :
    part ∈ dev.parts := by
  unfold mtdPartInfo at h
  split_ifs at h
  exact List.mem_of_getElem? h

theorem findDevAndPart_mem {id : List UInt8} {num : ℕ} {part : PartInfo}
    (h : findDevAndPart devices id = some (dev, num, part)) : dev ∈ devices ∧ part ∈ dev.parts := by
  unfold findDevAndPart at h
  rcases hn : findByName id devices with _ | found
  · rw [hn] at h
    simp only [Option.bind_eq_bind, Option.bind_eq_some_iff, Prod.exists,
      Option.ite_none_left_eq_some, Option.some.injEq, Prod.mk.injEq] at h
    obtain ⟨_, _, _, -, _, -, -, -, d, hd, p, hp, rfl, -, rfl⟩ := h
    exact ⟨(deviceFind_mem hd).1, mtdPartInfo_mem hp⟩
  · rw [hn] at h
    rw [Option.some.inj h] at hn
    exact findByName_mem hn

end Find

section Parsed

variable {mtd : ℕ → ℕ → Option MtdInfo} {id : MtdIds}

/-- The partitions of a text are in order each, at addresses that follow each other. -/
theorem partsLoop_spec : ∀ {fuel link offset : ℕ} {p rest : List UInt8} {parts : List PartInfo},
    partsLoop mtd id fuel link offset p = some (parts, rest) →
      (∀ part ∈ parts, PartKept mtd id part) ∧
        parts.map (·.link) = List.range' link parts.length
  | 0, _, _, _, _, _, h => absurd h (by simp [partsLoop])
  | fuel + 1, link, offset, p, rest, parts, h => by
    unfold partsLoop at h
    split_ifs at h with hend
    · simp only [Option.some.injEq, Prod.mk.injEq] at h
      obtain ⟨rfl, -⟩ := h
      exact ⟨by simp, rfl⟩
    · simp only [Option.bind_eq_bind, Option.bind_eq_some_iff, Prod.exists, Option.some.injEq,
        Prod.mk.injEq] at h
      obtain ⟨part, p, hp, part', hv, parts', p', hl, rfl, -⟩ := h
      obtain ⟨hlink, hsize⟩ := partParse_spec hp
      obtain ⟨hk, hlink', -⟩ := partValidate_spec (by split_ifs <;> exact hsize) hv
      have ih := partsLoop_spec hl
      refine ⟨List.forall_mem_cons.mpr ⟨hk, ih.1⟩, ?_⟩
      rw [List.map_cons, ih.2, List.length_cons, List.range'_succ, hlink']
      split_ifs <;> rw [← hlink]

theorem sortAddAll_spec : ∀ {parts acc parts' : List PartInfo},
    parts.foldlM (fun parts part => sortAdd part parts) acc = some parts' →
      acc.Pairwise PartInfo.Before → parts'.Perm (parts ++ acc) ∧ parts'.Pairwise PartInfo.Before
  | [], acc, parts', h, hs => by
    rw [List.foldlM_nil] at h
    obtain rfl := Option.some.inj h
    exact ⟨List.Perm.refl _, hs⟩
  | part :: parts, acc, parts', h, hs => by
    rw [List.foldlM_cons, Option.bind_eq_bind, Option.bind_eq_some_iff] at h
    obtain ⟨acc', ha, h⟩ := h
    obtain ⟨hp, hs'⟩ := sortAddAll_spec h (sortAdd_sorted ha hs)
    exact ⟨hp.trans (((sortAdd_perm ha).append_left parts).trans List.perm_middle), hs'⟩

theorem deviceParse_spec {mtdids : List MtdIds} {devices : List MtdDevice} {link : ℕ}
    {text rest : List UInt8} {dev : MtdDevice}
    (h : deviceParse mtd mtdids devices link text = some (dev, rest)) :
    DeviceSound mtd dev ∧ (dev.parts.map (·.link)).Perm (List.range' link dev.parts.length) := by
  simp only [deviceParse, Option.bind_eq_bind, Option.bind_eq_some_iff, Prod.exists,
    Option.ite_none_left_eq_some, Option.some.injEq, Prod.mk.injEq] at h
  obtain ⟨p, -, id, -, parts, q, hl, hne, parts', hf, rfl, -⟩ := h
  obtain ⟨hk, hlinks⟩ := partsLoop_spec hl
  obtain ⟨hp, hs⟩ := sortAddAll_spec hf List.Pairwise.nil
  rw [List.append_nil] at hp
  dsimp only
  refine ⟨⟨hs, rfl, fun he => ?_, fun q hq => hk q (hp.subset hq)⟩, ?_⟩
  · dsimp only at he
    exact hne (List.nil_perm.mp (he ▸ hp))
  rw [hp.length_eq, ← hlinks]
  exact hp.map _

end Parsed

section Devices

variable {mtd : ℕ → ℕ → Option MtdInfo} {m : Mtdparts} {dev : MtdDevice}

theorem DeviceSound.kept (h : DeviceSound mtd dev) (hf : dev.parts.length < 2 ^ 8) :
    DeviceKept mtd dev :=
  ⟨h.sorted, by rw [h.numParts]; omega, h.nonempty, h.parts⟩

theorem DeviceKept.sound (h : DeviceKept mtd dev) (hf : dev.parts.length < 2 ^ 8) :
    DeviceSound mtd dev :=
  ⟨h.sorted, by rw [h.numParts]; omega, h.nonempty, h.parts⟩

theorem ListsKept.device (h : ListsKept mtd m) (hd : dev ∈ m.devices) : DeviceKept mtd dev :=
  (h.devices dev hd).kept (h.few dev hd)

theorem ListsKept.partInfo (h : ListsKept mtd m) (hd : dev ∈ m.devices) (num : ℕ) :
    mtdPartInfo dev num = dev.parts[num]? :=
  mtdPartInfo_eq (h.device hd).numParts num

/-- A device of the list takes the place of one with its key. -/
theorem setDevice_split (dev' : MtdDevice) (hn : (m.devices.map (·.id.key)).Nodup)
    (hd : dev ∈ m.devices)
    (hk : dev'.id.key = dev.id.key) :
    ∃ s t, m.devices = s ++ dev :: t ∧ (m.setDevice dev').devices = s ++ dev' :: t ∧
      ∀ d ∈ s ++ t, d.id.key ≠ dev.id.key := by
  obtain ⟨s, t, hst⟩ := List.append_of_mem hd
  rw [hst, List.map_append, List.map_cons, List.nodup_append, List.nodup_cons] at hn
  obtain ⟨-, ⟨ht, -⟩, hs⟩ := hn
  have hne : ∀ d ∈ s ++ t, d.id.key ≠ dev.id.key := fun d hd he => by
    rcases List.mem_append.mp hd with hd | hd
    · exact hs _ (List.mem_map_of_mem hd) _ List.mem_cons_self he
    · exact ht (he ▸ List.mem_map_of_mem (f := fun x : MtdDevice => x.id.key) hd)
  have hmap : ∀ l : List MtdDevice, (∀ d ∈ l, d.id.key ≠ dev.id.key) →
      (l.map fun d => if d.id.key = dev'.id.key then dev' else d) = l := fun l hl => by
    conv_rhs => rw [← List.map_id l]
    exact List.map_congr_left fun d hd => if_neg (hk ▸ hl d hd)
  refine ⟨s, t, hst, ?_, hne⟩
  dsimp only [Mtdparts.setDevice]
  rw [hst, List.map_append, List.map_cons, if_pos hk.symm,
    hmap s fun d hd => hne d (List.mem_append_left _ hd),
    hmap t fun d hd => hne d (List.mem_append_right _ hd)]

theorem filter_split {s t : List MtdDevice} (hne : ∀ d ∈ s ++ t, d.id.key ≠ dev.id.key) :
    (s ++ dev :: t).filter (·.id.key ≠ dev.id.key) = s ++ t := by
  rw [List.filter_append, List.filter_cons_of_neg (by simp), ← List.filter_append,
    List.filter_eq_self.mpr fun d hd => by simpa using hne d hd]

theorem deviceFind_middle (dev : MtdDevice) {s t : List MtdDevice}
     (hne : ∀ d ∈ s ++ t, d.id.key ≠ dev.id.key) :
    deviceFind (s ++ dev :: t) dev.id.key = some dev := by
  have hs : s.find? (·.id.key = dev.id.key) = none :=
    List.find?_eq_none.mpr fun d hd => by simpa using hne d (List.mem_append_left _ hd)
  rw [deviceFind, List.find?_append, hs, List.find?_cons_of_pos (by simp), Option.none_or]

theorem deviceFind_other (dev : MtdDevice) {s t : List MtdDevice} {key : ℕ × ℕ}
    (h : dev.id.key ≠ key) :
    deviceFind (s ++ dev :: t) key = deviceFind (s ++ t) key := by
  rw [deviceFind, deviceFind, List.find?_append, List.find?_append,
    List.find?_cons_of_neg (by simpa using h)]

theorem linksOf_middle (dev : MtdDevice) (s t : List MtdDevice) :
    (linksOf (s ++ dev :: t)).Perm (dev.parts.map (·.link) ++ linksOf (s ++ t)) := by
  unfold linksOf
  rw [List.flatMap_append, List.flatMap_cons, List.flatMap_append]
  exact (List.perm_append_comm_assoc _ _ _)

end Devices

section Insert

variable {mtd : ℕ → ℕ → Option MtdInfo} {m m' : Mtdparts} {dev : MtdDevice} {part : PartInfo}

/-- The lists behind an insertion. -/
theorem partSortAdd_edited (hm : ListsKept mtd m) (hd : dev ∈ m.devices)
    (hp : PartKept mtd dev.id part) {heap : ℕ} (hlink : m.heap ≤ part.link) (hheap :
      part.link < heap)
    (h : partSortAdd { m with heap := heap } dev part = some m') : Edited mtd m m' := by
  obtain ⟨parts', ha, h⟩ := Option.bind_eq_some_iff.mp h
  obtain rfl := Option.some.inj h
  have hk := hm.device hd
  have hperm := sortAdd_perm ha
  set dev' : MtdDevice := { dev with parts := parts', numParts := (dev.numParts + 1) % 2 ^ 16 }
    with hdev'
  obtain ⟨s, t, hst, hset, -⟩ := setDevice_split dev' hm.keys hd rfl
  have hlinks : (linksOf (s ++ dev' :: t)).Perm (part.link :: linksOf m.devices) := by
    rw [hst]
    have hp' : (parts'.map (·.link)).Perm (part.link :: dev.parts.map (·.link)) := hperm.map _
    exact (linksOf_middle dev' s t).trans ((hp'.append_right _).trans
      ((linksOf_middle dev s t).symm.cons part.link))
  have hold : ∀ link ∈ linksOf (s ++ dev' :: t), link = part.link ∨ m.Has link := fun link hl =>
    List.mem_cons.mp (hlinks.subset hl)
  have hdevs : ∀ d ∈ s ++ t, d ∈ m.devices := fun d hd => by
    rw [hst]
    exact ((List.sublist_cons_self dev t).append_left s).subset hd
  have hnew : part.link ∉ linksOf m.devices := fun hl => absurd (hm.fresh _ hl) (by omega)
  refine ⟨⟨fun d hd' => ?_, ?_, ?_, fun link hl => ?_⟩, (hlink.trans_lt hheap).le,
    fun link hlt hl => ?_⟩
  · change d ∈ (m.setDevice dev').devices at hd'
    rw [hset] at hd'
    rcases List.mem_append.mp hd' with hd' | hd'
    · exact hm.devices d (hdevs d (List.mem_append_left _ hd'))
    · rcases List.mem_cons.mp hd' with rfl | hd'
      · refine ⟨sortAdd_sorted ha hk.sorted, ?_, fun he => ?_, fun q hq => ?_⟩
        · change (dev.numParts + 1) % 2 ^ 16 = parts'.length % 2 ^ 16
          rw [hperm.length_eq, hk.numParts, List.length_cons]
        · change parts' = [] at he
          rw [he] at hperm
          exact absurd hperm (by simp)
        · rcases List.mem_cons.mp (hperm.subset hq) with rfl | hq
          · exact hp
          · exact hk.parts q hq
      · exact hm.devices d (hdevs d (List.mem_append_right _ hd'))
  · change ((m.setDevice dev').devices.map (·.id.key)).Nodup
    have hkeys := hm.keys
    rw [hst, List.map_append, List.map_cons] at hkeys
    rw [hset, List.map_append, List.map_cons]
    exact hkeys
  · change (linksOf (m.setDevice dev').devices).Nodup
    rw [hset, hlinks.nodup_iff]
    exact List.nodup_cons.mpr ⟨hnew, hm.links⟩
  · change link ∈ linksOf (m.setDevice dev').devices at hl
    rw [hset] at hl
    rcases hold link hl with rfl | h
    · exact hheap
    · exact (hm.fresh link h).trans (hlink.trans_lt hheap)
  · change link ∈ linksOf (m.setDevice dev').devices at hl
    rw [hset] at hl
    exact (hold link hl).resolve_left (by omega)

/-- An insertion does not change which partition is current. -/
theorem partSortAdd_current (hm : ListsKept mtd m) (hd : dev ∈ m.devices) {heap : ℕ}
    (h : partSortAdd { m with heap := heap } dev part = some m') {cur : PartInfo}
    (hc : m.currentPart = some cur) : m'.currentPart = some cur := by
  obtain ⟨parts', ha, h⟩ := Option.bind_eq_some_iff.mp h
  obtain rfl := Option.some.inj h
  have hk := hm.device hd
  have hfew := hm.few dev hd
  have hperm := sortAdd_perm ha
  set dev' : MtdDevice := { dev with parts := parts', numParts := (dev.numParts + 1) % 2 ^ 16 }
    with hdev'
  obtain ⟨s, t, hst, hset, hne⟩ := setDevice_split dev' hm.keys hd rfl
  simp only [Mtdparts.currentPart, Option.bind_eq_bind, Option.bind_eq_some_iff] at hc
  obtain ⟨key, hkey, d, hdk, hc⟩ := hc
  have hcur : currPi { m with heap := heap } dev = if key = dev.id.key then
      mtdPartInfo dev m.currentMtdPartnum else none := by
    unfold currPi
    dsimp only
    rw [hkey]
    simp only [Option.some.injEq]
  change (((m.setDevice dev').currentMtdDev).bind fun key =>
    (deviceFind (m.setDevice dev').devices key).bind fun d => mtdPartInfo d _) = _
  rw [hset, hcur]
  change (m.currentMtdDev.bind _) = _
  rw [hkey, Option.bind_some]
  by_cases hke : key = dev.id.key
  · -- the number goes up with the place of the current partition
    rw [if_pos hke]
    have hdd : d = dev := by
      rw [hke, deviceFind_of_mem hm.keys hd] at hdk
      exact (Option.some.inj hdk).symm
    rw [hdd] at hc
    have hgt := hm.partInfo hd m.currentMtdPartnum
    have hlt := (List.getElem?_eq_some_iff.mp (hgt ▸ hc)).1
    rw [hke, deviceFind_middle dev' hne, Option.bind_some]
    refine (congrArg (mtdPartInfo dev') (?_ : _ = insertNum part cur dev.parts
      m.currentMtdPartnum)).trans ?_
    · unfold insertNum
      rw [hc]
      rcases hf : dev.parts.find? (part.offset ≤ ·.offset) with _ | pi
      · rw [hf]
        rfl
      · rw [hf]
        simp only [Option.any_some, decide_eq_true_eq]
        rw [Nat.mod_eq_of_lt (by omega)]
    rw [mtdPartInfo_eq (by
      change (dev.numParts + 1) % 2 ^ 16 = parts'.length
      rw [hperm.length_eq, hk.numParts, List.length_cons]
      omega)]
    exact sortAdd_current ha hk.sorted (hgt ▸ hc)
  · rw [if_neg hke]
    have hne' : dev.id.key ≠ key := fun he => hke he.symm
    rw [deviceFind_other dev' hne', ← deviceFind_other dev hne', ← hst, hdk,
      Option.bind_some]
    exact hc

end Insert

section Delete

variable {mtd : ℕ → ℕ → Option MtdInfo} {m : Mtdparts} {dev : MtdDevice} {part : PartInfo}

theorem deviceDel_devices (m : Mtdparts) (dev : MtdDevice) :
    (deviceDel m dev).devices = m.devices.filter (·.id.key ≠ dev.id.key) := by
  unfold deviceDel
  dsimp only
  split_ifs
  · split <;> rfl
  · rfl

theorem deviceDel_heap (m : Mtdparts) (dev : MtdDevice) : (deviceDel m dev).heap = m.heap := by
  unfold deviceDel
  dsimp only
  split_ifs
  · split <;> rfl
  · rfl

theorem partDel_heap (m : Mtdparts) (dev : MtdDevice) (part : PartInfo) :
    (partDel m dev part).heap = m.heap := by
  unfold partDel
  split_ifs
  · exact deviceDel_heap m dev
  · rfl

@[simp] theorem listDel_id (dev : MtdDevice) (part : PartInfo) : (dev.listDel part).id =
  dev.id := by
  rw [MtdDevice.listDel]

theorem partDel_devices (hm : ListsKept mtd m) (hd : dev ∈ m.devices) (part : PartInfo) :
    ∃ s t, m.devices = s ++ dev :: t ∧ (∀ d ∈ s ++ t, d.id.key ≠ dev.id.key) ∧
      (partDel m dev part).devices =
        if dev.numParts = 1 then s ++ t else s ++ dev.listDel part :: t := by
  obtain ⟨s, t, hst, hset, hne⟩ := setDevice_split (dev.listDel part) hm.keys hd
    (by rw [listDel_id])
  refine ⟨s, t, hst, hne, ?_⟩
  unfold partDel
  split_ifs with h1
  · rw [deviceDel_devices, hst, filter_split hne]
  · exact hset

/-- What is left when one of several partitions goes. -/
theorem listDel_kept (hk : DeviceKept mtd dev) (hlt : dev.parts.length < 2 ^ 8)
    (hn : (dev.parts.map (·.link)).Nodup)
    (hp : part ∈ dev.parts) (hone : dev.numParts ≠ 1) :
    DeviceKept mtd (dev.listDel part) ∧
      (dev.parts.map (·.link)).Perm (part.link :: (dev.listDel part).parts.map (·.link)) := by
  obtain ⟨s, t, hst, her, -⟩ := eraseP_split hn hp
  have hparts : (dev.listDel part).parts = s ++ t := her
  have hsub : (s ++ t).Sublist dev.parts := by
    rw [hst]
    exact (List.sublist_cons_self part t).append_left s
  have hlen := hk.numParts
  rw [hst, List.length_append, List.length_cons] at hlen hlt
  refine ⟨⟨?_, ?_, ?_, ?_⟩, ?_⟩
  · rw [hparts]
    exact hk.sorted.sublist hsub
  · rw [hparts, List.length_append]
    change dec16 dev.numParts = _
    unfold dec16
    omega
  · rw [hparts]
    intro he
    have := congrArg List.length he
    rw [List.length_append, List.length_nil] at this
    omega
  · rw [hparts, listDel_id]
    exact fun q hq => hk.parts q (hsub.subset hq)
  · rw [hparts, hst, ← List.map_cons]
    exact List.perm_middle.map _

theorem linksOf_part (hm : ListsKept mtd m) (hd : dev ∈ m.devices) :
    (dev.parts.map (·.link)).Nodup := by
  obtain ⟨s, t, hst⟩ := List.append_of_mem hd
  have hl := hm.links
  rw [hst, (linksOf_middle dev s t).nodup_iff] at hl
  exact (List.nodup_append.mp hl).1

/-- What is gone behind a deletion: the partition, or the whole device. -/
theorem partDel_links (hm : ListsKept mtd m) (hd : dev ∈ m.devices) (hp : part ∈ dev.parts) :
    ∃ gone, part.link ∈ gone ∧
      (linksOf m.devices).Perm (gone ++ linksOf (partDel m dev part).devices) := by
  obtain ⟨s, t, hst, -, hdel⟩ := partDel_devices hm hd part
  rw [hdel, hst]
  split_ifs with hone
  · exact ⟨dev.parts.map (·.link), List.mem_map_of_mem hp, linksOf_middle dev s t⟩
  · obtain ⟨-, hperm⟩ := listDel_kept (hm.device hd) (hm.few dev hd) (linksOf_part hm hd) hp hone
    refine ⟨[part.link], List.mem_singleton_self _, (linksOf_middle dev s t).trans ?_⟩
    exact (hperm.append_right _).trans ((linksOf_middle (dev.listDel part) s t).symm.cons part.link)

theorem partDel_edited (hm : ListsKept mtd m) (hd : dev ∈ m.devices) (hp : part ∈ dev.parts) :
    Edited mtd m (partDel m dev part) := by
  obtain ⟨gone, -, hperm⟩ := partDel_links hm hd hp
  obtain ⟨s, t, hst, -, hdel⟩ := partDel_devices hm hd part
  have hsub : ∀ link, (partDel m dev part).Has link → m.Has link := fun link hl =>
    hperm.symm.subset (List.mem_append_right _ hl)
  have hkeys := hm.keys
  rw [hst] at hkeys
  refine ⟨⟨fun d hd' => ?_, ?_, ?_, fun link hl => ?_⟩, (partDel_heap m dev part).ge,
    fun link _ hl => hsub link hl⟩
  · have hold : ∀ d ∈ s ++ t, DeviceSound mtd d := fun d hd => hm.devices d (by
      rw [hst]
      exact ((List.sublist_cons_self dev t).append_left s).subset hd)
    rw [hdel] at hd'
    split_ifs at hd' with hone
    · exact hold d hd'
    · rcases List.mem_append.mp hd' with hd' | hd'
      · exact hold d (List.mem_append_left _ hd')
      · rcases List.mem_cons.mp hd' with rfl | hd'
        · have hfew := hm.few dev hd
          obtain ⟨hk, hpl⟩ := listDel_kept (hm.device hd) hfew (linksOf_part hm hd) hp hone
          have hlen := hpl.length_eq
          rw [List.length_cons, List.length_map, List.length_map] at hlen
          exact hk.sound (by omega)
        · exact hold d (List.mem_append_right _ hd')
  · rw [hdel]
    split_ifs
    · exact hkeys.sublist (((List.sublist_cons_self dev t).append_left s).map _)
    · rw [List.map_append, List.map_cons, listDel_id, ← List.map_cons (f := fun d :
        MtdDevice => d.id.key),
        ← List.map_append]
      exact hkeys
  · exact (List.nodup_append.mp (hperm.nodup_iff.mp hm.links)).2.1
  · rw [partDel_heap]
    exact hm.fresh link (hsub link hl)

/-- A deletion on another device leaves the current one alone. -/
theorem partDel_other (part : PartInfo) (h : m.currentMtdDev ≠ some dev.id.key) :
    (partDel m dev part).currentMtdDev = m.currentMtdDev ∧
      (partDel m dev part).currentMtdPartnum = m.currentMtdPartnum := by
  unfold partDel deviceDel currPi
  rw [if_neg h, if_neg h]
  split_ifs <;> exact ⟨rfl, rfl⟩

theorem partDel_current_other (hm : ListsKept mtd m) (hd : dev ∈ m.devices) (part : PartInfo)
    (h : m.currentMtdDev ≠ some dev.id.key) {cur : PartInfo} (hc : m.currentPart = some cur) :
    (partDel m dev part).currentPart = some cur := by
  simp only [Mtdparts.currentPart, Option.bind_eq_bind, Option.bind_eq_some_iff] at hc
  obtain ⟨key, hkey, d, hdk, hc⟩ := hc
  have hke : dev.id.key ≠ key := fun he => h (by rw [hkey, he])
  obtain ⟨s, t, hst, -, hdel⟩ := partDel_devices hm hd part
  obtain ⟨hdev, hnum⟩ := partDel_other part h
  have hfind : deviceFind (partDel m dev part).devices key = some d := by
    rw [hst, deviceFind_other dev hke] at hdk
    rw [hdel]
    split_ifs
    · exact hdk
    · rw [deviceFind_other _ (by rw [listDel_id]; exact hke), hdk]
  simp only [Mtdparts.currentPart, Option.bind_eq_bind]
  rw [hdev, hnum, hkey, Option.bind_some, hfind, Option.bind_some, hc]

/-- The number behind a deletion on the current device. -/
theorem partDel_same {cur : PartInfo} (hone : dev.numParts ≠ 1) (hc : currPi m dev = some cur)
    (hne : cur.link ≠ part.link) :
    (partDel m dev part).currentMtdDev = m.currentMtdDev ∧
      (partDel m dev part).currentMtdPartnum =
        if part.offset ≤ cur.offset then (m.currentMtdPartnum + 255) % 2 ^ 8
        else m.currentMtdPartnum := by
  unfold partDel
  rw [if_neg hone, hc]
  dsimp only [Mtdparts.setDevice]
  rw [if_neg hne]
  exact ⟨rfl, rfl⟩

/-- On the current device, the number is right behind a deletion exactly if the deleted partition
does not stand behind the current one at its offset. -/
theorem partDel_current_near (hm : ListsKept mtd m) (hd : dev ∈ m.devices) (hp : part ∈ dev.parts)
    {cur : PartInfo} (hpi : currPi m dev = some cur) (hlink : cur.link ≠ part.link) :
    (partDel m dev part).Has cur.link ∧ ((partDel m dev part).currentPart = some cur ↔
      ¬ (part.offset = cur.offset ∧ part ∈ dev.parts.drop (m.currentMtdPartnum + 1))) := by
  have hk := hm.device hd
  have hnd := linksOf_part hm hd
  have hkey : m.currentMtdDev = some dev.id.key := by
    unfold currPi at hpi
    split_ifs at hpi with h
    exact h
  have hc : dev.parts[m.currentMtdPartnum]? = some cur := by
    unfold currPi at hpi
    rwa [if_pos hkey, hm.partInfo hd] at hpi
  have hone : dev.numParts ≠ 1 := fun h => by
    rw [hk.numParts] at h
    obtain ⟨q, hq⟩ := List.length_eq_one_iff.mp h
    have hcq := List.mem_of_getElem? hc
    rw [hq, List.mem_singleton] at hcq hp
    exact hlink (by rw [hcq, hp])
  obtain ⟨s, t, hst, hne, hdel⟩ := partDel_devices hm hd part
  rw [if_neg hone] at hdel
  obtain ⟨hk', hpl⟩ := listDel_kept hk (hm.few dev hd) hnd hp hone
  obtain ⟨hdev, hnum⟩ := partDel_same hone hpi hlink
  refine ⟨?_, ?_⟩
  · unfold Mtdparts.Has
    rw [hdel]
    refine (linksOf_middle _ s t).symm.subset (List.mem_append_left _ ?_)
    exact (List.mem_cons.mp
      (hpl.subset (List.mem_map_of_mem (List.mem_of_getElem? hc)))).resolve_left
      hlink
  · have hfind := deviceFind_middle (dev.listDel part) (by rw [listDel_id]; exact hne)
    rw [listDel_id] at hfind
    have hcur : (partDel m dev part).currentPart = (dev.listDel part).parts[
        if part.offset ≤ cur.offset then (m.currentMtdPartnum + 255) % 2 ^ 8
        else m.currentMtdPartnum]? := by
      simp only [Mtdparts.currentPart, Option.bind_eq_bind]
      rw [hdev, hnum, hkey, hdel, Option.bind_some, hfind, Option.bind_some,
        mtdPartInfo_eq hk'.numParts]
    rw [hcur]
    exact erase_current hk.sorted hnd (hm.few dev hd) hc hp hlink

theorem currentPart_has {cur : PartInfo} (hc : m.currentPart = some cur) : m.Has cur.link := by
  simp only [Mtdparts.currentPart, Option.bind_eq_bind, Option.bind_eq_some_iff] at hc
  obtain ⟨key, -, d, hd, hc⟩ := hc
  exact List.mem_flatMap.mpr ⟨d, (deviceFind_mem hd).1, List.mem_map_of_mem (mtdPartInfo_mem hc)⟩

theorem currentPart_eq (hm : ListsKept mtd m) (hd : dev ∈ m.devices)
    (hk : m.currentMtdDev = some dev.id.key) : m.currentPart = currPi m dev := by
  simp only [Mtdparts.currentPart, Option.bind_eq_bind]
  rw [hk, Option.bind_some, deviceFind_of_mem hm.keys hd, Option.bind_some, currPi, if_pos hk]

/-- A deletion keeps the current partition, or it is gone, exactly if it does not delete one that
stands behind it at its offset. -/
theorem partDel_current (hm : ListsKept mtd m) (hd : dev ∈ m.devices) (hp : part ∈ dev.parts)
    {cur : PartInfo} (hc : m.currentPart = some cur) :
    ((partDel m dev part).Has cur.link → (partDel m dev part).currentPart = some cur) ↔
      ∀ curr ∈ currPi m dev, ¬ (part.offset = curr.offset ∧
        part ∈ dev.parts.drop (m.currentMtdPartnum + 1)) := by
  have hnd := linksOf_part hm hd
  obtain ⟨gone, hgone, hperm⟩ := partDel_links hm hd hp
  have hnone : ¬ (partDel m dev part).Has part.link := fun hl =>
    (List.nodup_append.mp (hperm.nodup_iff.mp hm.links)).2.2 _ hgone _ hl rfl
  by_cases hkey : m.currentMtdDev = some dev.id.key
  · have hpi : currPi m dev = some cur := (currentPart_eq hm hd hkey).symm.trans hc
    simp only [hpi, Option.mem_some_iff, forall_eq']
    by_cases hlink : cur.link = part.link
    · -- the current partition goes
      have hget : dev.parts[m.currentMtdPartnum]? = some cur := by
        unfold currPi at hpi
        rwa [if_pos hkey, hm.partInfo hd] at hpi
      have hcp : cur = part := List.inj_on_of_nodup_map hnd (List.mem_of_getElem? hget) hp hlink
      refine iff_of_true (fun h => absurd (hcp ▸ h) hnone) fun h => ?_
      refine List.disjoint_take_drop (hnd.of_map _) (le_refl _) (a := part) ?_ h.2
      refine List.mem_of_getElem? (i := m.currentMtdPartnum) ?_
      rw [List.getElem?_take_of_lt (Nat.lt_succ_self _), hget, hcp]
    · obtain ⟨hhas, hiff⟩ := partDel_current_near hm hd hp hpi hlink
      exact ⟨fun h => hiff.mp (h hhas), fun h _ => hiff.mpr h⟩
  · have hpi : currPi m dev = none := by
      unfold currPi
      rw [if_neg hkey]
    exact iff_of_true (fun _ => partDel_current_other hm hd part hkey hc) (by simp [hpi])

/-- When the current partition is deleted, the first partition becomes the current one. -/
theorem partDel_reset (hm : ListsKept mtd m) (hd : dev ∈ m.devices) (hp : part ∈ dev.parts)
    (hk : m.currentMtdDev = some dev.id.key) (hc : m.currentPart = some part)
    (hne : (partDel m dev part).devices ≠ []) : (partDel m dev part).currentPart.isSome := by
  obtain ⟨s, t, hst, hother, hdel⟩ := partDel_devices hm hd part
  have hfirst : ∀ d, DeviceKept mtd d → (mtdPartInfo d 0).isSome := fun d hd => by
    rw [mtdPartInfo_eq hd.numParts, List.getElem?_eq_getElem (List.length_pos_iff.mpr hd.nonempty)]
    rfl
  by_cases hone : dev.numParts = 1
  · rw [if_pos hone] at hdel
    have hdel' : partDel m dev part = deviceDel m dev := if_pos hone
    rcases hds : s ++ t with _ | ⟨d, ds⟩
    · exact absurd (hdel.trans hds) hne
    · have hmem : d ∈ m.devices := by
        rw [hst]
        refine ((List.sublist_cons_self dev t).append_left s).subset ?_
        rw [hds]
        exact List.mem_cons_self
      have hfilter := filter_split hother
      rw [← hst, hds] at hfilter
      have hcur : deviceDel m dev = { m with
          devices := d :: ds, currentMtdDev := some d.id.key, currentMtdPartnum := 0 } := by
        unfold deviceDel
        dsimp only
        rw [if_pos hk]
        simp only [hfilter]
      rw [hdel', hcur]
      simp only [Mtdparts.currentPart, Option.bind_eq_bind, Option.bind_some]
      rw [show deviceFind (d :: ds) d.id.key = some d from List.find?_cons_of_pos (by simp),
        Option.bind_some]
      exact hfirst d (hm.device hmem)
  · rw [if_neg hone] at hdel
    obtain ⟨hk', -⟩ := listDel_kept (hm.device hd) (hm.few dev hd) (linksOf_part hm hd) hp hone
    have hpi : currPi m dev = some part := (currentPart_eq hm hd hk).symm.trans hc
    have hnum : (partDel m dev part).currentMtdPartnum = 0 ∧
        (partDel m dev part).currentMtdDev = m.currentMtdDev := by
      unfold partDel
      rw [if_neg hone, hpi]
      dsimp only [Mtdparts.setDevice]
      rw [if_pos rfl]
      exact ⟨rfl, rfl⟩
    have hfind := deviceFind_middle (dev.listDel part) (by rw [listDel_id]; exact hother)
    rw [listDel_id] at hfind
    simp only [Mtdparts.currentPart, Option.bind_eq_bind]
    rw [hnum.1, hnum.2, hk, hdel, Option.bind_some, hfind, Option.bind_some]
    exact hfirst _ hk'

end Delete

section Append

variable {mtd : ℕ → ℕ → Option MtdInfo} {m : Mtdparts} {dev : MtdDevice}

theorem deviceAdd_devices (m : Mtdparts) (dev : MtdDevice) :
    (deviceAdd m dev).devices = m.devices ++ [dev] := by
  unfold deviceAdd
  dsimp only
  split_ifs <;> rfl

theorem deviceAdd_heap (m : Mtdparts) (dev : MtdDevice) : (deviceAdd m dev).heap = m.heap := by
  unfold deviceAdd
  dsimp only
  split_ifs <;> rfl

theorem deviceAdd_edited (hm : ListsKept mtd m) (hd : DeviceSound mtd dev)
    (hl : (dev.parts.map (·.link)).Perm (List.range' m.heap dev.parts.length))
    (hf : deviceFind m.devices dev.id.key = none) :
    Edited mtd m (deviceAdd { m with heap := m.heap + dev.parts.length } dev) := by
  have hlinks : linksOf (m.devices ++ [dev]) = linksOf m.devices ++ dev.parts.map (·.link) := by
    unfold linksOf
    rw [List.flatMap_append, List.flatMap_singleton]
  have hnew : ∀ link ∈ dev.parts.map (·.link),
      m.heap ≤ link ∧ link < m.heap + dev.parts.length := fun link h => by
    simpa using hl.subset h
  refine ⟨⟨fun d hd' => ?_, ?_, ?_, fun link h => ?_⟩, ?_, fun link hlt h => ?_⟩
  · rw [deviceAdd_devices] at hd'
    rcases List.mem_append.mp hd' with hd' | hd'
    · exact hm.devices d hd'
    · rw [List.mem_singleton.mp hd']
      exact hd
  · rw [deviceAdd_devices, List.map_append, List.nodup_append]
    refine ⟨hm.keys, List.nodup_singleton _, fun k hk k' hk' he => ?_⟩
    obtain ⟨d, hdm, rfl⟩ := List.mem_map.mp hk
    rw [List.map_singleton, List.mem_singleton] at hk'
    exact deviceFind_none hf d hdm (he.trans hk')
  · rw [deviceAdd_devices, hlinks, List.nodup_append]
    refine ⟨hm.links, hl.nodup_iff.mpr (List.nodup_range' ..), fun k hk k' hk' he => ?_⟩
    have := hm.fresh k hk
    have := (hnew k' hk').1
    omega
  · unfold Mtdparts.Has at h
    rw [deviceAdd_devices, hlinks] at h
    rw [deviceAdd_heap]
    rcases List.mem_append.mp h with h | h
    · exact (hm.fresh link h).trans_le (Nat.le_add_right _ _)
    · exact (hnew link h).2
  · rw [deviceAdd_heap]
    exact Nat.le_add_right _ _
  · unfold Mtdparts.Has at h
    rw [deviceAdd_devices, hlinks] at h
    rcases List.mem_append.mp h with h | h
    · exact h
    · have := (hnew link h).1
      omega

theorem deviceAdd_current {heap : ℕ} {cur : PartInfo} (hc : m.currentPart = some cur) :
    (deviceAdd { m with heap := heap } dev).currentPart = some cur := by
  simp only [Mtdparts.currentPart, Option.bind_eq_bind, Option.bind_eq_some_iff] at hc
  obtain ⟨key, hkey, d, hd, hc⟩ := hc
  have hne : m.devices ≠ [] := List.ne_nil_of_mem (deviceFind_mem hd).1
  have hfind : deviceFind (m.devices ++ [dev]) key = some d := by
    unfold deviceFind at hd ⊢
    rw [List.find?_append, hd, Option.some_or]
  simp only [Mtdparts.currentPart, deviceAdd, if_neg hne, Option.bind_eq_bind]
  rw [hkey, Option.bind_some, hfind, Option.bind_some, hc]

end Append

end InfotmUboot
