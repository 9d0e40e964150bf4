import InfotmUboot.Storage

/-!
# The regions of the NAND partitions

`storage_offset` adds up the sizes of the partitions before the one asked for, `storage_size` looks
its own up. Both are regions of one layout only if every key is there (`nandLayout_iff`): the code
of a key that is missing is negative, and neither function looks for that.
-/

namespace InfotmUboot

open Lib

variable (tab : Mem)

section Spec

/-- The configuration has the size of a partition. -/
def Configured (c : PartSz) : Prop := ∃ buf, itemString tab (partKey c.name) 0 = .found buf

/-- The size of a partition, in megabytes: what its key says, but for the one number that stands
for the built-in size. -/
def sizeOf (c : PartSz) : Option ℤ :=
  (itemInteger tab (partKey c.name) 0).map fun ret => if ret = ITEMS_EINT then c.size else ret

/-- The regions of the partitions after the first one follow one another in the order of the table,
and a partition without a key has its built-in size. -/
structure NandLayout : Prop where
  regions : ∀ c ∈ defaultCfg.tail, ∃ o s, storageOffsetNand tab c.name = some o ∧
    storageSizeOf tab c.name = some s ∧ 0 ≤ s
  increasing : defaultCfg.tail.Pairwise fun c c' => ∀ o s o', storageOffsetNand tab c.name =
    some o →
    storageSizeOf tab c.name = some s → storageOffsetNand tab c'.name = some o' → o + s ≤ o'
  default_size : ∀ c ∈ defaultCfg, ¬Configured tab c →
    storageSizeOf tab c.name = some (c.size * 2 ^ 20)
  default_offset : ∀ i c c', defaultCfg.tail[i]? = some c → defaultCfg.tail[i + 1]? = some c' →
    ¬Configured tab c → ∃ o, storageOffsetNand tab c.name = some o ∧
      storageOffsetNand tab c'.name = some (o + c.size * 2 ^ 20)

end Spec

section Offsets

/-- The raw partitions after the first one, and those of the file systems. -/
def rawCfg : List PartSz := (defaultCfg.take 10).tail

def fsCfg : List PartSz := defaultCfg.drop 10

theorem defaultCfg_tail : defaultCfg.tail = rawCfg ++ fsCfg := rfl

theorem storageOffset_raw {c : PartSz} (hc : c ∈ rawCfg) :
    storageOffsetNand tab c.name = some (c.offs * 2 ^ 20) := by
  simp only [rawCfg, defaultCfg, List.take, List.tail_cons, List.mem_cons, List.not_mem_nil,
    or_false] at hc
  rcases hc with rfl | rfl | rfl | rfl | rfl | rfl | rfl | rfl | rfl <;> rfl

theorem storageOffset_fs {c : PartSz} (hc : c ∈ fsCfg) :
    storageOffsetNand tab c.name = storageOffsetLoop tab c.name fsCfg 112 := by
  simp only [fsCfg, defaultCfg, List.drop, List.mem_cons, List.not_mem_nil, or_false] at hc
  rcases hc with rfl | rfl | rfl | rfl | rfl | rfl | rfl <;> rfl

/-- A partition starts where the raw one before it ends in the table. -/
theorem storageOffset_next {i : ℕ} {c c' : PartSz} (hc : rawCfg[i]? = some c)
    (hc' : defaultCfg.tail[i + 1]? = some c') :
    storageOffsetNand tab c'.name = some ((c.offs + c.size) * 2 ^ 20) := by
  obtain ⟨hi, rfl⟩ := List.getElem?_eq_some_iff.1 hc
  obtain ⟨_, rfl⟩ := List.getElem?_eq_some_iff.1 hc'
  have hi' : i < 9 := hi
  interval_cases i <;> rfl

theorem storageSize_of_mem {c : PartSz} (hc : c ∈ defaultCfg) :
    storageSizeOf tab c.name = (sizeOf tab c).map (· * 2 ^ 20) := by
  have hfind : defaultCfg.find? (fun c' => c'.name = c.name) = some c := by
    simp only [defaultCfg, List.mem_cons, List.not_mem_nil, or_false] at hc
    rcases hc with rfl | rfl | rfl | rfl | rfl | rfl | rfl | rfl | rfl | rfl | rfl | rfl | rfl |
      rfl | rfl | rfl | rfl <;> rfl
  rw [storageSizeOf, hfind, sizeOf]
  rcases itemInteger tab (partKey c.name) 0 with _ | ret <;> rfl

/-- From a partition on, those of a list with their sizes follow one another. -/
theorem storageOffsetLoop_increasing :
    ∀ (l : List PartSz) (parted : ℤ), (l.map PartSz.name).Nodup → (∀ c ∈ l, c.offs = 0) →
      (∀ c ∈ l, ∃ s, sizeOf tab c = some s ∧ 0 ≤ s) →
        (∀ c ∈ l, ∃ o, storageOffsetLoop tab c.name l parted = some o ∧ parted * 2 ^ 20 ≤ o) ∧
          l.Pairwise fun c c' => ∀ o s o', storageOffsetLoop tab c.name l parted = some o →
            sizeOf tab c = some s → storageOffsetLoop tab c'.name l parted = some o' →
              o + s * 2 ^ 20 ≤ o'
  | [], parted, _, _, _ => ⟨fun c hc => absurd hc List.not_mem_nil, List.Pairwise.nil⟩
  | c :: l, parted, hnd, hoffs, hsize => by
    rw [List.map_cons, List.nodup_cons] at hnd
    obtain ⟨s, hs, hs0⟩ := hsize c List.mem_cons_self
    have hhead : storageOffsetLoop tab c.name (c :: l) parted = some (parted * 2 ^ 20) := by
      rw [storageOffsetLoop, if_pos rfl]
    have htail {c' : PartSz} (hc' : c' ∈ l) :
        storageOffsetLoop tab c'.name (c :: l) parted =
          storageOffsetLoop tab c'.name l (parted + s) := by
      have hne : c.name ≠ c'.name := fun h => hnd.1 (List.mem_map.2 ⟨c', hc', h.symm⟩)
      obtain ⟨ret, hret, hs⟩ := Option.map_eq_some_iff.1 hs
      rw [storageOffsetLoop, if_neg hne, hoffs c List.mem_cons_self, if_neg (by simp), hret, ← hs]
      rfl
    obtain ⟨ih1, ih2⟩ := storageOffsetLoop_increasing l (parted + s) hnd.2
      (fun c' hc' => hoffs c' (List.mem_cons_of_mem c hc'))
      fun c' hc' => hsize c' (List.mem_cons_of_mem c hc')
    refine ⟨fun c' hc' => ?_, List.pairwise_cons.2 ⟨fun c' hc' o s' o' ho hs' ho' => ?_, ?_⟩⟩
    · rcases List.mem_cons.1 hc' with rfl | hc'
      · exact ⟨_, hhead, le_refl _⟩
      · obtain ⟨o, ho, hle⟩ := ih1 c' hc'
        exact ⟨o, (htail hc').trans ho, by omega⟩
    · obtain ⟨o'', ho'', hle⟩ := ih1 c' hc'
      rw [htail hc', ho'', Option.some.injEq] at ho'
      rw [hhead, Option.some.injEq] at ho
      rw [hs, Option.some.injEq] at hs'
      omega
    · refine ih2.imp_of_mem fun {a b} ha hb hab o s' o' ho hs' ho' => ?_
      rw [htail ha] at ho
      rw [htail hb] at ho'
      exact hab o s' o' ho hs' ho'

end Offsets

section Regions

variable (hcfg : ∀ c ∈ defaultCfg, ∀ buf, itemString tab (partKey c.name) 0 = .found buf →
  0 ≤ simpleStrtol buf)
include hcfg

theorem sizeOf_configured {c : PartSz} (hc : c ∈ defaultCfg) (hk : Configured tab c) :
    ∃ s, sizeOf tab c = some s ∧ 0 ≤ s := by
  obtain ⟨buf, hbuf⟩ := hk
  have h0 := hcfg c hc buf hbuf
  have hsize : ∀ c ∈ defaultCfg, 0 ≤ c.size := by decide
  refine ⟨_, by rw [sizeOf, itemInteger, hbuf]; rfl, ?_⟩
  dsimp only
  split_ifs
  · exact hsize c hc
  · exact h0

omit hcfg in
theorem storageSize_unconfigured {c : PartSz} (hc : c ∈ defaultCfg) (hk : ¬Configured tab c) :
    storageSizeOf tab c.name ≠ some (c.size * 2 ^ 20) := by
  have hsize : ∀ c ∈ defaultCfg, 0 ≤ c.size := by decide
  have h0 := hsize c hc
  rw [storageSize_of_mem tab hc, sizeOf, itemInteger]
  rcases hi : itemString tab (partKey c.name) 0 with buf | _ | _
  · exact absurd ⟨buf, hi⟩ hk
  · simp only [Option.map_some, ne_eq, Option.some.injEq, ITEMS_EINT]
    omega
  · simp

/-- The regions make a layout exactly if every partition has its key and the key of a raw partition
asks for no more than the table gives it. -/
theorem nandLayout_iff :
    NandLayout tab ↔ (∀ c ∈ defaultCfg, Configured tab c) ∧
      ∀ c ∈ rawCfg, ∀ s, sizeOf tab c = some s → s ≤ c.size := by
  have hmem {c : PartSz} (hc : c ∈ rawCfg) : c ∈ defaultCfg :=
    List.mem_of_mem_take (List.mem_of_mem_tail hc)
  have hmemfs {c : PartSz} (hc : c ∈ fsCfg) : c ∈ defaultCfg := List.mem_of_mem_drop hc
  have hraw : rawCfg.Pairwise fun c c' => c.offs + c.size ≤ c'.offs := by decide
  have hlast : ∀ c ∈ rawCfg, c.offs + c.size ≤ 112 := by decide
  constructor
  · intro hL
    have hall : ∀ c ∈ defaultCfg, Configured tab c := fun c hc => by
      by_contra hk
      exact storageSize_unconfigured tab hc hk (hL.default_size c hc hk)
    refine ⟨hall, fun c hc s hs => ?_⟩
    obtain ⟨i, hi⟩ := List.mem_iff_getElem?.1 hc
    have hi9 : i < 9 := (List.getElem?_eq_some_iff.1 hi).1
    have hi16 : i + 1 < defaultCfg.tail.length := by
      have : defaultCfg.tail.length = 16 := rfl
      omega
    have hget : defaultCfg.tail[i]? = some c := by
      rw [defaultCfg_tail, List.getElem?_append_left hi9, hi]
    obtain ⟨hlt, hget⟩ := List.getElem?_eq_some_iff.1 hget
    have hnext := storageOffset_next tab hi (List.getElem?_eq_getElem hi16)
    have h := List.pairwise_iff_getElem.1 hL.increasing i (i + 1) hlt hi16 (Nat.lt_succ_self i)
    rw [hget] at h
    have hle := h _ _ _ (storageOffset_raw tab hc)
      (by rw [storageSize_of_mem tab (hmem hc), hs]; rfl) hnext
    dsimp only at hle
    omega
  · rintro ⟨hall, hle⟩
    have hsize : ∀ c ∈ defaultCfg, ∃ s, sizeOf tab c = some s ∧ 0 ≤ s := fun c hc =>
      sizeOf_configured tab hcfg hc (hall c hc)
    obtain ⟨hfs, hpair⟩ := storageOffsetLoop_increasing tab fsCfg 112 (by decide) (by decide)
      fun c hc => hsize c (hmemfs hc)
    refine ⟨fun c hc => ?_, ?_, fun c hc hk => absurd (hall c hc) hk,
      fun i c c' hc _ hk => absurd (hall c (List.mem_of_mem_tail (List.mem_of_getElem? hc))) hk⟩
    · obtain ⟨s, hs, hs0⟩ := hsize c (List.mem_of_mem_tail hc)
      rw [storageSize_of_mem tab (List.mem_of_mem_tail hc), hs]
      rw [defaultCfg_tail, List.mem_append] at hc
      rcases hc with hc | hc
      · exact ⟨_, _, storageOffset_raw tab hc, rfl, by positivity⟩
      · obtain ⟨o, ho, _⟩ := hfs c hc
        exact ⟨o, _, (storageOffset_fs tab hc).trans ho, rfl, by positivity⟩
    · rw [defaultCfg_tail, List.pairwise_append]
      refine ⟨hraw.imp_of_mem fun {c c'} hc hc' h o s o' ho hs ho' => ?_,
        hpair.imp_of_mem fun {c c'} hc hc' h o s o' ho hs ho' => ?_,
        fun c hc c' hc' o s o' ho hs ho' => ?_⟩
      · obtain ⟨s', hs', _⟩ := hsize c (hmem hc)
        have hs'' := hle c hc s' hs'
        rw [storageOffset_raw tab hc, Option.some.injEq] at ho
        rw [storageOffset_raw tab hc', Option.some.injEq] at ho'
        rw [storageSize_of_mem tab (hmem hc), hs', Option.map_some, Option.some.injEq] at hs
        omega
      · obtain ⟨s', hs', _⟩ := hsize c (hmemfs hc)
        rw [storageOffset_fs tab hc] at ho
        rw [storageOffset_fs tab hc'] at ho'
        rw [storageSize_of_mem tab (hmemfs hc), hs', Option.map_some, Option.some.injEq] at hs
        rw [← hs]
        exact h o s' o' ho hs' ho'
      · obtain ⟨s', hs', _⟩ := hsize c (hmem hc)
        have hs'' := hle c hc s' hs'
        have hend := hlast c hc
        obtain ⟨o'', ho'', hle'⟩ := hfs c' hc'
        rw [storageOffset_raw tab hc, Option.some.injEq] at ho
        rw [storageOffset_fs tab hc', ho'', Option.some.injEq] at ho'
        rw [storageSize_of_mem tab (hmem hc), hs', Option.map_some, Option.some.injEq] at hs
        omega

end Regions

/-- Of a table without items the lookups find nothing. -/
theorem itemString_empty (key : List UInt8) (sec : ℕ) :
    itemString (fun _ => 0) key sec = .missing := rfl

/-- The items give every partition one megabyte. -/
def oneMegabyte : Mem := fun a =>
  match defaultCfg[a / ITEM_SIZE]? with
  | none => 0
  | some c =>
    if a % ITEM_SIZE < ITEM_MAX_LEN then (partKey c.name).getD (a % ITEM_SIZE) 0
    else if a % ITEM_SIZE = ITEM_MAX_LEN then 0x31 else 0

theorem oneMegabyte_item :
    ∀ c ∈ defaultCfg, itemInteger oneMegabyte (partKey c.name) 0 = some 1 := by
  decide +kernel

theorem nandLayout_iff_ones : NandLayout oneMegabyte := by
  have hraw : ∀ c ∈ rawCfg, c ∈ defaultCfg ∧ 1 ≤ c.size := by decide
  refine (nandLayout_iff oneMegabyte fun c hc buf hbuf => ?_).2
    ⟨fun c hc => ?_, fun c hc s hs => ?_⟩
  · have hitem := oneMegabyte_item c hc
    rw [itemInteger, hbuf, Option.some.injEq] at hitem
    rw [hitem]
    exact zero_le_one
  · have hitem := oneMegabyte_item c hc
    unfold itemInteger at hitem
    split at hitem
    · exact ⟨_, ‹_›⟩
    · exact absurd hitem (by decide)
    · exact absurd hitem (by simp)
  · rw [sizeOf, oneMegabyte_item c (hraw c hc).1, Option.map_some, if_neg (by decide),
      Option.some.injEq] at hs
    exact hs ▸ (hraw c hc).2

/-- A system without items is a NAND system, and its partitions make no layout. -/
theorem nandLayout_fails : storageDevice (fun _ => 0) = some DEV_NAND ∧
    ¬NandLayout (fun _ => 0) := by
  refine ⟨rfl, fun hL => ?_⟩
  have hc : (⟨[0x6d, 0x69, 0x73, 0x63], 0, 20⟩ : PartSz) ∈ defaultCfg := by decide
  have hk : ¬Configured (fun _ => 0) ⟨[0x6d, 0x69, 0x73, 0x63], 0, 20⟩ := by
    rintro ⟨buf, hbuf⟩
    rw [itemString_empty] at hbuf
    exact absurd hbuf (by simp)
  exact storageSize_unconfigured _ hc hk (hL.default_size _ hc hk)

end InfotmUboot
