import InfotmUboot.Proofs.Chain

/-!
# `block_partition`

When the partitions that a run leaves on the disk are laid out soundly.
-/

namespace InfotmUboot

open Lib

section Sound

variable (d : BlockDisk) (c : PartConfig)

/-- The disk has room for the spare area and for the sizes of a configuration. -/
def PartConfig.Fits : Prop :=
  d.spare + (c.system + c.misc + c.cache + c.userdata + c.localSize + c.add1) * multip d.blksz ≤
    d.lba

/-- What a run promises, whatever it gets of memory: if it returns 0, the partitions on the disk are
apart from one another, inside of it and behind the spare area; and a configuration that does not
fit ends with an error and nothing written. -/
def PartitionSound : Prop :=
  ∀ h : Heap, ∃ r, blockPartition d.toDisk h c.globals = some r ∧
    (r.ret = 0 → ∃ es, chain r.writes = some es ∧ Extent.Laid d.spare d.lba es) ∧
    (¬c.Fits d → r.ret ≠ 0 ∧ r.writes = [])

variable {d c}

theorem writePartitions_ret {g : PartGlobals} {after : PartSz} {loc : ℕ → PartTable} {r : BlockRun}
    (h : writePartitions g after loc = some r) : r.ret = 0 := by
  unfold writePartitions at h
  simp only [] at h
  split at h
  · cases h
  · cases h
    rfl

theorem blockPartition_ret {d : Disk} {junk : ℕ → PartTable} {after : PartSz} {g : PartGlobals}
    {r : BlockRun} (hd : d.lba ≠ 0) (h : blockPartition d ⟨some junk, true, after⟩ g = some r) :
    r.ret = 0 := by
  unfold blockPartition at h
  rw [if_neg hd] at h
  generalize reformatPartSize d.blksz (s32 d.lba) g = x at h
  rcases x with _ | ⟨rc, g'⟩
  · cases h
  · simp only [] at h
    generalize initPartLocation g' junk = y at h
    rcases y with _ | loc
    · cases h
    · exact writePartitions_ret h

theorem not_sound_of_not_fits (hd : d.lba ≠ 0) (hf : ¬c.Fits d) : ¬PartitionSound d c := by
  intro h
  obtain ⟨r, hr, -, hret⟩ := h ⟨some blank, true, ⟨[], 0, 0⟩⟩
  exact (hret hf).1 (blockPartition_ret hd hr)

theorem not_sound_of_fault (hd : d.lba ≠ 0)
    (hr : reformatPartSize d.blksz (s32 d.lba) c.globals = none) : ¬PartitionSound d c := by
  intro h
  obtain ⟨r, hrun, -⟩ := h ⟨some blank, true, ⟨[], 0, 0⟩⟩
  unfold blockPartition at hrun
  rw [if_neg hd, hr] at hrun
  cases hrun

variable {rc : ℤ} {e : ℕ} {zs : List ℕ} {g : PartGlobals}

theorem not_sound_of_broken (hd : d.lba ≠ 0)
    (hr : reformatPartSize d.blksz (s32 d.lba) c.globals = some (rc, g)) {k : ℕ}
    (hp : 4 < g.partnum) (hp8 : g.partnum ≤ 8) (hlen : g.sectors.length = 8)
    (hk : k < g.partnum) (hk0 : 0 < k) (hne : ∀ m, 0 < m → m < k → g.sectors.getD m 0 ≠ 0)
    (hz : g.sectors.getD k 0 = 0) (hs : g.spareArea % 256 = 64)
    (h256 : ∀ i < k, i ≠ 3 → g.sectors.getD i 0 % 256 = 0) : ¬PartitionSound d c := by
  intro h
  obtain ⟨hl, hchain⟩ := broken hp hp8 hlen hk hk0 hne hz hs h256
  have h3 : (locOf g k blank 3).startLBA < 2 ^ 32 := by
    rw [locOf_start (by omega)]
    exact primaryStart_lt _ _ 3
  obtain ⟨r, hrun, hes, -⟩ := h ⟨some blank, true, ⟨[], 0, 0⟩⟩
  rw [blockPartition_eq hd hr hl hp.le hp8 h3] at hrun
  cases hrun
  obtain ⟨es, hes, -⟩ := hes rfl
  rw [hchain] at hes
  cases hes

theorem fullLoc_lt (junk : ℕ → PartTable) : (fullLoc d c e zs junk 3).startLBA < 2 ^ 32 := by
  rw [fullLoc_start (by omega)]
  exact primaryStart_lt _ _ 3

theorem Whole.run (h : Whole d c e zs) (hd : d.lba ≠ 0)
    (hr : reformatPartSize d.blksz (s32 d.lba) c.globals = some (rc, full d c e zs))
    (junk : ℕ → PartTable) (buffer : Bool) (after : PartSz) :
    blockPartition d.toDisk ⟨some junk, buffer, after⟩ c.globals =
      if buffer then
        some ⟨0, full d c e zs, blocksOf (fullLoc d c e zs junk) (4 + zs.length)
          (infoOf (fullLoc d c e zs junk) (4 + zs.length) (c.cfg ++ [after]))⟩
      else some ⟨-1, full d c e zs, []⟩ := by
  have hn : 0 < zs.length := List.length_pos_iff.2 h.nonempty
  have hlen := h.length
  exact blockPartition_eq hd hr h.location (show 4 ≤ 4 + zs.length by omega)
    (show 4 + zs.length ≤ 8 by omega) (fullLoc_lt junk) buffer after

theorem sound_of_full (hd : d.lba ≠ 0) (hf : c.Fits d) (h : Whole d c e zs)
    (hr : reformatPartSize d.blksz (s32 d.lba) c.globals = some (rc, full d c e zs))
    (hend : Extent.serialEnd 0x10 (d.spare + primaries d c) zs ≤ d.lba) : PartitionSound d c := by
  have hlba : d.lba < 2 ^ 32 := by
    unfold Disk.lba toU32
    omega
  have hle := Extent.le_serialEnd 0x10 (d.spare + primaries d c) zs
  have h1 := Extent.serial_laid 0 d.spare [d.secs c.system, d.secs c.misc, d.secs c.cache]
  have h2 := Extent.serial_laid 0x10 (d.spare + primaries d c) zs
  have hprim : Extent.serialEnd 0 d.spare [d.secs c.system, d.secs c.misc, d.secs c.cache] =
      d.spare + primaries d c := by
    simp only [Extent.serialEnd, primaries]
    omega
  rw [hprim] at h1
  rintro ⟨_ | junk, buffer, after⟩
  · refine ⟨⟨-1, c.globals, []⟩, ?_, ⟨fun h => ?_, fun h => absurd hf h⟩⟩
    · unfold blockPartition
      rw [if_neg hd]
    · exact absurd h (by decide : (-1 : ℤ) ≠ 0)
  · rw [h.run hd hr]
    rcases buffer with _ | _
    · exact ⟨_, rfl, ⟨fun h => absurd h (by decide : (-1 : ℤ) ≠ 0), fun h => absurd hf h⟩⟩
    · have hdrop := Extent.serialEnd_dropLast 0x10 (d.spare + primaries d c) zs
      refine ⟨_, rfl, ⟨fun _ => ⟨_, h.chain_eq (by omega), ?_⟩, fun h => absurd hf h⟩⟩
      exact (h1.append h2 (by omega) hle).mono hend

theorem not_sound_of_over (hd : d.lba ≠ 0) (h : Whole d c e zs)
    (hr : reformatPartSize d.blksz (s32 d.lba) c.globals = some (rc, full d c e zs))
    (hlt : Extent.serialEnd 0x10 (d.spare + primaries d c) zs.dropLast < 2 ^ 32)
    (hend : d.lba < Extent.serialEnd 0x10 (d.spare + primaries d c) zs) : ¬PartitionSound d c := by
  intro hsound
  obtain ⟨r, hrun, hes, -⟩ := hsound ⟨some blank, true, ⟨[], 0, 0⟩⟩
  rw [h.run hd hr] at hrun
  cases hrun
  obtain ⟨es, hchain, hlaid⟩ := hes rfl
  rw [h.chain_eq hlt] at hchain
  cases hchain
  obtain ⟨x, hmem, hx⟩ := Extent.serial_last 0x10 (d.spare + primaries d c) zs h.nonempty
  have hhi := hlaid.le_hi x (List.mem_append_right _ hmem)
  omega

/-- A configuration that fits, in the sizes that `reformat_part_size` works with. -/
structure Fitted (d : BlockDisk) (c : PartConfig) : Prop where
  system : d.secs c.system = c.system * multip d.blksz
  misc : d.secs c.misc = c.misc * multip d.blksz
  cache : d.secs c.cache = c.cache * multip d.blksz
  userdata : d.secs c.userdata = c.userdata * multip d.blksz
  local' : d.secs c.localSize = c.localSize * multip d.blksz
  add1 : d.secs c.add1 = c.add1 * multip d.blksz
  room : d.spare + primaries d c + d.secs c.userdata + d.secs c.localSize + d.secs c.add1 ≤ d.lba

theorem PartConfig.Fits.fitted (h : c.Fits d) : Fitted d c := by
  have hlba : d.lba < 2 ^ 32 := by
    unfold Disk.lba toU32
    omega
  have hsum : c.system * multip d.blksz + c.misc * multip d.blksz + c.cache * multip d.blksz +
      c.userdata * multip d.blksz + c.localSize * multip d.blksz + c.add1 * multip d.blksz =
      (c.system + c.misc + c.cache + c.userdata + c.localSize + c.add1) * multip d.blksz := by ring
  unfold Fits at h
  rw [← hsum] at h
  have h1 : d.secs c.system = c.system * multip d.blksz := u32_of_lt (by omega)
  have h2 : d.secs c.misc = c.misc * multip d.blksz := u32_of_lt (by omega)
  have h3 : d.secs c.cache = c.cache * multip d.blksz := u32_of_lt (by omega)
  have h4 : d.secs c.userdata = c.userdata * multip d.blksz := u32_of_lt (by omega)
  have h5 : d.secs c.localSize = c.localSize * multip d.blksz := u32_of_lt (by omega)
  have h6 : d.secs c.add1 = c.add1 * multip d.blksz := u32_of_lt (by omega)
  refine ⟨h1, h2, h3, h4, h5, h6, ?_⟩
  unfold primaries
  rw [h1, h2, h3, h4, h5, h6]
  omega

/-- When the partitions of a configuration that fits are laid out soundly. Where the number of
blocks is taken for a negative one and that of the first three partitions is not, nothing is fitted
to the disk, and every partition needs a size and room for its table. Otherwise a size of `local`
is enough; without it the rest of the disk counts. -/
def PartConfig.Placed (d : BlockDisk) (c : PartConfig) : Prop :=
  let m := multip d.blksz
  let first := (c.system + c.misc + c.cache) * m
  let ext := d.lba - d.spare - first
  let used := (c.userdata + c.localSize + c.add1) * m
  if d.lba < 2 ^ 31 ∨ 2 ^ 31 ≤ first then
    c.localSize ≠ 0 ∨
      used < ext ∧ (c.count = 4 → ext ≤ used + 32 * m) ∧ (c.count = 7 → used + 32 * m < ext)
  else
    c.count ≤ 6 ∧ (5 ≤ c.count → c.localSize ≠ 0) ∧ (c.count = 6 → c.add1 ≠ 0) ∧
      used + 0x10 * (c.count - 3) ≤ ext

theorem Disk.lba_lt (d : Disk) : d.lba < 2 ^ 32 := by
  unfold lba toU32
  omega

theorem BlockDisk.multip_pos (d : BlockDisk) : 256 ≤ multip d.blksz := by
  rcases d.multip_eq with h | h | h | h <;> omega

theorem BlockDisk.secs_ne {x : ℕ} (h : d.secs x = x * multip d.blksz) (hx : x ≠ 0) :
    d.secs x ≠ 0 := by
  have hm := d.multip_pos
  rw [h]
  exact Nat.mul_ne_zero hx (by omega)

theorem BlockDisk.secs_ge {x : ℕ} (h : d.secs x ≠ 0) : 256 ≤ d.secs x := by
  have hm := d.secs_mod x
  omega

theorem Fitted.whole (h : Fitted d c) (he : e ≠ 0) (hzs : zs ≠ []) (hlen : zs.length ≤ 3)
    (hz : ∀ z ∈ zs, z ≠ 0) : Whole d c e zs :=
  ⟨d.secs_ne h.misc c.misc_ne, d.secs_ne h.cache c.cache_ne, he, hzs, hlen, hz⟩

theorem Fitted.userdata_ne (h : Fitted d c) : d.secs c.userdata ≠ 0 :=
  d.secs_ne h.userdata c.userdata_ne

/-- The check of the first partitions against the disk, which compares signed numbers. -/
theorem Fitted.pass_iff (h : Fitted d c) :
    s32 (primaries d c) < s32 d.lba ↔ d.lba < 2 ^ 31 ∨ 2 ^ 31 ≤ primaries d c := by
  have hlba := d.lba_lt
  have hroom := h.room
  have hu := d.secs_ge h.userdata_ne
  rw [s32_natCast hlba, s32_natCast (show primaries d c < 2 ^ 32 by omega)]
  split_ifs <;> omega

theorem Fitted.extended_eq (h : Fitted d c) (hpass : s32 (primaries d c) < s32 d.lba) :
    extended d c = d.lba - d.spare - primaries d c := by
  have hlba := d.lba_lt
  have hroom := h.room
  unfold extended toU32
  rw [s32_natCast hlba, s32_natCast (show primaries d c < 2 ^ 32 by omega)] at hpass ⊢
  split_ifs at hpass ⊢ <;> omega

theorem Fitted.inner_eq (h : Fitted d c) : inner d c = d.secs c.userdata + d.secs c.add1 := by
  have hlba := d.lba_lt
  have hroom := h.room
  exact u32_of_lt (by omega)

/-- The sizes that stand behind the first two in the extended partition. -/
theorem present_ne {x : ℕ} (hx : trim x = 0 → x = 0) : ∀ z ∈ present x, z ≠ 0 := by
  intro z hmem
  unfold present at hmem
  split_ifs at hmem with h
  · cases hmem
  · rw [List.mem_singleton] at hmem
    subst hmem
    exact mt hx h

theorem trim_secs_zero {x : ℕ} (h : trim (d.secs x) = 0) : d.secs x = 0 := by
  by_contra hne
  exact d.trim_secs_ne hne h

theorem serialEnd_present (b x : ℕ) :
    Extent.serialEnd 0x10 b (present (d.secs x)) = b + d.secs x := by
  unfold present
  split_ifs with h
  · rw [h]
    rfl
  · have hge := d.secs_ge h
    rw [d.trim_secs h]
    simp only [Extent.serialEnd]
    omega

theorem present_length (x : ℕ) : (present x).length ≤ 1 := by
  unfold present
  split_ifs <;> simp

theorem Fitted.sound_of_local (h : Fitted d c) (hf : c.Fits d) (hd : d.lba ≠ 0)
    (hpass : s32 (primaries d c) < s32 d.lba) (hl : c.localSize ≠ 0) : PartitionSound d c := by
  have hu := h.userdata_ne
  have hsl := d.secs_ne h.local' hl
  have hroom := h.room
  have hgu := d.secs_ge hu
  have hgl := d.secs_ge hsl
  have h5 : 5 ≤ c.count := by
    have h4 := c.count_ge
    by_contra hlt
    exact hl (c.local_slot (by omega))
  have hr := reformat_local d c hpass hsl
  rw [reformatDone_more d c hu h5 (d.trim_secs_ne hsl)
    (fun h5 => by rw [c.add1_slot (by omega), d.secs_zero]) trim_secs_zero] at hr
  have hlen := present_length (d.secs c.add1)
  refine sound_of_full hd hf (h.whole ?_ (by simp) ?_ ?_) hr ?_
  · rw [h.extended_eq hpass]
    omega
  · simp only [List.length_append, List.length_cons, List.length_nil]
    omega
  · intro z hmem
    rcases List.mem_append.1 hmem with hz | hz
    · simp only [List.mem_cons, List.not_mem_nil, or_false] at hz
      rcases hz with rfl | rfl
      · exact d.trim_secs_ne hu
      · exact d.trim_secs_ne hsl
    · exact present_ne trim_secs_zero z hz
  · simp only [List.cons_append, List.nil_append, Extent.serialEnd, serialEnd_present,
      d.trim_secs hu, d.trim_secs hsl]
    omega

theorem slots_length (e l a : ℕ) : (slots d c e l a).length = 8 := rfl

/-- The sizes of `slots` that come from the configuration. -/
theorem slots_mod {e l a : ℕ} (hl : l % 256 = 0) (ha : a % 256 = 0) :
    ∀ i, i ≠ 3 → (slots d c e l a).getD i 0 % 256 = 0
  | 0, _ => d.secs_mod c.system
  | 1, _ => d.secs_mod c.misc
  | 2, _ => d.secs_mod c.cache
  | 3, h => absurd rfl h
  | 4, _ => d.secs_mod c.userdata
  | 5, _ => hl
  | 6, _ => ha
  | 7, _ => rfl
  | i + 8, _ => by simp [slots]

theorem BlockDisk.spare_mod256 (d : BlockDisk) : d.spare % 256 = 64 := by
  unfold spare
  rcases d.multip_eq with h | h | h | h <;> rw [h]

/-- A run whose sizes break off in the extended partition. -/
theorem Fitted.not_sound_of_gap (h : Fitted d c) (hd : d.lba ≠ 0) {l a k : ℕ} (he : e ≠ 0)
    (hr : reformatPartSize d.blksz (s32 d.lba) c.globals =
      some (rc, after d c (c.count + 1) (slots d c e l a)))
    (hl : l % 256 = 0) (ha : a % 256 = 0) (hk : k < c.count + 1) (hk5 : 5 ≤ k)
    (hne5 : 5 < k → l ≠ 0) (hne6 : 6 < k → a ≠ 0) (hz : (slots d c e l a).getD k 0 = 0) :
    ¬PartitionSound d c := by
  have h7 := c.count_le
  refine not_sound_of_broken hd hr (k := k) (show 4 < c.count + 1 by omega)
    (show c.count + 1 ≤ 8 by omega) (slots_length e l a) hk (by omega) ?_ hz d.spare_mod256
    fun i _ => slots_mod hl ha i
  intro m _ hm
  rcases m with _ | _ | _ | _ | _ | _ | _ | m
  · exact d.secs_ne h.system c.system_ne
  · exact d.secs_ne h.misc c.misc_ne
  · exact d.secs_ne h.cache c.cache_ne
  · exact he
  · exact h.userdata_ne
  · exact hne5 (by omega)
  · exact hne6 (by omega)
  · omega

/-- Without a size of `local`: the other logical partitions fill the extended partition. -/
theorem Fitted.not_sound_of_filled (h : Fitted d c) (hd : d.lba ≠ 0)
    (hpass : s32 (primaries d c) < s32 d.lba) (hl : c.localSize = 0)
    (he : extended d c ≤ inner d c) : ¬PartitionSound d c := by
  have hu := h.userdata_ne
  have hgu := d.secs_ge hu
  have hlba := d.lba_lt
  have hroom := h.room
  have hext := h.extended_eq hpass
  have hin := h.inner_eq
  have hl0 : d.secs c.localSize = 0 := by rw [hl, d.secs_zero]
  have hr := reformat_over d c hpass hl0 he
  have he0 : extended d c ≠ 0 := by omega
  by_cases h4 : c.count = 4
  · have ha : c.add1 = 0 := c.add1_slot (by omega)
    rw [ha, d.secs_zero] at hin hroom
    have hfull : after d c (c.count + 1) (slots d c (extended d c) 0 (d.secs c.add1)) =
        full d c (extended d c) [d.secs c.userdata] := by
      rw [h4, ha, d.secs_zero]
      rfl
    rw [hfull] at hr
    refine not_sound_of_over hd (h.whole he0 (by simp) (by simp) (by simpa using hu)) hr ?_ ?_
    · simp only [List.dropLast_singleton, Extent.serialEnd]
      omega
    · simp only [Extent.serialEnd]
      omega
  · have h4' := c.count_ge
    refine h.not_sound_of_gap hd he0 hr (by rfl) (d.secs_mod _) (k := 5) (by omega) le_rfl
      (by omega) (by omega) ?_
    exact slots_local d c _ _ _

/-- `local` gets the rest of the extended partition. -/
theorem Fitted.sound_of_rest (h : Fitted d c) (hf : c.Fits d) (hd : d.lba ≠ 0)
    (hpass : s32 (primaries d c) < s32 d.lba) (hl : c.localSize = 0)
    (he : inner d c < extended d c) (hm : 32 * multip d.blksz < extended d c - inner d c) :
    PartitionSound d c ↔ c.count ≠ 4 := by
  have hu := h.userdata_ne
  have hgu := d.secs_ge hu
  have hlba := d.lba_lt
  have hroom := h.room
  have hext := h.extended_eq hpass
  have hin := h.inner_eq
  have hpos := d.multip_pos
  have hl0 : d.secs c.localSize = 0 := by rw [hl, d.secs_zero]
  have hr := reformat_rest d c hpass hl0 he hm
  have he0 : extended d c ≠ 0 := by omega
  by_cases h4 : c.count = 4
  · have ha : c.add1 = 0 := c.add1_slot (by omega)
    have hrest : extended d c - inner d c ≠ 0 := by omega
    rw [ha, d.secs_zero, reformatDone_four d c hu h4, if_neg hrest] at hr
    rw [ha, d.secs_zero] at hin hroom
    refine iff_of_false ?_ (by simpa using h4)
    refine not_sound_of_over hd (h.whole he0 (by simp) (by simp) ?_) hr ?_ ?_
    · intro z hmem
      simp only [List.mem_cons, List.not_mem_nil, or_false] at hmem
      rcases hmem with rfl | rfl
      · exact d.trim_secs_ne hu
      · exact hrest
    · simp only [List.dropLast, Extent.serialEnd, d.trim_secs hu]
      omega
    · simp only [Extent.serialEnd, d.trim_secs hu]
      omega
  · have h5 : 5 ≤ c.count := by
      have h4' := c.count_ge
      omega
    have ht : trim (extended d c - inner d c) = extended d c - inner d c - 0x10 :=
      trim_of_ge (by omega) (by omega)
    rw [reformatDone_more d c hu h5 (by omega)
      (fun h5 => by rw [c.add1_slot (by omega), d.secs_zero]) trim_secs_zero] at hr
    have hlen := present_length (d.secs c.add1)
    refine iff_of_true (sound_of_full hd hf (h.whole he0 (by simp) ?_ ?_) hr ?_) h4
    · simp only [List.length_append, List.length_cons, List.length_nil]
      omega
    · intro z hmem
      rcases List.mem_append.1 hmem with hz | hz
      · simp only [List.mem_cons, List.not_mem_nil, or_false] at hz
        rcases hz with rfl | rfl
        · exact d.trim_secs_ne hu
        · omega
      · exact present_ne trim_secs_zero z hz
    · simp only [List.cons_append, List.nil_append, Extent.serialEnd, serialEnd_present,
        d.trim_secs hu, ht]
      omega

/-- The slot of `local` closes up. -/
theorem Fitted.sound_of_closed (h : Fitted d c) (hf : c.Fits d) (hd : d.lba ≠ 0)
    (hpass : s32 (primaries d c) < s32 d.lba) (hl : c.localSize = 0)
    (he : inner d c < extended d c) (hm : extended d c - inner d c ≤ 32 * multip d.blksz) :
    PartitionSound d c ↔ c.count ≠ 7 := by
  have hu := h.userdata_ne
  have hgu := d.secs_ge hu
  have hroom := h.room
  have hin := h.inner_eq
  have hext := h.extended_eq hpass
  have hl0 : d.secs c.localSize = 0 := by rw [hl, d.secs_zero]
  have hr := reformat_closed d c hpass hl0 he hm
  have he0 : extended d c ≠ 0 := by omega
  by_cases h7 : c.count = 7
  · rw [if_pos h7] at hr
    exact iff_of_false (not_sound_of_fault hd hr) (by simpa using h7)
  · rw [if_neg h7] at hr
    refine iff_of_true ?_ h7
    by_cases h4 : c.count = 4
    · have ha : d.secs c.add1 = 0 := by rw [c.add1_slot (by omega), d.secs_zero]
      rw [ha, reformatDone_four d c hu h4, if_pos rfl] at hr
      refine sound_of_full hd hf (h.whole he0 (by simp) (by simp) ?_) hr ?_
      · simpa using d.trim_secs_ne hu
      · simp only [Extent.serialEnd, d.trim_secs hu]
        omega
    · rw [reformatDone_closed d c hu h4 h7
        (fun h5 => by rw [c.add1_slot (by omega), d.secs_zero]) trim_secs_zero] at hr
      have hlen := present_length (d.secs c.add1)
      refine sound_of_full hd hf (h.whole he0 (by simp) ?_ ?_) hr ?_
      · simp only [List.length_cons]
        omega
      · intro z hmem
        rcases List.mem_cons.1 hmem with rfl | hz
        · exact d.trim_secs_ne hu
        · exact present_ne trim_secs_zero z hz
      · simp only [Extent.serialEnd, serialEnd_present, d.trim_secs hu]
        omega

/-- What the partitions of a disk that is not fitted need of it. -/
theorem sound_of_whole (hf : c.Fits d) (hd : d.lba ≠ 0)
    (hw : Whole d c e zs)
    (hr : reformatPartSize d.blksz (s32 d.lba) c.globals = some (rc, full d c e zs))
    (hdrop : Extent.serialEnd 0x10 (d.spare + primaries d c) zs.dropLast ≤ d.lba) :
    PartitionSound d c ↔ Extent.serialEnd 0x10 (d.spare + primaries d c) zs ≤ d.lba := by
  have hlba := d.lba_lt
  constructor
  · intro hs
    by_contra hlt
    exact not_sound_of_over hd hw hr (by omega) (by omega) hs
  · exact sound_of_full hd hf hw hr

theorem Fitted.sound_of_small (h : Fitted d c) (hf : c.Fits d) (hd : d.lba ≠ 0)
    (hpass : s32 d.lba ≤ s32 (primaries d c)) :
    PartitionSound d c ↔
      c.count ≤ 6 ∧ (5 ≤ c.count → c.localSize ≠ 0) ∧ (c.count = 6 → c.add1 ≠ 0) ∧
        d.secs c.userdata + d.secs c.localSize + d.secs c.add1 + 0x10 * (c.count - 3) ≤
          d.lba - d.spare - primaries d c := by
  have hu := h.userdata_ne
  have hgu := d.secs_ge hu
  have hroom := h.room
  have hr := reformat_small d c hpass
  have hml := d.secs_mod c.localSize
  have hma := d.secs_mod c.add1
  have h7 := c.count_le
  by_cases hl : 5 ≤ c.count ∧ c.localSize = 0
  · refine iff_of_false ?_ fun hand => hand.2.1 hl.1 hl.2
    refine h.not_sound_of_gap hd hu hr hml hma (k := 5) (by omega) le_rfl (by omega) (by omega) ?_
    rw [slots_local, hl.2, d.secs_zero]
  have hl5 : 5 ≤ c.count → d.secs c.localSize ≠ 0 := fun h5 =>
    d.secs_ne h.local' fun h0 => hl ⟨h5, h0⟩
  by_cases ha : c.count = 6 ∧ c.add1 = 0
  · refine iff_of_false ?_ fun hand => hand.2.2.1 ha.1 ha.2
    refine h.not_sound_of_gap hd hu hr hml hma (k := 6) (by omega) (by omega)
      (fun _ => hl5 (by omega)) (by omega) ?_
    rw [ha.2, d.secs_zero]
    rfl
  rcases count_cases c with hc | hc | hc | hc
  · have hl0 := c.local_slot hc
    have ha0 := c.add1_slot (by omega)
    rw [hc, hl0, ha0, d.secs_zero] at hr
    have hw : Whole d c (d.secs c.userdata) [d.secs c.userdata] :=
      h.whole hu (by simp) (by simp) (by simpa using hu)
    rw [hc, hl0, ha0, d.secs_zero, sound_of_whole hf hd hw hr ?_]
    · simp only [Extent.serialEnd]
      omega
    · simp only [List.dropLast, Extent.serialEnd]
      omega
  · have hl0 := hl5 (by omega)
    have hgl := d.secs_ge hl0
    have ha0 := c.add1_slot (by omega)
    rw [hc, ha0, d.secs_zero] at hr
    have hw : Whole d c (d.secs c.userdata) [d.secs c.userdata, d.secs c.localSize] := by
      refine h.whole hu (by simp) (by simp) ?_
      simp only [List.mem_cons, List.not_mem_nil, or_false, forall_eq_or_imp, forall_eq]
      exact ⟨hu, hl0⟩
    rw [hc, ha0, d.secs_zero, sound_of_whole hf hd hw hr ?_]
    · simp only [Extent.serialEnd]
      have hne : c.localSize ≠ 0 := fun h0 => hl ⟨by omega, h0⟩
      omega
    · simp only [List.dropLast, Extent.serialEnd]
      omega
  · have hl0 := hl5 (by omega)
    have hgl := d.secs_ge hl0
    have ha0 : d.secs c.add1 ≠ 0 := d.secs_ne h.add1 fun h0 => ha ⟨hc, h0⟩
    have hga := d.secs_ge ha0
    rw [hc] at hr
    have hw : Whole d c (d.secs c.userdata)
        [d.secs c.userdata, d.secs c.localSize, d.secs c.add1] := by
      refine h.whole hu (by simp) (by simp) ?_
      simp only [List.mem_cons, List.not_mem_nil, or_false, forall_eq_or_imp, forall_eq]
      exact ⟨hu, hl0, ha0⟩
    rw [hc, sound_of_whole hf hd hw hr ?_]
    · simp only [Extent.serialEnd]
      have hne : c.localSize ≠ 0 := fun h0 => hl ⟨by omega, h0⟩
      have hne' : c.add1 ≠ 0 := fun h0 => ha ⟨hc, h0⟩
      omega
    · simp only [List.dropLast, Extent.serialEnd]
      omega
  · refine iff_of_false ?_ (by omega)
    refine h.not_sound_of_gap hd hu hr hml hma (k := 7) (by omega) (by omega)
      (fun _ => hl5 (by omega)) (fun _ => d.secs_ne h.add1 (c.add2_slot hc)) ?_
    rfl

/-- A run of `block_partition` lays out the partitions soundly just when the disk has no capacity or
the configuration fits and its logical partitions come out right. -/
theorem partition_sound_iff (d : BlockDisk) (c : PartConfig) :
    PartitionSound d c ↔ d.lba = 0 ∨ (c.Fits d ∧ c.Placed d) := by
  by_cases hd : d.lba = 0
  · refine iff_of_true ?_ (Or.inl hd)
    intro h
    refine ⟨⟨-1, c.globals, []⟩, ?_, ⟨fun h => ?_, fun _ =>
      ⟨(by decide : (-1 : ℤ) ≠ 0), rfl⟩⟩⟩
    · unfold blockPartition
      rw [if_pos hd]
    · exact absurd h (by decide : (-1 : ℤ) ≠ 0)
  by_cases hf : c.Fits d
  · have h := hf.fitted
    have hpass := h.pass_iff
    have hlba := d.lba_lt
    have hP : primaries d c = (c.system + c.misc + c.cache) * multip d.blksz := by
      unfold primaries
      rw [h.system, h.misc, h.cache]
      ring
    have hX : d.secs c.userdata + d.secs c.localSize + d.secs c.add1 =
        (c.userdata + c.localSize + c.add1) * multip d.blksz := by
      rw [h.userdata, h.local', h.add1]
      ring
    have hrw : (d.lba = 0 ∨ c.Fits d ∧ c.Placed d) ↔ c.Placed d := by
      simp only [hd, hf, false_or, true_and]
    rw [hrw]
    unfold PartConfig.Placed
    simp only [← hP, ← hX]
    by_cases hb : d.lba < 2 ^ 31 ∨ 2 ^ 31 ≤ primaries d c
    · rw [if_pos hb]
      have hpass := hpass.2 hb
      have hext := h.extended_eq hpass
      have hin := h.inner_eq
      have hroom := h.room
      by_cases hl : c.localSize = 0
      · have hl0 : d.secs c.localSize = 0 := by rw [hl, d.secs_zero]
        rcases Nat.lt_or_ge (inner d c) (extended d c) with he | he
        · rcases Nat.lt_or_ge (32 * multip d.blksz) (extended d c - inner d c) with hm | hm
          · rw [h.sound_of_rest hf hd hpass hl he hm]
            omega
          · rw [h.sound_of_closed hf hd hpass hl he hm]
            omega
        · refine iff_of_false (h.not_sound_of_filled hd hpass hl he) ?_
          omega
      · exact iff_of_true (h.sound_of_local hf hd hpass hl) (Or.inl hl)
    · rw [if_neg hb]
      exact h.sound_of_small hf hd (not_lt.1 (mt hpass.1 hb))
  · exact iff_of_false (not_sound_of_not_fits hd hf) fun hor => hor.elim hd fun hand => hf hand.1

/-- The configuration of items that say nothing of the partitions. -/
def defaultConfig : PartConfig where
  count := 4
  system := 152
  misc := 20
  cache := 64
  userdata := 164
  localSize := 0
  add1 := 0
  cfg := defaultCfg
  count_ge := le_rfl
  count_le := by omega
  system_ne := by omega
  misc_ne := by omega
  cache_ne := by omega
  userdata_ne := by omega
  local_slot := fun _ => rfl
  add1_slot := fun _ => rfl
  add2_slot := by omega
  names := rfl
  offs := rfl

example :
    storageGetNewConfig (fun _ => 0) bootGlobals = some (0, defaultConfig.globals) := by
  decide

/-- A disk of 4GB. -/
def disk4G : BlockDisk := ⟨⟨512, 7733248⟩, Or.inl rfl⟩

/-- Where only `userdata` is configured besides the primary partitions, what is left behind it makes
a partition that runs over the end of the disk. -/
theorem partition_sound_fails : ¬∀ (d : BlockDisk) (c : PartConfig), PartitionSound d c := by
  intro h
  have hfits : defaultConfig.Fits disk4G := by
    unfold PartConfig.Fits
    decide
  refine (hfits.fitted.sound_of_rest hfits (by decide) (by decide) rfl
    (by decide) (by decide)).1 (h disk4G defaultConfig) rfl

end Sound

section Again

/-- A second call of `storage_part` leaves the partitions as the first one made them, in the globals
and on the disk. -/
def Idempotent (tab : Mem) (disk : ℤ → BlockDisk) : Prop :=
  ∀ h : Heap, ∃ r₁ r₂, storagePart tab (fun dev => (disk dev).toDisk) h bootGlobals = some r₁ ∧
    storagePart tab (fun dev => (disk dev).toDisk) h r₁.globals = some r₂ ∧
    r₂.globals.partnum = r₁.globals.partnum ∧ r₂.globals.sectors = r₁.globals.sectors ∧
    ∀ b, written (r₁.writes ++ r₂.writes) b = written r₁.writes b

variable {tab : Mem} {g : PartGlobals}

theorem addPart_spareArea (i : ℕ) (c : PartSz) (info : List UInt8) :
    (addPart i c info g).2.spareArea = g.spareArea := rfl

theorem getNewConfigLoop_grows : ∀ (n i : ℕ) (g : PartGlobals) {r : ℤ × PartGlobals},
    getNewConfigLoop tab n i g = some r →
    g.partnum + (if i < 4 ∧ n ≠ 0 then 1 else 0) ≤ r.2.partnum ∧ r.2.spareArea = g.spareArea
  | 0, i, g, r, hr => by
    unfold getNewConfigLoop at hr
    cases hr
    simp
  | n + 1, i, g, r, hr => by
    rcases hc : g.cfg[i + 10]? with _ | c
    · unfold getNewConfigLoop at hr
      rw [show g.cfg[i + INFO_SPARE_IMAGES]? = none from hc] at hr
      cases hr
    by_cases hout : itemString tab (partKey c.name) 0 = .outside
    · unfold getNewConfigLoop at hr
      rw [show g.cfg[i + INFO_SPARE_IMAGES]? = some c from hc] at hr
      simp only [hout, reduceCtorEq] at hr
    have hadd : (addPart i c (partInfo tab c.name) g).2.partnum = g.partnum + 1 := rfl
    have hspare := addPart_spareArea (g := g) i c (partInfo tab c.name)
    rw [getNewConfigLoop_succ tab hc hout] at hr
    split_ifs at hr with h1 h2 h3
    · cases hr
      rw [if_neg (by omega)]
      exact ⟨le_rfl, rfl⟩
    · cases hr
      refine ⟨?_, hspare⟩
      rw [hadd]
      split_ifs <;> omega
    · cases hr
      refine ⟨?_, hspare⟩
      rw [hadd]
      split_ifs <;> omega
    · obtain ⟨h4, h5⟩ := getNewConfigLoop_grows n (i + 1) _ hr
      refine ⟨?_, h5.trans hspare⟩
      rw [hadd] at h4
      split_ifs at h4 ⊢ <;> omega

/-- A call takes up where the one before has ended. -/
theorem storageGetNewConfig_grows {r : ℤ × PartGlobals} (h : storageGetNewConfig tab g = some r) :
    g.partnum < r.2.partnum ∧ r.2.spareArea = g.spareArea :=
  getNewConfigLoop_grows 8 0 g h

theorem placeLocation_zero (partnum spare : ℕ) (loc : ℕ → PartTable) :
    (placeLocation partnum spare loc 0).startLBA = u32 spare := by
  have hnext (i : ℕ) (hi : i ≠ 0) (loc : ℕ → PartTable) : placeNext partnum i loc 0 = loc 0 := by
    unfold placeNext
    split_ifs
    · rw [Function.update_of_ne (Ne.symm hi)]
    · rfl
  unfold placeLocation
  simp only []
  rw [if_neg (by omega), hnext 3 (by omega), hnext 2 (by omega), hnext 1 (by omega),
    Function.update_self]

theorem initPartLocation_zero {junk loc : ℕ → PartTable} (h : initPartLocation g junk = some loc) :
    (loc 0).startLBA = u32 g.spareArea := by
  unfold initPartLocation at h
  split_ifs at h
  split at h
  · cases h
  · cases h
    exact placeLocation_zero _ _ _

theorem reformatPartSize_spare {blksz : ℕ} {n : ℤ} {r : ℤ × PartGlobals}
    (h : reformatPartSize blksz n g = some r) : r.2.spareArea = reformatSpare blksz
      g.spareArea := by
  unfold reformatPartSize at h
  simp only [] at h
  by_cases hsmall : n ≤ s32 ((reformatShift blksz g.sectors).take 3).sum
  · rw [if_pos hsmall] at h
    cases h
    rfl
  · rw [if_neg hsmall] at h
    split at h
    · cases h
    · cases h
      rfl
    · split_ifs at h
      cases h
      rfl

theorem writePartitions_first {after : PartSz} {loc : ℕ → PartTable} {r : BlockRun}
    (h : writePartitions g after loc = some r) :
    r.globals = g ∧
      ∀ w, written (w ++ r.writes) 0 = some (.table [loc 0, loc 1, loc 2, loc 3] true) := by
  unfold writePartitions at h
  simp only [] at h
  split at h
  · cases h
  · cases h
    refine ⟨rfl, fun w => ?_⟩
    unfold written
    simp
    rfl

/-- The first table of a run begins with the spare area. -/
theorem blockPartition_first {d : Disk} {junk : ℕ → PartTable} {after : PartSz} {r : BlockRun}
    (hd : d.lba ≠ 0) (h : blockPartition d ⟨some junk, true, after⟩ g = some r) :
    r.globals.spareArea = reformatSpare d.blksz g.spareArea ∧
      ∃ p rest, (∀ w, written (w ++ r.writes) 0 = some (.table (p :: rest) true)) ∧
        p.startLBA = u32 (reformatSpare d.blksz g.spareArea) := by
  unfold blockPartition at h
  rw [if_neg hd] at h
  rcases hx : reformatPartSize d.blksz (s32 d.lba) g with _ | ⟨rc, g'⟩
  · rw [hx] at h
    cases h
  · have hspare := reformatPartSize_spare hx
    rw [hx] at h
    simp only [] at h hspare
    rcases hy : initPartLocation g' junk with _ | loc
    · rw [hy] at h
      cases h
    · rw [hy] at h
      obtain ⟨hg, hw⟩ := writePartitions_first h
      rw [hg]
      refine ⟨hspare, loc 0, [loc 1, loc 2, loc 3], hw, ?_⟩
      rw [initPartLocation_zero hy, hspare]

theorem storagePart_block {disk : ℤ → Disk} {h : Heap} {dev : ℤ}
    (hdev : storageDevice tab = some dev) (h6 : 6 ≤ dev) (h10 : dev ≤ 10) {r : BlockRun}
    (hr : storagePart tab disk h g = some r) :
    ∃ rc g', storageGetNewConfig tab g = some (rc, g') ∧ blockPartition (disk dev) h g' =
      some r := by
  unfold storagePart at hr
  have hnand : DEV_NAND = 1 := rfl
  rw [hdev] at hr
  simp only [] at hr
  rw [if_neg (by omega), if_pos ⟨h6, h10⟩] at hr
  rcases hx : storageGetNewConfig tab g with _ | ⟨rc, g'⟩
  · rw [hx] at hr
    cases hr
  · rw [hx] at hr
    exact ⟨rc, g', rfl, hr⟩

/-- The spare area is made blocks a second time. -/
theorem BlockDisk.spare_again (d : BlockDisk) :
    u32 (reformatSpare d.blksz (reformatSpare d.blksz 128)) ≠ u32 (reformatSpare d.blksz 128) := by
  rcases d.blksz_ok with h | h | h | h <;> rw [h] <;> decide

theorem not_idempotent {disk : ℤ → BlockDisk} {dev : ℤ} (hdev : storageDevice tab = some dev)
    (h6 : 6 ≤ dev) (h10 : dev ≤ 10) : ¬Idempotent tab disk := by
  intro h
  obtain ⟨r₁, r₂, h1, h2, hnum, -, hdisk⟩ := h ⟨some blank, true, ⟨[], 0, 0⟩⟩
  obtain ⟨rc₁, g₁, hc1, hb1⟩ := storagePart_block hdev h6 h10 h1
  obtain ⟨rc₂, g₂, hc2, hb2⟩ := storagePart_block hdev h6 h10 h2
  obtain ⟨-, hs1⟩ := storageGetNewConfig_grows hc1
  obtain ⟨hgrow, hs2⟩ := storageGetNewConfig_grows hc2
  simp only [] at hs1 hgrow hs2
  by_cases hd : (disk dev).lba = 0
  · unfold blockPartition at hb1 hb2
    rw [if_pos hd] at hb1 hb2
    cases hb1
    cases hb2
    simp only [] at hnum hgrow
    omega
  · obtain ⟨hspare1, p₁, rest₁, hw1, hp1⟩ := blockPartition_first hd hb1
    obtain ⟨-, p₂, rest₂, hw2, hp2⟩ := blockPartition_first hd hb2
    have hsame := hdisk 0
    rw [hw2, show written r₁.writes 0 = _ from hw1 []] at hsame
    cases hsame
    rw [hs2, hspare1, hs1] at hp2
    rw [hs1] at hp1
    exact (disk dev).spare_again (hp2.symm.trans hp1)

/-- Items that name `mmc0` the system disk. -/
def mmcItems : Mem :=
  (Mem.store (fun _ => 0) 0 boardDisk).store ITEM_MAX_LEN [0x6d, 0x6d, 0x63, 0x30]

end Again

end InfotmUboot
