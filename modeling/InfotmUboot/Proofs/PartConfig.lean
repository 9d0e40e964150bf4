import InfotmUboot.Block
import Mathlib.Data.List.Basic

/-!
# The sizes that a configuration gets

What `storage_get_new_config` leaves is a `PartConfig`, and `reformat_part_size` makes one of a few
lists of sizes of it, or gives up halfway.
-/

namespace InfotmUboot

open Lib

/-- The partitions of a configuration, in MB, as `storage_get_new_config` leaves them: the first
four have a size, `local` may be without, and there is a sixth behind `add1` only if that has
one. -/
structure PartConfig where
  count : ℕ
  system : ℕ
  misc : ℕ
  cache : ℕ
  userdata : ℕ
  localSize : ℕ
  add1 : ℕ
  cfg : List PartSz
  count_ge : 4 ≤ count
  count_le : count ≤ 7
  system_ne : system ≠ 0
  misc_ne : misc ≠ 0
  cache_ne : cache ≠ 0
  userdata_ne : userdata ≠ 0
  local_slot : count = 4 → localSize = 0
  add1_slot : count ≤ 5 → add1 = 0
  add2_slot : count = 7 → add1 ≠ 0
  names : cfg.map PartSz.name = defaultCfg.map PartSz.name
  offs : cfg.map PartSz.offs = defaultCfg.map PartSz.offs

namespace PartConfig

variable (c : PartConfig)

def globals : PartGlobals :=
  ⟨c.count, [c.system, c.misc, c.cache, c.userdata, c.localSize, c.add1, 0, 0], 128, c.cfg⟩

end PartConfig

section Config

variable (tab : Mem)

/-- What the loop keeps that has configured `i` partitions: the entries from there on are as the
program is loaded, and those before have a size, `local` apart. -/
structure Configuring (i : ℕ) (g : PartGlobals) : Prop where
  partnum : g.partnum = i
  length : g.sectors.length = 8
  spare : g.spareArea = 128
  names : g.cfg.map PartSz.name = defaultCfg.map PartSz.name
  offs : g.cfg.map PartSz.offs = defaultCfg.map PartSz.offs
  size : ∀ j, i ≤ j → (g.cfg.map PartSz.size)[j + 10]? = (defaultCfg.map PartSz.size)[j + 10]?
  rest : ∀ j, 4 ≤ j → i ≤ j → g.sectors.getD j 0 = 0
  pos : ∀ j < i, j ≠ 4 → g.sectors.getD j 0 ≠ 0

theorem Configuring.boot : Configuring 0 bootGlobals where
  partnum := rfl
  length := rfl
  spare := rfl
  names := rfl
  offs := rfl
  size := fun _ _ => rfl
  rest := by
    intro j h4 _
    rcases j with _ | _ | _ | _ | _ | _ | _ | _ | j <;> simp_all [bootGlobals]
  pos := by simp

theorem eq_getD_of_length {s : List ℕ} (h : s.length = 8) :
    s = [s.getD 0 0, s.getD 1 0, s.getD 2 0, s.getD 3 0, s.getD 4 0, s.getD 5 0, s.getD 6 0,
      s.getD 7 0] := by
  rcases s with _ | ⟨a, _ | ⟨b, _ | ⟨c, _ | ⟨d, _ | ⟨e, _ | ⟨f, _ | ⟨x, _ | ⟨y, _ | ⟨z, s⟩⟩⟩⟩⟩⟩⟩⟩⟩
    <;>
    simp_all

theorem exists_config {g : PartGlobals} (h4 : 4 ≤ g.partnum) (h7 : g.partnum ≤ 7)
    (hlen : g.sectors.length = 8) (hspare : g.spareArea = 128)
    (hnames : g.cfg.map PartSz.name = defaultCfg.map PartSz.name)
    (hoffs : g.cfg.map PartSz.offs = defaultCfg.map PartSz.offs)
    (hpos : ∀ j < 4, g.sectors.getD j 0 ≠ 0) (hrest : ∀ j, g.partnum ≤ j → g.sectors.getD j 0 = 0)
    (hadd1 : g.partnum = 7 → g.sectors.getD 5 0 ≠ 0) (hadd2 : g.sectors.getD 6 0 = 0) :
    ∃ c : PartConfig, c.globals = g := by
  refine ⟨⟨g.partnum, g.sectors.getD 0 0, g.sectors.getD 1 0, g.sectors.getD 2 0,
    g.sectors.getD 3 0,
    g.sectors.getD 4 0, g.sectors.getD 5 0, g.cfg, h4, h7, hpos 0 (by omega), hpos 1 (by omega),
    hpos 2 (by omega), hpos 3 (by omega), fun h => hrest 4 (by omega), fun h => hrest 5 (by omega),
    hadd1, hnames, hoffs⟩, ?_⟩
  have hs := eq_getD_of_length hlen
  rw [hadd2, hrest 7 h7] at hs
  unfold PartConfig.globals
  rw [← hs, ← hspare]

theorem s32_bound (z : ℤ) : -2 ^ 31 ≤ s32 z ∧ s32 z < 2 ^ 31 := by
  unfold s32
  rw [Int.bmod_def]
  split <;> omega

theorem itemStrtoulLoop_bound : ∀ (info : List UInt8) (val : ℤ), -2 ^ 31 ≤ val → val < 2 ^ 31 →
    -2 ^ 31 ≤ (itemStrtoulLoop info val).1 ∧ (itemStrtoulLoop info val).1 < 2 ^ 31
  | [], _, h1, h2 => ⟨h1, h2⟩
  | c :: cs, val, h1, h2 => by
    unfold itemStrtoulLoop
    split_ifs
    · exact itemStrtoulLoop_bound cs _ (s32_bound _).1 (s32_bound _).2
    · exact ⟨h1, h2⟩

theorem itemStrtoul_bound (info : List UInt8) :
    -2 ^ 31 ≤ itemStrtoul info ∧ itemStrtoul info < 2 ^ 31 := by
  have h := itemStrtoulLoop_bound info 0 (by norm_num) (by norm_num)
  unfold itemStrtoul
  simp only []
  split_ifs
  · exact s32_bound _
  · exact s32_bound _
  · exact h

theorem toU32_ne_zero {z : ℤ} (h1 : -2 ^ 31 ≤ z) (h2 : z < 2 ^ 31) (hz : z ≠ 0) : toU32 z ≠ 0 := by
  unfold toU32
  omega

/-- The size that an entry has after it is configured. -/
def newSize (c : PartSz) (info : List UInt8) : ℤ :=
  if itemStrtoul (stripUnit info) ≠ 0 then itemStrtoul (stripUnit info) else c.size

variable {i : ℕ} {g : PartGlobals} {c : PartSz}

theorem addPart_sectors (info : List UInt8) :
    (addPart i c info g).2.sectors = g.sectors.set g.partnum (toU32 (newSize c info)) := by
  unfold addPart newSize
  simp only []
  split_ifs <;> rfl

theorem addPart_cfg (info : List UInt8) :
    ∃ size, (addPart i c info g).2.cfg = g.cfg.set (i + 10) { c with size } := by
  unfold addPart
  simp only []
  split_ifs
  · exact ⟨_, rfl⟩
  · exact ⟨c.size, rfl⟩

theorem map_set_entry {α : Type} (f : PartSz → α) {cfg : List PartSz} {n : ℕ} (c' : PartSz)
    (hc : cfg[n]? = some c) (hf : f c' = f c) : (cfg.set n c').map f = cfg.map f := by
  rw [List.map_set, hf]
  apply List.ext_getElem?
  intro m
  rw [List.getElem?_set]
  split_ifs with h1 h2
  · subst h1
    rw [List.getElem?_map, hc]
    rfl
  · subst h1
    rw [List.getElem?_eq_none (by omega)]
  · rfl

theorem Configuring.addPart (h : Configuring i g) (hi : i < 8) (hc : g.cfg[i + 10]? = some c)
    (info : List UInt8) (hnew : i ≠ 4 → toU32 (newSize c info) ≠ 0) :
    Configuring (i + 1) (addPart i c info g).2 := by
  obtain ⟨size, hcfg⟩ := addPart_cfg (g := g) (i := i) (c := c) info
  have hsec := addPart_sectors (g := g) (i := i) (c := c) info
  rw [h.partnum] at hsec
  constructor
  · exact congrArg (· + 1) h.partnum
  · rw [hsec, List.length_set, h.length]
  · exact h.spare
  · rw [hcfg, map_set_entry PartSz.name { c with size } hc rfl, h.names]
  · rw [hcfg, map_set_entry PartSz.offs { c with size } hc rfl, h.offs]
  · intro j hj
    rw [hcfg, ← h.size j (by omega), List.map_set, List.getElem?_set_ne (by omega)]
  · intro j h4 hj
    rw [hsec, List.getD_eq_getElem?_getD, List.getElem?_set_ne (by omega),
      ← List.getD_eq_getElem?_getD]
    exact h.rest j h4 (by omega)
  · intro j hj h4
    rw [hsec, List.getD_eq_getElem?_getD]
    rcases Nat.lt_succ_iff_lt_or_eq.1 hj with hlt | rfl
    · rw [List.getElem?_set_ne (by omega), ← List.getD_eq_getElem?_getD]
      exact h.pos j hlt h4
    · rw [List.getElem?_set_self (by rw [h.length]; exact hi)]
      exact hnew h4

theorem newSize_ne_zero {info : List UInt8} (h : itemStrtoul (stripUnit info) ≠ 0) :
    toU32 (newSize c info) ≠ 0 := by
  unfold newSize
  rw [if_pos h]
  exact toU32_ne_zero (itemStrtoul_bound _).1 (itemStrtoul_bound _).2 h

theorem newSize_default {info : List UInt8} (h : itemStrtoul (stripUnit info) = 0) :
    newSize c info = c.size := by
  unfold newSize
  rw [if_neg (not_not.2 h)]

theorem Configuring.default_size (h : Configuring i g) (hc : g.cfg[i + 10]? = some c) :
    (defaultCfg.map PartSz.size)[i + 10]? = some c.size := by
  rw [← h.size i le_rfl, List.getElem?_map, hc]
  rfl

theorem Configuring.default_ne (h : Configuring i g) (hc : g.cfg[i + 10]? = some c) (hi : i < 4) :
    toU32 c.size ≠ 0 := by
  have hd := h.default_size hc
  rcases i with _ | _ | _ | _ | i <;> simp [defaultCfg] at hd
  all_goals first | omega | (rw [← hd]; decide)

theorem Configuring.config (h : Configuring i g) (h4 : 4 ≤ i) (h7 : i ≤ 7)
    (hadd2 : g.sectors.getD 6 0 = 0) : ∃ c : PartConfig, c.globals = g := by
  refine exists_config (h.partnum ▸ h4) (h.partnum ▸ h7) h.length h.spare h.names h.offs ?_ ?_ ?_
    hadd2
  · intro j hj
    exact h.pos j (by omega) (by omega)
  · intro j hj
    rw [h.partnum] at hj
    exact h.rest j (by omega) hj
  · intro h7
    rw [h.partnum] at h7
    exact h.pos 5 (by omega) (by omega)

/-- The loop ends behind a partition that has no size of its own. -/
theorem Configuring.config_last (h : Configuring i g) (h3 : 3 ≤ i) (h4 : i ≠ 4) (h6 : i ≤ 6)
    (hc : g.cfg[i + 10]? = some c) {info : List UInt8} (hz : itemStrtoul (stripUnit info) = 0) :
    ∃ c' : PartConfig, c'.globals = (InfotmUboot.addPart i c info g).2 := by
  have hsec := addPart_sectors (g := g) (i := i) (c := c) info
  rw [h.partnum, newSize_default hz] at hsec
  rcases Nat.lt_or_ge i 4 with hlt | hge
  · have hnew : i ≠ 4 → toU32 (newSize c info) ≠ 0 := by
      intro _
      rw [newSize_default hz]
      exact h.default_ne hc hlt
    refine (h.addPart (by omega) hc info hnew).config (by omega) (by omega) ?_
    rw [hsec, List.getD_eq_getElem?_getD, List.getElem?_set_ne (by omega),
      ← List.getD_eq_getElem?_getD]
    exact h.rest 6 (by omega) (by omega)
  · obtain ⟨size, hcfg⟩ := addPart_cfg (g := g) (i := i) (c := c) info
    have hsize : c.size = 0 := by
      have hd := h.default_size hc
      obtain rfl | rfl : i = 5 ∨ i = 6 := by omega
      all_goals
        simp only [defaultCfg, List.map_cons, List.map_nil, List.getElem?_cons_succ,
          List.getElem?_cons_zero, Option.some.injEq] at hd
        exact hd.symm
    have hget (j : ℕ) : (InfotmUboot.addPart i c info g).2.sectors.getD j 0
        = if j = i then 0 else g.sectors.getD j 0 := by
      rw [hsec, hsize, List.getD_eq_getElem?_getD, List.getD_eq_getElem?_getD]
      split_ifs with hj
      · subst hj
        rw [List.getElem?_set_self (by rw [h.length]; omega)]
        rfl
      · rw [List.getElem?_set_ne (by omega)]
    refine exists_config ?_ ?_ ?_ h.spare ?_ ?_ ?_ ?_ ?_ ?_
    · change 4 ≤ g.partnum + 1
      rw [h.partnum]
      omega
    · change g.partnum + 1 ≤ 7
      rw [h.partnum]
      omega
    · rw [hsec, List.length_set, h.length]
    · rw [hcfg, map_set_entry PartSz.name { c with size } hc rfl, h.names]
    · rw [hcfg, map_set_entry PartSz.offs { c with size } hc rfl, h.offs]
    · intro j hj
      rw [hget, if_neg (by omega)]
      exact h.pos j (by omega) (by omega)
    · intro j hj
      change g.partnum + 1 ≤ j at hj
      rw [h.partnum] at hj
      rw [hget, if_neg (by omega)]
      exact h.rest j (by omega) (by omega)
    · intro h7
      change g.partnum + 1 = 7 at h7
      rw [h.partnum] at h7
      rw [hget, if_neg (by omega)]
      exact h.pos 5 (by omega) (by omega)
    · rw [hget]
      split_ifs
      · rfl
      · exact h.rest 6 (by omega) (by omega)

/-- What the loop takes of the items for a partition. -/
def partInfo (tab : Mem) (name : List UInt8) : List UInt8 :=
  match itemString tab (partKey name) 0 with
  | .found buf => buf
  | _ => []

theorem getNewConfigLoop_succ {n : ℕ} (hc : g.cfg[i + 10]? = some c)
    (hout : itemString tab (partKey c.name) 0 ≠ .outside) :
    getNewConfigLoop tab (n + 1) i g =
      if partInfo tab c.name = [] ∧ 4 ≤ i then some (0, g)
      else if INFO_MAX_PARTITIONS ≤ g.partnum then none
      else if itemStrtoul (stripUnit (partInfo tab c.name)) = 0 ∧ 3 ≤ i ∧ i ≠ 4 then
        some (if (addPart i c (partInfo tab c.name) g).2.partnum = INFO_MAX_PARTITIONS then -1
          else 0,
          (addPart i c (partInfo tab c.name) g).2)
      else getNewConfigLoop tab n (i + 1) (addPart i c (partInfo tab c.name) g).2 := by
  rw [getNewConfigLoop, show g.cfg[i + INFO_SPARE_IMAGES]? = some c from hc]
  unfold partInfo
  rcases hl : itemString tab (partKey c.name) 0 with buf | _ | _
  · simp only [hl]
    rfl
  · simp only [hl]
    rfl
  · exact absurd hl hout

theorem getNewConfigLoop_config : ∀ (n i : ℕ) (g : PartGlobals) {r : ℤ × PartGlobals},
    i + n = 8 → i ≤ 7 → Configuring i g → getNewConfigLoop tab n i g = some r →
    ∃ c : PartConfig, c.globals = r.2
  | 0, i, g, r, hn, h7, h, hr => by omega
  | n + 1, i, g, r, hn, _, h, hr => by
    rcases hc : g.cfg[i + 10]? with _ | c
    · unfold getNewConfigLoop at hr
      rw [show g.cfg[i + INFO_SPARE_IMAGES]? = none from hc] at hr
      cases hr
    · -- there is no eighth entry, so the loop does not come to it
      have h6 : i ≤ 6 := by
        have hd := h.default_size hc
        have hlt := (List.getElem?_eq_some_iff.1 hd).1
        have h17 : (defaultCfg.map PartSz.size).length = 17 := rfl
        omega
      by_cases hout : itemString tab (partKey c.name) 0 = .outside
      · unfold getNewConfigLoop at hr
        rw [show g.cfg[i + INFO_SPARE_IMAGES]? = some c from hc] at hr
        simp only [hout, reduceCtorEq] at hr
      · rw [getNewConfigLoop_succ tab hc hout] at hr
        split_ifs at hr with h1 h2 h3
        · cases hr
          exact h.config h1.2 (by omega) (h.rest 6 (by omega) h6)
        · cases hr
          exact h.config_last h3.2.1 h3.2.2 h6 hc h3.1
        · cases hr
          exact h.config_last h3.2.1 h3.2.2 h6 hc h3.1
        · refine getNewConfigLoop_config n (i + 1) _ (by omega) (by omega) (h.addPart (by omega)
            hc _ ?_) hr
          intro h4
          by_cases hz : itemStrtoul (stripUnit (partInfo tab c.name)) = 0
          · rw [newSize_default hz]
            refine h.default_ne hc ?_
            by_contra hge
            exact h3 ⟨hz, by omega, h4⟩
          · exact newSize_ne_zero hz

/-- What the items say of the partitions is a configuration. -/
theorem storageGetNewConfig_config {r : ℤ × PartGlobals}
    (h : storageGetNewConfig tab bootGlobals = some r) : ∃ c : PartConfig, c.globals = r.2 :=
  getNewConfigLoop_config tab 8 0 bootGlobals rfl (by omega) Configuring.boot h

end Config

/-- A disk in blocks of up to 4KB. -/
structure BlockDisk extends Disk where
  blksz_ok : blksz = 512 ∨ blksz = 1024 ∨ blksz = 2048 ∨ blksz = 4096

section Reformat

variable (d : BlockDisk) (c : PartConfig)

/-- A size in blocks, as `sectors` keeps it. -/
def BlockDisk.secs (x : ℕ) : ℕ := u32 (x * multip d.blksz)

/-- `spare_area` once it is in blocks. -/
def BlockDisk.spare : ℕ := 128 * multip d.blksz + 0x40

theorem BlockDisk.multip_eq :
    multip d.blksz = 2048 ∨ multip d.blksz = 1024 ∨ multip d.blksz = 512 ∨ multip d.blksz =
      256 := by
  rcases d.blksz_ok with h | h | h | h <;> rw [h] <;> decide

theorem BlockDisk.secs_lt (x : ℕ) : d.secs x < 2 ^ 32 := u32_lt _

theorem BlockDisk.secs_mod (x : ℕ) : d.secs x % 256 = 0 := by
  have h : (x * multip d.blksz) % 256 = 0 := by
    rcases d.multip_eq with h | h | h | h <;> rw [h] <;> omega
  unfold secs u32
  omega

@[simp] theorem BlockDisk.secs_zero : d.secs 0 = 0 := by simp [secs, u32]

theorem BlockDisk.spare_eq : reformatSpare d.blksz 128 = d.spare := by
  unfold reformatSpare spare
  rw [andNot_mask (a := 64) (k := 6) rfl]
  rcases d.multip_eq with h | h | h | h <;> rw [h] <;> rfl

theorem reformatShift_config :
    reformatShift d.blksz c.globals.sectors =
      [d.secs c.system, d.secs c.misc, d.secs c.cache, d.secs c.userdata, d.secs c.userdata,
        d.secs c.localSize, d.secs c.add1, 0] := by
  have h0 : u32 0 = 0 := rfl
  simp [reformatShift, PartConfig.globals, BlockDisk.secs, h0]

/-- The blocks of the first three partitions. -/
def primaries : ℕ := d.secs c.system + d.secs c.misc + d.secs c.cache

/-- The blocks of the extended partition. -/
def extended : ℕ := toU32 (s32 d.lba - s32 (primaries d c) - d.spare)

/-- The blocks of the partitions in the extended partition that have a size. -/
def inner : ℕ := u32 (d.secs c.userdata + d.secs c.add1)

theorem trim_zero : trim 0 = 0 := rfl

theorem trim_of_ge {x : ℕ} (h1 : 0x10 ≤ x) (h2 : x < 2 ^ 32) : trim x = x - 0x10 := by
  unfold trim u32
  rw [if_pos (by omega)]
  omega

theorem BlockDisk.trim_secs {x : ℕ} (h : d.secs x ≠ 0) : trim (d.secs x) = d.secs x - 0x10 := by
  have hm := d.secs_mod x
  exact trim_of_ge (by omega) (d.secs_lt x)

theorem BlockDisk.trim_secs_ne {x : ℕ} (h : d.secs x ≠ 0) : trim (d.secs x) ≠ 0 := by
  have hm := d.secs_mod x
  rw [d.trim_secs h]
  omega

theorem lastPart_eq {a0 a1 a2 e x y z : ℕ} (hx : x ≠ 0) :
    lastPart [a0, a1, a2, e, x, y, z, 0] = if z ≠ 0 then 7 else if y ≠ 0 then 6 else 5 := by
  unfold lastPart
  by_cases hz : z = 0 <;> by_cases hy : y = 0 <;> simp [hx, hy, hz]

/-- The sizes in blocks, with the extended partition's and two of those in it. -/
def slots (e l a : ℕ) : List ℕ :=
  [d.secs c.system, d.secs c.misc, d.secs c.cache, e, d.secs c.userdata, l, a, 0]

@[simp] theorem slots_extended (e l a : ℕ) : (slots d c e l a).getD 3 0 = e := by simp [slots]

@[simp] theorem slots_local (e l a : ℕ) : (slots d c e l a).getD 5 0 = l := by simp [slots]

/-- The globals that a run leaves. -/
def after (partnum : ℕ) (s : List ℕ) : PartGlobals := ⟨partnum, s, d.spare, c.cfg⟩

/-- How `reformat_part_size` ends once it has all the sizes. -/
def reformatDone (s : List ℕ) : Option (ℤ × PartGlobals) :=
  let s := reformatTrim (c.count + 1) s
  if lastPart s = 0 then none else some (0, after d c (lastPart s) s)

theorem count_cases : c.count = 4 ∨ c.count = 5 ∨ c.count = 6 ∨ c.count = 7 := by
  have h4 := c.count_ge
  have h7 := c.count_le
  omega

theorem inner_eq (e : ℕ) :
    u32 (((slots d c e 0 (d.secs c.add1)).take (c.count + 1)).drop 4).sum = inner d c := by
  have h5 := c.add1_slot
  rcases count_cases c with h | h | h | h <;> rw [h] <;> simp [slots, inner]
  all_goals
    rw [h5 (by omega)]
    simp

theorem reformat_small (h : s32 d.lba ≤ s32 (primaries d c)) :
    reformatPartSize d.blksz (s32 d.lba) c.globals =
      some (-1, after d c (c.count + 1)
        (slots d c (d.secs c.userdata) (d.secs c.localSize) (d.secs c.add1))) := by
  unfold reformatPartSize
  simp only [reformatShift_config]
  rw [if_pos]
  · unfold after
    rw [← d.spare_eq]
    rfl
  · simpa [primaries, add_assoc] using h

theorem reformat_pass (h : s32 (primaries d c) < s32 d.lba) :
    reformatPartSize d.blksz (s32 d.lba) c.globals =
      match reformatLocal d.blksz (c.count + 1)
        (slots d c (extended d c) (d.secs c.localSize) (d.secs c.add1)) with
      | none => none
      | some none => some (-1, after d c (c.count + 1)
          (slots d c (extended d c) (d.secs c.localSize) (d.secs c.add1)))
      | some (some s) => reformatDone d c s := by
  have h7 := c.count_le
  unfold reformatPartSize
  simp only [reformatShift_config]
  rw [if_neg]
  · rw [show reformatSpare d.blksz c.globals.spareArea = d.spare from d.spare_eq]
    have hcount : ¬INFO_MAX_PARTITIONS < c.globals.partnum + 1 := by
      simp only [PartConfig.globals, INFO_MAX_PARTITIONS]
      omega
    simp only [hcount, if_false]
    simp [slots, extended, primaries, after, reformatDone, PartConfig.globals, add_assoc]
    rfl
  · simpa [primaries, add_assoc] using h

theorem reformat_local (h : s32 (primaries d c) < s32 d.lba) (hl : d.secs c.localSize ≠ 0) :
    reformatPartSize d.blksz (s32 d.lba) c.globals =
      reformatDone d c (slots d c (extended d c) (d.secs c.localSize) (d.secs c.add1)) := by
  rw [reformat_pass d c h]
  unfold reformatLocal
  rw [slots_local, if_neg hl]

/-- `local` has no size of its own. -/
theorem reformatLocal_zero (e : ℕ) :
    reformatLocal d.blksz (c.count + 1) (slots d c e 0 (d.secs c.add1)) =
      if e ≤ inner d c then some none
      else if 32 * multip d.blksz < e - inner d c then
        some (some (slots d c e (e - inner d c) (d.secs c.add1)))
      else if c.count = 7 then none
      else some (some (slots d c e (d.secs c.add1) 0)) := by
  have h7 := c.count_le
  have h5 := c.add1_slot
  have hcount : ¬INFO_MAX_PARTITIONS < c.count + 1 := by
    unfold INFO_MAX_PARTITIONS
    omega
  unfold reformatLocal
  simp only [slots_local, slots_extended, inner_eq, hcount, if_true, if_false]
  rw [mul_comm (multip d.blksz), show (2 : ℕ) ^ 5 = 32 from rfl]
  split_ifs with h1 h2 h3 h4 h4
  · rfl
  · rfl
  · rfl
  · unfold INFO_MAX_PARTITIONS at h3
    omega
  · unfold INFO_MAX_PARTITIONS at h3
    omega
  · rcases count_cases c with hc | hc | hc | hc <;> rw [hc] at h5 ⊢
    · simp [slots, h5]
    · simp [slots, h5]
    · simp [slots]
    · exact absurd hc h4

theorem reformat_over (h : s32 (primaries d c) < s32 d.lba) (hl : d.secs c.localSize = 0)
    (he : extended d c ≤ inner d c) :
    reformatPartSize d.blksz (s32 d.lba) c.globals =
      some (-1, after d c (c.count + 1) (slots d c (extended d c) 0 (d.secs c.add1))) := by
  rw [reformat_pass d c h, hl, reformatLocal_zero, if_pos he]

theorem reformat_rest (h : s32 (primaries d c) < s32 d.lba) (hl : d.secs c.localSize = 0)
    (he : inner d c < extended d c) (hm : 32 * multip d.blksz < extended d c - inner d c) :
    reformatPartSize d.blksz (s32 d.lba) c.globals =
      reformatDone d c (slots d c (extended d c) (extended d c - inner d c) (d.secs c.add1)) := by
  rw [reformat_pass d c h, hl, reformatLocal_zero, if_neg (not_le.2 he), if_pos hm]

theorem reformat_closed (h : s32 (primaries d c) < s32 d.lba) (hl : d.secs c.localSize = 0)
    (he : inner d c < extended d c) (hm : extended d c - inner d c ≤ 32 * multip d.blksz) :
    reformatPartSize d.blksz (s32 d.lba) c.globals =
      if c.count = 7 then none
      else reformatDone d c (slots d c (extended d c) (d.secs c.add1) 0) := by
  rw [reformat_pass d c h, hl, reformatLocal_zero, if_neg (not_le.2 he), if_neg (not_lt.2 hm)]
  split_ifs <;> rfl

/-- A partition in the extended partition, if it has a size. -/
def present (x : ℕ) : List ℕ := if x = 0 then [] else [trim x]

/-- The globals with partitions of these sizes in the extended partition, and none behind. -/
def full (e : ℕ) (zs : List ℕ) : PartGlobals :=
  after d c (4 + zs.length) ([d.secs c.system, d.secs c.misc, d.secs c.cache, e] ++ zs ++
    List.replicate (4 - zs.length) 0)

variable {e l a : ℕ}

theorem reformatDone_four (hu : d.secs c.userdata ≠ 0) (hc : c.count = 4) :
    reformatDone d c (slots d c e l 0) =
      some (0, full d c e (trim (d.secs c.userdata) :: if l = 0 then [] else [l])) := by
  have ht := d.trim_secs_ne hu
  have hs : reformatTrim (c.count + 1) (slots d c e l 0) =
      [d.secs c.system, d.secs c.misc, d.secs c.cache, e, trim (d.secs c.userdata), l, 0, 0] := by
    rw [hc]
    rfl
  unfold reformatDone
  simp only [hs, lastPart_eq ht]
  by_cases h0 : l = 0
  · subst h0
    simp [full]
  · simp [full, h0]

theorem reformatDone_more (hu : d.secs c.userdata ≠ 0) (hc : 5 ≤ c.count) (hl : trim l ≠ 0)
    (ha : c.count = 5 → a = 0) (hta : trim a = 0 → a = 0) :
    reformatDone d c (slots d c e l a) =
      some (0, full d c e ([trim (d.secs c.userdata), trim l] ++ present a)) := by
  have ht := d.trim_secs_ne hu
  have hs : reformatTrim (c.count + 1) (slots d c e l a) =
      [d.secs c.system, d.secs c.misc, d.secs c.cache, e, trim (d.secs c.userdata), trim l, trim a,
        0] := by
    rcases count_cases c with h | h | h | h
    · omega
    · rw [ha h, h]
      rfl
    · rw [h]
      rfl
    · rw [h]
      rfl
  unfold reformatDone present
  simp only [hs, lastPart_eq ht]
  by_cases h0 : a = 0
  · subst h0
    simp [trim_zero, hl, full]
  · simp [full, h0, mt hta h0]

theorem reformatDone_closed (hu : d.secs c.userdata ≠ 0) (h4 : c.count ≠ 4) (h7 : c.count ≠ 7)
    (ha : c.count = 5 → a = 0) (hta : trim a = 0 → a = 0) :
    reformatDone d c (slots d c e a 0) =
      some (0, full d c e (trim (d.secs c.userdata) :: present a)) := by
  have ht := d.trim_secs_ne hu
  have hs : reformatTrim (c.count + 1) (slots d c e a 0) =
      [d.secs c.system, d.secs c.misc, d.secs c.cache, e, trim (d.secs c.userdata), trim a,
        0, 0] := by
    rcases count_cases c with h | h | h | h
    · exact absurd h h4
    · rw [h]
      rfl
    · rw [h]
      rfl
    · exact absurd h h7
  unfold reformatDone present
  simp only [hs, lastPart_eq ht]
  by_cases h0 : a = 0
  · subst h0
    simp [trim_zero, full]
  · simp [full, h0, mt hta h0]

end Reformat

end InfotmUboot
