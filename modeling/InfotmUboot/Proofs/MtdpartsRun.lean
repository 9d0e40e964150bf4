import InfotmUboot.Proofs.MtdpartsEdit

/-!
# Runs of the mtdparts command

The additions and deletions that succeed keep the lists of partitions in order. The number of the
current partition goes on denoting it until it is deleted, as long as no partition is deleted that
stands behind it at its offset (`mtdparts_right_iff`).
-/

namespace InfotmUboot

open Lib

section Defs

variable (mtd : ℕ → ℕ → Option MtdInfo)

/-- The current partition is still the current one, unless it is gone. -/
def MtdTracks (m m' : Mtdparts) : Prop :=
  ∀ part, m.currentPart = some part → m'.Has part.link → m'.currentPart = some part

/-- The partition that is deleted does not stand behind the current one at its offset. -/
def MtdpartsCmd.Clean (m : Mtdparts) : MtdpartsCmd → Prop
  | .add _ _ _ _ => True
  | .del id => ∀ found ∈ findDevAndPart m.devices id, ∀ curr ∈ currPi m found.1,
    ¬ (found.2.2.offset = curr.offset ∧
      found.2.2 ∈ found.1.parts.drop (m.currentMtdPartnum + 1))

instance (m : Mtdparts) : DecidablePred (MtdpartsCmd.Clean m)
  | .add _ _ _ _ => inferInstanceAs (Decidable True)
  | .del _ => inferInstanceAs (Decidable (∀ _, _))

/-- The machine behind commands that all succeed. -/
def mtdpartsRun : Mtdparts → List MtdpartsCmd → Option Mtdparts
  | m, [] => some m
  | m, cmd :: cmds =>
    match doMtdparts mtd m cmd with
    | (0, m') => mtdpartsRun m' cmds
    | (_ + 1, _) => none

/-- What holds of every step of a run. -/
def MtdAlong (P : Mtdparts → MtdpartsCmd → Prop) : Mtdparts → List MtdpartsCmd → Prop
  | _, [] => True
  | m, cmd :: cmds => P m cmd ∧ MtdAlong P (doMtdparts mtd m cmd).2 cmds

def MtdCleanRun : Mtdparts → List MtdpartsCmd → Prop := MtdAlong mtd MtdpartsCmd.Clean

instance decMtdCleanRun : ∀ (cmds : List MtdpartsCmd) (m : Mtdparts),
    Decidable (MtdCleanRun mtd m cmds)
  | [], _ => inferInstanceAs (Decidable True)
  | cmd :: cmds, m =>
    have : Decidable (MtdAlong mtd MtdpartsCmd.Clean (doMtdparts mtd m cmd).2 cmds) :=
      decMtdCleanRun cmds _
    inferInstanceAs (Decidable (MtdpartsCmd.Clean m cmd ∧ _))

def MtdTracksRun : Mtdparts → List MtdpartsCmd → Prop :=
  MtdAlong mtd fun m cmd => MtdTracks m (doMtdparts mtd m cmd).2

end Defs

section Step

variable {mtd : ℕ → ℕ → Option MtdInfo} {m m' m1 : Mtdparts} {cmd : MtdpartsCmd}

/-- In order, the variables change nothing. -/
theorem mtdpartsInit_kept (hm : ListsKept mtd m) (h : mtdpartsInit mtd m = (0, m')) : m' = m := by
  unfold mtdpartsInit at h
  have hs := hm.saved
  by_cases hl : m.lastParts = []
  · rw [if_pos hl] at hs
    rw [hs] at h
    dsimp only at h
    rw [if_neg (not_not.mpr hl)] at h
    exact (Prod.mk.inj h).2.symm
  · rw [if_neg hl] at hs
    rw [hs] at h
    dsimp only at h
    rw [if_neg (by simp [hl] : ¬ (m.lastParts = [] ∨ m.lastParts ≠ m.lastParts))] at h
    split_ifs at h
    · exact absurd (Prod.mk.inj h).1 (by norm_num)
    · exact (Prod.mk.inj h).2.symm

theorem mtdpartsAdd_cases {mtdDev size name : List UInt8} {ro : Option (List UInt8)}
    (h : mtdpartsAdd mtd m mtdDev size name ro = (0, m')) :
    ∃ m1, generateMtdpartsSave m1 = (0, m') ∧
      ((∃ dev, DeviceSound mtd dev ∧
          (dev.parts.map (·.link)).Perm (List.range' m.heap dev.parts.length) ∧
          deviceFind m.devices dev.id.key = none ∧
          m1 = deviceAdd { m with heap := m.heap + dev.parts.length } dev) ∨
        ∃ dev part heap, dev ∈ m.devices ∧ PartKept mtd dev.id part ∧ m.heap ≤ part.link ∧
          part.link < heap ∧ partSortAdd { m with heap := heap } dev part = some m1) := by
  have hno : ∀ m'' : Mtdparts, ((1, m'') : ℕ × Mtdparts) ≠ (0, m') := fun m'' he =>
    absurd (Prod.mk.inj he).1 (by norm_num)
  unfold mtdpartsAdd at h
  rcases hi : mtdIdParse mtdDev with _ | ⟨key, rest⟩
  · rw [hi] at h
    exact absurd h (hno m)
  rw [hi] at h
  dsimp only at h
  rcases hf : idFind m.mtdids key with _ | id
  · rw [hf] at h
    exact absurd h (hno m)
  rw [hf] at h
  dsimp only at h
  split_ifs at h with hlen
  · exact absurd h (hno m)
  rcases hp : deviceParse mtd m.mtdids m.devices m.heap (addDesc id size name ro)
    with _ | ⟨new, rest⟩
  · rw [hp] at h
    exact absurd h (hno m)
  rw [hp] at h
  dsimp only at h
  obtain ⟨hsound, hlinks⟩ := deviceParse_spec hp
  rcases hd : deviceFind m.devices new.id.key with _ | dev
  · rw [hd] at h
    exact ⟨_, h, Or.inl ⟨new, hsound, hlinks, hd, rfl⟩⟩
  rw [hd] at h
  rcases hps : new.parts with _ | ⟨p, ps⟩
  · exact absurd hps hsound.nonempty
  rw [hps] at h
  dsimp only at h
  rcases ha : partAdd mtd { m with heap := m.heap + (p :: ps).length } dev p with _ | m1
  · rw [ha] at h
    exact absurd h (hno _)
  rw [ha] at h
  obtain ⟨part, hv, ha⟩ := Option.bind_eq_some_iff.mp ha
  have hmem : p ∈ new.parts := by
    rw [hps]
    exact List.mem_cons_self
  have hpk := hsound.parts p hmem
  have hpl := List.mem_range'_1.mp (hlinks.subset (List.mem_map_of_mem hmem))
  obtain ⟨hk, hlink, -⟩ := partValidate_spec (by have := hpk.fits; have := new.id.size_lt; omega) hv
  rw [← hlink, hps] at hpl
  exact ⟨m1, h, Or.inr ⟨dev, part, _, (deviceFind_mem hd).1, hk, hpl.1, hpl.2, ha⟩⟩

/-- What a command that succeeds does before the text is written: it adds a device, it inserts a
partition, or it deletes one. -/
theorem doMtdparts_cases (hm : ListsKept mtd m) (h : doMtdparts mtd m cmd = (0, m')) :
    ∃ m1, generateMtdpartsSave m1 = (0, m') ∧
      ((∃ mtdDev size name ro, cmd = .add mtdDev size name ro) ∧
          ((∃ dev, DeviceSound mtd dev ∧
              (dev.parts.map (·.link)).Perm (List.range' m.heap dev.parts.length) ∧
              deviceFind m.devices dev.id.key = none ∧
              m1 = deviceAdd { m with heap := m.heap + dev.parts.length } dev) ∨
            ∃ dev part heap, dev ∈ m.devices ∧ PartKept mtd dev.id part ∧ m.heap ≤ part.link ∧
              part.link < heap ∧ partSortAdd { m with heap := heap } dev part = some m1) ∨
        ∃ id dev num part, cmd = .del id ∧ findDevAndPart m.devices id = some (dev, num, part) ∧
          m1 = partDel m dev part) := by
  unfold doMtdparts at h
  rcases hi : mtdpartsInit mtd m with ⟨rc, m0⟩
  rw [hi] at h
  rcases rc with _ | rc
  · obtain rfl := mtdpartsInit_kept hm hi
    rcases cmd with ⟨mtdDev, size, name, ro⟩ | id
    · obtain ⟨m1, hs, hadd⟩ := mtdpartsAdd_cases h
      exact ⟨m1, hs, Or.inl ⟨⟨_, _, _, _, rfl⟩, hadd⟩⟩
    · change deletePartition m0 id = (0, m') at h
      unfold deletePartition at h
      rcases hf : findDevAndPart m0.devices id with _ | ⟨dev, num, part⟩
      · rw [hf] at h
        exact absurd (Prod.mk.inj h).1 (by norm_num)
      · rw [hf] at h
        exact ⟨_, h, Or.inr ⟨id, dev, num, part, rfl, hf, rfl⟩⟩
  · exact absurd (Prod.mk.inj h).1 (by simp)

/-- What is written is the text of the lists. -/
theorem generateMtdpartsSave_spec (h : generateMtdpartsSave m1 = (0, m')) :
    ∃ buf, generateMtdparts MTDPARTS_MAXLEN m1.devices = some buf ∧
      m' = { m1 with lastParts := buf, mtdparts := if buf = [] then none else some buf } := by
  unfold generateMtdpartsSave at h
  rcases hg : generateMtdparts MTDPARTS_MAXLEN m1.devices with _ | buf
  · rw [hg] at h
    exact absurd (Prod.mk.inj h).1 (by norm_num)
  · rw [hg] at h
    exact ⟨buf, rfl, (Prod.mk.inj h).2.symm⟩

theorem Edited.kept (he : Edited mtd m m1) (h : generateMtdpartsSave m1 = (0, m')) :
    ListsKept mtd m' := by
  obtain ⟨buf, hg, rfl⟩ := generateMtdpartsSave_spec h
  exact ⟨⟨he.devices, he.keys, he.links, he.fresh⟩,
    fun dev hd => generateMtdparts_few hg hd (he.devices dev hd).numParts, rfl⟩

theorem mtdSave_current (h : generateMtdpartsSave m1 = (0, m')) : m'.currentPart =
    m1.currentPart := by
  obtain ⟨buf, -, rfl⟩ := generateMtdpartsSave_spec h
  rfl

theorem mtdSave_devices (h : generateMtdpartsSave m1 = (0, m')) : m'.devices = m1.devices := by
  obtain ⟨buf, -, rfl⟩ := generateMtdpartsSave_spec h
  rfl

theorem mtdSave_heap (h : generateMtdpartsSave m1 = (0, m')) : m'.heap = m1.heap := by
  obtain ⟨buf, -, rfl⟩ := generateMtdpartsSave_spec h
  rfl

/-- One command that succeeds: the lists stay in order, and no address is used again. -/
theorem doMtdparts_kept (hm : ListsKept mtd m) (h : doMtdparts mtd m cmd = (0, m')) :
    ListsKept mtd m' ∧ m.heap ≤ m'.heap ∧ ∀ link, link < m.heap → m'.Has link → m.Has link := by
  obtain ⟨m1, hs, hcase⟩ := doMtdparts_cases hm h
  have hedit : Edited mtd m m1 := by
    rcases hcase with ⟨-, ⟨dev, hd, hl, hf, rfl⟩ | ⟨dev, part, heap, hd, hp, hlo, hhi, ha⟩⟩ |
      ⟨id, dev, num, part, -, hf, rfl⟩
    · exact deviceAdd_edited hm hd hl hf
    · exact partSortAdd_edited hm hd hp hlo hhi ha
    · exact partDel_edited hm (findDevAndPart_mem hf).1 (findDevAndPart_mem hf).2
  refine ⟨hedit.kept hs, ?_, fun link hlt hl => hedit.old link hlt ?_⟩
  · rw [mtdSave_heap hs]
    exact hedit.heap
  · unfold Mtdparts.Has at hl ⊢
    rwa [mtdSave_devices hs] at hl

/-- One command that succeeds loses track of the current partition exactly if it is not clean. -/
theorem doMtdparts_tracks (hm : MtdKept mtd m) (h : doMtdparts mtd m cmd = (0, m')) :
    MtdTracks m m' ↔ cmd.Clean m := by
  obtain ⟨m1, hs, hcase⟩ := doMtdparts_cases hm.toListsKept h
  have hhas : ∀ link, m'.Has link ↔ m1.Has link := fun link => by
    unfold Mtdparts.Has
    rw [mtdSave_devices hs]
  unfold MtdTracks
  simp only [hhas, mtdSave_current hs]
  rcases hcase with ⟨⟨mtdDev, size, name, ro, rfl⟩, hadd⟩ | ⟨id, dev, num, part, rfl, hf, rfl⟩
  · refine iff_of_true (fun cur hc _ => ?_) trivial
    rcases hadd with ⟨dev, -, -, -, rfl⟩ | ⟨dev, part, heap, hd, -, -, -, ha⟩
    · exact deviceAdd_current hc
    · exact partSortAdd_current hm.toListsKept hd ha hc
  · obtain ⟨hd, hp⟩ := findDevAndPart_mem hf
    obtain ⟨cur, hc⟩ := Option.isSome_iff_exists.mp (hm.current (List.ne_nil_of_mem hd))
    have hiff := partDel_current hm.toListsKept hd hp hc
    simp only [hc, Option.some.injEq, forall_eq', MtdpartsCmd.Clean, hf, Option.mem_some_iff]
    exact hiff

/-- Behind a clean command that succeeds there is a current partition, if there is any. -/
theorem doMtdparts_current (hm : MtdKept mtd m) (h : doMtdparts mtd m cmd = (0, m'))
    (hclean : cmd.Clean m) : MtdKept mtd m' := by
  have hk := (doMtdparts_kept hm.toListsKept h).1
  have htracks := (doMtdparts_tracks hm h).mpr hclean
  refine ⟨hk, fun hne => ?_⟩
  obtain ⟨m1, hs, hcase⟩ := doMtdparts_cases hm.toListsKept h
  rw [mtdSave_devices hs] at hne
  rcases hcase with ⟨-, ⟨dev, -, -, -, rfl⟩ | ⟨dev, part, heap, hd, -, -, -, ha⟩⟩ |
    ⟨id, dev, num, part, rfl, hf, rfl⟩
  · by_cases hemp : m.devices = []
    · have hd : dev ∈ m'.devices := by
        rw [mtdSave_devices hs, deviceAdd_devices]
        exact List.mem_append_right _ (List.mem_singleton_self _)
      have hpos := List.length_pos_iff.mpr (hk.device hd).nonempty
      rw [mtdSave_current hs]
      simp only [Mtdparts.currentPart, deviceAdd, if_pos hemp, Option.bind_eq_bind,
        Option.bind_some]
      rw [hemp, List.nil_append,
        show deviceFind [dev] dev.id.key = some dev from List.find?_cons_of_pos (by simp),
        Option.bind_some, hk.partInfo hd, List.getElem?_eq_getElem hpos]
      rfl
    · obtain ⟨cur, hc⟩ := Option.isSome_iff_exists.mp (hm.current hemp)
      rw [mtdSave_current hs, deviceAdd_current hc]
      rfl
  · obtain ⟨cur, hc⟩ := Option.isSome_iff_exists.mp (hm.current (List.ne_nil_of_mem hd))
    rw [mtdSave_current hs, partSortAdd_current hm.toListsKept hd ha hc]
    rfl
  · obtain ⟨hd, hp⟩ := findDevAndPart_mem hf
    obtain ⟨cur, hc⟩ := Option.isSome_iff_exists.mp (hm.current (List.ne_nil_of_mem hd))
    rw [mtdSave_current hs]
    by_cases hkey : m.currentMtdDev = some dev.id.key
    · have hpi : currPi m dev = some cur := (currentPart_eq hm.toListsKept hd hkey).symm.trans hc
      by_cases hlink : cur.link = part.link
      · have hmem : cur ∈ dev.parts := by
          unfold currPi at hpi
          rw [if_pos hkey] at hpi
          exact mtdPartInfo_mem hpi
        have hcp : cur = part :=
          List.inj_on_of_nodup_map (linksOf_part hm.toListsKept hd) hmem hp hlink
        exact partDel_reset hm.toListsKept hd hp hkey (hcp ▸ hc) hne
      · have hnear := (partDel_current_near hm.toListsKept hd hp hpi hlink).2
        rw [hnear.mpr (hclean _ hf _ hpi)]
        rfl
    · rw [partDel_current_other hm.toListsKept hd part hkey hc]
      rfl

end Step

section Run

variable {mtd : ℕ → ℕ → Option MtdInfo}

theorem mtdpartsRun_cons {m m' : Mtdparts} {cmd : MtdpartsCmd} {cmds : List MtdpartsCmd}
    (h : mtdpartsRun mtd m (cmd :: cmds) = some m') :
    ∃ m1, doMtdparts mtd m cmd = (0, m1) ∧ mtdpartsRun mtd m1 cmds = some m' := by
  unfold mtdpartsRun at h
  rcases hd : doMtdparts mtd m cmd with ⟨_ | rc, m1⟩
  · rw [hd] at h
    exact ⟨m1, rfl, h⟩
  · rw [hd] at h
    exact absurd h (by simp)

theorem mtdpartsRun_kept : ∀ {cmds : List MtdpartsCmd} {m m' : Mtdparts}, ListsKept mtd m →
    mtdpartsRun mtd m cmds = some m' →
      ListsKept mtd m' ∧ ∀ link, link < m.heap → m'.Has link → m.Has link
  | [], m, m', hm, h => by
    obtain rfl := Option.some.inj h
    exact ⟨hm, fun _ _ hl => hl⟩
  | cmd :: cmds, m, m', hm, h => by
    obtain ⟨m1, hd, h⟩ := mtdpartsRun_cons h
    obtain ⟨hm1, hheap, hold⟩ := doMtdparts_kept hm hd
    obtain ⟨hm', hold'⟩ := mtdpartsRun_kept hm1 h
    exact ⟨hm', fun link hlt hl => hold link hlt (hold' link (hlt.trans_le hheap) hl)⟩

theorem mtdpartsRun_clean : ∀ {cmds : List MtdpartsCmd} {m m' : Mtdparts}, MtdKept mtd m →
    mtdpartsRun mtd m cmds = some m' → MtdCleanRun mtd m cmds → MtdKept mtd m' ∧ MtdTracks m m'
  | [], m, m', hm, h, _ => by
    obtain rfl := Option.some.inj h
    exact ⟨hm, fun _ hc _ => hc⟩
  | cmd :: cmds, m, m', hm, h, hclean => by
    obtain ⟨m1, hd, h⟩ := mtdpartsRun_cons h
    obtain ⟨hc, hcs⟩ := hclean
    rw [hd] at hcs
    obtain ⟨hk1, hheap, -⟩ := doMtdparts_kept hm.toListsKept hd
    obtain ⟨hm', htracks⟩ := mtdpartsRun_clean (doMtdparts_current hm hd hc) h hcs
    refine ⟨hm', fun cur hcur hl => htracks cur ?_ hl⟩
    -- a partition that is there in the end was there all along
    refine (doMtdparts_tracks hm hd).mpr hc cur hcur ?_
    have hlt : cur.link < m.heap := hm.fresh _ (currentPart_has hcur)
    exact (mtdpartsRun_kept hk1 h).2 _ (hlt.trans_le hheap) hl

theorem mtdpartsRun_tracks : ∀ {cmds : List MtdpartsCmd} {m m' : Mtdparts}, MtdKept mtd m →
    mtdpartsRun mtd m cmds = some m' → (MtdTracksRun mtd m cmds ↔ MtdCleanRun mtd m cmds)
  | [], _, _, _, _ => Iff.rfl
  | cmd :: cmds, m, m', hm, h => by
    obtain ⟨m1, hd, h⟩ := mtdpartsRun_cons h
    have hstep := doMtdparts_tracks hm hd
    unfold MtdTracksRun MtdCleanRun MtdAlong
    rw [hd, hstep]
    exact and_congr_right fun hc => mtdpartsRun_tracks (doMtdparts_current hm hd hc) h

/-- A flash of 16 MiB with blocks of 64 KiB, no partition yet. -/
def smallNand : ℕ → ℕ → Option MtdInfo := fun type num =>
  if type = MTD_DEV_TYPE_NAND ∧ num = 0 then some ⟨0x10000, [], by norm_num⟩ else none

def noParts : Mtdparts :=
  ⟨[⟨MTD_DEV_TYPE_NAND, 0, 0x1000000, ascii "mx", by norm_num⟩], [], none, 0, [], none, 0⟩

def addNand (size name : String) : MtdpartsCmd :=
  .add (ascii "nand0") (ascii size) (ascii name) none

theorem noParts_kept : MtdKept smallNand noParts :=
  ⟨⟨⟨by simp [noParts], by simp [noParts], by simp [noParts, linksOf],
    by simp [noParts, Mtdparts.Has, linksOf]⟩, by simp [noParts], rfl⟩, fun h => absurd rfl h⟩

end Run

end InfotmUboot
