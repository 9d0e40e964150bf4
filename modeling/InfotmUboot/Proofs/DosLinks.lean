import InfotmUboot.DosPrint
import InfotmUboot.Lib.Links
import InfotmUboot.Lib.Trace

/-!
# The sectors that the DOS partition reader visits

Neither `get_partition_info_dos` nor `print_part_dos` looks at where it has been: they come to an
end, and visit no extended sector twice, just on the disks whose links lead to every sector on one
way (`dos_visits_iff`).
-/

namespace InfotmUboot

open Lib

/-- Where a call is: its sector, the first extended sector and the number of the next partition. -/
structure DosAt where
  sector : ℕ
  relative : ℕ
  num : ℕ
  deriving DecidableEq

def dosStart : DosAt := ⟨0, 0, 1⟩

section Links

variable (blockRead : ℕ → Option (List UInt8))

/-- Where an extended entry leads, with the number of the partition that comes next. -/
def DosAt.along (s : DosAt) (num : ℕ) (pt : DosPartition) : DosAt where
  sector := u32 (pt.start4 + s.relative)
  relative := if s.sector = 0 then u32 (pt.start4 + s.relative) else s.relative
  num := num

def dosTable (buffer : List UInt8) : List DosPartition := (List.range 4).map (dosPartition buffer)

/-- Where `print_partition_extended` goes from a sector. -/
def printNext (s : DosAt) : List DosAt :=
  match blockRead s.sector with
  | none => []
  | some buffer =>
    match testBlockType buffer with
    | some .mbr =>
      ((dosTable buffer).filter fun pt => isExtended pt.sysInd).map
        (s.along (printParts s.sector (dosTable buffer) s.num).2)
    | _ => []

/-- Where `get_partition_info_extended` goes: to the first extended sector of a table that has not
got the partition. -/
def infoNext (whichPart : ℤ) (s : DosAt) : List DosAt :=
  match blockRead s.sector with
  | none => []
  | some buffer =>
    if buffer.getD DOS_PART_MAGIC_OFFSET 0 ≠ 0x55 ∨
        buffer.getD (DOS_PART_MAGIC_OFFSET + 1) 0 ≠ 0xaa then []
    else
      match findPart s.sector whichPart (dosTable buffer) s.num with
      | .inl _ => []
      | .inr num =>
        (((dosTable buffer).find? fun pt => isExtended pt.sysInd).map (s.along num)).toList

/-- It comes to an end, and reads no sector twice after the first one. -/
def VisitsOnce {α : Type} (p : ℕ → SectorProg (Option α)) : Prop :=
  ∃ n, (Prog.run (sectorStep blockRead) (p n) ()).val ≠ none ∧
    ((Prog.run (sectorStep blockRead) (p n) ()).log.map Prod.fst).tail.Nodup

/-- A run visits these sectors, or is cut short with none. -/
def Visiting {α : Type} (p : SectorProg (Option α)) (v : Option (List DosAt)) : Prop :=
  ((Prog.run (sectorStep blockRead) p ()).val = none ↔ v = none) ∧
    ∀ l, v = some l →
      (Prog.run (sectorStep blockRead) p ()).log.map Prod.fst = l.map DosAt.sector

end Links

section Runs

variable {blockRead : ℕ → Option (List UInt8)}

theorem visiting_done {α : Type} (a : α) :
    Visiting blockRead (pure (some a) : SectorProg (Option α)) (some []) := by
  refine ⟨by simp, fun l hl => ?_⟩
  obtain rfl : [] = l := Option.some.inj hl
  rfl

/-- A sector is visited, and then those that are behind it. -/
theorem Visiting.read {α : Type} {k : Option (List UInt8) → SectorProg (Option α)} {s : DosAt}
    {v : Option (List DosAt)} (h : Visiting blockRead (k (blockRead s.sector)) v) :
    Visiting blockRead (Prog.op s.sector >>= k) (v.map (s :: ·)) := by
  obtain ⟨hval, hlog⟩ := h
  refine ⟨?_, fun l hl => ?_⟩
  · rw [Prog.run_bind_val, Option.map_eq_none_iff, ← hval]
    rfl
  · obtain ⟨l', hl', rfl⟩ := Option.map_eq_some_iff.1 hl
    rw [Prog.run_bind_log, List.map_append, List.map_cons, ← hlog l' hl']
    rfl

/-- The visits of a part, and those of the rest if the part comes to an end. -/
theorem Visiting.then {α β : Type} {p : SectorProg (Option α)}
    {k : Option α → SectorProg (Option β)} {v w : Option (List DosAt)} (hp : Visiting blockRead p v)
    (hnone : k none = pure none) (hsome : ∀ a, Visiting blockRead (k (some a)) w) :
    Visiting blockRead (p >>= k) (v.bind fun l => w.map (l ++ ·)) := by
  obtain ⟨hval, hlog⟩ := hp
  rcases hr : (Prog.run (sectorStep blockRead) p ()).val with _ | a
  · rw [hr] at hval
    rw [hval.1 rfl]
    refine ⟨?_, fun l hl => absurd hl (by simp)⟩
    rw [Prog.run_bind_val, hr, hnone]
    simp
  · rw [hr] at hval
    obtain ⟨hval', hlog'⟩ := hsome a
    rcases v with _ | l
    · exact absurd (hval.2 rfl) (by simp)
    refine ⟨?_, fun l' hl' => ?_⟩
    · rw [Prog.run_bind_val, hr, Option.bind_some, Option.map_eq_none_iff, ← hval']
    · rw [Option.bind_some] at hl'
      obtain ⟨l'', hl'', rfl⟩ := Option.map_eq_some_iff.1 hl'
      rw [Prog.run_bind_log, List.map_append, List.map_append, hlog l rfl, hr, ← hlog' l'' hl'']

/-- What is done with the result of a part visits nothing. -/
theorem Visiting.last {α β : Type} {p : SectorProg (Option α)}
    {k : Option α → SectorProg (Option β)} {v : Option (List DosAt)} (hp : Visiting blockRead p v)
    (hnone : k none = pure none) (b : α → β) (hsome : ∀ a, k (some a) = pure (some (b a))) :
    Visiting blockRead (p >>= k) v := by
  have h := hp.then hnone fun a => (hsome a).symm ▸ visiting_done (b a)
  convert h using 1
  rcases v with _ | l
  · rfl
  · simp

theorem printLinks_visiting {print : ℕ → SectorProg (Option (List DosLine))}
    {f : DosAt → Option (List DosAt)} : ∀ {ss : List DosAt},
      (∀ s ∈ ss, Visiting blockRead (print s.sector) (f s)) →
        Visiting blockRead (printLinks print (ss.map DosAt.sector)) (visitAll f ss)
  | [], _ => visiting_done []
  | s :: ss, h => by
    have hrest := printLinks_visiting fun t ht => h t (List.mem_cons_of_mem _ ht)
    have hall : visitAll f (s :: ss) = (f s).bind fun l => (visitAll f ss).map (l ++ ·) := by
      rw [visitAll]
      rcases f s with _ | l <;> rfl
    rw [hall]
    exact (h s List.mem_cons_self).then rfl fun lines => hrest.last rfl _ fun others => rfl

theorem print_visiting (lba : ℕ) : ∀ (n : ℕ) (s : DosAt),
    Visiting blockRead (printPartitionExtended lba n s.sector s.relative s.num)
      (visits (printNext blockRead) n s)
  | 0, s => ⟨by simp [printPartitionExtended, visits], fun l hl => absurd hl (by simp [visits])⟩
  | n + 1, s => by
    rw [printPartitionExtended, visits]
    refine Visiting.read ?_
    rw [printNext]
    rcases blockRead s.sector with _ | buffer
    · exact visiting_done _
    simp only
    rcases testBlockType buffer with _ | _ | _
    · exact visiting_done _
    · let num := (printParts s.sector (dosTable buffer) s.num).2
      let starts := ((dosTable buffer).filter fun pt => isExtended pt.sysInd).map (s.along num)
      let print (lbaStart : ℕ) := printPartitionExtended lba n lbaStart
        (if s.sector = 0 then lbaStart else s.relative) num
      have hlinks : Visiting blockRead (printLinks print (starts.map DosAt.sector))
          (visitAll (visits (printNext blockRead) n) starts) := printLinks_visiting fun t ht => by
        obtain ⟨pt, -, rfl⟩ := List.mem_map.1 ht
        exact print_visiting lba n _
      rw [List.map_map] at hlinks
      exact hlinks.last rfl _ fun others => rfl
    · exact visiting_done _

theorem info_visiting (whichPart : ℤ) : ∀ (n : ℕ) (s : DosAt),
    Visiting blockRead (askPartitionInfoExtended whichPart n s.sector s.relative s.num)
      (visits (infoNext blockRead whichPart) n s)
  | 0, s => ⟨by simp [askPartitionInfoExtended, visits], fun l hl => absurd hl (by simp [visits])⟩
  | n + 1, s => by
    rw [askPartitionInfoExtended, visits]
    refine Visiting.read ?_
    rw [infoNext]
    rcases blockRead s.sector with _ | buffer
    · exact visiting_done _
    simp only
    by_cases hsig : buffer.getD DOS_PART_MAGIC_OFFSET 0 ≠ 0x55 ∨
        buffer.getD (DOS_PART_MAGIC_OFFSET + 1) 0 ≠ 0xaa
    · rw [if_pos hsig, if_pos hsig]
      exact visiting_done _
    rw [if_neg hsig, if_neg hsig, ← dosTable]
    rcases findPart s.sector whichPart (dosTable buffer) s.num with info | num
    · exact visiting_done _
    simp only
    generalize List.find? _ (dosTable buffer) = found
    rcases found with _ | pt
    · exact visiting_done _
    · have hrest := info_visiting whichPart n (s.along num pt)
      rw [Option.map_some, Option.toList_some, visitAll_singleton]
      exact hrest

/-- A run that is cut short is one that goes too far; others visit what the links lead to. -/
theorem visitsOnce_iff {α : Type} {p : ℕ → SectorProg (Option α)} {next : DosAt → List DosAt}
    (hp : ∀ n, Visiting blockRead (p n) (visits next n dosStart))
    (hnext : ∀ s, ∀ t ∈ next s, t.sector < 2 ^ 32) :
    VisitsOnce blockRead p ↔ OneWay next DosAt.sector dosStart := by
  have hkeys (way : List ℕ) (a : DosAt) (hway : way ≠ []) (ha : follow next way dosStart = some a) :
      a.sector ∈ Finset.range (2 ^ 32) := Finset.mem_range.2 (follow_mem hnext hway ha)
  rw [← visits_once_iff hkeys]
  refine exists_congr fun n => ?_
  obtain ⟨hval, hlog⟩ := hp n
  rw [Ne, hval]
  rcases hl : visits next n dosStart with _ | l
  · simp
  · rw [hlog l hl, ← List.map_tail]
    simp

end Runs

section Sectors

variable {blockRead : ℕ → Option (List UInt8)}

theorem DosAt.along_sector (s : DosAt) (num : ℕ) (pt : DosPartition) :
    (s.along num pt).sector < 2 ^ 32 := Nat.mod_lt _ (by simp)

theorem printNext_sector (s : DosAt) : ∀ t ∈ printNext blockRead s, t.sector < 2 ^ 32 := by
  intro t ht
  unfold printNext at ht
  split at ht
  · simp at ht
  · split at ht
    · obtain ⟨pt, -, rfl⟩ := List.mem_map.1 ht
      exact s.along_sector _ pt
    · simp at ht

theorem infoNext_sector (whichPart : ℤ) (s : DosAt) :
    ∀ t ∈ infoNext blockRead whichPart s, t.sector < 2 ^ 32 := by
  intro t ht
  unfold infoNext at ht
  split at ht
  · simp at ht
  · split_ifs at ht
    · simp at ht
    · split at ht
      · simp at ht
      · obtain ⟨pt, -, rfl⟩ := Option.map_eq_some_iff.1 (Option.mem_toList.1 ht)
        exact s.along_sector _ pt

end Sectors

/-- Asked for its sectors one by one, the reader finds what it finds on the whole disk. -/
theorem askPartitionInfo_val (blockRead : ℕ → Option (List UInt8)) (whichPart : ℤ) :
    ∀ n ext relative num,
      (Prog.run (sectorStep blockRead) (askPartitionInfoExtended whichPart n ext relative num)
        ()).val = getPartitionInfoExtended blockRead whichPart n ext relative num
  | 0, _, _, _ => rfl
  | n + 1, ext, relative, num => by
    rw [askPartitionInfoExtended, getPartitionInfoExtended, Prog.run_bind_val]
    have hsector : (Prog.run (sectorStep blockRead) (Prog.op ext) ()).val = blockRead ext := rfl
    rw [hsector]
    rcases blockRead ext with _ | buffer
    · rfl
    simp only
    by_cases hsig : buffer.getD DOS_PART_MAGIC_OFFSET 0 ≠ 0x55 ∨
        buffer.getD (DOS_PART_MAGIC_OFFSET + 1) 0 ≠ 0xaa
    · rw [if_pos hsig, if_pos hsig]
      rfl
    rw [if_neg hsig, if_neg hsig]
    rcases findPart ext whichPart _ num with info | num'
    · rfl
    simp only
    generalize List.find? _ _ = found
    rcases found with _ | pt
    · rfl
    · exact askPartitionInfo_val blockRead whichPart n _ _ _

/-- The disks that both readers get through: those on which no two ways lead to the same sector. -/
theorem dos_visits_iff (blockRead : ℕ → Option (List UInt8)) (whichPart : ℤ) (lba : ℕ) :
    (VisitsOnce blockRead (askPartitionInfoDos whichPart) ↔
      OneWay (infoNext blockRead whichPart) DosAt.sector dosStart) ∧
    (VisitsOnce blockRead (printPartDos lba) ↔
      OneWay (printNext blockRead) DosAt.sector dosStart) :=
  ⟨visitsOnce_iff (fun n => info_visiting whichPart n dosStart) (infoNext_sector whichPart),
    visitsOnce_iff (fun n => print_visiting lba n dosStart) printNext_sector⟩

/-- A table whose only entry is an extended one. -/
def extendedBlock (start : ℕ) : List UInt8 :=
  List.replicate 0x1be 0 ++ [0, 0, 0, 0, 5, 0, 0, 0] ++ bytes32 start ++
    List.replicate 52 0 ++ [0x55, 0xaa]

/-- A disk on which the extended partition leads back to itself. -/
def ringDisk (b : ℕ) : Option (List UInt8) :=
  if b = 0 then some (extendedBlock 1) else some (extendedBlock 0)

set_option maxRecDepth 8192 in
/-- One link and two links lead to the same sector. -/
theorem ringDisk_ways : ¬OneWay (infoNext ringDisk 6) DosAt.sector dosStart ∧
    ¬OneWay (printNext ringDisk) DosAt.sector dosStart :=
  ⟨fun h => absurd (h [0] [0, 0] ⟨1, 1, 5⟩ ⟨1, 1, 5⟩ (by simp) (by simp) (by decide) (by decide)
      rfl) (by simp),
    fun h => absurd (h [0] [0, 0] ⟨1, 1, 5⟩ ⟨1, 1, 5⟩ (by simp) (by simp) (by decide) (by decide)
      rfl) (by simp)⟩

theorem dos_visits_ring : ¬VisitsOnce ringDisk (askPartitionInfoDos 6) ∧
    ¬VisitsOnce ringDisk (printPartDos 0) :=
  ⟨fun h => ringDisk_ways.1 ((visitsOnce_iff (fun n => info_visiting 6 n dosStart)
      (infoNext_sector 6)).1 h),
    fun h => ringDisk_ways.2 ((visitsOnce_iff (fun n => print_visiting 0 n dosStart)
      printNext_sector).1 h)⟩

end InfotmUboot
