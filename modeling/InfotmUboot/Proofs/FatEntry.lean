import InfotmUboot.Fat

/-!
# What the FAT's entries are

The window that is kept is a copy of a part of the FAT, whatever was asked before, and an entry
never lies in two windows. So every answer is the entry that is on the disk; of a FAT32 it has the
upper four bits too, which are no part of the entry (`fat_entries_iff`).
-/

namespace InfotmUboot

open Lib

/-- A FAT on a disk of sectors that can all be read. -/
structure FatVolume where
  contents : Mem
  fatsize : ℕ
  fatlength : ℕ
  fatSect : ℕ
  sectSize : ℕ
  kind : fatsize = 12 ∨ fatsize = 16 ∨ fatsize = 32
  sect_pos : 0 < sectSize
  sect_even : 2 ∣ sectSize
  fits : fatSect + fatlength ≤ 2 ^ 32

namespace FatVolume

variable (v : FatVolume)

def diskRead (block n : ℕ) : Option (List UInt8) :=
  some (v.contents.load (v.sectSize * block) (v.sectSize * n))

/-- How many entries the FAT has. -/
def numEntries : ℕ := v.fatlength * v.sectSize * 8 / v.fatsize

/-- The FAT's first byte on the disk. -/
def base : ℕ := v.sectSize * v.fatSect

/-- An entry as it is stored. -/
def rawEntry (e : ℕ) : ℕ :=
  if v.fatsize = 32 then v.contents.get32 (v.base + 4 * e)
  else if v.fatsize = 16 then v.contents.get16 (v.base + 2 * e)
  else
    let w := v.contents.get16 (v.base + (e + e / 2))
    if e % 2 = 0 then w % 2 ^ 12 else w / 2 ^ 4

/-- The value that the format assigns to an entry. -/
def entry (e : ℕ) : ℕ := if v.fatsize = 32 then v.rawEntry e % 2 ^ 28 else v.rawEntry e

/-- The reader's data before the first query. -/
def start (fatbuf : Mem) : FsData := ⟨fatbuf, v.fatsize, v.fatlength, v.fatSect, v.sectSize, -1⟩

/-- The window that is kept is the one on the disk. -/
structure Keeps (s : FsData) : Prop where
  fatsize : s.fatsize = v.fatsize
  fatlength : s.fatlength = v.fatlength
  fatSect : s.fatSect = v.fatSect
  sectSize : s.sectSize = v.sectSize
  window : s.fatbufnum = -1 ∨ ∃ bufnum : ℕ, s.fatbufnum = bufnum ∧ bufnum < 2 ^ 32 - 1 ∧
    ∀ i < v.sectSize * min FATBUFBLOCKS v.fatlength,
      s.fatbuf i = v.contents (v.base + v.sectSize * FATBUFBLOCKS * bufnum + i)

end FatVolume

section Bits

/-- Some bits of a word, moved down. -/
theorem bits_eq (x : ℕ) {mask k n : ℕ} (h : mask >>> n = 2 ^ k - 1) :
    (x &&& mask) >>> n = x / 2 ^ n % 2 ^ k := by
  rw [Nat.shiftRight_and_distrib, h, Nat.and_two_pow_sub_one_eq_mod, Nat.shiftRight_eq_div_pow]

theorem join_eq (x : ℕ) {y n : ℕ} (hy : y < 2 ^ n) : x <<< n ||| y = x * 2 ^ n + y := by
  rw [← Nat.shiftLeft_add_eq_or_of_lt hy, Nat.shiftLeft_eq]

variable {s : FsData}

/-- An entry of 12 bits is in the word at one and a half times its number. -/
theorem windowEntry_12 (hs : s.fatsize = 12) (o : ℕ) : s.windowEntry o =
    let w := s.fatbuf.get16 (o + o / 2)
    if o % 2 = 0 then w % 2 ^ 12 else w / 2 ^ 4 := by
  unfold FsData.windowEntry
  rw [if_neg (by omega), if_neg (by omega)]
  have hbyte (i : ℕ) : (s.fatbuf i).toNat < 2 ^ 8 := (s.fatbuf i).toNat_lt
  obtain ⟨k, r, hr, rfl⟩ : ∃ k r, r < 4 ∧ o = 4 * k + r :=
    ⟨o / 4, o % 4, Nat.mod_lt _ (by simp), (Nat.div_add_mod o 4).symm⟩
  have hmod : (4 * k + r) % 4 = r := by omega
  dsimp only
  rw [hmod]
  have hlow (x k : ℕ) : x &&& (2 ^ k - 1) = x % 2 ^ k := Nat.and_two_pow_sub_one_eq_mod x k
  rcases r with _ | _ | _ | _ | r
  · have hoff : 2 * ((4 * k + 0) * 3 / 4) = 6 * k := by omega
    have hpos : 4 * k + 0 + (4 * k + 0) / 2 = 6 * k := by omega
    rw [hoff, hpos, if_pos (by omega)]
    exact hlow _ 12
  · have hoff : 2 * ((4 * k + 1) * 3 / 4) = 6 * k := by omega
    have hoff' : 2 * ((4 * k + 1) * 3 / 4 + 1) = 6 * k + 2 := by omega
    have hpos : 4 * k + 1 + (4 * k + 1) / 2 = 6 * k + 1 := by omega
    have h0 := hbyte (6 * k)
    have h1 := hbyte (6 * k + 1)
    have h2 := hbyte (6 * k + 2)
    simp only [Nat.zero_add]
    rw [hoff, hoff', hpos, if_neg (by omega), show (0x00ff : ℕ) = 2 ^ 8 - 1 from rfl, hlow,
      bits_eq _ (show 0xf000 >>> 12 = 2 ^ 4 - 1 from rfl), join_eq _ (Nat.mod_lt _ (by simp))]
    unfold Mem.get16
    simp only [Nat.add_assoc, Nat.reduceAdd]
    omega
  · have hoff : 2 * ((4 * k + 2) * 3 / 4) = 6 * k + 2 := by omega
    have hoff' : 2 * ((4 * k + 2) * 3 / 4 + 1) = 6 * k + 4 := by omega
    have hpos : 4 * k + 2 + (4 * k + 2) / 2 = 6 * k + 3 := by omega
    have h2 := hbyte (6 * k + 2)
    have h3 := hbyte (6 * k + 3)
    have h4 := hbyte (6 * k + 4)
    simp only [Nat.zero_add, Nat.reduceAdd]
    rw [hoff, hoff', hpos, if_pos (by omega), show (0x000f : ℕ) = 2 ^ 4 - 1 from rfl, hlow,
      bits_eq _ (show 0xff00 >>> 8 = 2 ^ 8 - 1 from rfl), join_eq _ (Nat.mod_lt _ (by simp))]
    unfold Mem.get16
    simp only [Nat.add_assoc, Nat.reduceAdd]
    omega
  · have hoff : 2 * ((4 * k + 3) * 3 / 4) = 6 * k + 4 := by omega
    have hpos : 4 * k + 3 + (4 * k + 3) / 2 = 6 * k + 4 := by omega
    have h4 := hbyte (6 * k + 4)
    have h5 := hbyte (6 * k + 4 + 1)
    simp only [Nat.zero_add, Nat.reduceAdd]
    rw [hoff, hpos, if_neg (by omega), bits_eq _ (show 0xfff0 >>> 4 = 2 ^ 12 - 1 from rfl)]
    unfold Mem.get16
    omega
  · omega

end Bits

section Window

variable {m m' : Mem} {B P : ℕ}

theorem get16_window (h : ∀ i < B, m i = m' (P + i)) {o : ℕ} (ho : o + 2 ≤ B) :
    m.get16 o = m'.get16 (P + o) := by
  unfold Mem.get16
  rw [h o (by omega), h (o + 1) (by omega), Nat.add_assoc]

theorem get32_window (h : ∀ i < B, m i = m' (P + i)) {o : ℕ} (ho : o + 4 ≤ B) :
    m.get32 o = m'.get32 (P + o) := by
  unfold Mem.get32
  rw [get16_window h (by omega), get16_window h (by omega), Nat.add_assoc]

namespace FatVolume

variable (v : FatVolume)

/-- The entries of a window. -/
def perWindow : ℕ :=
  if v.fatsize = 32 then v.sectSize * FATBUFBLOCKS / 4
  else if v.fatsize = 16 then v.sectSize * FATBUFBLOCKS / 2
  else v.sectSize * FATBUFBLOCKS * 2 / 3

variable {v} {s : FsData} {e : ℕ}

theorem Keeps.bufEntries (h : v.Keeps s) : s.bufEntries = some v.perWindow := by
  unfold FsData.bufEntries FsData.FAT32BUFSIZE FsData.FAT16BUFSIZE FsData.FAT12BUFSIZE
    FsData.FATBUFSIZE perWindow
  rw [h.fatsize, h.sectSize]
  rcases v.kind with hk | hk | hk
  · rw [if_neg (by omega), if_neg (by omega), if_pos hk, if_neg (by omega), if_neg (by omega)]
  · rw [if_neg (by omega), if_pos hk, if_neg (by omega), if_pos hk]
  · rw [if_pos hk, if_pos hk]

/-- What a window of the disk has at an entry's offset is the entry. -/
theorem windowEntry_eq (hs : s.fatsize = v.fatsize) (he : e < v.numEntries)
    (hw : ∀ i < v.sectSize * min FATBUFBLOCKS v.fatlength, s.fatbuf i =
      v.contents (v.base + v.sectSize * FATBUFBLOCKS * (e / v.perWindow) + i)) :
    s.windowEntry (e - e / v.perWindow * v.perWindow) = v.rawEntry e := by
  obtain ⟨t, ht⟩ := v.sect_even
  have hpos := v.sect_pos
  have hmul := Nat.div_add_mod e v.perWindow
  have hoff : e - e / v.perWindow * v.perWindow = e % v.perWindow := by
    rw [Nat.mul_comm]
    omega
  have hlt : e % v.perWindow < v.perWindow := by
    refine Nat.mod_lt _ ?_
    unfold perWindow FATBUFBLOCKS
    split_ifs <;> omega
  rw [hoff]
  generalize e / v.perWindow = bufnum at hw hmul
  generalize e % v.perWindow = off at hmul hlt
  rw [← Nat.mul_min_mul_left] at hw
  have hstart : v.base + v.sectSize * FATBUFBLOCKS * bufnum = v.base + 12 * (t * bufnum) := by
    rw [ht]
    unfold FATBUFBLOCKS
    ring
  rw [hstart] at hw
  unfold numEntries at he
  rw [Nat.mul_comm v.fatlength] at he
  unfold perWindow FATBUFBLOCKS at hmul hlt
  unfold FATBUFBLOCKS at hw
  generalize v.sectSize * v.fatlength = bytes at hw he
  rw [ht] at hw
  rw [ht] at hmul hlt
  have hk := v.kind
  by_cases h32 : v.fatsize = 32
  · have hsize : 2 * t * 6 / 4 = 3 * t := by omega
    rw [if_pos h32, hsize] at hlt hmul
    rw [h32] at he
    rw [Nat.mul_assoc] at hmul
    unfold FsData.windowEntry rawEntry
    rw [hs, if_pos h32, if_pos h32, get32_window hw (by omega)]
    congr 1
    omega
  · by_cases h16 : v.fatsize = 16
    · have hsize : 2 * t * 6 / 2 = 6 * t := by omega
      rw [if_neg h32, if_pos h16, hsize] at hlt hmul
      rw [h16] at he
      rw [Nat.mul_assoc] at hmul
      unfold FsData.windowEntry rawEntry
      rw [hs, if_neg h32, if_neg h32, if_pos h16, if_pos h16, get16_window hw (by omega)]
      congr 1
      omega
    · have h12 : v.fatsize = 12 := by omega
      have hsize : 2 * t * 6 * 2 / 3 = 8 * t := by omega
      rw [if_neg h32, if_neg h16, hsize] at hlt hmul
      rw [h12] at he
      rw [Nat.mul_assoc] at hmul
      rw [windowEntry_12 (hs.trans h12), get16_window hw (by omega)]
      unfold rawEntry
      rw [if_neg h32, if_neg h16]
      have hpos : v.base + 12 * (t * bufnum) + (off + off / 2) = v.base + (e + e / 2) := by omega
      have hparity : off % 2 = e % 2 := by omega
      dsimp only
      rw [hpos, hparity]

/-- The window of an entry begins inside the FAT. -/
theorem window_lt (he : e < v.numEntries) :
    e / v.perWindow * FATBUFBLOCKS < v.fatlength := by
  obtain ⟨t, ht⟩ := v.sect_even
  have hpos := v.sect_pos
  have hle : v.perWindow * (e / v.perWindow) ≤ e := Nat.mul_div_le e v.perWindow
  unfold numEntries at he
  refine Nat.lt_of_mul_lt_mul_left (a := t) ?_
  unfold FATBUFBLOCKS
  have hbytes : v.fatlength * v.sectSize = 2 * (t * v.fatlength) := by
    rw [ht]
    ring
  have hwindow : t * (e / v.perWindow * 6) = 6 * (t * (e / v.perWindow)) := by ring
  rw [hbytes] at he
  rw [hwindow]
  generalize e / v.perWindow = bufnum at hle ⊢
  unfold perWindow FATBUFBLOCKS at hle
  rw [ht] at hle
  rcases v.kind with hk | hk | hk
  · have hsize : 2 * t * 6 * 2 / 3 = 8 * t := by omega
    rw [if_neg (by omega), if_neg (by omega), hsize, Nat.mul_assoc] at hle
    rw [hk] at he
    omega
  · have hsize : 2 * t * 6 / 2 = 6 * t := by omega
    rw [if_neg (by omega), if_pos hk, hsize, Nat.mul_assoc] at hle
    rw [hk] at he
    omega
  · have hsize : 2 * t * 6 / 4 = 3 * t := by omega
    rw [if_pos hk, hsize, Nat.mul_assoc] at hle
    rw [hk] at he
    omega

/-- One query: the answer is what is stored, and the window stays one of the disk. -/
theorem Keeps.getFatent (h : v.Keeps s) (he : e < v.numEntries) :
    (s.getFatent v.diskRead e).1 = v.rawEntry e ∧ v.Keeps (s.getFatent v.diskRead e).2 := by
  have hlt := window_lt he
  have hfits := v.fits
  unfold FATBUFBLOCKS at hlt
  unfold FsData.getFatent
  rw [h.bufEntries]
  dsimp only
  by_cases hne : e / v.perWindow ≠ toU32 s.fatbufnum
  · rw [if_pos hne]
    have hstart : u32 (e / v.perWindow * FATBUFBLOCKS + s.fatSect) =
        e / v.perWindow * FATBUFBLOCKS + v.fatSect := by
      rw [h.fatSect]
      refine u32_of_lt ?_
      unfold FATBUFBLOCKS
      omega
    have hsize : (if FATBUFBLOCKS > s.fatlength then s.fatlength else FATBUFBLOCKS) =
        min FATBUFBLOCKS v.fatlength := by
      rw [h.fatlength]
      split_ifs <;> omega
    have hread : v.diskRead (e / v.perWindow * FATBUFBLOCKS + v.fatSect)
        (min FATBUFBLOCKS v.fatlength) = some (v.contents.load
          (v.base + v.sectSize * FATBUFBLOCKS * (e / v.perWindow))
          (v.sectSize * min FATBUFBLOCKS v.fatlength)) := by
      unfold diskRead base
      congr 2
      ring
    rw [hstart, hsize, hread]
    dsimp only
    have hwindow : ∀ i < v.sectSize * min FATBUFBLOCKS v.fatlength,
        s.fatbuf.store 0 (v.contents.load (v.base + v.sectSize * FATBUFBLOCKS * (e / v.perWindow))
          (v.sectSize * min FATBUFBLOCKS v.fatlength)) i =
          v.contents (v.base + v.sectSize * FATBUFBLOCKS * (e / v.perWindow) + i) := by
      intro i hi
      generalize v.base + v.sectSize * FATBUFBLOCKS * (e / v.perWindow) = P
      have hbyte := (holds_store s.fatbuf 0 (v.contents.load P
        (v.sectSize * min FATBUFBLOCKS v.fatlength))).of_load i hi
      rwa [Nat.zero_add] at hbyte
    exact ⟨windowEntry_eq h.fatsize he hwindow,
      ⟨h.fatsize, h.fatlength, h.fatSect, h.sectSize, .inr ⟨_, rfl, by omega, hwindow⟩⟩⟩
  · rw [if_neg hne]
    refine ⟨?_, h⟩
    rcases h.window with hnone | ⟨bufnum, hnum, hbound, hwindow⟩
    · rw [hnone] at hne
      have : toU32 (-1) = 2 ^ 32 - 1 := rfl
      omega
    · rw [hnum, toU32_natCast (by omega), not_not] at hne
      rw [← hne] at hwindow
      exact windowEntry_eq h.fatsize he hwindow

/-- A run of queries. -/
theorem Keeps.getFatents {s : FsData} (h : v.Keeps s) : ∀ {entries : List ℕ},
    (∀ e ∈ entries, e < v.numEntries) →
      s.getFatents v.diskRead entries = entries.map v.rawEntry
  | [], _ => rfl
  | e :: es, hes => by
    obtain ⟨he, hrest⟩ := List.forall_mem_cons.mp hes
    obtain ⟨hans, hkeeps⟩ := h.getFatent he
    unfold FsData.getFatents
    dsimp only
    rw [hans, hkeeps.getFatents hrest, List.map_cons]

variable (v) in
theorem keeps_start (fatbuf : Mem) : v.Keeps (v.start fatbuf) :=
  ⟨rfl, rfl, rfl, rfl, .inl rfl⟩

/-- What is stored is the entry unless bits above its 28 are set. -/
theorem rawEntry_eq_iff : v.rawEntry e = v.entry e ↔ v.fatsize = 32 → v.rawEntry e < 2 ^ 28 := by
  unfold entry
  split_ifs with h32
  · constructor
    · intro heq _
      rw [heq]
      exact Nat.mod_lt _ (by simp)
    · exact fun hlt => (Nat.mod_eq_of_lt (hlt h32)).symm
  · exact ⟨fun _ hne => absurd hne h32, fun _ => rfl⟩

end FatVolume

end Window

section Answers

open FatVolume

/-- All answers of a run are the entries just if each entry that is asked for is of 28 bits on the
disk, where it is one of a FAT32. -/
theorem fat_entries_iff (v : FatVolume) (fatbuf : Mem) (entries : List (Fin v.numEntries)) :
    (v.start fatbuf).getFatents v.diskRead (entries.map Fin.val) =
        (entries.map fun e : Fin v.numEntries => v.entry e) ↔
      (v.fatsize = 32 → ∀ e ∈ entries, v.rawEntry e < 2 ^ 28) := by
  have hbound : ∀ e ∈ entries.map Fin.val, e < v.numEntries := by
    intro e he
    obtain ⟨i, _, rfl⟩ := List.mem_map.mp he
    exact i.isLt
  rw [(keeps_start v fatbuf).getFatents hbound, List.map_map, List.map_inj_left]
  constructor
  · exact fun h h32 e he => rawEntry_eq_iff.mp (h e he) h32
  · exact fun h e he => rawEntry_eq_iff.mpr fun h32 => h h32 e he

/-- A FAT32 whose entry 2 is the end of a file, with one of the upper four bits set. -/
def reservedBits : FatVolume where
  contents a := if a = 8 then 0xf8 else if a = 9 ∨ a = 10 then 0xff else if a = 11 then 0x1f else 0
  fatsize := 32
  fatlength := 1
  fatSect := 0
  sectSize := 512
  kind := by simp
  sect_pos := by simp
  sect_even := by simp
  fits := by simp

/-- The answer has that bit, and is no value of the format's. -/
theorem reservedBits_answer : 2 < reservedBits.numEntries ∧
    (reservedBits.start fun _ => 0).getFatents reservedBits.diskRead [2] = [0x1ffffff8] ∧
      reservedBits.entry 2 = 0xffffff8 := by
  have hlt : 2 < reservedBits.numEntries := by decide
  refine ⟨hlt, ?_, by decide⟩
  rw [(keeps_start reservedBits fun _ => 0).getFatents (by simpa using hlt)]
  decide

end Answers

end InfotmUboot
