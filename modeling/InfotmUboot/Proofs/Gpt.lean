import InfotmUboot.Gpt

/-!
# What the GPT reader takes for a partition

The two checksums are of lengths that the header gives, and the entry is taken from wherever the
number leads: the reader is right, and stays inside its buffers, on just the disks where the lengths
are those of whole blocks, and the number is one of a used entry of 128 bytes (`efi_right_iff`).
-/

namespace InfotmUboot

open Lib

section Disk

variable (d : GptDev)

/-- The primary header. -/
def GptDev.header : GptHeader := gptHeader d.contents (GPT_BLOCK_SIZE * 1)

/-- The sum of the header as it is on the disk, without its own field. -/
def GptDev.headerSum : ℕ :=
  crc32 0 ((d.contents.store (GPT_BLOCK_SIZE * 1 + 16) (List.replicate 4 0)).load
    (GPT_BLOCK_SIZE * 1) d.header.headerSize)

/-- The sum of the array that the header names. -/
def GptDev.arraySum : ℕ :=
  crc32 0 (d.contents.load (GPT_BLOCK_SIZE * d.header.partitionEntryLba)
    (d.header.numPartitionEntries * d.header.sizeofPartitionEntry))

/-- Entry `part` of that array. -/
def GptDev.entry (part : ℤ) : GptEntry :=
  gptEntry d.contents (GPT_BLOCK_SIZE * d.header.partitionEntryLba +
    d.header.sizeofPartitionEntry * (part - 1).toNat)

/-- The information is that of a used entry of an array that is right, under a right header. -/
structure GptDev.Lists (part : ℤ) (info : EfiPartition) : Prop where
  headerSize_le : d.header.headerSize ≤ GPT_BLOCK_SIZE
  headerSum_eq : d.headerSum = d.header.headerCrc32
  arraySum_eq : d.arraySum = d.header.partitionEntryArrayCrc32
  le_part : 1 ≤ part
  part_le : part ≤ d.header.numPartitionEntries
  used : (d.entry part).isValid
  start_eq : info.start = (d.entry part).startingLba
  size_eq : (info.size : ℤ) = (d.entry part).endingLba + 1 - (d.entry part).startingLba

variable (room : GptRoom) (m : Mem) (part : ℤ)

/-- What comes out is on the disk, and all reads are of bytes that were read from it. -/
structure EfiRight : Prop where
  lists : ∀ info ∈ (getPartitionInfoEfi d room m part).1, d.Lists part info
  inside : ∀ r ∈ (getPartitionInfoEfi d room m part).2.log,
    r.offset + r.size ≤ (getPartitionInfoEfi d room m part).2.filled r.buffer

/-- The checks of the header but for its signature. -/
structure GptDev.HeaderPasses : Prop where
  sum_eq : d.headerSum = d.header.headerCrc32
  myLba_eq : d.header.myLba = GPT_PRIMARY_PARTITION_TABLE_LBA
  first_le : d.header.firstUsableLba ≤ d.lba
  last_le : d.header.lastUsableLba ≤ d.lba

/-- There is room for the array, and its blocks can be read. -/
structure GptDev.ArrayRead : Prop where
  count_pos : d.header.count ≠ 0
  room_some : (room.memalign d.header.count).isSome
  reads : d.reads (u32 d.header.partitionEntryLba) (d.header.count / GPT_BLOCK_SIZE)

/-- Where the array's blocks are read from. -/
def GptDev.arrayStart : ℕ := GPT_BLOCK_SIZE * u32 d.header.partitionEntryLba

def GptDev.ArrayPasses : Prop :=
  crc32 0 (d.contents.load d.arrayStart d.header.count) = d.header.partitionEntryArrayCrc32

/-- The entries of 128 bytes from there. -/
def GptDev.entry128 (part : ℤ) : GptEntry :=
  gptEntry d.contents (d.arrayStart + toU32 (128 * (part - 1)))

structure GptDev.EntryFits : Prop where
  arraySum_eq : d.arraySum = d.header.partitionEntryArrayCrc32
  part_le : part ≤ d.header.numPartitionEntries
  inside : toU32 (128 * (part - 1)) + 128 ≤ d.header.count
  used : (d.entry part).isValid
  start_lt : (d.entry part).startingLba < 2 ^ 32
  start_le : (d.entry part).startingLba ≤ (d.entry part).endingLba + 1
  size_lt : (d.entry part).endingLba + 1 < (d.entry part).startingLba + 2 ^ 32
  start_same : u32 (d.entry128 part).startingLba = u32 (d.entry part).startingLba
  end_same : u32 (d.entry128 part).endingLba = u32 (d.entry part).endingLba

/-- As far as the reader comes, the lengths are those of what it has read, and the entry is one of
the array. -/
def GptDev.Fits : Prop :=
  1 ≤ part → d.reads GPT_PRIMARY_PARTITION_TABLE_LBA 1 →
    d.header.signature = GPT_HEADER_SIGNATURE →
      d.header.headerSize ≤ GPT_BLOCK_SIZE ∧ (d.HeaderPasses → d.ArrayRead room →
        d.header.count % GPT_BLOCK_SIZE = 0 ∧ (d.ArrayPasses → d.EntryFits part))

end Disk

section Fields

variable {m m' : Mem} {a a' : ℕ}

theorem get32_field {n o : ℕ} (h : ∀ i < n, m (a + i) = m' (a' + i)) (ho : o + 4 ≤ n) :
    m.get32 (a + o) = m'.get32 (a' + o) := by
  have hbyte (i : ℕ) (hi : i < 4) : m (a + o + i) = m' (a' + o + i) := by
    rw [Nat.add_assoc, Nat.add_assoc]
    exact h (o + i) (by omega)
  have h0 := hbyte 0 (by omega)
  have h1 := hbyte 1 (by omega)
  have h2 := hbyte 2 (by omega)
  have h3 := hbyte 3 (by omega)
  rw [Nat.add_zero, Nat.add_zero] at h0
  simp only [Mem.get32, Mem.get16, Nat.add_assoc, Nat.reduceAdd] at h0 h1 h2 h3 ⊢
  rw [h0, h1, h2, h3]

theorem le64ToInt_congr {n o : ℕ} (h : ∀ i < n, m (a + i) = m' (a' + i)) (ho : o + 8 ≤ n) :
    le64ToInt m (a + o) = le64ToInt m' (a' + o) := by
  unfold le64ToInt
  rw [get32_field h (by omega), Nat.add_assoc, Nat.add_assoc, get32_field h (by omega)]

/-- A header is its first 92 bytes. -/
theorem gptHeader_congr (h : ∀ i < 92, m (a + i) = m' (a' + i)) :
    gptHeader m a = gptHeader m' a' := by
  have hsig : le64ToInt m a = le64ToInt m' a' := le64ToInt_congr (o := 0) h (by omega)
  unfold gptHeader
  rw [hsig, get32_field h (by omega : 12 + 4 ≤ 92), get32_field h (by omega : 16 + 4 ≤ 92),
    le64ToInt_congr h (by omega : 24 + 8 ≤ 92), le64ToInt_congr h (by omega : 40 + 8 ≤ 92),
    le64ToInt_congr h (by omega : 48 + 8 ≤ 92), le64ToInt_congr h (by omega : 72 + 8 ≤ 92),
    get32_field h (by omega : 80 + 4 ≤ 92), get32_field h (by omega : 84 + 4 ≤ 92),
    get32_field h (by omega : 88 + 4 ≤ 92)]

theorem gptEntry_congr (h : ∀ i < 128, m (a + i) = m' (a' + i)) :
    (gptEntry m a).startingLba = (gptEntry m' a').startingLba ∧
      (gptEntry m a).endingLba = (gptEntry m' a').endingLba :=
  ⟨le64ToInt_congr h (by omega : 32 + 8 ≤ 128), le64ToInt_congr h (by omega : 40 + 8 ≤ 128)⟩

end Fields

section Valid

variable (d : GptDev) (room : GptRoom) (m : Mem)

/-- The memory with the header's block. -/
def headRead : Mem := m.store room.head (d.blocks 1 1)

theorem headRead_byte : ∀ i < GPT_BLOCK_SIZE,
    headRead d room m (room.head + i) = d.contents (GPT_BLOCK_SIZE * 1 + i) :=
  (holds_store m room.head (d.blocks 1 1)).of_load

theorem headRead_header : gptHeader (headRead d room m) room.head = d.header :=
  gptHeader_congr fun i hi => headRead_byte d room m i (hi.trans (by simp [GPT_BLOCK_SIZE]))

/-- Inside the block the sum is that of the disk. -/
theorem headRead_sum (h : d.header.headerSize ≤ GPT_BLOCK_SIZE) :
    crc32 0 (((headRead d room m).store (room.head + 16) (List.replicate 4 0)).load room.head
      d.header.headerSize) = d.headerSum := by
  unfold GptDev.headerSum
  congr 1
  refine Mem.load_congr fun i hi => ?_
  rcases Nat.lt_or_ge i 16 with h16 | h16
  · rw [Mem.store_of_lt _ _ (by omega), Mem.store_of_lt _ _ (by omega), headRead_byte d room m i
      (by omega)]
  rcases Nat.lt_or_ge i 20 with h20 | h20
  · obtain ⟨j, rfl⟩ := Nat.exists_eq_add_of_le h16
    rw [← Nat.add_assoc, ← Nat.add_assoc, Mem.store_add _ _ _ (by simp; omega),
      Mem.store_add _ _ _ (by simp; omega)]
  · rw [Mem.store_of_ge _ _ (by simp; omega), Mem.store_of_ge _ _ (by simp; omega),
      headRead_byte d room m i (by omega)]

/-- The state once the header is read and summed. -/
def headState : GptState where
  mem := headRead d room m
  filled
    | .header => GPT_BLOCK_SIZE
    | .entries => 0
  log := [⟨.header, 0, d.header.headerSize⟩]

/-- The state once the array is read too. -/
def arrayState (pte : ℕ) : GptState where
  mem := (headRead d room m).store pte
    (d.blocks (u32 d.header.partitionEntryLba) (d.header.count / GPT_BLOCK_SIZE))
  filled
    | .header => GPT_BLOCK_SIZE
    | .entries => GPT_BLOCK_SIZE * (d.header.count / GPT_BLOCK_SIZE)
  log := [⟨.header, 0, d.header.headerSize⟩, ⟨.entries, 0, d.header.count⟩]

variable {d room}

theorem allocRead_none (h : ¬d.ArrayRead room) (s : GptState) :
    allocReadGptEntries d room d.header s = (none, s) := by
  unfold allocReadGptEntries
  split_ifs with hcount
  · rfl
  rcases hroom : room.memalign d.header.count with _ | pte
  · rfl
  · exact if_neg fun hreads => h ⟨hcount, by rw [hroom]; rfl, hreads⟩

theorem allocRead_some (h : d.ArrayRead room) : ∃ pte, room.memalign d.header.count = some pte ∧
    ∀ s, allocReadGptEntries d room d.header s = (some pte, { s with
      mem := s.mem.store pte
        (d.blocks (u32 d.header.partitionEntryLba) (d.header.count / GPT_BLOCK_SIZE))
      filled := fun
        | .header => s.filled .header
        | .entries => GPT_BLOCK_SIZE * (d.header.count / GPT_BLOCK_SIZE) }) := by
  obtain ⟨pte, hpte⟩ := Option.isSome_iff_exists.1 h.room_some
  refine ⟨pte, hpte, fun s => ?_⟩
  unfold allocReadGptEntries
  rw [if_neg h.count_pos, hpte]
  exact if_pos h.reads

/-- The array is not read over the header. -/
theorem arrayState_header {pte : ℕ} (hpte : room.memalign d.header.count = some pte) :
    gptHeader (arrayState d room m pte).mem room.head = d.header := by
  have happ := room.apart _ _ hpte
  have hlen : (d.blocks (u32 d.header.partitionEntryLba)
      (d.header.count / GPT_BLOCK_SIZE)).length ≤ d.header.count := by
    unfold GptDev.blocks
    rw [Mem.length_load]
    exact Nat.mul_div_le _ _
  rw [← headRead_header d room m]
  refine gptHeader_congr fun i hi => ?_
  have hblock : i < GPT_BLOCK_SIZE := hi.trans (by simp [GPT_BLOCK_SIZE])
  rcases happ with happ | happ
  · exact Mem.store_of_ge _ _ (by omega)
  · exact Mem.store_of_lt _ _ (by omega)

variable (d room)

theorem arrayState_byte (pte : ℕ) : ∀ i < GPT_BLOCK_SIZE * (d.header.count / GPT_BLOCK_SIZE),
    (arrayState d room m pte).mem (pte + i) = d.contents (d.arrayStart + i) :=
  (holds_store (headRead d room m) pte _).of_load

/-- The reader with the signature in front of it. -/
theorem isGptValid_eq (hreads : d.reads 1 1) (hsig : d.header.signature = GPT_HEADER_SIGNATURE) :
    isGptValid d room 1 ⟨m, fun _ => 0, []⟩ =
      if crc32 0 (((headRead d room m).store (room.head + 16) (List.replicate 4 0)).load
          room.head d.header.headerSize) ≠ d.header.headerCrc32 then (none, headState d room m)
      else if d.header.myLba ≠ 1 then (none, headState d room m)
      else if d.header.firstUsableLba > d.lba then (none, headState d room m)
      else if d.header.lastUsableLba > d.lba then (none, headState d room m)
      else
        match allocReadGptEntries d room d.header (headState d room m) with
        | (none, s) => (none, s)
        | (some pte, s) =>
          let s' := { s with
            log := s.log ++ [⟨.entries, 0, (gptHeader s.mem room.head).count⟩] }
          if crc32 0 (s.mem.load pte (gptHeader s.mem room.head).count) ≠
              (gptHeader s.mem room.head).partitionEntryArrayCrc32 then (none, s')
          else (some pte, s') := by
  have hh := headRead_header d room m
  unfold headRead at hh
  unfold isGptValid
  rw [if_pos hreads]
  simp only [hh]
  rw [if_neg (not_not.2 hsig)]
  rfl

variable {d}

theorem isGptValid_stops (hreads : d.reads 1 1) (hsig : d.header.signature = GPT_HEADER_SIGNATURE)
    (hsize : d.header.headerSize ≤ GPT_BLOCK_SIZE) (h : d.HeaderPasses → ¬d.ArrayRead room) :
    isGptValid d room 1 ⟨m, fun _ => 0, []⟩ = (none, headState d room m) := by
  rw [isGptValid_eq d room m hreads hsig, headRead_sum d room m hsize]
  split_ifs with hsum hmy hfirst hlast
  · rfl
  · rfl
  · rfl
  · rfl
  · have hpass : d.HeaderPasses :=
      ⟨not_not.1 hsum, not_not.1 hmy, Nat.not_lt.1 hfirst, Nat.not_lt.1 hlast⟩
    rw [allocRead_none (h hpass)]

theorem isGptValid_array (hreads : d.reads 1 1) (hsig : d.header.signature = GPT_HEADER_SIGNATURE)
    (hsize : d.header.headerSize ≤ GPT_BLOCK_SIZE) (hpass : d.HeaderPasses)
    (harray : d.ArrayRead room) : ∃ pte, room.memalign d.header.count = some pte ∧
      isGptValid d room 1 ⟨m, fun _ => 0, []⟩ =
        if crc32 0 ((arrayState d room m pte).mem.load pte d.header.count) ≠
            d.header.partitionEntryArrayCrc32 then (none, arrayState d room m pte)
        else (some pte, arrayState d room m pte) := by
  obtain ⟨pte, hpte, hread⟩ := allocRead_some harray
  refine ⟨pte, hpte, ?_⟩
  have hheader := arrayState_header m hpte
  have hmy : d.header.myLba = 1 := hpass.myLba_eq
  rw [isGptValid_eq d room m hreads hsig, headRead_sum d room m hsize,
    if_neg (not_not.2 hpass.sum_eq),
    if_neg (not_not.2 hmy), if_neg (Nat.not_lt.2 hpass.first_le),
    if_neg (Nat.not_lt.2 hpass.last_le), hread]
  have hmem : (headState d room m).mem.store pte
      (d.blocks (u32 d.header.partitionEntryLba) (d.header.count / GPT_BLOCK_SIZE)) =
        (arrayState d room m pte).mem := rfl
  simp only [hmem, hheader]
  rfl

/-- From a header with the signature on, the sum of the header has been taken. -/
theorem isGptValid_log (hreads : d.reads 1 1) (hsig : d.header.signature = GPT_HEADER_SIGNATURE) :
    ⟨.header, 0, d.header.headerSize⟩ ∈ (isGptValid d room 1 ⟨m, fun _ => 0, []⟩).2.log ∧
      (isGptValid d room 1 ⟨m, fun _ => 0, []⟩).2.filled .header = GPT_BLOCK_SIZE := by
  have hhead : ⟨.header, 0, d.header.headerSize⟩ ∈ (headState d room m).log ∧
      (headState d room m).filled .header = GPT_BLOCK_SIZE := ⟨List.mem_singleton_self _, rfl⟩
  rw [isGptValid_eq d room m hreads hsig]
  split_ifs
  · exact hhead
  · exact hhead
  · exact hhead
  · exact hhead
  by_cases harray : d.ArrayRead room
  · obtain ⟨pte, -, hread⟩ := allocRead_some harray
    rw [hread]
    dsimp only
    split_ifs
    · exact ⟨List.mem_cons_self, rfl⟩
    · exact ⟨List.mem_cons_self, rfl⟩
  · rw [allocRead_none harray]
    exact hhead

end Valid

section Info

variable {d : GptDev} {room : GptRoom} {m : Mem} {part : ℤ}

/-- What the reader is given of an entry in the array's buffer. -/
def efiInfo (d : GptDev) (room : GptRoom) (m : Mem) (pte : ℕ) (part : ℤ) : EfiPartition :=
  let e := gptEntry (arrayState d room m pte).mem (u32 (pte + toU32 (128 * (part - 1))))
  ⟨u32 e.startingLba, toU32 (u32 e.endingLba + 1 - u32 e.startingLba), GPT_BLOCK_SIZE,
    printEfiname e⟩

/-- Without a valid table there is no information, and the reads are those of the check. -/
theorem getPartitionInfoEfi_none (hpart : 1 ≤ part) {s : GptState}
    (h : isGptValid d room 1 ⟨m, fun _ => 0, []⟩ = (none, s)) :
    getPartitionInfoEfi d room m part = (none, s) := by
  unfold getPartitionInfoEfi GPT_PRIMARY_PARTITION_TABLE_LBA
  rw [if_neg (by omega)]
  dsimp only
  rw [h]

theorem getPartitionInfoEfi_some (hpart : 1 ≤ part) {pte : ℕ}
    (h : isGptValid d room 1 ⟨m, fun _ => 0, []⟩ = (some pte, arrayState d room m pte)) :
    getPartitionInfoEfi d room m part = (some (efiInfo d room m pte part),
      { arrayState d room m pte with
        log := (arrayState d room m pte).log ++ [⟨.entries, toU32 (128 * (part - 1)) + 32, 8⟩,
          ⟨.entries, toU32 (128 * (part - 1)) + 40, 8⟩,
          ⟨.entries, toU32 (128 * (part - 1)) + 56, 2 * PARTNAME_SZ⟩] }) := by
  unfold getPartitionInfoEfi GPT_PRIMARY_PARTITION_TABLE_LBA
  rw [if_neg (by omega)]
  dsimp only
  rw [h]
  rfl

theorem getPartitionInfoEfi_log (hpart : 1 ≤ part) : ∀ r ∈
    (isGptValid d room 1 ⟨m, fun _ => 0, []⟩).2.log,
    r ∈ (getPartitionInfoEfi d room m part).2.log ∧ (getPartitionInfoEfi d room m part).2.filled =
      (isGptValid d room 1 ⟨m, fun _ => 0, []⟩).2.filled := by
  intro r hr
  unfold getPartitionInfoEfi GPT_PRIMARY_PARTITION_TABLE_LBA
  rw [if_neg (by omega)]
  dsimp only
  rcases hv : isGptValid d room 1 ⟨m, fun _ => 0, []⟩ with ⟨_ | pte, s⟩
  · rw [hv] at hr
    exact ⟨hr, rfl⟩
  · rw [hv] at hr
    exact ⟨List.mem_append_left _ hr, rfl⟩

theorem right_of_none {s : GptState} (h : getPartitionInfoEfi d room m part = (none, s))
    (hlog : ∀ r ∈ s.log, r.offset + r.size ≤ s.filled r.buffer) : EfiRight d room m part := by
  refine ⟨fun info hinfo => ?_, fun r hr => ?_⟩
  · rw [h] at hinfo
    exact absurd hinfo (by simp)
  · rw [h] at hr ⊢
    exact hlog r hr

/-- A header with the signature is summed, however long it says that it is. -/
theorem headerSize_of_right (hpart : 1 ≤ part) (hreads : d.reads 1 1)
    (hsig : d.header.signature = GPT_HEADER_SIGNATURE) (h : EfiRight d room m part) :
    d.header.headerSize ≤ GPT_BLOCK_SIZE := by
  obtain ⟨hlog, hfilled⟩ := isGptValid_log room m hreads hsig
  obtain ⟨hmem, hsame⟩ := getPartitionInfoEfi_log hpart _ hlog
  have hin := h.inside _ hmem
  rw [hsame, hfilled] at hin
  exact (Nat.zero_add _).symm.trans_le hin

/-- Before the signature is seen nothing is read. -/
theorem right_of_unsigned (h : ¬(1 ≤ part ∧ d.reads 1 1 = true ∧
    d.header.signature = GPT_HEADER_SIGNATURE)) : EfiRight d room m part := by
  by_cases hpart : 1 ≤ part
  · by_cases hreads : d.reads 1 1 = true
    · have hh := headRead_header d room m
      unfold headRead at hh
      refine right_of_none (s := { headState d room m with log := [] })
        (getPartitionInfoEfi_none hpart ?_) (by simp)
      unfold isGptValid
      rw [if_pos hreads]
      simp only [hh]
      rw [if_pos fun hsig => h ⟨hpart, hreads, hsig⟩]
      rfl
    · refine right_of_none (getPartitionInfoEfi_none hpart (if_neg hreads)) (by simp)
  · have hnone : getPartitionInfoEfi d room m part = (none, ⟨m, fun _ => 0, []⟩) :=
      if_pos (by omega)
    exact right_of_none hnone (by simp)

theorem headState_inside (hsize : d.header.headerSize ≤ GPT_BLOCK_SIZE) :
    ∀ r ∈ (headState d room m).log, r.offset + r.size ≤ (headState d room m).filled r.buffer := by
  intro r hr
  obtain rfl := List.mem_singleton.1 hr
  exact (Nat.zero_add _).trans_le hsize

variable (room m)

/-- The array's sum is taken of what was read just if that is whole. -/
theorem arrayState_inside (hsize : d.header.headerSize ≤ GPT_BLOCK_SIZE) (pte : ℕ) :
    (∀ r ∈ (arrayState d room m pte).log,
      r.offset + r.size ≤ (arrayState d room m pte).filled r.buffer) ↔
        d.header.count % GPT_BLOCK_SIZE = 0 := by
  have hdiv := Nat.div_add_mod d.header.count GPT_BLOCK_SIZE
  constructor
  · intro h
    have hread : 0 + d.header.count ≤ GPT_BLOCK_SIZE * (d.header.count / GPT_BLOCK_SIZE) :=
      h ⟨.entries, 0, d.header.count⟩ (List.mem_cons_of_mem _ List.mem_cons_self)
    omega
  · intro h r hr
    rcases List.mem_cons.1 hr with rfl | hr
    · exact (Nat.zero_add _).trans_le hsize
    · obtain rfl := List.mem_singleton.1 hr
      change 0 + d.header.count ≤ GPT_BLOCK_SIZE * (d.header.count / GPT_BLOCK_SIZE)
      omega

/-- In memory the array has the sum that it has on the disk. -/
theorem arrayState_sum (hcount : d.header.count % GPT_BLOCK_SIZE = 0) (pte : ℕ) :
    (arrayState d room m pte).mem.load pte d.header.count =
      d.contents.load d.arrayStart d.header.count := by
  have hdiv := Nat.div_add_mod d.header.count GPT_BLOCK_SIZE
  exact Mem.load_congr fun i hi => arrayState_byte d room m pte i (by omega)

variable {room}

/-- An entry inside the buffer is the one on the disk. -/
theorem efiInfo_eq {pte : ℕ} (hpte : room.memalign d.header.count = some pte)
    (hcount : d.header.count % GPT_BLOCK_SIZE = 0)
    (hin : toU32 (128 * (part - 1)) + 128 ≤ d.header.count) :
    (efiInfo d room m pte part).start = u32 (d.entry128 part).startingLba ∧
      (efiInfo d room m pte part).size = toU32 (u32 (d.entry128 part).endingLba + 1 -
        u32 (d.entry128 part).startingLba) := by
  have hfit := room.fits _ _ hpte
  have hdiv := Nat.div_add_mod d.header.count GPT_BLOCK_SIZE
  have hbytes : ∀ i < 128, (arrayState d room m pte).mem (pte + toU32 (128 * (part - 1)) + i) =
      d.contents (d.arrayStart + toU32 (128 * (part - 1)) + i) := fun i hi => by
    rw [Nat.add_assoc, Nat.add_assoc]
    exact arrayState_byte d room m pte _ (by omega)
  obtain ⟨hstart, hend⟩ := gptEntry_congr hbytes
  unfold efiInfo GptDev.entry128
  rw [u32_of_lt (by omega)]
  dsimp only
  rw [hstart, hend]
  exact ⟨rfl, rfl⟩

/-- Of a right array the reader gives what is listed just if the entry fits. -/
theorem lists_iff (hpart : 1 ≤ part) (hsize : d.header.headerSize ≤ GPT_BLOCK_SIZE)
    (hpass : d.HeaderPasses) {pte : ℕ} (hpte : room.memalign d.header.count = some pte)
    (hcount : d.header.count % GPT_BLOCK_SIZE = 0) :
    (d.Lists part (efiInfo d room m pte part) ∧
      toU32 (128 * (part - 1)) + 128 ≤ d.header.count) ↔ d.EntryFits part := by
  constructor
  · rintro ⟨hlists, hin⟩
    obtain ⟨hstart, hend⟩ := efiInfo_eq m hpte hcount hin
    have hs := hlists.start_eq
    have hz := hlists.size_eq
    rw [hstart] at hs
    rw [hend] at hz
    have hsl := u32_lt (d.entry128 part).startingLba
    have hel := u32_lt (d.entry128 part).endingLba
    unfold toU32 at hz
    refine ⟨hlists.arraySum_eq, hlists.part_le, hin, hlists.used, by omega, by omega, by omega, ?_,
      ?_⟩
    · rw [hs, u32_of_lt (by omega)]
    · have hlt : (d.entry part).endingLba < 2 ^ 33 := by omega
      unfold u32 at hs hz hsl hel ⊢
      omega
  · intro h
    obtain ⟨hstart, hend⟩ := efiInfo_eq m hpte hcount h.inside
    refine ⟨⟨hsize, hpass.sum_eq, h.arraySum_eq, hpart, h.part_le, h.used, ?_, ?_⟩, h.inside⟩
    · rw [hstart, h.start_same, u32_of_lt h.start_lt]
    · rw [hend, h.start_same, h.end_same, u32_of_lt h.start_lt]
      have h1 := h.start_le
      have h2 := h.size_lt
      unfold toU32 u32
      omega

theorem right_iff_entry (hpart : 1 ≤ part) (hsize : d.header.headerSize ≤ GPT_BLOCK_SIZE)
    (hpass : d.HeaderPasses) {pte : ℕ} (hpte : room.memalign d.header.count = some pte)
    (hcount : d.header.count % GPT_BLOCK_SIZE = 0)
    (hvalid : isGptValid d room 1 ⟨m, fun _ => 0, []⟩ = (some pte, arrayState d room m pte)) :
    EfiRight d room m part ↔ d.EntryFits part := by
  have hinfo := getPartitionInfoEfi_some hpart hvalid
  have hdiv := Nat.div_add_mod d.header.count GPT_BLOCK_SIZE
  rw [← lists_iff m hpart hsize hpass hpte hcount]
  constructor
  · rintro ⟨hlists, hin⟩
    rw [hinfo] at hlists hin
    refine ⟨hlists _ rfl, ?_⟩
    have hname : toU32 (128 * (part - 1)) + 56 + 2 * 36 ≤
        GPT_BLOCK_SIZE * (d.header.count / GPT_BLOCK_SIZE) :=
      hin ⟨.entries, toU32 (128 * (part - 1)) + 56, 2 * PARTNAME_SZ⟩ (by simp)
    omega
  · rintro ⟨hlists, hin⟩
    refine ⟨fun info hi => ?_, fun r hr => ?_⟩
    · rw [hinfo] at hi
      obtain rfl := Option.some.inj hi
      exact hlists
    · rw [hinfo] at hr ⊢
      rcases List.mem_append.1 hr with hr | hr
      · exact (arrayState_inside room m hsize pte).2 hcount r hr
      change r.offset + r.size ≤ (arrayState d room m pte).filled r.buffer
      have hfilled : (arrayState d room m pte).filled .entries =
          GPT_BLOCK_SIZE * (d.header.count / GPT_BLOCK_SIZE) := rfl
      simp only [List.mem_cons, List.not_mem_nil, or_false] at hr
      rcases hr with rfl | rfl | rfl
      · rw [hfilled]
        dsimp only
        omega
      · rw [hfilled]
        dsimp only
        omega
      · rw [hfilled]
        unfold PARTNAME_SZ
        dsimp only
        omega

end Info

/-- The disks and the numbers that the reader is right for. -/
theorem efi_right_iff (d : GptDev) (room : GptRoom) (m : Mem) (part : ℤ) :
    EfiRight d room m part ↔ d.Fits room part := by
  by_cases hstart : 1 ≤ part ∧ d.reads 1 1 = true ∧ d.header.signature = GPT_HEADER_SIGNATURE
  swap
  · exact iff_of_true (right_of_unsigned hstart) fun hpart hreads hsig =>
      absurd ⟨hpart, hreads, hsig⟩ hstart
  obtain ⟨hpart, hreads, hsig⟩ := hstart
  have hfits : d.Fits room part ↔ d.header.headerSize ≤ GPT_BLOCK_SIZE ∧
      (d.HeaderPasses → d.ArrayRead room →
        d.header.count % GPT_BLOCK_SIZE = 0 ∧ (d.ArrayPasses → d.EntryFits part)) :=
    ⟨fun h => h hpart hreads hsig, fun h _ _ _ => h⟩
  rw [hfits]
  by_cases hsize : d.header.headerSize ≤ GPT_BLOCK_SIZE
  swap
  · exact iff_of_false (fun h => hsize (headerSize_of_right hpart hreads hsig h)) fun h => hsize h.1
  by_cases harray : d.HeaderPasses ∧ d.ArrayRead room
  swap
  · have hstop := isGptValid_stops room m hreads hsig hsize fun hp ha => harray ⟨hp, ha⟩
    exact iff_of_true (right_of_none (getPartitionInfoEfi_none hpart hstop)
      (headState_inside hsize))
      ⟨hsize, fun hp ha => absurd ⟨hp, ha⟩ harray⟩
  obtain ⟨hpass, harray⟩ := harray
  obtain ⟨pte, hpte, hvalid⟩ := isGptValid_array room m hreads hsig hsize hpass harray
  have hlog := arrayState_inside room m hsize pte
  by_cases hcount : d.header.count % GPT_BLOCK_SIZE = 0
  swap
  · refine iff_of_false (fun h => hcount (hlog.1 fun r hr => ?_)) fun h =>
      hcount (h.2 hpass harray).1
    have hstate : (isGptValid d room 1 ⟨m, fun _ => 0, []⟩).2 = arrayState d room m pte := by
      rw [hvalid]
      split_ifs <;> rfl
    obtain ⟨hmem, hsame⟩ := getPartitionInfoEfi_log hpart r (hstate.symm ▸ hr)
    have hin := h.inside r hmem
    rwa [hsame, hstate] at hin
  rw [arrayState_sum room m hcount] at hvalid
  by_cases harr : d.ArrayPasses
  swap
  · replace hvalid := hvalid.trans (if_pos harr)
    exact iff_of_true (right_of_none (getPartitionInfoEfi_none hpart hvalid) (hlog.2 hcount))
      ⟨hsize, fun _ _ => ⟨hcount, fun h => absurd h harr⟩⟩
  replace hvalid := hvalid.trans (if_neg (not_not.2 harr))
  rw [right_iff_entry m hpart hsize hpass hpte hcount hvalid]
  exact ⟨fun h => ⟨hsize, fun _ _ => ⟨hcount, fun _ => h⟩⟩, fun h => (h.2 hpass harray).2 harr⟩

/-- A disk whose primary header says that it is one byte longer than its block. -/
def longHeaderDisk : GptDev where
  lba := 1000
  contents := Mem.store (fun _ => 0) GPT_BLOCK_SIZE
    ("EFI PART".toList.map (fun c => UInt8.ofNat c.toNat) ++ bytes32 0x10000 ++ bytes32 513)
  reads := fun _ _ => true

def noRoom : GptRoom where
  head := 0x1000
  memalign := fun _ => none
  apart := by simp
  fits := by simp

theorem efi_long_header : ¬EfiRight longHeaderDisk noRoom (fun _ => 0) 1 := fun h =>
  absurd (headerSize_of_right le_rfl rfl (by decide) h) (by decide)

end InfotmUboot
