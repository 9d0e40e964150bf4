import InfotmUboot.Lib.Extent
import InfotmUboot.Mkimage

/-!
# The files of an image

The table of sizes and the files behind it are laid out by the same rule that the reader adds up
(`dataExtents`), so an image in memory gives each file back. The table and the variable that holds
a size while a file is copied have 32 bits, which a file may not fill (`multiRight_iff`).
-/

namespace InfotmUboot

open Lib

section Layout

/-- The length with its padding. -/
def roundUp (n : ℕ) : ℕ := (n + 3) / 4 * 4

/-- The files, and padding behind each but the last. -/
def dataBytes : List (List UInt8) → List UInt8
  | [] => []
  | [f] => f
  | f :: g :: fs => f ++ List.replicate (roundUp f.length - f.length) 0 ++ dataBytes (g :: fs)

def tableBytes : List (List UInt8) → List UInt8
  | [] => cpuToUimage 0
  | f :: fs => cpuToUimage f.length ++ tableBytes fs

/-- Where the files are, from `b` on. -/
def dataExtents : ℕ → List (List UInt8) → List Extent
  | _, [] => []
  | b, f :: fs => ⟨b, f.length⟩ :: dataExtents (b + roundUp f.length) fs

theorem le_roundUp (n : ℕ) : n ≤ roundUp n := by
  unfold roundUp
  omega

theorem length_tableBytes : ∀ fs : List (List UInt8), (tableBytes fs).length = (fs.length + 1) * 4
  | [] => rfl
  | f :: fs => by
    rw [tableBytes, List.length_append, length_tableBytes fs, List.length_cons]
    change 4 + _ = _
    ring

@[simp]
theorem length_dataExtents : ∀ (b : ℕ) (fs : List (List UInt8)),
    (dataExtents b fs).length = fs.length
  | _, [] => rfl
  | _, _ :: fs => congrArg (· + 1) (length_dataExtents _ fs)

theorem length_dataBytes_cons (f g : List UInt8) (fs : List (List UInt8)) :
    (dataBytes (f :: g :: fs)).length = roundUp f.length + (dataBytes (g :: fs)).length := by
  have hle := le_roundUp f.length
  rw [dataBytes, List.length_append, List.length_append, List.length_replicate]
  omega

theorem dataExtents_laid : ∀ (b : ℕ) (fs : List (List UInt8)),
    Extent.Laid b (b + (dataBytes fs).length) (dataExtents b fs)
  | b, [] => ⟨List.Pairwise.nil, by simp [dataExtents], by simp [dataExtents]⟩
  | b, [f] => ⟨List.pairwise_singleton _ _, by simp [dataExtents],
      by simp [dataExtents, dataBytes, Extent.stop]⟩
  | b, f :: g :: fs => by
    have hrest := dataExtents_laid (b + roundUp f.length) (g :: fs)
    have hone : Extent.Laid b (b + roundUp f.length) [⟨b, f.length⟩] :=
      ⟨List.pairwise_singleton _ _, by simp, by simpa [Extent.stop] using le_roundUp f.length⟩
    rw [length_dataBytes_cons, ← Nat.add_assoc]
    exact hone.append hrest (Nat.le_add_right _ _) (Nat.le_add_right _ _)

variable {m : Mem}

/-- Each file is in its place. -/
theorem dataExtents_hold : ∀ {b i : ℕ} {fs : List (List UInt8)} {f : List UInt8},
    Holds m b (dataBytes fs) → fs[i]? = some f →
      (dataExtents b fs)[i]?
          = some ⟨b + ((fs.take i).map fun g => roundUp g.length).sum, f.length⟩ ∧
        Holds m (b + ((fs.take i).map fun g => roundUp g.length).sum) f
  | b, i, [], f, _, hi => by simp at hi
  | b, 0, [g], f, h, hi => by
    obtain rfl := Option.some.inj hi
    exact ⟨rfl, h⟩
  | b, i + 1, [g], f, h, hi => by simp at hi
  | b, 0, g :: g' :: fs, f, h, hi => by
    obtain rfl := Option.some.inj hi
    rw [dataBytes, List.append_assoc, holds_append] at h
    exact ⟨rfl, h.1⟩
  | b, i + 1, g :: g' :: fs, f, h, hi => by
    have hle := le_roundUp g.length
    rw [dataBytes, holds_append, List.length_append, List.length_replicate,
      Nat.add_sub_cancel' hle] at h
    have hrest := dataExtents_hold h.2 (List.getElem?_cons_succ ▸ hi)
    rw [List.take_succ_cons, List.map_cons, List.sum_cons, ← Nat.add_assoc]
    exact hrest

end Layout

section Written

variable {files : List UInt8 → Option (List UInt8)}

theorem sizeTable_eq {names fs : List (List UInt8)}
    (h : List.Forall₂ (fun n f => files n = some f) names fs) :
    sizeTable files names = some (tableBytes fs) := by
  induction h with
  | nil => rfl
  | cons hf _ ih =>
    rw [sizeTable, hf, Option.bind_eq_bind, Option.bind_some, ih, Option.bind_some, tableBytes]

theorem copyFile_eq {name f out : List UInt8} {pad : Bool} (hf : files name = some f)
    (hlen : f.length < 2 ^ 32 - 1) (h : copyFile files name pad = some out) :
    f.length < 2 ^ 31 ∧
      out = f ++ if pad then List.replicate (roundUp f.length - f.length) 0 else [] := by
  rw [copyFile, hf, Option.bind_eq_bind, Option.bind_some] at h
  by_cases hempty : f = []
  · rw [if_pos hempty] at h
    cases h
  rw [if_neg hempty, s32_natCast (by omega)] at h
  dsimp only at h
  by_cases hbig : f.length < 2 ^ 31
  · refine ⟨hbig, ?_⟩
    have hwrite : hostWrite f f.length = (f, (f.length : ℤ)) := by
      rw [hostWrite, if_neg (by omega), Int.toNat_natCast, List.take_length]
    rw [if_pos hbig, hwrite, if_neg (not_not.2 rfl), Int.tmod_eq_emod_of_nonneg (by omega)] at h
    by_cases hpad : pad = true ∧ (f.length : ℤ) % 4 ≠ 0
    · rw [if_pos hpad, if_pos (by omega)] at h
      rw [if_pos hpad.1, ← Option.some.inj h]
      have htail : (4 - (f.length : ℤ) % 4).toNat = roundUp f.length - f.length := by
        unfold roundUp
        omega
      rw [htail]
    · rw [if_neg hpad] at h
      rw [← Option.some.inj h]
      split_ifs with hp
      · have htail : roundUp f.length - f.length = 0 := by
          unfold roundUp
          have := not_not.1 (not_and.1 hpad hp)
          omega
        rw [htail, List.replicate_zero, List.append_nil]
      · exact (List.append_nil f).symm
  · have hwrite : hostWrite f ((f.length : ℤ) - 2 ^ 32) = ([], -1) := if_pos (by omega)
    rw [if_neg hbig, hwrite, if_pos (by omega)] at h
    cases h

theorem copyFiles_eq : ∀ {names fs : List (List UInt8)} {data : List UInt8},
    List.Forall₂ (fun n f => files n = some f) names fs → (∀ f ∈ fs, f.length < 2 ^ 32 - 1) →
      copyFiles files names = some data → (∀ f ∈ fs, f.length < 2 ^ 31) ∧ data = dataBytes fs
  | _, _, data, .nil, _, h => ⟨by simp, (Option.some.inj h).symm⟩
  | _, _, data, .cons (b := f) hf .nil, hlen, h => by
    obtain ⟨hsmall, hout⟩ := copyFile_eq hf (hlen f List.mem_cons_self) h
    rw [if_neg Bool.false_ne_true, List.append_nil] at hout
    exact ⟨List.forall_mem_singleton.2 hsmall, hout⟩
  | _, _, data, .cons (b := f) hf (.cons hg hfs), hlen, h => by
    obtain ⟨out, hcopy, h⟩ := Option.bind_eq_some_iff.1 h
    obtain ⟨rest, hcopies, h⟩ := Option.bind_eq_some_iff.1 h
    obtain ⟨hsmall, hout⟩ := copyFile_eq hf (hlen f List.mem_cons_self) hcopy
    obtain ⟨hrest, hdata⟩ := copyFiles_eq (.cons hg hfs)
      (fun g hg => hlen g (List.mem_cons_of_mem f hg)) hcopies
    refine ⟨List.forall_mem_cons.2 ⟨hsmall, hrest⟩, ?_⟩
    rw [if_pos rfl] at hout
    rw [← Option.some.inj h, hout, hdata]
    rfl

end Written

section Read

variable {m : Mem} {hdr : ℕ}

theorem uimageToCpu_eq (n : ℕ) (rest : List UInt8) :
    uimageToCpu (cpuToUimage n ++ rest) 0 = u32 n := by
  have h0 : (UInt8.ofNat (n / 2 ^ 24)).toNat = n / 2 ^ 24 % 256 := UInt8.toNat_ofNat'
  have h1 : (UInt8.ofNat (n / 2 ^ 16)).toNat = n / 2 ^ 16 % 256 := UInt8.toNat_ofNat'
  have h2 : (UInt8.ofNat (n / 2 ^ 8)).toNat = n / 2 ^ 8 % 256 := UInt8.toNat_ofNat'
  have h3 : (UInt8.ofNat n).toNat = n % 256 := UInt8.toNat_ofNat'
  change (UInt8.ofNat (n / 2 ^ 24)).toNat * 2 ^ 24 + (UInt8.ofNat (n / 2 ^ 16)).toNat * 2 ^ 16 +
    (UInt8.ofNat (n / 2 ^ 8)).toNat * 2 ^ 8 + (UInt8.ofNat n).toNat = u32 n
  rw [h0, h1, h2, h3, u32]
  omega

theorem uimageToCpu_append (as bs : List UInt8) (i : ℕ) :
    uimageToCpu (as ++ bs) (as.length + i) = uimageToCpu bs i := by
  unfold uimageToCpu
  simp only [Nat.add_assoc, List.getD_append_right _ _ _ _ (Nat.le_add_right _ _),
    Nat.add_sub_cancel_left]

theorem length_headerFields (o : ImageOpts) (payload : List UInt8) (hcrc : ℕ) :
    (headerFields o payload hcrc).length = imageHeaderSize := by
  simp only [headerFields, List.length_append, length_fit]
  rfl

/-- The header has the length of the payload. -/
theorem imageGetSize_header (o : ImageOpts) (payload : List UInt8) (hcrc : ℕ) :
    imageGetSize (headerFields o payload hcrc) = u32 payload.length := by
  have hfield := uimageToCpu_append
    (cpuToUimage IH_MAGIC ++ (cpuToUimage hcrc ++ cpuToUimage o.time))
    (cpuToUimage payload.length ++ (cpuToUimage o.addr ++ (cpuToUimage o.ep ++
      (cpuToUimage (crc32 0 (payload.take (u32 payload.length))) ++
        ([o.os, o.arch, o.type, o.comp] ++ fit IH_NMLEN o.name))))) 0
  rw [uimageToCpu_eq, List.append_assoc, List.append_assoc] at hfield
  exact hfield

/-- The slots of the table. -/
theorem tableBytes_slot : ∀ {b i : ℕ} {fs : List (List UInt8)}, Holds m b (tableBytes fs) →
    i ≤ fs.length → Holds m (b + i * 4) (cpuToUimage ((fs[i]?.map List.length).getD 0))
  | b, i, [], h, hi => by
    obtain rfl := Nat.le_zero.1 hi
    simpa [tableBytes] using h
  | b, 0, f :: fs, h, _ => by
    rw [tableBytes, holds_append] at h
    simpa using h.1
  | b, i + 1, f :: fs, h, hi => by
    rw [tableBytes, holds_append] at h
    have hrest := tableBytes_slot h.2 (Nat.le_of_succ_le_succ hi)
    have hplace : b + (cpuToUimage f.length).length + i * 4 = b + (i + 1) * 4 := by
      change b + 4 + i * 4 = _
      ring
    rw [hplace] at hrest
    rwa [List.getElem?_cons_succ]

theorem sizeSlot_eq {fs : List (List UInt8)} (h : Holds m (hdr + imageHeaderSize) (tableBytes fs))
    (hmem : hdr + imageHeaderSize + (fs.length + 1) * 4 ≤ 2 ^ 32) {i : ℕ} (hi : i ≤ fs.length) :
    sizeSlot m hdr i = u32 ((fs[i]?.map List.length).getD 0) := by
  have hslot := tableBytes_slot h hi
  have hword := uimageToCpu_eq ((fs[i]?.map List.length).getD 0) []
  rw [List.append_nil, ← hslot] at hword
  rw [sizeSlot, u32_of_lt (by omega)]
  exact hword

/-- The table ends at its zero. -/
theorem countSlots_eq {k : ℕ} (hzero : sizeSlot m hdr k = 0)
    (hslots : ∀ i < k, sizeSlot m hdr i ≠ 0) : ∀ {n i : ℕ}, i ≤ k → k - i < n →
      countSlots m hdr n i = some k
  | 0, i, _, hn => absurd hn (Nat.not_lt_zero _)
  | n + 1, i, hi, hn => by
    by_cases heq : i = k
    · subst heq
      rw [countSlots, if_neg (not_not.2 hzero)]
    · have hlt : i < k := by omega
      rw [countSlots, if_pos (hslots i hlt)]
      exact countSlots_eq hzero hslots hlt (by omega)

theorem padded_eq {n : ℕ} (h : n < 2 ^ 31) : andNot (u32 (n + 3)) 3 = roundUp n := by
  have hmask : andNot (n + 3) 3 = n + 3 - (n + 3) % 4 := andNot_mask (a := 4) (k := 2) rfl (n + 3)
  rw [u32_of_lt (by omega), hmask]
  unfold roundUp
  omega

/-- The padded sizes that the reader adds up. -/
theorem offset_eq {fs : List (List UInt8)} (hsmall : ∀ f ∈ fs, f.length < 2 ^ 31)
    (hslot : ∀ i ≤ fs.length, sizeSlot m hdr i = u32 ((fs[i]?.map List.length).getD 0)) (i : ℕ)
    (hi : i ≤ fs.length) : (List.range i).foldl
      (fun offset i => offset + andNot (u32 (sizeSlot m hdr i + 3)) 3) 0 =
        ((fs.take i).map fun g => roundUp g.length).sum := by
  induction i with
  | zero => rfl
  | succ i ih =>
    have hlt : i < fs.length := hi
    have hlen : fs[i].length < 2 ^ 31 := hsmall _ (List.getElem_mem hlt)
    have hone : sizeSlot m hdr i = fs[i].length := by
      rw [hslot i hlt.le, List.getElem?_eq_getElem hlt, Option.map_some, Option.getD_some,
        u32_of_lt (by omega)]
    rw [List.range_succ, List.foldl_append, ih hlt.le, List.foldl_cons, List.foldl_nil, hone,
      padded_eq hlen, List.take_succ_eq_append_getElem hlt, List.map_append, List.sum_append,
      List.map_singleton, List.sum_singleton]

end Read

section Multi

variable (m : Mem) (hdr : ℕ) (fs : List (List UInt8))

/-- The image at `hdr` gives the files back, each from a place of its own inside the payload. -/
def MultiRight : Prop :=
  imageMultiCount m hdr = some fs.length ∧
  (∃ es : List Extent, es.length = fs.length ∧
    Extent.Laid (hdr + imageHeaderSize)
      (hdr + imageHeaderSize + imageGetSize (m.load hdr imageHeaderSize)) es ∧
    ∀ i f e, fs[i]? = some f → es[i]? = some e →
      imageMultiGetimg m hdr i = some (e.start, e.size) ∧ e.size = f.length ∧
        Holds m e.start f) ∧
  ∀ i, fs.length ≤ i → imageMultiGetimg m hdr i = some (0, 0)

variable {m hdr fs} {o : ImageOpts} {files : List UInt8 → Option (List UInt8)}
  {names : List (List UInt8)} {image : List UInt8}

theorem mkimageMulti_eq (hnames : names ≠ []) (hsep : ∀ n ∈ names, 0x3a ∉ n)
    (hfiles : List.Forall₂ (fun n f => files n = some f) names fs) :
    mkimageMulti files o ([0x3a].intercalate names) = (copyFiles files names).map fun data =>
      imageHeader o (tableBytes fs ++ data) ++ (tableBytes fs ++ data) := by
  rw [mkimageMulti, List.splitOn_intercalate 0x3a hsep hnames, sizeTable_eq hfiles,
    Option.bind_eq_bind, Option.bind_some]
  rcases copyFiles files names with _ | data <;> rfl

/-- The parts of an image in memory, and the length in its header. -/
theorem image_parts {data : List UInt8}
    (hmem : Holds m hdr (imageHeader o (tableBytes fs ++ data) ++ (tableBytes fs ++ data)))
    (hend : hdr + (imageHeader o (tableBytes fs ++ data) ++ (tableBytes fs ++ data)).length ≤
      2 ^ 32) :
    hdr + imageHeaderSize + (fs.length + 1) * 4 + data.length ≤ 2 ^ 32 ∧
      imageGetSize (m.load hdr imageHeaderSize) = (fs.length + 1) * 4 + data.length ∧
      Holds m (hdr + imageHeaderSize) (tableBytes fs) ∧
      Holds m (hdr + imageHeaderSize + (fs.length + 1) * 4) data := by
  rw [List.length_append, imageHeader, length_headerFields, List.length_append,
    length_tableBytes] at hend
  rw [holds_append, imageHeader, length_headerFields, holds_append, length_tableBytes] at hmem
  obtain ⟨hheader, htable, hdata⟩ := hmem
  unfold Holds at hheader
  rw [length_headerFields] at hheader
  have hsize : imageHeaderSize = 64 := rfl
  refine ⟨by omega, ?_, htable, hdata⟩
  rw [hheader, imageGetSize_header, List.length_append, length_tableBytes, u32_of_lt (by omega)]

/-- A file is no longer than the payload it is in. -/
theorem lens_of_multiRight {n : ℕ} (hsize : imageGetSize (m.load hdr imageHeaderSize) < n)
    (h : MultiRight m hdr fs) : ∀ f ∈ fs, f.length < n := by
  obtain ⟨-, ⟨es, hlen, hlaid, hes⟩, -⟩ := h
  intro f hf
  obtain ⟨i, hi, rfl⟩ := List.getElem_of_mem hf
  have hmem : es[i] ∈ es := List.getElem_mem (hlen ▸ hi)
  have hlo := hlaid.lo_le _ hmem
  have hhi := hlaid.le_hi _ hmem
  obtain ⟨-, heq, -⟩ := hes i fs[i] es[i] (List.getElem?_eq_getElem hi)
    (List.getElem?_eq_getElem (hlen ▸ hi))
  unfold Extent.stop at hhi
  omega

theorem multiRight_of_parts (hsmall : ∀ f ∈ fs, f.length < 2 ^ 31) (hne : ∀ f ∈ fs, f ≠ [])
    (hend : hdr + imageHeaderSize + (fs.length + 1) * 4 + (dataBytes fs).length ≤ 2 ^ 32)
    (hsize : imageGetSize (m.load hdr imageHeaderSize) =
      (fs.length + 1) * 4 + (dataBytes fs).length)
    (htable : Holds m (hdr + imageHeaderSize) (tableBytes fs))
    (hdata : Holds m (hdr + imageHeaderSize + (fs.length + 1) * 4) (dataBytes fs)) :
    MultiRight m hdr fs := by
  have hslot : ∀ i ≤ fs.length, sizeSlot m hdr i = u32 ((fs[i]?.map List.length).getD 0) :=
    fun i hi => sizeSlot_eq htable (by omega) hi
  have hfile (i : ℕ) (hi : i < fs.length) : sizeSlot m hdr i = fs[i].length := by
    have hlt := hsmall _ (List.getElem_mem hi)
    rw [hslot i hi.le, List.getElem?_eq_getElem hi, Option.map_some, Option.getD_some,
      u32_of_lt (by omega)]
  have hcount : imageMultiCount m hdr = some fs.length := by
    refine countSlots_eq ?_ (fun i hi => ?_) (Nat.zero_le _) (by omega)
    · rw [hslot _ le_rfl, List.getElem?_eq_none le_rfl]
      rfl
    · have hpos := List.length_pos_iff.2 (hne _ (List.getElem_mem hi))
      rw [hfile i hi]
      omega
  have hlaid := dataExtents_laid (hdr + imageHeaderSize + (fs.length + 1) * 4) fs
  refine ⟨hcount, ⟨dataExtents (hdr + imageHeaderSize + (fs.length + 1) * 4) fs,
    length_dataExtents _ _, ?_, fun i f e hf he => ?_⟩, fun i hi => ?_⟩
  · rw [hsize, ← Nat.add_assoc]
    exact ⟨hlaid.apart, fun e he => (Nat.le_add_right _ _).trans (hlaid.lo_le e he), hlaid.le_hi⟩
  · obtain ⟨hplace, hholds⟩ := dataExtents_hold hdata hf
    obtain rfl := Option.some.inj (hplace.symm.trans he)
    obtain ⟨hi, rfl⟩ := List.getElem?_eq_some_iff.1 hf
    have hhi := hlaid.le_hi _ (List.mem_of_getElem? hplace)
    have hpos := List.length_pos_iff.2 (hne _ (List.getElem_mem hi))
    unfold Extent.stop at hhi
    dsimp only at hhi
    refine ⟨?_, rfl, hholds⟩
    rw [imageMultiGetimg, hcount, Option.bind_eq_bind, Option.bind_some]
    dsimp only
    rw [if_pos hi, offset_eq hsmall hslot i hi.le, u32_of_lt (by omega), hfile i hi]
  · rw [imageMultiGetimg, hcount, Option.bind_eq_bind, Option.bind_some]
    exact if_neg (Nat.not_lt.2 hi)

/-- An image in memory gives the files back just if each length fits into the table and into the
variable. -/
theorem multi_right_iff (hnames : names ≠ []) (hsep : ∀ n ∈ names, 0x3a ∉ n)
    (hfiles : List.Forall₂ (fun n f => files n = some f) names fs) (hne : ∀ f ∈ fs, f ≠ [])
    (himage : mkimageMulti files o ([0x3a].intercalate names) = some image)
    (hmem : Holds m hdr image) (hend : hdr + image.length ≤ 2 ^ 32) :
    MultiRight m hdr fs ↔ ∀ f ∈ fs, f.length < 2 ^ 32 - 1 := by
  rw [mkimageMulti_eq hnames hsep hfiles] at himage
  obtain ⟨data, hcopy, rfl⟩ := Option.map_eq_some_iff.1 himage
  obtain ⟨hfits, hsize, htable, hdata⟩ := image_parts hmem hend
  have hlen : imageHeaderSize = 64 := rfl
  constructor
  · exact lens_of_multiRight (by omega)
  · intro hlens
    obtain ⟨hsmall, rfl⟩ := copyFiles_eq hfiles hlens hcopy
    exact multiRight_of_parts hsmall hne hfits hsize htable hdata

theorem length_image (o : ImageOpts) (payload : List UInt8) :
    (imageHeader o payload ++ payload).length = imageHeaderSize + payload.length := by
  rw [List.length_append, imageHeader, length_headerFields]

/-- Three bytes and five. -/
theorem multi_right_iff_two : ∃ (files : List UInt8 → Option (List UInt8)) (o : ImageOpts)
    (image : List UInt8) (m : Mem), mkimageMulti files o [0x61, 0x3a, 0x62] = some image ∧
      (MultiRight m 0 [[1, 2, 3], [4, 5, 6, 7, 8]] ↔
        ∀ f ∈ ([[1, 2, 3], [4, 5, 6, 7, 8]] : List (List UInt8)), f.length < 2 ^ 32 - 1) := by
  have hfiles : List.Forall₂ (fun n f =>
      (if n = [0x61] then some [1, 2, 3] else some [4, 5, 6, 7, 8]) = some f)
      ([[0x61], [0x62]] : List (List UInt8)) ([[1, 2, 3], [4, 5, 6, 7, 8]] : List (List UInt8)) :=
    .cons rfl (.cons rfl .nil)
  have himage := mkimageMulti_eq (o := ⟨0, 0, 0, 0, 0, 4, 0, []⟩) (by decide) (by decide) hfiles
  have hcopy : copyFiles (fun n => if n = [0x61] then some [1, 2, 3] else some [4, 5, 6, 7, 8])
      [[0x61], [0x62]] = some [1, 2, 3, 0, 4, 5, 6, 7, 8] := by decide
  rw [hcopy, Option.map_some] at himage
  have hright := multi_right_iff (by decide) (by decide) hfiles (by decide) himage
    (holds_store (fun _ => 0) 0 _) (by rw [length_image]; decide)
  exact ⟨_, _, _, _, himage, hright⟩

/-- A file of 4 GiB, which the table has as none. -/
theorem multi_not_right : ¬∀ (files : List UInt8 → Option (List UInt8)) (o : ImageOpts)
    (names fs : List (List UInt8)) (image : List UInt8) (m : Mem) (hdr : ℕ), names ≠ [] →
      (∀ n ∈ names, 0x3a ∉ n) → List.Forall₂ (fun n f => files n = some f) names fs →
        (∀ f ∈ fs, f ≠ []) → mkimageMulti files o ([0x3a].intercalate names) = some image →
          Holds m hdr image → hdr + image.length ≤ 2 ^ 32 → MultiRight m hdr fs := by
  intro h
  obtain ⟨f, hlen⟩ : ∃ f : List UInt8, f.length = 2 ^ 32 :=
    ⟨List.replicate _ 0, List.length_replicate⟩
  have hne : f ≠ [] := fun hf => absurd hlen (by rw [hf]; decide)
  have hcopy : copyFiles (fun _ => some f) [[0x61]] = some [] := by
    have hwrite : hostWrite f 0 = ([], 0) := by
      rw [hostWrite, if_neg (by decide)]
      rfl
    have hsize : s32 (2 ^ 32 : ℕ) = 0 := by decide
    rw [copyFiles, copyFile, Option.bind_eq_bind, Option.bind_some, if_neg hne, hlen, hsize]
    dsimp only
    rw [hwrite]
    rfl
  have hfiles : List.Forall₂ (fun n g => (fun _ => some f : List UInt8 → _) n = some g) [[0x61]]
      [f] := .cons rfl .nil
  have himage := mkimageMulti_eq (o := ⟨0, 0, 0, 0, 0, 4, 0, []⟩) (by decide) (by decide) hfiles
  rw [hcopy, Option.map_some] at himage
  have hmem := holds_store (fun _ => 0) 0 (imageHeader ⟨0, 0, 0, 0, 0, 4, 0, []⟩
    (tableBytes [f] ++ []) ++ (tableBytes [f] ++ []))
  have hend : 0 + (imageHeader ⟨0, 0, 0, 0, 0, 4, 0, []⟩ (tableBytes [f] ++ []) ++
      (tableBytes [f] ++ [])).length ≤ 2 ^ 32 := by
    rw [length_image, List.append_nil, length_tableBytes, List.length_singleton]
    decide
  have hright := h _ _ [[0x61]] [f] _ _ 0 (by decide) (by decide) hfiles
    (List.forall_mem_singleton.2 hne) himage hmem hend
  have hsize := (image_parts hmem hend).2.1
  have hlt := lens_of_multiRight (n := 2 ^ 32) (by rw [hsize, List.length_singleton]; decide) hright
    f (List.mem_singleton_self f)
  rw [hlen] at hlt
  exact absurd hlt (lt_irrefl _)

end Multi

end InfotmUboot
