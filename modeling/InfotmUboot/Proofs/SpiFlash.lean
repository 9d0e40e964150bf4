import InfotmUboot.SpiFlash
import InfotmUboot.Lib.Pieces

/-!
# Writing to and erasing the SPI flash

The older driver sends its data page by page. The one that is built sends 256 bytes at a time from
wherever the write starts, so the two agree only where that makes no difference; and it erases the
chip as a whole.
-/

namespace InfotmUboot

open Lib

namespace SpiChip

/-- The bytes of the chip once `data` is programmed at `offs`. -/
def programmed (m : Mem) (offs : ℕ) (data : List UInt8) : Mem := fun a =>
  if offs ≤ a ∧ a < offs + data.length then m a &&& data.getD (a - offs) 0 else m a

theorem programmed_nil (m : Mem) (offs : ℕ) : programmed m offs [] = m := by
  funext a
  exact if_neg (by rw [List.length_nil]; omega)

theorem programmed_append (m : Mem) (offs : ℕ) (as bs : List UInt8) :
    programmed m offs (as ++ bs) = programmed (programmed m offs as) (offs + as.length) bs := by
  funext a
  simp only [programmed, List.length_append]
  by_cases h1 : offs ≤ a ∧ a < offs + as.length
  · rw [if_pos (by omega), if_neg (by omega), if_pos h1, List.getD_append _ _ _ _ (by omega)]
  · by_cases h2 : offs + as.length ≤ a ∧ a < offs + as.length + bs.length
    · rw [if_pos (by omega), if_pos h2, if_neg h1, List.getD_append_right _ _ _ _ (by omega)]
      congr 2
      omega
    · rw [if_neg (by omega), if_neg h2, if_neg h1]

theorem programmed_one (m : Mem) (a : ℕ) (b : UInt8) : programmed m a [b] =
    m.store a [m a &&& b] := by
  funext x
  simp only [programmed, Mem.store, List.length_singleton]
  split_ifs with h
  · obtain rfl : x = a := by omega
    simp
  · rfl

/-- What the chip makes of bytes that stay inside of a page. -/
theorem program_eq : ∀ {bs : List UInt8} {m : Mem} {a : ℕ}, a % 256 + bs.length ≤ 256 →
    program m a bs = programmed m a bs
  | [], m, a, _ => (programmed_nil m a).symm
  | [b], m, a, _ => by rw [program, program, programmed_one]
  | b :: b' :: bs, m, a, h => by
    simp only [List.length_cons] at h
    have hnext : nextInPage a = a + 1 := by
      unfold nextInPage
      omega
    rw [program, hnext, program_eq (by simp only [List.length_cons]; omega), ← programmed_one]
    exact (programmed_append m a [b] (b' :: bs)).symm

/-- Bytes of other pages stay as they are, wherever the bytes of a frame go. -/
theorem program_other : ∀ {bs : List UInt8} {m : Mem} {a x : ℕ}, x / 256 ≠ a / 256 →
    program m a bs x = m x
  | [], _, _, _, _ => rfl
  | b :: bs, m, a, x, h => by
    have hpage : nextInPage a / 256 = a / 256 := by
      unfold nextInPage
      omega
    rw [program, program_other (by rwa [hpage])]
    have hne : x ≠ a := fun he => h (by rw [he])
    exact if_neg (by rw [List.length_singleton]; omega)

end SpiChip

section Write

/-- The frames that program the piece `p`; the two drivers clock the status out with different
bytes. -/
def issue (dummy : UInt8) (p : ℕ × List UInt8) : List SpiFrame :=
  [[FLASH_CMD_WREN], [FLASH_CMD_RDSR, dummy], Imapx800.spiHeader p.1 ++ p.2,
    [FLASH_CMD_RDSR, dummy]]

/-- The address and the data of a frame that programs. -/
def writeOf : SpiFrame → Option (ℕ × List UInt8)
  | cmd :: a2 :: a1 :: a0 :: data =>
    if cmd = FLASH_CMD_WRIT then some (a2.toNat * 2 ^ 16 + a1.toNat * 2 ^ 8 + a0.toNat, data)
      else none
  | _ => none

def writesOf (fs : List SpiFrame) : List (ℕ × List UInt8) := fs.filterMap writeOf

/-- A write covers just its range, page by page, the chip then has the data, and the drivers
agree. -/
structure FlashWriteRight (data : List UInt8) (offs : ℕ) : Prop where
  covers : Covers offs (writesOf (X800a.flashVsWrite data offs)) data
  pages : ∀ p ∈ writesOf (X800a.flashVsWrite data offs), InPage 256 p
  holds : ∀ c : SpiChip, (c.frames (X800a.flashVsWrite data offs)).mem =
    SpiChip.programmed c.mem offs data
  agree : ∀ c : SpiChip, (c.frames (X800a.flashVsWrite data offs)).mem =
    (c.frames (Imapx800.flashVsWrite data offs)).mem

section Headers

theorem ofNat_congr {a b : ℕ} (h : a % 256 = b % 256) : UInt8.ofNat a = UInt8.ofNat b := by
  rw [← UInt8.toNat_inj]
  simpa using h

theorem bytes32_digits {a2 a1 a0 : ℕ} (h2 : a2 < 2 ^ 8) (h1 : a1 < 2 ^ 8) :
    bytes32 (2 ^ 8 * (a0 * 2 ^ 16 + a1 * 2 ^ 8 + a2) + 2) =
      [FLASH_CMD_WRIT, UInt8.ofNat a2, UInt8.ofNat a1, UInt8.ofNat a0] := by
  have hcmd : FLASH_CMD_WRIT = UInt8.ofNat 2 := rfl
  rw [hcmd]
  unfold bytes32
  exact congrArg₂ _ (ofNat_congr (by omega)) (congrArg₂ _ (ofNat_congr (by omega)) (congrArg₂ _
    (ofNat_congr (by omega)) (congrArg₂ _ (ofNat_congr (by omega)) rfl)))

/-- The command and the address, whichever driver puts them together. -/
theorem writeHeader_eq (offs : ℕ) : X800a.writeHeader offs = Imapx800.spiHeader offs := by
  unfold X800a.writeHeader
  have hmask : andNot (swab32 (u32 offs)) 0xff = swab32 (u32 offs) - swab32 (u32 offs) % 256 :=
    @andNot_mask 256 8 rfl _
  have hor (q : ℕ) : 2 ^ 8 * q ||| FLASH_CMD_WRIT.toNat = 2 ^ 8 * q + 2 :=
    (Nat.two_pow_add_eq_or_of_lt (by decide) q).symm
  have hq : swab32 (u32 offs) - swab32 (u32 offs) % 256 =
      2 ^ 8 * (u32 offs % 2 ^ 8 * 2 ^ 16 + u32 offs / 2 ^ 8 % 2 ^ 8 * 2 ^ 8 +
        u32 offs / 2 ^ 16 % 2 ^ 8) := by
    unfold swab32
    omega
  rw [hmask, hq, hor]
  clear hmask hor hq
  have h0 : u32 offs % 2 ^ 8 = offs % 2 ^ 8 := Nat.mod_mod_of_dvd _ (by norm_num)
  have h1 : u32 offs / 2 ^ 8 % 2 ^ 8 = offs / 2 ^ 8 % 2 ^ 8 := by
    unfold u32
    omega
  have h2 : u32 offs / 2 ^ 16 % 2 ^ 8 = offs / 2 ^ 16 % 2 ^ 8 := by
    unfold u32
    omega
  rw [h0, h1, h2]
  clear h0 h1 h2
  have b1 : offs / 2 ^ 8 % 2 ^ 8 < 2 ^ 8 := Nat.mod_lt _ (by norm_num)
  have b2 : offs / 2 ^ 16 % 2 ^ 8 < 2 ^ 8 := Nat.mod_lt _ (by norm_num)
  rw [bytes32_digits b2 b1]
  unfold Imapx800.spiHeader
  exact congrArg _ (congrArg₂ _ (ofNat_congr (Nat.mod_mod _ _)) (congrArg₂ _
    (ofNat_congr (Nat.mod_mod _ _)) (congrArg₂ _ (ofNat_congr (Nat.mod_mod _ _)) rfl)))

theorem writeOf_header (a : ℕ) (bs : List UInt8) :
    writeOf (Imapx800.spiHeader a ++ bs) = some (a % 2 ^ 24, bs) := by
  unfold Imapx800.spiHeader
  simp only [List.cons_append, List.nil_append, writeOf, if_true, UInt8.toNat_ofNat']
  congr 2
  omega

theorem writeOf_lt {f : SpiFrame} {p : ℕ × List UInt8} (h : writeOf f = some p) : p.1 < 2 ^ 24 := by
  unfold writeOf at h
  split at h
  · rename_i cmd a2 a1 a0 data
    split_ifs at h
    rw [← Option.some.inj h]
    have h2 := a2.toNat_lt
    have h1 := a1.toNat_lt
    have h0 := a0.toNat_lt
    dsimp only
    omega
  · cases h

end Headers

section Pieces

/-- The pieces of 256 bytes, wherever `offs` lies. -/
def blindPieces : ℕ → ℕ → List UInt8 → List (ℕ × List UInt8)
  | 0, _, _ => []
  | n + 1, offs, data =>
    if data.length = 0 then []
    else
      let len := if data.length < spibytes then data.length else spibytes
      (offs, data.take len) :: blindPieces n (offs + len) (data.drop len)

theorem covers_blind : ∀ {n offs : ℕ} {data : List UInt8}, data.length < n →
    Covers offs (blindPieces n offs data) data
  | n + 1, offs, data, h => by
    rw [blindPieces]
    split_ifs with hd hs
    · exact List.length_eq_zero_iff.1 hd
    · exact covers_cut (by omega) (Nat.le_refl _) (covers_blind (by rw [List.length_drop]; omega))
    · unfold spibytes at hs ⊢
      exact covers_cut (by omega) (by omega) (covers_blind (by rw [List.length_drop]; omega))

theorem inPage_blind : ∀ {n offs : ℕ} {data : List UInt8},
    (offs % 256 = 0 ∨ offs % 256 + data.length ≤ 256) → ∀ p ∈ blindPieces n offs data, InPage 256 p
  | 0, _, _, _, _, hp => absurd hp List.not_mem_nil
  | n + 1, offs, data, h, p, hp => by
    rw [blindPieces] at hp
    unfold spibytes at hp
    split_ifs at hp with hd hs
    · exact absurd hp List.not_mem_nil
    · rcases List.mem_cons.1 hp with rfl | hp
      · unfold InPage
        rw [List.length_take]
        omega
      · refine inPage_blind (Or.inr ?_) p hp
        rw [List.length_drop]
        omega
    · rcases List.mem_cons.1 hp with rfl | hp
      · unfold InPage
        rw [List.length_take]
        omega
      · refine inPage_blind ?_ p hp
        rw [List.length_drop]
        omega

end Pieces

section Frames

variable (dummy : UInt8)

theorem frames_append (c : SpiChip) (fs gs : List SpiFrame) :
    c.frames (fs ++ gs) = (c.frames fs).frames gs :=
  List.foldl_append

theorem frames_issue (c : SpiChip) (p : ℕ × List UInt8) :
    (c.frames (issue dummy p)).mem = SpiChip.program c.mem (p.1 % 2 ^ 24) p.2 := by
  have haddr : (UInt8.ofNat (p.1 / 2 ^ 16)).toNat * 2 ^ 16 + (UInt8.ofNat (p.1 / 2 ^ 8)).toNat * 2 ^
    8 +
      (UInt8.ofNat p.1).toNat = p.1 % 2 ^ 24 := by
    simp only [UInt8.toNat_ofNat']
    omega
  rw [← haddr]
  rfl

/-- The chip holds the data once it was sent in pieces that stay inside their pages. -/
theorem frames_covers : ∀ {ps : List (ℕ × List UInt8)} {offs : ℕ} {data : List UInt8} (c : SpiChip),
    Covers offs ps data → (∀ p ∈ ps, InPage 256 p) → offs + data.length ≤ 2 ^ 24 →
      (c.frames (ps.flatMap (issue dummy))).mem = SpiChip.programmed c.mem offs data
  | [], offs, data, c, h, _, _ => by
    obtain rfl : data = [] := h
    exact (SpiChip.programmed_nil _ _).symm
  | p :: ps, offs, data, c, h, hall, hend => by
    have hlt := h.lt p List.mem_cons_self
    obtain ⟨hp, -, rest, rfl, hrest⟩ := h
    have hpage := hall p List.mem_cons_self
    rw [List.length_append] at hend hlt
    rw [List.flatMap_cons, frames_append, frames_covers _ hrest
      (fun q hq => hall q (List.mem_cons_of_mem _ hq)) (by omega), frames_issue,
      Nat.mod_eq_of_lt (by omega), SpiChip.program_eq hpage, hp, ← SpiChip.programmed_append]

theorem writesOf_issue : ∀ ps : List (ℕ × List UInt8),
    writesOf (ps.flatMap (issue dummy)) = ps.map fun p => (p.1 % 2 ^ 24, p.2)
  | [] => rfl
  | p :: ps => by
    have hone : writesOf (issue dummy p) = [(p.1 % 2 ^ 24, p.2)] := by
      have hw := writeOf_header p.1 p.2
      unfold writesOf issue
      rw [List.filterMap_cons_none rfl, List.filterMap_cons_none rfl, List.filterMap_cons_some hw,
        List.filterMap_cons_none rfl]
      rfl
    have happ (fs gs : List SpiFrame) : writesOf (fs ++ gs) = writesOf fs ++ writesOf gs :=
      List.filterMap_append
    rw [List.flatMap_cons, happ, hone, writesOf_issue ps]
    rfl

theorem writesOf_covers {ps : List (ℕ × List UInt8)} {offs : ℕ} {data : List UInt8}
    (h : Covers offs ps data) (hend : offs + data.length ≤ 2 ^ 24) :
    writesOf (ps.flatMap (issue dummy)) = ps := by
  rw [writesOf_issue]
  refine (List.map_congr_left fun p hp => ?_).trans (List.map_id ps)
  have := h.lt p hp
  exact Prod.ext (Nat.mod_eq_of_lt (by omega)) rfl

end Frames

section Drivers

theorem x800a_frames : ∀ (n offs : ℕ) (data : List UInt8),
    X800a.flashVsWriteLoop n offs data = (blindPieces n offs data).flatMap (issue FLASH_CMD_RDSR)
  | 0, _, _ => rfl
  | n + 1, offs, data => by
    rw [X800a.flashVsWriteLoop, blindPieces]
    by_cases hd : data.length = 0
    · rw [if_pos hd, if_pos hd]
      rfl
    · rw [if_neg hd, if_neg hd]
      dsimp only
      rw [x800a_frames, List.flatMap_cons, writeHeader_eq]
      rfl

namespace Imapx800

/-- What the loop knows of where it is: nothing was sent yet, or just up to the end of a page. -/
def SpiTransfer.At (spi : SpiTransfer) (offs : ℕ) : Prop :=
  spi.spiCurrentLen = 0 ∧ spi.spiAdditionAddr = offs % 256 ∧ spi.spiAddr = offs ∨
    spi.spiAdditionAddr + spi.spiCurrentLen = 256 ∧ spi.spiAddr + spi.spiCurrentLen = offs ∧
      offs % 256 = 0

/-- The next piece goes to the end of the page, or of the data. -/
theorem getLen_at {spi : SpiTransfer} {offs : ℕ} (h : spi.At offs) (hfit : offs < 2 ^ 32) :
    (spiWriteGetLen spi).1 = decide (0 < spi.spiLen) ∧ (spiWriteGetLen spi).2.spiAddr = offs ∧
      (0 < spi.spiLen →
        (spiWriteGetLen spi).2.spiCurrentLen = min (256 - offs % 256) spi.spiLen ∧
        (spiWriteGetLen spi).2.spiLen = spi.spiLen - min (256 - offs % 256) spi.spiLen ∧
        (spiWriteGetLen spi).2.spiAdditionAddr = offs % 256) := by
  have hmove : (if u32 (spi.spiAdditionAddr + spi.spiCurrentLen) = spibytes then
      { spi with spiAdditionAddr := 0, spiAddr := u32 (spi.spiAddr + spi.spiCurrentLen) }
      else { spi with spiAdditionAddr := u32 (spi.spiAdditionAddr + spi.spiCurrentLen) }) =
      { spi with spiAdditionAddr := offs % 256, spiAddr := offs } := by
    unfold spibytes
    rcases h with ⟨h1, h2, h3⟩ | ⟨h1, h2, h3⟩
    · rw [h1, h2, Nat.add_zero, u32_of_lt (by omega), if_neg (by omega), h3]
    · rw [h1, h2, u32_of_lt (by norm_num), if_pos rfl, u32_of_lt hfit, h3]
  unfold spiWriteGetLen
  dsimp only
  rw [hmove]
  dsimp only
  unfold spibytes
  split_ifs with ha hb
  · refine ⟨(decide_eq_true (by omega)).symm, rfl, fun _ => ⟨?_, ?_, rfl⟩⟩ <;> dsimp only <;> omega
  · refine ⟨(decide_eq_true hb).symm, rfl, fun _ => ⟨?_, ?_, rfl⟩⟩ <;> dsimp only <;> omega
  · exact ⟨(decide_eq_false hb).symm, rfl, fun h0 => absurd h0 hb⟩

end Imapx800

theorem getLen_none {spi : Imapx800.SpiTransfer} (h : spi.spiLen = 0) :
    (Imapx800.spiWriteGetLen spi).1 = false := by
  unfold Imapx800.spiWriteGetLen
  dsimp only
  split_ifs with h1 h2 h3 h4 h5 <;> simp_all

theorem flashVsWriteLoop_none {spi : Imapx800.SpiTransfer} (h : spi.spiLen = 0) :
    ∀ n : ℕ, Imapx800.flashVsWriteLoop n spi [] = []
  | 0 => rfl
  | n + 1 => by
    rw [Imapx800.flashVsWriteLoop, getLen_none h]
    exact if_neg (by simp)

theorem imapx800_frames : ∀ (n : ℕ) {spi : Imapx800.SpiTransfer} {offs : ℕ} {data : List UInt8},
    spi.At offs → spi.spiLen = data.length → offs + data.length < 2 ^ 32 →
      Imapx800.flashVsWriteLoop n spi data = (pagePieces 256 n offs data).flatMap (issue 0)
  | 0, _, _, _, _, _, _ => rfl
  | n + 1, spi, offs, data, hat, hlen, hfit => by
    obtain ⟨hgo, haddr, hrest⟩ := Imapx800.getLen_at hat (by omega)
    rw [Imapx800.flashVsWriteLoop, pagePieces]
    by_cases hd : data.length = 0
    · rw [if_pos hd, hgo, if_neg (by simp; omega)]
      rfl
    · obtain ⟨hcur, hleft, hadd⟩ := hrest (by omega)
      rw [hlen] at hcur hleft
      rw [if_neg hd, hgo, if_pos (by simp; omega), haddr, hcur, List.flatMap_cons]
      have hrest : Imapx800.flashVsWriteLoop n (Imapx800.spiWriteGetLen spi).2
          (data.drop (min (256 - offs % 256) data.length)) =
          (pagePieces 256 n (offs + min (256 - offs % 256) data.length)
            (data.drop (min (256 - offs % 256) data.length))).flatMap (issue 0) := by
        by_cases hend : data.length ≤ 256 - offs % 256
        · rw [Nat.min_eq_right hend, List.drop_length, pagePieces_nil]
          refine flashVsWriteLoop_none ?_ n
          rw [hleft]
          omega
        · refine imapx800_frames n (Or.inr ⟨?_, ?_, ?_⟩) ?_ ?_ <;> (try rw [List.length_drop]) <;>
            omega
      rw [hrest]
      rfl

end Drivers

section Right

variable {data : List UInt8} {offs : ℕ}

theorem flashVsWrite_imapx800 (h : offs + data.length ≤ 2 ^ 24) :
    Imapx800.flashVsWrite data offs =
      (pagePieces 256 (data.length + 1) offs data).flatMap (issue 0) := by
  refine imapx800_frames _ (Or.inl ⟨rfl, ?_, u32_of_lt (by omega)⟩) rfl (by omega)
  exact @and_mask 256 8 rfl offs

theorem flashVsWrite_x800a (data : List UInt8) (offs : ℕ) : X800a.flashVsWrite data offs =
    (blindPieces (data.length + 1) offs data).flatMap (issue FLASH_CMD_RDSR) :=
  x800a_frames _ _ _

/-- The first write gives the start away, and the last one the end. -/
theorem FlashWriteRight.fits (h : FlashWriteRight data offs) (hne : data ≠ []) :
    offs + data.length ≤ 2 ^ 24 ∧ (offs % 256 = 0 ∨ offs % 256 + data.length ≤ 256) := by
  have hlt : ∀ p ∈ writesOf (X800a.flashVsWrite data offs), p.1 < 2 ^ 24 := fun p hp => by
    obtain ⟨f, -, hf⟩ := List.mem_filterMap.1 hp
    exact writeOf_lt hf
  have hend := h.covers.end_le ⟨2 ^ 16, by norm_num⟩ (fun p hp => ⟨hlt p hp, h.pages p hp⟩) hne
  have hcov : Covers offs (blindPieces (data.length + 1) offs data) data :=
    covers_blind (Nat.lt_succ_self _)
  refine ⟨hend, ?_⟩
  have hpages := h.pages
  rw [flashVsWrite_x800a, writesOf_covers _ hcov hend, blindPieces,
    if_neg fun h0 => hne (List.length_eq_zero_iff.1 h0)] at hpages
  have hfirst := hpages _ List.mem_cons_self
  unfold InPage spibytes at hfirst
  split_ifs at hfirst with hs
  · rw [List.length_take] at hfirst
    omega
  · rw [List.length_take] at hfirst
    omega

/-- The driver writes as promised just where the chip has the range, and the range starts with a
page or ends in the one it starts in. -/
theorem flash_write_right_iff (data : List UInt8) (offs : ℕ) : FlashWriteRight data offs ↔
    data = [] ∨ offs + data.length ≤ 2 ^ 24 ∧
      (offs % 256 = 0 ∨ offs % 256 + data.length ≤ 256) := by
  constructor
  · intro h
    by_cases hne : data = []
    · exact Or.inl hne
    · exact Or.inr (h.fits hne)
  · rintro (rfl | ⟨hend, hal⟩)
    · refine ⟨rfl, fun p hp => absurd hp List.not_mem_nil, fun c => ?_, fun c => ?_⟩
      · exact (SpiChip.programmed_nil _ _).symm
      · have hnone : Imapx800.flashVsWrite [] offs = [] := flashVsWriteLoop_none rfl _
        rw [hnone]
        rfl
    · have hcov : Covers offs (blindPieces (data.length + 1) offs data) data :=
        covers_blind (Nat.lt_succ_self _)
      have hin : ∀ p ∈ blindPieces (data.length + 1) offs data, InPage 256 p := inPage_blind hal
      have hwrites : writesOf (X800a.flashVsWrite data offs) =
          blindPieces (data.length + 1) offs data := by
        rw [flashVsWrite_x800a, writesOf_covers _ hcov hend]
      have hholds : ∀ c : SpiChip, (c.frames (X800a.flashVsWrite data offs)).mem =
          SpiChip.programmed c.mem offs data := fun c => by
        rw [flashVsWrite_x800a, frames_covers _ c hcov hin hend]
      refine ⟨?_, ?_, hholds, fun c => ?_⟩
      · rw [hwrites]
        exact hcov
      · rw [hwrites]
        exact hin
      · rw [hholds, flashVsWrite_imapx800 hend,
          frames_covers _ c (covers_page (by norm_num) (Nat.lt_succ_self _))
            (inPage_page (by norm_num)) hend]

/-- A page of data, one byte into a page. -/
theorem flash_write_right_fails : ¬∀ (data : List UInt8) (offs : ℕ), FlashWriteRight data offs := by
  intro h
  have hne : List.replicate 256 (0 : UInt8) ≠ [] := List.replicate_succ ▸ List.cons_ne_nil _ _
  have hfits := ((h (List.replicate 256 0) 1).fits hne).2
  rw [List.length_replicate] at hfits
  omega

end Right

end Write

end InfotmUboot
