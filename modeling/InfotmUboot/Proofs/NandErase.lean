import InfotmUboot.Proofs.Drivers
import InfotmUboot.Proofs.Geometry

/-!
# The blocks an erase reaches

`base_vs_erase` rounds its range to blocks with 32 bits for the size, and the driver sends the row
in the row cycles of the chip, two or three bytes. The blocks it erases are those of the range as
long as neither wraps.
-/

namespace InfotmUboot

open Lib

section Row

theorem nf2EraseAddr_eq (addr cycle : ℕ) :
    Nat.ofDigits 256 (nf2EraseAddr addr cycle) = addr % 256 ^ (cycle - 2) := by
  unfold nf2EraseAddr
  induction cycle - 2 with
  | zero => simp [Nat.mod_one]
  | succ n ih =>
    have hbyte : (addr &&& (0xff <<< (n * 8))) >>> (n * 8) = addr / 256 ^ n % 256 := by
      rw [Nat.shiftRight_and_distrib, Nat.shiftLeft_shiftRight, Nat.shiftRight_eq_div_pow,
        Nat.mul_comm n, Nat.pow_mul]
      exact Nat.and_two_pow_sub_one_eq_mod _ 8
    rw [List.range_succ, List.map_append, List.map_singleton, Nat.ofDigits_append, ih, hbyte,
      Nat.ofDigits_singleton, List.length_map, List.length_range, Nat.mod_pow_succ]

/-- The rows that the row cycles can tell. -/
def NandConfig.rowCount (nc : NandConfig) : ℕ := 2 ^ (8 * (nc.cycle - 2))

theorem NandCfg.sentRow_eq {N : NandCfg} {nc : NandConfig} (hnc : N.normal = some nc) (row : ℕ) :
    nc.sentRow row = row % nc.rowCount := by
  have hdvd : nc.rowCount ∣ 2 ^ 32 := by
    refine pow_dvd_pow 2 ?_
    have := N.normal_cycle nc hnc
    omega
  rw [NandConfig.sentRow, nf2EraseAddr_eq, show 256 = 2 ^ 8 by norm_num, ← Nat.pow_mul]
  exact Nat.mod_mod_of_dvd row hdvd

end Row

section Erase

variable (nc : NandConfig)

/-- The block whose erase the chip is told. -/
def eraseOf : FlashOp → Option ℕ
  | .erase row => some (nc.sentRow row / nc.pagesperblock)
  | _ => none

def erasedBlocks (log : List (FlashOp × FlashReply)) : List ℕ := log.filterMap fun x =>
    eraseOf nc x.1

/-- The bad marks are those of `bad`, whatever else is done; a mark is read by a row that is sent in
as many cycles. -/
def AnswersBad {σ : Type} (h : σ → FlashOp → FlashReply × σ) (bad : ℕ → Bool) : Prop :=
  ∀ s row, (h s (.isbad row)).1.ret ≠ 0 ↔ bad (nc.sentRow row / nc.pagesperblock) = true

/-- The block has a byte of the range. -/
def NandConfig.Meets (start size b : ℕ) : Prop :=
  ∃ x, start ≤ x ∧ x < start + size ∧ x / nc.blocksize = b

variable (N : NandCfg)

/-- The program erases the blocks of the range, the bad ones aside unless it scrubs, and each
once. -/
def EraseRight (scrub : Bool) (start size : ℕ) (prog : Flash ℤ) : Prop :=
  ∀ nc ∈ N.normal, ∀ (σ : Type) (h : σ → FlashOp → FlashReply × σ) (bad : ℕ → Bool) (s : σ),
    AnswersBad nc h bad → (erasedBlocks nc (Prog.run h prog s).log).Nodup ∧
      ∀ b, b ∈ erasedBlocks nc (Prog.run h prog s).log ↔
        nc.Meets start size b ∧ (scrub = true ∨ bad b = false)

/-- There is nothing to round and nothing to erase, or the range rounded to blocks has a size below
2 ^ 32 and ends within the rows that can be sent. -/
def EraseFits (start size : ℕ) : Prop :=
  ∀ nc ∈ N.normal, size = 0 ∧ start % nc.blocksize = 0 ∨
    0 < size ∧ start % nc.blocksize + size ≤ 2 ^ 32 - nc.blocksize ∧
      (start + size - 1) / nc.blocksize < nc.rowCount / nc.pagesperblock

end Erase

section Loop

variable {N : NandCfg} {nc : NandConfig} (hnc : N.normal = some nc)

include hnc

theorem ppb_of_normal : nc.pagesperblock = 2 ^ (N.nndBlockShift - N.nndPageShift) ∧
    nc.blocksize = nc.pagesperblock * 2 ^ N.nndPageShift := by
  obtain ⟨hpage, hblock, -, -, -, hle, -⟩ := N.block_of_normal hnc
  have hppb : nc.pagesperblock = 2 ^ (N.nndBlockShift - N.nndPageShift) := by
    unfold NandConfig.pagesperblock
    rw [hpage, hblock, Nat.pow_div (by omega) (by norm_num)]
  refine ⟨hppb, ?_⟩
  rw [hppb, hblock, ← pow_add]
  congr 1
  omega

theorem nndVsIsbad_ofBlock (q : ℕ) : nndVsIsbad N (q * nc.blocksize) =
    Prog.op (.isbad (q * nc.pagesperblock)) >>= fun r => pure r.ret := by
  obtain ⟨-, hblock, -⟩ := N.block_of_normal hnc
  unfold nndVsIsbad NandCfg.getConfig
  rw [hnc]
  dsimp only
  rw [andNot_mask hblock, Nat.mul_mod_left, Nat.sub_zero, Nat.shiftRight_eq_div_pow,
    (ppb_of_normal hnc).2, ← Nat.mul_assoc, Nat.mul_div_cancel _ (Nat.two_pow_pos _)]

variable {σ : Type} {h : σ → FlashOp → FlashReply × σ} {bad : ℕ → Bool} (hb : AnswersBad nc h bad)

/-- The block that the erase of the `q`-th is of. -/
def toldBlock (nc : NandConfig) (q : ℕ) : ℕ := nc.sentRow (q * nc.pagesperblock) / nc.pagesperblock

include hb

theorem eraseLoop_blocks {scrub : Bool} : ∀ {n q : ℕ} {ret : ℤ} (s : σ),
    erasedBlocks nc (Prog.run h (baseVsEraseLoop N nc scrub n (q * nc.pagesperblock)
      (q * nc.blocksize) ret) s).log =
      ((List.range' q n).map (toldBlock nc)).filter fun b => scrub || !bad b
  | 0, _, _, _ => rfl
  | n + 1, q, ret, s => by
    have hcons (r : FlashReply) (l : List (FlashOp × FlashReply)) :
        erasedBlocks nc ((.erase (q * nc.pagesperblock), r) :: l) =
          toldBlock nc q :: erasedBlocks nc l := rfl
    have hskip (r : FlashReply) (l : List (FlashOp × FlashReply)) :
        erasedBlocks nc ((.isbad (q * nc.pagesperblock), r) :: l) = erasedBlocks nc l := rfl
    rw [baseVsEraseLoop_succ, nndVsIsbad_ofBlock hnc, ← Nat.succ_mul, ← Nat.succ_mul,
      List.range'_succ, List.map_cons, List.filter_cons]
    rcases scrub with _ | _
    · simp only [Bool.false_eq_true, if_false, Bool.false_or, bind_assoc, pure_bind]
      have hbad := hb s (q * nc.pagesperblock)
      by_cases h0 : (h s (.isbad (q * nc.pagesperblock))).1.ret = 0
      · have hgood : bad (toldBlock nc q) = false := by
          rw [← Bool.not_eq_true]
          exact fun hq => hbad.2 hq h0
        simp only [Prog.run_bind, Prog.run_op, h0, if_true, hgood, Bool.not_false,
          Prog.run_pure, List.append_nil, List.singleton_append, hcons, hskip]
        rw [eraseLoop_blocks]
        simp
      · have hq : bad (toldBlock nc q) = true := hbad.1 h0
        simp only [Prog.run_bind, Prog.run_op, h0, if_false, hq, Bool.not_true,
          Prog.run_pure, List.nil_append, List.singleton_append, Bool.false_eq_true, hskip]
        rw [eraseLoop_blocks]
        simp
    · simp only [if_true, pure_bind, Bool.true_or, Prog.run_bind, Prog.run_op,
        List.singleton_append, bind_assoc, hcons]
      rw [eraseLoop_blocks]
      simp

end Loop

section Count

variable {bs start size : ℕ}

/-- How many blocks the range is rounded to. -/
def eraseCount (bs start size : ℕ) : ℕ :=
  let s := u32 (size + start % bs)
  if start % bs = 0 ∧ s % bs = 0 then s / bs else u32 (s + (bs - 1)) / bs

theorem eraseCount_u32 : eraseCount bs start (u32 size) = eraseCount bs start size := by
  have hs : u32 (u32 size + start % bs) = u32 (size + start % bs) := by
    unfold u32
    omega
  unfold eraseCount
  rw [hs]

theorem eraseCount_lt {k : ℕ} (hbs : bs = 2 ^ k) (hk : k ≤ 22) :
    eraseCount bs start size * bs ≤ 2 ^ 32 - bs := by
  have hdvd : 2 ^ 32 = 2 ^ (32 - k) * bs := by
    rw [hbs, ← pow_add]
    congr 1
    omega
  have hpos : 0 < bs := hbs ▸ Nat.two_pow_pos k
  have hlt (x : ℕ) : u32 x / bs * bs ≤ 2 ^ 32 - bs := by
    have hx : u32 x / bs < 2 ^ (32 - k) := by
      rw [Nat.div_lt_iff_lt_mul hpos, ← hdvd]
      exact u32_lt x
    have hle : (u32 x / bs + 1) * bs ≤ 2 ^ (32 - k) * bs := Nat.mul_le_mul_right _ hx
    rw [Nat.add_mul, Nat.one_mul] at hle
    omega
  unfold eraseCount
  dsimp only
  split_ifs
  · exact hlt _
  · exact hlt _

theorem eraseCount_fits (hpos : 0 < bs) (hs : 0 < size)
    (hle : start % bs + size ≤ 2 ^ 32 - bs) :
    eraseCount bs start size = (start % bs + size - 1) / bs + 1 := by
  have hu : u32 (size + start % bs) = start % bs + size := by
    rw [u32_of_lt (by omega)]
    omega
  unfold eraseCount
  rw [hu]
  dsimp only
  split_ifs with hal
  · obtain ⟨q, hq⟩ := Nat.dvd_of_mod_eq_zero hal.2
    rcases q with _ | q
    · omega
    · rw [hq, Nat.mul_div_cancel_left _ hpos, Nat.mul_succ, Nat.add_sub_assoc hpos,
        Nat.mul_add_div hpos, Nat.div_eq_of_lt (by omega), Nat.add_zero]
  · rw [u32_of_lt (by omega), ← Nat.add_div_right _ hpos]
    congr 1
    omega

end Count

section Blocks

variable {N : NandCfg} {nc : NandConfig} (hnc : N.normal = some nc)

include hnc

theorem baseVsErase_blocks {σ : Type} {h : σ → FlashOp → FlashReply × σ} {bad : ℕ → Bool}
    (hb : AnswersBad nc h bad) (start size : ℕ) (scrub : Bool) (s : σ) :
    erasedBlocks nc (Prog.run h (baseVsErase N start size scrub) s).log =
      ((List.range' (start / nc.blocksize) (eraseCount nc.blocksize start size)).map
        (toldBlock nc)).filter fun b => scrub || !bad b := by
  obtain ⟨-, hblock, -⟩ := N.block_of_normal hnc
  have hpos : 0 < nc.blocksize := hblock ▸ Nat.two_pow_pos _
  have hstart (c : Prop) [Decidable c] (hc : c → start % nc.blocksize = 0) :
      (if c then start else start - start % nc.blocksize) =
        start / nc.blocksize * nc.blocksize := by
    have := Nat.div_add_mod' start nc.blocksize
    split_ifs with h
    · have := hc h
      omega
    · omega
  have hrow : (start / nc.blocksize * nc.blocksize) >>> N.nndPageShift =
      start / nc.blocksize * nc.pagesperblock := by
    rw [Nat.shiftRight_eq_div_pow, (ppb_of_normal hnc).2, ← Nat.mul_assoc,
      Nat.mul_div_cancel _ (Nat.two_pow_pos _)]
  have hcount (x : ℕ) : (x - x % nc.blocksize) / nc.blocksize = x / nc.blocksize := by
    rw [← Nat.div_mul_self_eq_mod_sub_self, Nat.mul_div_cancel _ hpos]
  unfold baseVsErase NandCfg.getConfig
  rw [hnc]
  dsimp only
  simp only [and_mask hblock, andNot_mask hblock]
  rw [hstart _ And.left, hrow, eraseLoop_blocks hnc hb]
  congr 3
  unfold eraseCount
  dsimp only
  split_ifs
  · rfl
  · exact hcount _

theorem toldBlock_lt (q : ℕ) : toldBlock nc q < nc.rowCount / nc.pagesperblock := by
  obtain ⟨hppb, -⟩ := ppb_of_normal hnc
  obtain ⟨-, -, -, hlo, -, -, hle⟩ := N.block_of_normal hnc
  have hcycle := N.normal_cycle nc hnc
  have hdvd : nc.pagesperblock ∣ nc.rowCount := hppb ▸ pow_dvd_pow 2 (by omega)
  unfold toldBlock
  rw [N.sentRow_eq hnc]
  exact Nat.div_lt_div_of_lt_of_dvd hdvd (Nat.mod_lt _ (Nat.two_pow_pos _))

theorem toldBlock_self {q : ℕ} (hq : q < nc.rowCount / nc.pagesperblock) :
    toldBlock nc q = q := by
  obtain ⟨hppb, -⟩ := ppb_of_normal hnc
  have hpos : 0 < nc.pagesperblock := hppb ▸ Nat.two_pow_pos _
  have hlt : q * nc.pagesperblock < nc.rowCount := by
    have := Nat.mul_le_mul_right nc.pagesperblock (Nat.succ_le_of_lt hq)
    have := Nat.div_mul_le_self nc.rowCount nc.pagesperblock
    rw [Nat.succ_mul] at *
    omega
  unfold toldBlock
  rw [N.sentRow_eq hnc, Nat.mod_eq_of_lt hlt, Nat.mul_div_cancel _ hpos]

theorem meets_iff {start size b : ℕ} : nc.Meets start size b ↔
    0 < size ∧ start / nc.blocksize ≤ b ∧ b ≤ (start + size - 1) / nc.blocksize := by
  obtain ⟨-, hblock, -⟩ := N.block_of_normal hnc
  have hpos : 0 < nc.blocksize := hblock ▸ Nat.two_pow_pos _
  constructor
  · rintro ⟨x, h1, h2, rfl⟩
    exact ⟨by omega, Nat.div_le_div_right h1, Nat.div_le_div_right (by omega)⟩
  · rintro ⟨hs, h1, h2⟩
    by_cases hb : start / nc.blocksize = b
    · exact ⟨start, le_refl _, by omega, hb⟩
    · have hmul : b * nc.blocksize ≤ start + size - 1 := (Nat.le_div_iff_mul_le hpos).1 h2
      refine ⟨b * nc.blocksize, ?_, by omega, Nat.mul_div_cancel _ hpos⟩
      have hlt : start < b * nc.blocksize := (Nat.div_lt_iff_lt_mul hpos).1 (by omega)
      omega

/-- The end of the range, in blocks from its start on. -/
theorem last_block {start size : ℕ} (hs : 0 < size) : (start + size - 1) / nc.blocksize =
    start / nc.blocksize + (start % nc.blocksize + size - 1) / nc.blocksize := by
  obtain ⟨-, hblock, -⟩ := N.block_of_normal hnc
  have hpos : 0 < nc.blocksize := hblock ▸ Nat.two_pow_pos _
  rw [← Nat.mul_add_div hpos]
  congr 1
  have := Nat.div_add_mod start nc.blocksize
  omega

end Blocks

section Right

variable {N : NandCfg}

theorem erase_fits {scrub : Bool} {start size : ℕ} {prog : Flash ℤ}
    (hprog : ∀ nc ∈ N.normal, ∀ (σ : Type) (h : σ → FlashOp → FlashReply × σ) (bad : ℕ → Bool)
      (s : σ), AnswersBad nc h bad → erasedBlocks nc (Prog.run h prog s).log =
        ((List.range' (start / nc.blocksize) (eraseCount nc.blocksize start size)).map
          (toldBlock nc)).filter fun b => scrub || !bad b) :
    EraseRight N scrub start size prog ↔ EraseFits N start size := by
  constructor
  · intro hr nc hnc
    obtain ⟨-, hblock, -, -, -, -, hk⟩ := N.block_of_normal hnc
    have hpos : 0 < nc.blocksize := hblock ▸ Nat.two_pow_pos _
    have hgood : AnswersBad nc (fun (_ : Unit) _ => (⟨0, [], [], false⟩, ())) fun _ => false :=
      fun _ _ => by simp
    obtain ⟨-, hmem⟩ := hr nc hnc Unit _ _ () hgood
    rw [hprog nc hnc Unit _ _ () hgood] at hmem
    simp only [Bool.not_false, Bool.or_true, List.filter_true, or_true, and_true, meets_iff hnc]
      at hmem
    rcases Nat.eq_zero_or_pos size with rfl | hs
    · refine Or.inl ⟨rfl, ?_⟩
      by_contra htmp
      have hcount : 0 < eraseCount nc.blocksize start 0 := by
        have hmod := Nat.mod_lt start hpos
        have hle : nc.blocksize ≤ 2 ^ 22 := hblock ▸ Nat.pow_le_pow_right (by norm_num) hk
        have hu : u32 (start % nc.blocksize) = start % nc.blocksize := u32_of_lt (by omega)
        unfold eraseCount
        dsimp only
        rw [if_neg fun h0 => htmp h0.1, Nat.zero_add, hu, u32_of_lt (by omega)]
        exact Nat.div_pos (by omega) hpos
      have hfirst := (hmem (toldBlock nc (start / nc.blocksize))).1
        (List.mem_map_of_mem (List.mem_range'_1.2 ⟨le_refl _, by omega⟩))
      exact absurd hfirst.1 (Nat.lt_irrefl 0)
    · refine Or.inr ⟨hs, ?_, ?_⟩
      · -- every block of the range is in the list, which is no longer than the rounded size
        by_contra hlong
        have hc := @eraseCount_lt nc.blocksize start size _ hblock hk
        have hmany : eraseCount nc.blocksize start size ≤
            (start % nc.blocksize + size - 1) / nc.blocksize :=
          (Nat.le_div_iff_mul_le hpos).2 (by omega)
        have hsub : List.range' (start / nc.blocksize)
            ((start % nc.blocksize + size - 1) / nc.blocksize + 1) ⊆
            (List.range' (start / nc.blocksize) (eraseCount nc.blocksize start size)).map
              (toldBlock nc) := fun b hb => by
          rw [List.mem_range'_1] at hb
          refine (hmem b).2 ⟨hs, hb.1, ?_⟩
          rw [last_block hnc hs]
          omega
        have hlen := (List.subperm_of_subset List.nodup_range' hsub).length_le
        rw [List.length_map, List.length_range', List.length_range'] at hlen
        omega
      · obtain ⟨q, -, hq⟩ := List.mem_map.1
          ((hmem _).2 ⟨hs, Nat.div_le_div_right (by omega), le_refl _⟩)
        rw [← hq]
        exact toldBlock_lt hnc q
  · intro hf nc hnc σ h bad s hb
    obtain ⟨-, hblock, -⟩ := N.block_of_normal hnc
    have hpos : 0 < nc.blocksize := hblock ▸ Nat.two_pow_pos _
    rw [hprog nc hnc σ h bad s hb]
    rcases hf nc hnc with ⟨rfl, htmp⟩ | ⟨hs, hle, hlast⟩
    · have hnone : eraseCount nc.blocksize start 0 = 0 := by
        unfold eraseCount u32
        rw [htmp]
        simp
      rw [hnone]
      refine ⟨List.nodup_nil, fun b => iff_of_false List.not_mem_nil fun hb => ?_⟩
      exact absurd ((meets_iff hnc).1 hb.1).1 (Nat.lt_irrefl 0)
    · rw [last_block hnc hs] at hlast
      have hself : (List.range' (start / nc.blocksize) (eraseCount nc.blocksize start size)).map
          (toldBlock nc) = List.range' (start / nc.blocksize) (eraseCount nc.blocksize start
            size) := by
        refine (List.map_congr_left fun q hq => ?_).trans (List.map_id _)
        rw [List.mem_range'_1, eraseCount_fits hpos hs hle] at hq
        exact toldBlock_self hnc (by omega)
      rw [hself]
      refine ⟨List.Nodup.filter _ List.nodup_range', fun b => ?_⟩
      rw [List.mem_filter, List.mem_range'_1, meets_iff hnc, eraseCount_fits hpos hs hle,
        @last_block N nc hnc start size hs, Bool.or_eq_true, Bool.not_eq_true']
      constructor
      · rintro ⟨h1, h2⟩
        exact ⟨⟨hs, h1.1, by omega⟩, h2⟩
      · rintro ⟨h1, h2⟩
        exact ⟨⟨h1.2.1, by omega⟩, h2⟩

/-- The erases of both drivers reach the blocks of their range just where its rounding wraps
nowhere. -/
theorem nand_erase_right_iff (N : NandCfg) (start : ℕ) (size : UInt32) (scrub : Bool) :
    (EraseRight N scrub start size.toNat (baseVsErase N start size.toNat scrub) ↔
        EraseFits N start size.toNat) ∧
      (EraseRight N true (start <<< N.bndSizeShift) (size.toNat <<< N.bndSizeShift)
          (bndVsErase N start size.toNat) ↔
        EraseFits N (start <<< N.bndSizeShift) (size.toNat <<< N.bndSizeShift)) := by
  refine ⟨erase_fits fun nc hnc σ h bad s hb => ?_, erase_fits fun nc hnc σ h bad s hb => ?_⟩
  · exact baseVsErase_blocks hnc hb _ _ _ s
  · rw [bndVsErase, nndVsScrub, baseVsErase_blocks hnc hb, eraseCount_u32]

/-- The last block of the first 4 GiB, with nothing in front of it. -/
theorem nand_erase_right_fails : ¬∀ (N : NandCfg) (start : ℕ) (size : UInt32) (scrub : Bool),
    EraseRight N scrub start size.toNat (baseVsErase N start size.toNat scrub) ∧
      EraseRight N true (start <<< N.bndSizeShift) (size.toNat <<< N.bndSizeShift)
        (bndVsErase N start size.toNat) := by
  intro h
  have hright := (h slcNand 0 0xffffffff true).1
  rcases (erase_fits fun nc hnc σ h bad s hb => baseVsErase_blocks hnc hb _ _ _ s).1
    hright _ rfl with
    ⟨h0, -⟩ | ⟨-, hle, -⟩
  · exact absurd h0 (by decide)
  · exact absurd hle (by decide)

end Right

end InfotmUboot
