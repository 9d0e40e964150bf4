import InfotmUboot.Burn
import InfotmUboot.Machine

/-!
# Geometry of the NAND devices

What the chip tables fix for the three views of the flash: pages and blocks are powers of two, and
a block holds whole chunks of the burn loop.
-/

namespace InfotmUboot

open Lib

namespace NandCfg

variable (N : NandCfg)

theorem block_of_normal {c : NandConfig} (hc : N.normal = some c) :
    c.pagesize = 2 ^ N.nndPageShift ∧ c.blocksize = 2 ^ N.nndBlockShift ∧ c.sysinfosize = 16 ∧
      11 ≤ N.nndPageShift ∧ N.nndPageShift ≤ 14 ∧ N.nndPageShift + 6 ≤ N.nndBlockShift ∧
      N.nndBlockShift ≤ 22 :=
  ⟨N.normal_page c hc, N.normal_block c hc, N.normal_chip c hc⟩

theorem block_of_boot {b : NandConfig} (hb : N.boot = some b) {c : NandConfig}
    (hc : N.normal = some c) :
    b.pagesize = 2 ^ N.bndPageShift ∧ b.blocksize = 2 ^ (N.nndBlockShift - N.bndSizeShift) ∧
      9 ≤ N.bndPageShift ∧ N.bndPageShift + 6 ≤ N.nndBlockShift - N.bndSizeShift ∧
      N.bndSizeShift ≤ N.nndBlockShift := by
  obtain ⟨_, hblk, _, _, _, h6, _⟩ := N.block_of_normal hc
  obtain ⟨hpage, h9⟩ := N.boot_page b hb
  have hsize := N.size_shift b hb
  have hbb := N.boot_block b hb
  rw [hc, Option.elim_some, hblk, Nat.shiftRight_eq_div_pow, Nat.pow_div (by omega) (by norm_num)]
    at hbb
  exact ⟨hpage, hbb, h9, by omega, by omega⟩

theorem boot_block_zero {b : NandConfig} (hb : N.boot = some b) (hn : N.normal = none) :
    b.blocksize = 0 := by
  rw [N.boot_block b hb, hn, Option.elim_none]

end NandCfg

section Conf

variable (B : Board) (desc : IusDesc) (idI idO : ℤ) {d : Dev} (hd : Dev.ofId idO = some d)
include hd

theorem fnd_of_stnf (hstnf : desc.type = IUS_DESC_STNF → idO = DEV_FND)
    (ht : desc.type = IUS_DESC_STNF) : d = .fnd := by
  rw [hstnf ht, DEV_FND, Dev.ofId_id] at hd
  exact (Option.some.inj hd).symm

theorem vsIsDevice_of_ofId (cur : Option Dev) (d' : Dev) :
    vsIsDevice cur idO d' = decide (d = d') := by
  unfold vsIsDevice
  have h14 : idO ≠ DEV_CURRENT := by
    rintro rfl
    have h0 : Dev.ofId DEV_CURRENT = none := by decide
    rw [h0] at hd
    exact absurd hd (by simp)
  rw [if_neg h14, hd]
  simp

theorem burnIsNand_of_ofId (cur : Option Dev) : burnIsNand cur idO = d.isNand := by
  simp only [burnIsNand, vsIsDevice_of_ofId idO hd, decide_eq_true_eq, Dev.isNand]
  cases d <;> decide

theorem vsAlign_of_ofId (cur : Option Dev) : vsAlign B cur idO = B.align d := by
  simp [vsAlign, hd]

/-- The configuration a NAND image that was not refused is burnt by. -/
theorem burnConfig_of_not_refused (hnand : d.isNand = true)
    (href : burnRefusal B desc idI idO = none) :
    ∃ nc, burnConfig B (Dev.ofId idI) idO = some nc := by
  rcases hc : burnConfig B (Dev.ofId idI) idO with _ | nc
  · unfold burnRefusal at href
    rw [burnIsNand_of_ofId idO hd, hnand, hc] at href
    by_cases hf : desc.type = IUS_DESC_STNF ∧ ¬fndSizeMatch B.nand desc.len
    · simp [hf] at href
    · rw [if_neg hf] at href
      simp at href
  · exact ⟨nc, rfl⟩

/-- The block size is a power of two and a multiple of the chunk size, for every target but the
NAND devices it is 0. -/
theorem burnConf_geometry (hstnf : desc.type = IUS_DESC_STNF → d = .fnd)
    (href : burnRefusal B desc idI idO = none) (enc : Bool) :
    let c := burnConf B desc idI idO enc
    (c.skip ≠ 0 → d.entry.isbad = true) ∧ (∃ k, c.skip = 0 ∨ c.skip = 2 ^ k) ∧
      (∃ k ≤ 14, c.step = 2 ^ k) ∧ ∃ q, c.skip = q * c.step := by
  have hskip : (burnConf B desc idI idO enc).skip =
      if d.isNand then (burnConfig B (Dev.ofId idI) idO).elim 0 (·.blocksize) else 0 := by
    simp only [burnConf, burnIsNand_of_ofId idO hd]
  have hstep : (burnConf B desc idI idO enc).step =
      if desc.type = IUS_DESC_STNF then B.align d else 2 ^ 14 := by
    simp only [burnConf, vsAlign_of_ofId B idO hd]
    rfl
  have hmul {k m : ℕ} (hle : m ≤ k) : ∃ q, 2 ^ k = q * 2 ^ m :=
    ⟨2 ^ (k - m), by rw [← pow_add, Nat.sub_add_cancel hle]⟩
  dsimp only
  rw [hskip, hstep]
  by_cases hnand : d.isNand = true
  · obtain ⟨nc, hnc⟩ := burnConfig_of_not_refused B desc idI idO hd hnand href
    rw [hnand, if_pos rfl, hnc, Option.elim_some]
    have hentry : d.entry.isbad = true := by
      cases d <;> first | rfl | exact absurd hnand (by decide)
    refine ⟨fun _ => hentry, ?_⟩
    unfold burnConfig at hnc
    rw [vsIsDevice_of_ofId idO hd] at hnc
    by_cases hbnd : d = .bnd
    · subst hbnd
      have htype : desc.type ≠ IUS_DESC_STNF := fun ht => absurd (hstnf ht) (by decide)
      rw [if_neg htype]
      simp only [decide_true, if_true, NandCfg.getConfig] at hnc
      rcases hn : B.nand.normal with _ | n
      · rw [B.nand.boot_block_zero hnc hn]
        exact ⟨⟨0, Or.inl rfl⟩, ⟨14, le_refl _, rfl⟩, 0, by simp⟩
      · obtain ⟨_, hblk, h9, h6, _⟩ := B.nand.block_of_boot hnc hn
        rw [hblk]
        exact ⟨⟨_, Or.inr rfl⟩, ⟨14, le_refl _, rfl⟩, hmul (by omega)⟩
    · simp only [hbnd, decide_false, Bool.false_eq_true, if_false, NandCfg.getConfig] at hnc
      obtain ⟨hpage, hblk, _, h11, h14, h6, _⟩ := B.nand.block_of_normal hnc
      rw [hblk]
      refine ⟨⟨_, Or.inr rfl⟩, ?_⟩
      by_cases htype : desc.type = IUS_DESC_STNF
      · have halign : B.align d = 2 ^ B.nand.nndPageShift := by
          rw [hstnf htype]
          simp [Board.align, fndVsAlign, nndVsAlign, NandCfg.getConfig, hnc, hpage]
        rw [if_pos htype, halign]
        exact ⟨⟨_, h14, rfl⟩, hmul (by omega)⟩
      · rw [if_neg htype]
        exact ⟨⟨14, le_refl _, rfl⟩, hmul (by omega)⟩
  · rw [if_neg hnand]
    have htype : desc.type ≠ IUS_DESC_STNF := fun ht => by
      rw [hstnf ht] at hnand
      exact hnand rfl
    rw [if_neg htype]
    exact ⟨fun h0 => absurd rfl h0, ⟨0, Or.inl rfl⟩, ⟨14, le_refl _, rfl⟩, 0, by simp⟩

end Conf

/-- A board with pages of 2KB, boot pages of 1KB and blocks of 64 pages. -/
def slcNand : NandCfg where
  normal := some ⟨16, 0x800, 0x20000, 0, 0, 0, 5⟩
  boot := some ⟨16, 0x400, 0x10000, 0, 0, 0, 5⟩
  bndSizeShift := 1
  bndPageShift := 10
  nndPageShift := 11
  nndBlockShift := 17
  normal_page := by simp
  normal_block := by simp
  normal_chip := by simp
  normal_cycle := by simp
  boot_page := by simp
  boot_block := by simp
  size_shift := by simp

def slcBoard : Board where
  nand := slcNand
  mmcBlksz := fun _ => 0x200
  mmcCapacity := fun _ => 0
  storageDevice := Dev.mmc0.id
  nandPartOffset := fun _ => 0
  partSize := fun _ => 0

/-- Every call succeeds and reads zeros. -/
def calmStep (_ : Unit) (_ : Op) : Reply × Unit := (⟨0, []⟩, ())

end InfotmUboot
