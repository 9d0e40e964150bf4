import InfotmUboot.Proofs.BurnRun
import Mathlib.Order.Interval.Set.Basic

/-!
# The region an image is granted

`burn_image_loop` takes the leeway for bad blocks from `max - remain` and nowhere asks whether that
is negative. What it writes stays in the region exactly if the image fits, starts on a unit of the
target, or nothing gets written (`burn_grant`).
-/

namespace InfotmUboot

open Lib

section Extent

variable (B : Board)

/-- The unit a device rounds an offset down to. -/
def Board.granule : Dev → ℕ
  | .bnd => 2 ^ B.nand.bndPageShift
  | .nnd | .fnd => 2 ^ B.nand.nndPageShift
  | .mmc0 | .mmc1 | .mmc2 => 512
  | _ => 1

/-- The data of one such unit: a page of `fnd` comes with its system bytes. -/
def Board.granuleData : Dev → ℕ
  | .fnd => fndAlign B.nand
  | d => B.granule d

/-- The bytes of a device that a write of `len` bytes at `start` covers. -/
def Board.extent (d : Dev) (start len : ℕ) : Set ℕ :=
  Set.Ico (start / B.granule d * B.granule d)
    (start / B.granule d * B.granule d + len / B.granuleData d * B.granule d)

/-- All that the writes in a log cover. -/
def Board.written (log : List (Op × Reply)) : Set (Dev × ℕ) :=
  {x | ∃ w ∈ writeOps log, x.1 = w.1 ∧ x.2 ∈ B.extent w.1 w.2.1 w.2.2.length}

theorem granule_pos (d : Dev) : 0 < B.granule d := by
  cases d <;> simp [Board.granule]

theorem written_eq_empty {log : List (Op × Reply)} (hl : writeOps log = []) :
    B.written log = ∅ := by
  simp [Board.written, hl]

/-- Writes of one length to one device cover what each of them covers. -/
theorem written_eq {log : List (Op × Reply)} {d : Dev} {xs : List ℕ} {n : ℕ}
    (hl : (writeOps log).map (fun w => (w.1, w.2.1, w.2.2.length)) = xs.map fun o => (d, o, n)) :
    B.written log = {x | x.1 = d ∧ ∃ o ∈ xs, x.2 ∈ B.extent d o n} := by
  ext x
  constructor
  · rintro ⟨w, hw, h1, h2⟩
    have hw' := List.mem_map_of_mem (f := fun w => (w.1, w.2.1, w.2.2.length)) hw
    rw [hl] at hw'
    obtain ⟨o, ho, heq⟩ := List.mem_map.1 hw'
    rw [Prod.mk.injEq, Prod.mk.injEq] at heq
    obtain ⟨hd, ho', hn⟩ := heq
    rw [← hd, ← ho', ← hn] at h2
    exact ⟨h1.trans hd.symm, o, ho, h2⟩
  · rintro ⟨h1, o, ho, h2⟩
    have ho' := List.mem_map_of_mem (f := fun o => (d, o, n)) ho
    rw [← hl] at ho'
    obtain ⟨w, hw, heq⟩ := List.mem_map.1 ho'
    rw [Prod.mk.injEq, Prod.mk.injEq] at heq
    obtain ⟨hd, ho'', hn⟩ := heq
    refine ⟨w, hw, h1.trans hd.symm, ?_⟩
    rw [hd, ho'', hn]
    exact h2

end Extent

section Grant

variable (B : Board) (desc : IusDesc) (idI idO : ℤ)

/-- The region the descriptor grants on the target. -/
def region : Set (Dev × ℕ) :=
  {x | Dev.ofId idO = some x.1 ∧ x.2 ∈ Set.Ico desc.offo (desc.offo + desc.maxsize)}

/-- Only the region is written, and nothing of it if the image that does not fit, which is then
refused. -/
def Granted {σ : Type} (out : Prog.Out Op Reply σ ℤ) : Prop :=
  B.written out.log ⊆ region desc idO ∧
    (desc.maxsize < remainOf B desc idI idO → out.val ≠ 0 ∧ B.written out.log = ∅)

/-- The image fits and starts on a unit of its target. -/
def Fits : Prop :=
  remainOf B desc idI idO ≤ desc.maxsize ∧
    ∀ d, Dev.ofId idO = some d → B.granule d ∣ desc.offo

/-- A write of the burn covers at least one unit of the target. -/
def WritesUnits (d : Dev) : Prop :=
  d.entry.write = true ∧ (burnConf B desc idI idO false).unit / B.granuleData d ≠ 0

/-- Where the first `n` chunks of the image go under a map of bad blocks. -/
def layout (bad : ℕ → Bool) (n : ℕ) : List ℕ × Bool :=
  place bad (burnConf B desc idI idO false).skip (burnConf B desc idI idO false).step n
    (budget (s32 (desc.maxsize - remainOf B desc idI idO)) (burnConf B desc idI idO false).skip)
    desc.offo

/-- The leeway does not cover the bad blocks before and among the first `n` chunks. -/
def Starved (bad : ℕ → Bool) (n : ℕ) : Prop := (layout B desc idI idO bad n).2 = false

instance (bad : ℕ → Bool) (n : ℕ) : Decidable (Starved B desc idI idO bad n) :=
  inferInstanceAs (Decidable (_ = false))

/-- The burn keeps to the grant: it is refused or finds no good block for its first chunk, or the
image fits and starts on a unit of the target, or no write covers a unit. -/
def KeepsGrant (bad : ℕ → Bool) : Prop :=
  idI = idO ∨ burnRefusal B desc idI idO ≠ none ∨
    match Dev.ofId idO with
    | none => remainOf B desc idI idO ≤ desc.maxsize
    | some d =>
      remainOf B desc idI idO ≠ 0 ∧ Starved B desc idI idO bad 1 ∨
        remainOf B desc idI idO ≤ desc.maxsize ∧
          (B.granule d ∣ desc.offo ∨ remainOf B desc idI idO = 0 ∨
            ¬WritesUnits B desc idI idO d) ∨
        ¬WritesUnits B desc idI idO d ∧
          Starved B desc idI idO bad (rounds B desc idI idO)

section Geometry

variable {d : Dev} (hd : Dev.ofId idO = some d) (href : burnRefusal B desc idI idO = none)
include hd href

omit href in
theorem burnConf_skip (enc : Bool) :
    (burnConf B desc idI idO enc).skip =
      if d.isNand then (burnConfig B (Dev.ofId idI) idO).elim 0 (·.blocksize) else 0 := by
  simp only [burnConf, burnIsNand_of_ofId idO hd]

/-- A block of the target is a whole number of its units. -/
theorem granule_dvd_skip : B.granule d ∣ (burnConf B desc idI idO false).skip := by
  rw [burnConf_skip B desc idI idO hd]
  by_cases hnand : d.isNand = true
  · obtain ⟨nc, hnc⟩ := burnConfig_of_not_refused B desc idI idO hd hnand href
    rw [hnand, if_pos rfl, hnc, Option.elim_some]
    unfold burnConfig at hnc
    rw [vsIsDevice_of_ofId idO hd] at hnc
    by_cases hbnd : d = .bnd
    · subst hbnd
      simp only [decide_true, if_true, NandCfg.getConfig] at hnc
      rcases hn : B.nand.normal with _ | n
      · rw [B.nand.boot_block_zero hnc hn]
        exact Nat.dvd_zero _
      · obtain ⟨_, hblk, _, h6, _⟩ := B.nand.block_of_boot hnc hn
        rw [hblk]
        exact pow_dvd_pow 2 (by omega)
    · simp only [hbnd, decide_false, Bool.false_eq_true, if_false, NandCfg.getConfig] at hnc
      obtain ⟨_, hblk, _, _, _, h6, _⟩ := B.nand.block_of_normal hnc
      have hgran : B.granule d = 2 ^ B.nand.nndPageShift := by
        cases d <;> first | rfl | exact absurd rfl hbnd | exact absurd hnand (by decide)
      rw [hblk, hgran]
      exact pow_dvd_pow 2 (by omega)
  · rw [if_neg hnand]
    exact Nat.dvd_zero _

/-- A write covers no more of the target than a round moves on by. -/
theorem units_le_step (hstnf : desc.type = IUS_DESC_STNF → d = .fnd) :
    (burnConf B desc idI idO false).unit / B.granuleData d * B.granule d ≤
      (burnConf B desc idI idO false).step := by
  have hfnd (h : d = .fnd) : ∃ c, B.nand.normal = some c := by
    subst h
    obtain ⟨nc, hnc⟩ := burnConfig_of_not_refused B desc idI idO hd rfl href
    unfold burnConfig at hnc
    rw [vsIsDevice_of_ofId idO hd] at hnc
    exact ⟨nc, hnc⟩
  have hle : B.granule d ≤ B.granuleData d := by
    by_cases h : d = .fnd
    · obtain ⟨c, hc⟩ := hfnd h
      obtain ⟨hpage, _⟩ := B.nand.block_of_normal hc
      subst h
      simp only [Board.granule, Board.granuleData, fndAlign, NandCfg.getConfig, hc,
        Option.elim_some, hpage]
      omega
    · have heq : B.granuleData d = B.granule d := by
        cases d <;> first | rfl | exact absurd rfl h
      rw [heq]
  by_cases ht : desc.type = IUS_DESC_STNF
  · have h := hstnf ht
    obtain ⟨c, hc⟩ := hfnd h
    obtain ⟨hpage, _⟩ := B.nand.block_of_normal hc
    subst h
    simp only [burnConf, ht, if_true, vsAlign_of_ofId B idO hd, Board.granuleData, Board.granule,
      Board.align, fndVsAlign, nndVsAlign, NandCfg.getConfig, hc, Option.elim_some, hpage]
    rcases Nat.eq_zero_or_pos (fndAlign B.nand) with h0 | h0
    · rw [h0, Nat.zero_div, Nat.zero_mul]
      exact Nat.zero_le _
    · rw [Nat.div_self h0, Nat.one_mul]
  · have hunit : (burnConf B desc idI idO false).unit = (burnConf B desc idI idO false).step := by
      simp only [burnConf, ht, if_false]
    calc (burnConf B desc idI idO false).unit / B.granuleData d * B.granule d
        ≤ (burnConf B desc idI idO false).unit / B.granuleData d * B.granuleData d :=
          Nat.mul_le_mul_left _ hle
      _ ≤ (burnConf B desc idI idO false).unit := Nat.div_mul_le_self _ _
      _ = (burnConf B desc idI idO false).step := hunit

end Geometry

section Runs

variable {σ : Type} (h : σ → Op → Reply × σ) (buf : Mem) (bufAt : ℕ) (e : σ)
variable (hstnf : desc.type = IUS_DESC_STNF → idO = DEV_FND)

include hstnf in
/-- The region is a whole number of chunks. -/
theorem maxsize_chunks {d : Dev} (hd : Dev.ofId idO = some d)
    (href : burnRefusal B desc idI idO = none) :
    ∃ M, desc.maxsize = M * (burnConf B desc idI idO false).step := by
  obtain ⟨_, _, ⟨k, hk, hstep⟩, _⟩ := burnConf_geometry B desc idI idO hd
    (fnd_of_stnf desc idO hd hstnf) href false
  have hmax : desc.maxsize = desc.info1.toNat / 2 ^ 16 * 2 ^ 16 := by
    rw [IusDesc.maxsize, show (0xffff : ℕ) = 2 ^ 16 - 1 from rfl, andNot_mask rfl]
    have := Nat.div_add_mod desc.info1.toNat (2 ^ 16)
    omega
  refine ⟨desc.info1.toNat / 2 ^ 16 * 2 ^ (16 - k), ?_⟩
  rw [hstep, hmax, Nat.mul_assoc, ← pow_add, Nat.sub_add_cancel (by omega)]

include hstnf in
/-- An image that fits is kept to its region, whatever the drivers answer. -/
theorem fits_granted (hfit : Fits B desc idI idO) :
    Granted B desc idI idO (Prog.run h (burnImageLoop B desc idI idO desc.maxsize buf bufAt)
      e) := by
  obtain ⟨hle, hdvd⟩ := hfit
  refine ⟨?_, fun hlt => absurd hle (not_le.2 hlt)⟩
  by_cases href : idI = idO ∨ burnRefusal B desc idI idO ≠ none
  · rw [written_eq_empty B (burnImageLoop_refused h B desc idI idO _ buf bufAt href e).2]
    exact Set.empty_subset _
  · rw [not_or, not_not] at href
    rw [burnImageLoop_run h B desc idI idO _ buf bufAt href.1 href.2 e]
    set r := Prog.run h (burnPrelude desc idI idO desc.maxsize buf bufAt) e
    rintro ⟨d', x⟩ ⟨w, hw, hdev, hx⟩
    rw [writeOps_append, burnPrelude_writeOps, List.nil_append] at hw
    rcases hd : Dev.ofId idO with _ | d
    · rw [(burnLoop_none h _ hd _ _ _).2] at hw
      simp at hw
    · obtain ⟨hbad, _, _, hskip⟩ := burnConf_geometry B desc idI idO hd
        (fnd_of_stnf desc idO hd hstnf) href.2 r.val.1
      obtain ⟨M, hM⟩ := maxsize_chunks B desc idI idO hstnf hd href.2
      have hroom : (0 * (burnConf B desc idI idO false).step + remainOf B desc idI idO : ℤ) +
          max (s32 (desc.maxsize - remainOf B desc idI idO)) 0 ≤
            M * (burnConf B desc idI idO false).step := by
        have hs := s32_le (z := desc.maxsize - remainOf B desc idI idO) (by omega)
        have hM' : (desc.maxsize : ℤ) = M * (burnConf B desc idI idO false).step := by
          exact_mod_cast hM
        rw [← hM']
        omega
      obtain ⟨b, hb, hwd, hws, hwl⟩ := burnLoop_within h (burnConf B desc idI idO r.val.1) hd hbad
        hskip desc.offo M _ (burnStart B desc idI idO desc.maxsize r.val.2 bufAt) r.env 0
        (by simp [burnStart]) (Or.inr hroom) w hw
      have hstep := units_le_step B desc idI idO hd href.2 (fnd_of_stnf desc idO hd hstnf)
      have hdown := Nat.div_mul_le_self w.2.1 (B.granule d)
      have hup : desc.offo ≤ w.2.1 / B.granule d * B.granule d := by
        rw [hws]
        exact Nat.le_of_eq (Nat.div_mul_cancel (hdvd d hd)).symm |>.trans
          (Nat.mul_le_mul_right _ (Nat.div_le_div_right (Nat.le_add_right _ _)))
      have hend : (b + 1) * (burnConf B desc idI idO false).step ≤ desc.maxsize := by
        rw [hM]
        exact Nat.mul_le_mul_right _ hb
      rw [hwd, hwl] at hx
      dsimp only at hdev
      refine ⟨?_, hup.trans hx.1, ?_⟩
      · rw [hdev, hwd]
        exact hd
      · have hws' : w.2.1 = desc.offo + b * (burnConf B desc idI idO false).step := hws
        have hlt : x < w.2.1 / B.granule d * B.granule d +
          (burnConf B desc idI idO false).unit / B.granuleData d * B.granule d := hx.2
        rw [Nat.add_mul, Nat.one_mul] at hend
        dsimp only
        omega

section Static

variable {bad : ℕ → Bool} {d : Dev} (hd : Dev.ofId idO = some d) (hbad : StaticBad h d bad)
variable (hne : idI ≠ idO) (href : burnRefusal B desc idI idO = none)

include hstnf hd hbad hne href in
/-- A burn that is not refused fails exactly if it runs out of good blocks, and it writes its
chunks where the layout has them. -/
theorem burnImageLoop_layout :
    let out := Prog.run h (burnImageLoop B desc idI idO desc.maxsize buf bufAt) e
    out.val = (if (layout B desc idI idO bad (rounds B desc idI idO)).2 = true then 0
      else -EBADBLK) ∧
    ((burnConf B desc idI idO false).Writes d → B.written out.log =
      {x | x.1 = d ∧ ∃ o ∈ (layout B desc idI idO bad (rounds B desc idI idO)).1,
        x.2 ∈ B.extent d o (burnConf B desc idI idO false).unit}) ∧
    (¬(burnConf B desc idI idO false).Writes d → B.written out.log = ∅) := by
  obtain ⟨hval, hwr, hnw⟩ := burnImageLoop_place h B desc idI idO desc.maxsize buf bufAt hd hbad
    hstnf hne href e
  exact ⟨hval, fun hw => written_eq B (hwr hw), fun hw => written_eq_empty B (hnw hw)⟩

include hd href hstnf in
theorem rounds_eq_zero (h0 : remainOf B desc idI idO = 0) : rounds B desc idI idO = 0 := by
  obtain ⟨_, _, ⟨k, _, hstep⟩, _⟩ := burnConf_geometry B desc idI idO hd
    (fnd_of_stnf desc idO hd hstnf) href false
  rw [rounds, h0, hstep, chunks_zero (Nat.two_pow_pos k)]

include hd href hstnf in
theorem rounds_succ (h0 : remainOf B desc idI idO ≠ 0) : ∃ n, rounds B desc idI idO = n + 1 := by
  obtain ⟨_, _, ⟨k, _, hstep⟩, _⟩ := burnConf_geometry B desc idI idO hd
    (fnd_of_stnf desc idO hd hstnf) href false
  have hsub := chunks_sub (Nat.two_pow_pos k) h0
  rw [← hstep] at hsub
  exact ⟨_, hsub⟩

include hd hne href hstnf hbad in
/-- Nothing is covered if there is nothing to write, no write covers a unit or the first chunk finds
no place. -/
theorem burnImageLoop_silent (hsil : remainOf B desc idI idO = 0 ∨
      ¬WritesUnits B desc idI idO d ∨
      remainOf B desc idI idO ≠ 0 ∧ Starved B desc idI idO bad 1) :
    B.written (Prog.run h (burnImageLoop B desc idI idO desc.maxsize buf bufAt) e).log = ∅ := by
  obtain ⟨_, hwr, hnw⟩ := burnImageLoop_layout B desc idI idO h buf bufAt e hstnf hd hbad hne href
  by_cases hw : (burnConf B desc idI idO false).Writes d
  · rw [hwr hw]
    rcases hsil with h0 | hu | ⟨h0, hs⟩
    · rw [rounds_eq_zero B desc idI idO hstnf hd href h0]
      simp [layout, place]
    · have hunit : (burnConf B desc idI idO false).unit / B.granuleData d = 0 := by
        by_contra hunit
        exact hu ⟨hw.1, hunit⟩
      simp [Board.extent, hunit]
    · obtain ⟨n, hn⟩ := rounds_succ B desc idI idO hstnf hd href h0
      rw [hn, layout, place_one_false _ _ _ hs]
      simp
  · exact hnw hw

include hd hne href hstnf hbad in
/-- Otherwise the unit of the target is covered that the first chunk begins in. -/
theorem burnImageLoop_first (hu : WritesUnits B desc idI idO d)
    (h0 : remainOf B desc idI idO ≠ 0) (hs : ¬Starved B desc idI idO bad 1) :
    ∃ o, (¬B.granule d ∣ desc.offo → o < desc.offo) ∧
      (d, o) ∈
        B.written (Prog.run h (burnImageLoop B desc idI idO desc.maxsize buf bufAt) e).log := by
  obtain ⟨_, hwr, _⟩ := burnImageLoop_layout B desc idI idO h buf bufAt e hstnf hd hbad hne href
  obtain ⟨n, hn⟩ := rounds_succ B desc idI idO hstnf hd href h0
  obtain ⟨j, hj, hmem⟩ := place_one_true bad _ _ hs n
  have hunit : (burnConf B desc idI idO false).unit ≠ 0 := by
    intro hunit
    exact hu.2 (by rw [hunit, Nat.zero_div])
  rw [hwr ⟨hu.1, hunit⟩, hn]
  refine ⟨_, fun hdvd => ?_, rfl, _, hmem, le_refl _, ?_⟩
  · have hj0 : j = 0 := by
      by_contra hj0
      exact hdvd ((granule_dvd_skip B desc idI idO hd href).trans (Nat.dvd_of_mod_eq_zero (hj hj0)))
    rw [hj0, Nat.zero_mul, Nat.add_zero]
    refine lt_of_le_of_ne (Nat.div_mul_le_self _ _) fun heq => ?_
    exact hdvd ⟨_, (Nat.mul_comm _ _).trans heq |>.symm⟩
  · exact Nat.lt_add_of_pos_right
      (Nat.mul_pos (Nat.pos_of_ne_zero hu.2) (granule_pos B d))

end Static

include hstnf in
/-- The burn keeps every image that fits to its region, whatever the drivers answer; against a
fixed map of bad blocks it grants what it should in the cases of `KeepsGrant` and in no other. -/
theorem burn_grant :
    (∀ {σ : Type} (h : σ → Op → Reply × σ) (e : σ), Fits B desc idI idO →
      Granted B desc idI idO
        (Prog.run h (burnImageLoop B desc idI idO desc.maxsize buf bufAt) e)) ∧
    ∀ {σ : Type} (h : σ → Op → Reply × σ) (e : σ) (bad : ℕ → Bool),
      (∀ d, Dev.ofId idO = some d → StaticBad h d bad) →
      (Granted B desc idI idO
          (Prog.run h (burnImageLoop B desc idI idO desc.maxsize buf bufAt) e) ↔
        KeepsGrant B desc idI idO bad) := by
  refine ⟨fun h e => fits_granted B desc idI idO h buf bufAt e hstnf, fun h e bad hbad => ?_⟩
  by_cases href : idI = idO ∨ burnRefusal B desc idI idO ≠ none
  · obtain ⟨hval, hops⟩ := burnImageLoop_refused h B desc idI idO desc.maxsize buf bufAt href e
    have hw := written_eq_empty B hops
    refine iff_of_true ⟨?_, fun _ => ⟨hval, hw⟩⟩ ?_
    · rw [hw]
      exact Set.empty_subset _
    · exact href.imp_right Or.inl
  · rw [not_or, not_not] at href
    obtain ⟨hne, href⟩ := href
    unfold KeepsGrant
    rw [or_iff_right hne, or_iff_right (not_not.2 href)]
    rcases hd : Dev.ofId idO with _ | d
    · -- without a target every round succeeds and writes nothing
      have hrun := burnImageLoop_run h B desc idI idO desc.maxsize buf bufAt hne href e
      set r := Prog.run h (burnPrelude desc idI idO desc.maxsize buf bufAt) e
      obtain ⟨hval, hops⟩ := burnLoop_none h (burnConf B desc idI idO r.val.1) hd
        (burnRemain B desc (Dev.ofId idI) idO)
        (burnStart B desc idI idO desc.maxsize r.val.2 bufAt) r.env
      rw [hrun]
      have hw : B.written (r.log ++ (Prog.run h (burnLoop (burnConf B desc idI idO r.val.1)
          (burnRemain B desc (Dev.ofId idI) idO)
          (burnStart B desc idI idO desc.maxsize r.val.2 bufAt)) r.env).log) = ∅ := by
        refine written_eq_empty B ?_
        rw [writeOps_append, burnPrelude_writeOps, List.nil_append]
        exact hops
      constructor
      · intro hg
        by_contra hlt
        exact (hg.2 (not_le.1 hlt)).1 hval
      · intro hle
        exact ⟨hw ▸ Set.empty_subset _, fun hlt => absurd hle (not_le.2 hlt)⟩
    · obtain ⟨hval, hwr, hnw⟩ := burnImageLoop_layout B desc idI idO h buf bufAt e hstnf hd
        (hbad d hd) hne href
      set out := Prog.run h (burnImageLoop B desc idI idO desc.maxsize buf bufAt) e
      dsimp only
      have hrun := burnImageLoop_silent B desc idI idO h buf bufAt e hstnf hd (hbad d hd) hne href
      by_cases hu : WritesUnits B desc idI idO d ∧ remainOf B desc idI idO ≠ 0 ∧
        ¬Starved B desc idI idO bad 1
      · obtain ⟨hu, h0, hs⟩ := hu
        obtain ⟨o, ho, hmem⟩ := burnImageLoop_first B desc idI idO h buf bufAt e hstnf hd
          (hbad d hd) hne href hu h0 hs
        constructor
        · intro hg
          refine Or.inr (Or.inl ⟨?_, Or.inl ?_⟩)
          · by_contra hlt
            have hemp := (hg.2 (not_le.1 hlt)).2
            rw [hemp] at hmem
            exact hmem
          · by_contra hdvd
            exact absurd (hg.1 hmem).2.1 (not_le.2 (ho hdvd))
        · rintro (⟨_, hs'⟩ | ⟨hle, hdvd | h0' | hu'⟩ | ⟨hu', _⟩)
          · exact absurd hs' hs
          · refine fits_granted B desc idI idO h buf bufAt e hstnf ⟨hle, fun d' hd' => ?_⟩
            rw [← Option.some.inj (hd.symm.trans hd')]
            exact hdvd
          · exact absurd h0' h0
          · exact absurd hu hu'
          · exact absurd hu hu'
      · have hemp : B.written out.log = ∅ := hrun (by tauto)
        have hiff : Granted B desc idI idO out ↔
            remainOf B desc idI idO ≤ desc.maxsize ∨
              Starved B desc idI idO bad (rounds B desc idI idO) := by
          unfold Granted Starved
          rw [hemp, hval, ← not_lt, ← imp_iff_not_or]
          simp [EBADBLK]
        have hzero : remainOf B desc idI idO = 0 →
            ¬Starved B desc idI idO bad (rounds B desc idI idO) := fun h0 => by
          rw [rounds_eq_zero B desc idI idO hstnf hd href h0]
          simp [Starved, layout, place]
        have hone : remainOf B desc idI idO ≠ 0 → Starved B desc idI idO bad 1 →
            Starved B desc idI idO bad (rounds B desc idI idO) := fun h0 hs => by
          obtain ⟨n, hn⟩ := rounds_succ B desc idI idO hstnf hd href h0
          rw [Starved, hn, layout, place_one_false _ _ _ hs]
        rw [hiff]
        constructor
        · intro hkeep
          by_cases hs : remainOf B desc idI idO ≠ 0 ∧ Starved B desc idI idO bad 1
          · exact Or.inl hs
          · rcases hkeep with hle | hst
            · refine Or.inr (Or.inl ⟨hle, Or.inr (or_iff_not_imp_left.2 fun h0 hw => ?_)⟩)
              exact hu ⟨hw, h0, fun hst => hs ⟨h0, hst⟩⟩
            · have h0 : remainOf B desc idI idO ≠ 0 := fun h0 => hzero h0 hst
              exact Or.inr (Or.inr ⟨fun hw => hu ⟨hw, h0, fun hs' => hs ⟨h0, hs'⟩⟩, hst⟩)
        · rintro (⟨h0, hs⟩ | ⟨hle, _⟩ | ⟨_, hst⟩)
          · exact Or.inr (hone h0 hs)
          · exact Or.inl hle
          · exact Or.inr hst

end Runs

end Grant

section Overrun

/-- 64KB and one byte for `nnd` into a region of 64KB. -/
def unfitDesc : IusDesc := ⟨0x44000000, 0, 0x10000, 0x10001⟩

theorem calm_good (d : Dev) : StaticBad calmStep d fun _ => false :=
  fun _ _ => iff_of_true rfl rfl

theorem burn_grant_unfit :
    Granted slcBoard unfitDesc Dev.mmc0.id Dev.nnd.id
        (Prog.run calmStep
          (burnImageLoop slcBoard unfitDesc Dev.mmc0.id Dev.nnd.id unfitDesc.maxsize (fun _ => 0) 0)
            ()) ↔
      KeepsGrant slcBoard unfitDesc Dev.mmc0.id Dev.nnd.id fun _ => false :=
  (burn_grant slcBoard unfitDesc Dev.mmc0.id Dev.nnd.id (fun _ => 0) 0
    (fun ht => absurd ht (by decide))).2 calmStep () _ fun d _ => calm_good d

/-- The image does not fit and is burnt all the same. -/
theorem burn_overrun :
    ¬Granted slcBoard unfitDesc Dev.mmc0.id Dev.nnd.id
      (Prog.run calmStep
        (burnImageLoop slcBoard unfitDesc Dev.mmc0.id Dev.nnd.id unfitDesc.maxsize (fun _ => 0) 0)
        ()) := by
  intro hg
  obtain ⟨o, _, hmem⟩ := burnImageLoop_first slcBoard unfitDesc Dev.mmc0.id Dev.nnd.id calmStep
    (fun _ => 0) 0 () (fun ht => absurd ht (by decide)) (Dev.ofId_id _) (calm_good _)
    (by decide) (by decide) ⟨rfl, by decide⟩ (by decide) (by decide)
  have hemp := (hg.2 (by decide)).2
  rw [hemp] at hmem
  exact hmem

end Overrun

end InfotmUboot
