import InfotmUboot.Proofs.FwEnv

/-!
# Histories of saves by U-Boot and by the tool

The flags of the copy that was written last are one more than those of the other (`savesStep_inv`).
So U-Boot takes it, and so does the tool, but where its comparison of two `char`s goes wrong
(`envs_agree_iff`).
-/

namespace InfotmUboot

open Lib

/-- What happens: U-Boot starts, its environment gets other data, it is saved, or the tool is run
under Linux. -/
inductive SaveEvent where
  | boot (heap1 heap2 : Mem)
  | edit (data : List UInt8)
  | save
  | fwSetenv (data : List UInt8)

/-- The environment of U-Boot while it runs, the flash, and which copy was written last, 0 before
the first save. -/
structure EnvHistory where
  ram : Option EnvRam
  flash : Mem
  last : ℕ

section Run

variable (f : FwEnv)

/-- A save that does not complete has no result. -/
def savesStep (s : EnvHistory) : SaveEvent → Option EnvHistory
  | .boot heap1 heap2 => some { s with ram := some (envRelocateSpec f.regions s.flash heap1 heap2) }
  | .edit data =>
    some { s with ram := s.ram.map fun r => { r with
      env := f.regions.crcUpdate (r.env.store ENV_HEADER_SIZE (fit f.regions.dataSize data)) } }
  | .save => do
    let r ← s.ram
    match saveenv f.regions r s.flash [] with
    | (.done, r, m) => some ⟨some r, m, r.valid⟩
    | _ => none
  | .fwSetenv data => do
    let (dev, _) ← fwEnvInit f s.flash
    let m ← fwSetenv f data s.flash
    return ⟨none, m, 1 - dev + 1⟩

def savesRun : List SaveEvent → EnvHistory → Option EnvHistory
  | [], s => some s
  | ev :: evs, s => (savesStep f s ev).bind (savesRun evs)

/-- Both programs select the copy that was written last. -/
def Agree (s : EnvHistory) : Prop :=
  (∀ heap1 heap2, (envRelocateSpec f.regions s.flash heap1 heap2).valid = s.last) ∧
    (fwEnvInit f s.flash).map (fun p => p.1 + 1) = some s.last

/-- The flags are where the tool's `char` wraps: at 127 if it has a sign, else at 255, if it is the
second copy that has them. -/
def AstrayFlags (flags0 flags1 : UInt8) : Prop :=
  if f.charSigned then flags0 = 127 ∧ flags1 = 128 ∨ flags0 = 128 ∧ flags1 = 127
  else flags0 = 0 ∧ flags1 = 255

/-- Both copies are good, with such flags. -/
def Astray (m : Mem) : Prop :=
  f.regions.good 1 m = true ∧ f.regions.good 2 m = true ∧
    AstrayFlags f (envFlags (f.regions.read 1 m)) (envFlags (f.regions.read 2 m))

instance (flags0 flags1 : UInt8) : Decidable (AstrayFlags f flags0 flags1) := by
  unfold AstrayFlags
  infer_instance

instance (m : Mem) : Decidable (Astray f m) := inferInstanceAs (Decidable (_ ∧ _ ∧ _))

end Run

section Inv

variable {f : FwEnv}

/-- What U-Boot has in RAM carries on the copy it is from. -/
structure RamInv (c : NandEnv) (r : EnvRam) (m : Mem) : Prop where
  valid : r.valid = 1 ∨ r.valid = 2
  crc : c.crcOk r.env = true
  flags : c.good r.valid m = true → envFlags r.env = envFlags (c.read r.valid m)

/-- The copy that was written last is good, and its flags come after those of the other. -/
structure LastInv (c : NandEnv) (v : ℕ) (m : Mem) : Prop where
  valid : v = 1 ∨ v = 2
  good : c.good v m = true
  flags : c.good (other v) m = true →
    envFlags (c.read v m) = envFlags (c.read (other v) m) + 1

structure EnvHistory.Inv (f : FwEnv) (s : EnvHistory) : Prop where
  ram : ∀ r, s.ram = some r → RamInv f.regions r s.flash
  last : s.last ≠ 0 → LastInv f.regions s.last s.flash

variable (h : f.Usable)
include h

theorem FwEnv.Usable.filled (m heap1 heap2 : Mem) : f.regions.Filled m heap1 heap2 := by
  have h1 : (readenv f.regions f.regions.envOffset m heap1).1 = true := h.readable' 0 m heap1
  have h2 : (readenv f.regions f.regions.envOffsetRedund m heap2).1 = true := h.readable' 1 m heap2
  exact ⟨fun hn => Bool.noConfusion (h1.symm.trans hn), fun hn =>
    Bool.noConfusion (h2.symm.trans hn)⟩

theorem ramInv_boot (m heap1 heap2 : Mem) :
    RamInv f.regions (envRelocateSpec f.regions m heap1 heap2) m := by
  have hle := h.valid.header_le
  have hfill := h.filled m heap1 heap2
  obtain ⟨hgood1, hread1⟩ := good_heap hle 1 heap1 hfill.1
  obtain ⟨hgood2, hread2⟩ := good_heap hle 2 heap2 hfill.2
  unfold envRelocateSpec
  dsimp only
  rw [envSelect_heap hle hfill]
  rcases selected_cases (c := f.regions) m with h0 | h1 | h2
  · rw [h0]
    refine ⟨Or.inl rfl, crcOk_crcUpdate _ _, fun hg => ?_⟩
    exact Bool.noConfusion (hg.symm.trans (selected_zero.1 h0).1)
  · rw [h1]
    exact ⟨Or.inl rfl, hgood1.trans ((selected_eq (Or.inl rfl)).1 h1).1, fun hg => (hread1 hg).1⟩
  · rw [h2]
    exact ⟨Or.inr rfl, hgood2.trans ((selected_eq (Or.inr rfl)).1 h2).1, fun hg => (hread2 hg).1⟩

/-- A save leaves the copy in use and makes the other one a copy whose flags come after it. -/
theorem inv_save {r r' : EnvRam} {m m' : Mem} (hram : RamInv f.regions r m)
    (hsave : saveenv f.regions r m [] = (.done, r', m')) :
    RamInv f.regions r' m' ∧ LastInv f.regions r'.valid m' := by
  have hv := hram.valid
  have hkeep := saveenv_keeps h.valid hv m [] fun _ => 0
  have hdone : (saveenv f.regions r m []).1 = .done := by rw [hsave]
  obtain ⟨hok, hsame⟩ := saveenv_reads h.valid hv hdone fun _ => 0
  obtain ⟨-, hcrc, hfl⟩ := data_congr h.valid.header_le hsame
  obtain ⟨-, hcrc', hfl'⟩ := flags_store (c := f.regions) r.env (envFlags r.env + 1)
  have hr' : r' = ⟨r.env.store 4 [envFlags r.env + 1], other r.valid⟩ := by
    rcases saveenv_cases hv m [] with ⟨m1, fs1, m2, fs2, -, heq⟩ | ⟨e2, m2, hne, heq⟩
    · rw [hsave] at heq
      exact (Prod.mk.inj (Prod.mk.inj heq).2).1
    · rw [hsave] at heq
      exact absurd (Prod.mk.inj heq).1.symm hne
  subst hr'
  rw [hsave] at hkeep hok hcrc hfl
  have hread : f.regions.read r.valid m' = f.regions.read r.valid m := by
    rw [NandEnv.read, hkeep]
    rfl
  have hgood : f.regions.good r.valid m' = f.regions.good r.valid m := by
    rw [NandEnv.good, NandEnv.good, hkeep, hread]
  have hnew : f.regions.good (other r.valid) m' = true := by
    rw [NandEnv.good, hok, Bool.true_and]
    exact (hcrc.trans hcrc').trans hram.crc
  have hflags : envFlags (f.regions.read (other r.valid) m') = envFlags r.env + 1 := hfl.trans hfl'
  refine ⟨⟨other_cases hv, hcrc'.trans hram.crc, fun _ => hfl'.trans hflags.symm⟩,
    ⟨other_cases hv, hnew, fun hg => ?_⟩⟩
  rw [other_other hv] at hg ⊢
  rw [hflags, hread, hram.flags (hgood ▸ hg)]

/-- A run of the tool. -/
theorem lastInv_fwSetenv {data : List UInt8} {m m' : Mem} (hrun : fwSetenv f data m = some m') :
    LastInv f.regions (1 - f.taken m + 1) m' := by
  obtain ⟨hgood, hread, hnew, hflags⟩ := fwSetenv_spec h hrun
  have hother : other (1 - f.taken m + 1) = f.taken m + 1 := by
    rcases f.taken_cases m with ht | ht <;> rw [ht] <;> rfl
  refine ⟨by rcases f.taken_cases m with ht | ht <;> rw [ht] <;> decide, hnew, fun hg => ?_⟩
  rw [hother] at hg ⊢
  rw [hread, hflags (hgood ▸ hg)]

/-- One event. -/
theorem savesStep_inv {s s' : EnvHistory} (hs : s.Inv f) {ev : SaveEvent}
    (hstep : savesStep f s ev = some s') : s'.Inv f := by
  obtain ⟨ram, flash, last⟩ := s
  rcases ev with ⟨heap1, heap2⟩ | data | _ | data
  · cases hstep
    refine ⟨fun r hr => ?_, hs.last⟩
    cases hr
    exact ramInv_boot h flash heap1 heap2
  · cases hstep
    refine ⟨fun r hr => ?_, hs.last⟩
    obtain ⟨r0, hr0, rfl⟩ := Option.map_eq_some_iff.1 hr
    obtain ⟨hvalid, -, hflags⟩ := hs.ram r0 hr0
    exact ⟨hvalid, crcOk_crcUpdate _ _, fun hg => (envFlags_update _ _ _).trans (hflags hg)⟩
  · obtain ⟨r, hr, hstep⟩ := Option.bind_eq_some_iff.1 hstep
    rcases hsave : saveenv f.regions r flash [] with ⟨e, r', m'⟩
    dsimp only at hstep
    rw [hsave] at hstep
    rcases e with _ | _ | _
    · cases hstep
      obtain ⟨hram, hlast⟩ := inv_save h (hs.ram r hr) hsave
      exact ⟨fun r1 hr1 => Option.some.inj hr1 ▸ hram, fun _ => hlast⟩
    · cases hstep
    · cases hstep
  · obtain ⟨image, hinit, -⟩ := fwEnvInit_eq h flash
    unfold savesStep at hstep
    dsimp only at hstep
    rw [hinit, Option.bind_eq_bind, Option.bind_some] at hstep
    obtain ⟨m, hrun, hstep⟩ := Option.bind_eq_some_iff.1 hstep
    cases hstep
    exact ⟨nofun, fun _ => lastInv_fwSetenv h hrun⟩

theorem savesRun_inv : ∀ {evs : List SaveEvent} {s s' : EnvHistory}, s.Inv f → savesRun f evs s =
    some s' →
    s'.Inv f
  | [], _, _, hs, hrun => Option.some.inj hrun ▸ hs
  | _ :: _, _, _, hs, hrun => by
    obtain ⟨s1, hstep, hrun⟩ := Option.bind_eq_some_iff.1 hrun
    exact savesRun_inv (savesStep_inv h hs hstep) hrun

/-- U-Boot takes the copy that was written last. -/
theorem LastInv.valid_eq {v : ℕ} {m : Mem} (hl : LastInv f.regions v m) (heap1 heap2 : Mem) :
    (envRelocateSpec f.regions m heap1 heap2).valid = v := by
  have hsel : f.regions.selected m = v := by
    refine (selected_eq hl.valid).2 ⟨hl.good, fun hg => ?_⟩
    rw [hl.flags hg]
    exact supersedes_succ _ _
  rw [(envRelocateSpec_selects h.valid.header_le (h.filled m heap1 heap2)).1, hsel, if_neg]
  rcases hl.valid with hv | hv <;> rw [hv] <;> decide

omit h in
theorem char_eq (b : UInt8) :
    f.char b = if f.charSigned ∧ 128 ≤ b.toNat then (b.toNat : ℤ) - 256 else b.toNat := rfl

omit h in
/-- The comparison of the tool, when the flags of the second copy come after those of the first. -/
theorem devCurrent_second {flags0 flags1 : UInt8} (hs : flags1 = flags0 + 1) :
    f.devCurrent true true flags0 flags1 = 1 ↔ ¬AstrayFlags f flags0 flags1 := by
  have hn : flags1.toNat = (flags0.toNat + 1) % 256 := by rw [hs, UInt8.toNat_add]; rfl
  have hlt := flags0.toNat_lt
  unfold FwEnv.devCurrent AstrayFlags
  simp only [char_eq, ← UInt8.toNat_inj, Bool.true_eq_false, and_false, false_and, if_false]
  by_cases hsign : f.charSigned = true
  · simp only [hsign, true_and, if_true, UInt8.reduceToNat]
    split_ifs <;> simp <;> omega
  · simp only [hsign, false_and, if_false, Bool.false_eq_true, UInt8.reduceToNat]
    split_ifs <;> simp <;> omega

omit h in
/-- And when it is the other way. -/
theorem devCurrent_first {flags0 flags1 : UInt8} (hs : flags0 = flags1 + 1) :
    f.devCurrent true true flags0 flags1 = 0 ↔ ¬AstrayFlags f flags0 flags1 := by
  have hn : flags0.toNat = (flags1.toNat + 1) % 256 := by rw [hs, UInt8.toNat_add]; rfl
  have hlt := flags1.toNat_lt
  unfold FwEnv.devCurrent AstrayFlags
  simp only [char_eq, ← UInt8.toNat_inj, Bool.true_eq_false, and_false, false_and, if_false]
  by_cases hsign : f.charSigned = true
  · simp only [hsign, true_and, if_true, UInt8.reduceToNat]
    split_ifs <;> simp <;> omega
  · simp only [hsign, false_and, if_false, Bool.false_eq_true, UInt8.reduceToNat]
    split_ifs <;> simp <;> omega

omit h in
/-- The tool takes the copy that was written last, but where the flags are astray. -/
theorem LastInv.taken_iff {v : ℕ} {m : Mem} (hl : LastInv f.regions v m) :
    f.taken m + 1 = v ↔ ¬Astray f m := by
  unfold FwEnv.taken Astray
  obtain ⟨rfl | rfl, hgood, hflags⟩ := hl
  · rcases hg : f.regions.good 2 m
    · simp [FwEnv.devCurrent, hgood]
    · have hfl : envFlags (f.regions.read 1 m) = envFlags (f.regions.read 2 m) + 1 := hflags hg
      rw [hgood, Nat.add_eq_right, devCurrent_first hfl]
      simp only [true_and]
  · rcases hg : f.regions.good 1 m
    · simp [FwEnv.devCurrent, hgood]
    · have hfl : envFlags (f.regions.read 2 m) = envFlags (f.regions.read 1 m) + 1 := hflags hg
      rw [hgood, Nat.succ_inj, devCurrent_second hfl]
      simp only [true_and]

end Inv

section Agree

/-- In every history of completed saves by both, from any contents of the flash on, both select the
copy that was written last if and only if both regions can be read and the flags are not astray. -/
theorem envs_agree_iff (f : FwEnv) (h : f.Same) {m : Mem} {evs : List SaveEvent} {s : EnvHistory}
    (hrun : savesRun f evs ⟨none, m, 0⟩ = some s) (hlast : s.last ≠ 0) :
    Agree f s ↔ (∀ dev < 2, f.Readable dev) ∧ ¬Astray f s.flash := by
  by_cases hread : ∀ dev < 2, f.Readable dev
  · have husable : f.Usable := ⟨h, fun dev => by
      rcases dev with _ | dev
      · exact hread 0 (by decide)
      · have hoff : f.devoff (dev + 1) = f.devoff 1 := by
          unfold FwEnv.devoff NandEnv.offset
          rw [if_neg (by omega), if_neg (by decide)]
        rw [FwEnv.Readable, hoff]
        exact hread 1 (by decide)⟩
    have hinv : s.Inv f := savesRun_inv husable ⟨fun _ hr => (by cases hr), fun hn => absurd rfl hn⟩
      hrun
    have hl := hinv.last hlast
    obtain ⟨image, hinit, -⟩ := fwEnvInit_eq husable s.flash
    unfold Agree
    rw [hinit, Option.map_some, Option.some_inj, hl.taken_iff]
    exact ⟨fun ha => ⟨hread, ha.2⟩, fun ha => ⟨hl.valid_eq husable, ha.2⟩⟩
  · refine iff_of_false (fun ha => ?_) fun ha => hread ha.1
    obtain ⟨p, hinit, -⟩ := Option.map_eq_some_iff.1 ha.2
    refine hread fun dev hdev => ?_
    obtain ⟨image0, hbuf0, hinit⟩ := Option.bind_eq_some_iff.1 hinit
    obtain ⟨image1, hbuf1, -⟩ := Option.bind_eq_some_iff.1 hinit
    obtain rfl | rfl : dev = 0 ∨ dev = 1 := by omega
    · exact flashReadBuf_readable h hbuf0
    · exact flashReadBuf_readable h hbuf1

/-- The tool beside U-Boot with `smallEnv`. -/
def smallTool (charSigned : Bool) : FwEnv := ⟨smallEnv, 1, charSigned, []⟩

theorem smallTool_same (charSigned : Bool) : (smallTool charSigned).Same where
  valid := smallEnv_valid
  aligned dev := by
    change smallEnv.offset (dev + 1) % 8 = 0
    unfold NandEnv.offset
    split_ifs
    · rfl
    · rfl
  range := le_refl 8
  sectors := (by decide : 1 * 8 = smallEnv.span)
  isbad _ := le_refl (0 : ℤ)
  whole := (by decide : smallEnv.len ∣ smallEnv.envSize)

/-- A save by U-Boot, and one by the tool. -/
def savedByBoth : List SaveEvent :=
  [.boot (fun _ => 0) fun _ => 0, .edit [0x61, 0x3d, 0], .save, .fwSetenv [0x62, 0x3d, 0]]

theorem envs_agree_iff_saved : ∃ s, savesRun (smallTool false) savedByBoth ⟨none, oneCopy 3, 0⟩ =
    some s ∧
    Agree (smallTool false) s := by
  obtain ⟨s, hs⟩ := Option.isSome_iff_exists.1 (show (savesRun (smallTool false) savedByBoth
    ⟨none, oneCopy 3, 0⟩).isSome = true by decide)
  have hend := (Option.all_eq_true _ _).1 (show (savesRun (smallTool false) savedByBoth
    ⟨none, oneCopy 3, 0⟩).all (fun s => s.last ≠ 0 ∧ ¬Astray (smallTool false) s.flash) = true by
      decide) s hs
  obtain ⟨hlast, hastray⟩ := of_decide_eq_true hend
  exact ⟨s, hs, (envs_agree_iff _ (smallTool_same false) hs hlast).2 ⟨by decide, hastray⟩⟩

/-- From flags 254 in the first copy, U-Boot saves twice: the second copy gets 255 and then the
first one 0. The tool takes the second. -/
theorem envs_disagree : ¬∀ f : FwEnv, f.Same → (∀ dev < 2, f.Readable dev) → ∀ (m : Mem)
    (evs : List SaveEvent) (s : EnvHistory), savesRun f evs ⟨none, m, 0⟩ = some s → s.last ≠ 0 →
    Agree f s := by
  intro h
  have hall := h (smallTool false) (smallTool_same false) (by decide) (oneCopy 254)
    [.boot (fun _ => 0) fun _ => 0, .save, .save]
  obtain ⟨s, hs⟩ := Option.isSome_iff_exists.1 (show (savesRun (smallTool false)
    [.boot (fun _ => 0) fun _ => 0, .save, .save] ⟨none, oneCopy 254, 0⟩).isSome = true by
      decide)
  have hend := (Option.all_eq_true _ _).1 (show (savesRun (smallTool false)
    [.boot (fun _ => 0) fun _ => 0, .save, .save] ⟨none, oneCopy 254, 0⟩).all (fun s =>
      s.last = 1 ∧ (fwEnvInit (smallTool false) s.flash).map (fun p => p.1 + 1) = some 2) = true by
      decide) s hs
  obtain ⟨hlast, htool⟩ := of_decide_eq_true hend
  have hagree := (hall s hs (by rw [hlast]; decide)).2
  rw [htool, hlast] at hagree
  exact absurd hagree (by decide)

end Agree

end InfotmUboot
