import InfotmUboot.Proofs.EnvFlash
import InfotmUboot.Proofs.Env

/-!
# Histories of saves to NOR flash

In a history of `setenv`, `saveenv` and boots, each of which the power may cut off after any
operation of the flash, a boot selects the old environment or the new one, as long as the checksum
of what is saved is right.
-/

namespace InfotmUboot

open Lib

/-- What happens: a variable is set, the environment is saved, or the board starts; the last two may
be cut off after so many operations of the flash. -/
inductive NorEvent where
  | set (w : EnvWorld) (name : List UInt8) (vals : List (List UInt8))
  | save (cut : Option ℕ)
  | boot (cut : Option ℕ)

/-- The board, if it is on, its flash, and for the next boot: the environment of the last save that
completed (or of the last boot), and that of a save cut off since. -/
structure NorState where
  ram : Option NorRam
  flash : NorFlash
  last : List UInt8
  cut : Option (List UInt8)

section Run

variable (c : NorEnv)

def NorRam.data (r : NorRam) : List UInt8 := r.env.data.load 0 c.size

def norSet (w : EnvWorld) (name : List UInt8) (vals : List (List UInt8)) (r : NorRam) : NorRam :=
  match doSetenv c.size w name vals r.env with
  | none => r
  | some (_, e) => { r with env := e }

def norStep (s : NorState) : NorEvent → NorState
  | .set w name vals => { s with ram := s.ram.map (norSet c w name vals) }
  | .save cut =>
    match s.ram with
    | none => s
    | some r =>
      let (r', m) := norSaveenv c cut r s.flash
      match cut with
      | none => ⟨some r', m, r.data c, none⟩
      | some _ => ⟨none, m, s.last, some (r.data c)⟩
  | .boot cut =>
    let (r, m) := norBoot c cut s.flash
    match cut with
    | none => ⟨some r, m, r.data c, none⟩
    | some _ => ⟨none, m, s.last, s.cut⟩

/-- What a boot makes of this flash: the old or the new environment, with a right checksum, and it
is that of the sector which the next save keeps, if any sector has one. -/
structure NorBootRight (s : NorState) : Prop where
  data : (norBoot c none s.flash).1.data c = s.last ∨
    some ((norBoot c none s.flash).1.data c) = s.cut
  crc : crc32 0 ((norBoot c none s.flash).1.data c) = (norBoot c none s.flash).1.env.crc
  keeps : ∀ b, c.crcOk (s.flash b) = true →
    c.crcOk ((norBoot c none s.flash).2 (norBoot c none s.flash).1.flashAddr) = true ∧
      c.dataOf ((norBoot c none s.flash).2 (norBoot c none s.flash).1.flashAddr) =
        (norBoot c none s.flash).1.data c

/-- A boot from any state of a history is right. -/
def NorBootsRight : List NorEvent → NorState → Prop
  | [], s => NorBootRight c s
  | ev :: evs, s => NorBootRight c s ∧ NorBootsRight evs (norStep c s ev)

/-- The board is off, whatever is in its flash. -/
def NorState.start (m : NorFlash) : NorState := ⟨none, m, c.current m, none⟩

/-- A save writes a right checksum, or is cut off before it writes it. -/
def NorSaveClean (r : NorRam) : Option ℕ → Prop
  | none => crc32 0 (r.data c) = r.env.crc
  | some k => crc32 0 (r.data c) = r.env.crc ∨ k ≤ 2

def NorEventClean (s : NorState) : NorEvent → Prop
  | .save cut =>
    match s.ram with
    | none => True
    | some r => NorSaveClean c r cut
  | _ => True

def NorHistoryClean : List NorEvent → NorState → Prop
  | [], _ => True
  | ev :: evs, s => NorEventClean c s ev ∧ NorHistoryClean evs (norStep c s ev)

end Run

section Inv

variable {c : NorEnv} (hc : c.Valid)

/-- The sector in use is the one that a boot would take, if there is one. -/
structure NorInUse (c : NorEnv) (r : NorRam) (m : NorFlash) : Prop where
  flagsOk : c.FlagsOk m
  selected : c.selected m = none ∨ c.selected m = some r.flashAddr ∧
    ((m r.flashAddr).flags = ACTIVE_FLAG ∨ (m r.flashAddr).flags = OBSOLETE_FLAG)

def NorState.Inv (c : NorEnv) (s : NorState) : Prop :=
  match s.ram with
  | some r => NorInUse c r s.flash ∧ c.current s.flash = s.last
  | none => c.FlagsOk s.flash ∧ (c.current s.flash = s.last ∨ some (c.current s.flash) = s.cut)

variable {r : NorRam} {m m' : NorFlash} {b : Bool}

theorem crcOk_of_selected_none (hf : c.FlagsOk m) (h : c.selected m = none) (b : Bool) :
    c.crcOk (m b) = false := by
  by_contra hb
  obtain ⟨x, hx⟩ := selected_of_crcOk hf (Bool.eq_true_of_not_eq_false hb)
  rw [h] at hx
  exact absurd hx (by simp)

theorem current_some (h : c.selected m = some b) : c.current m = c.dataOf (m b) := by
  unfold NorEnv.current
  rw [h]

theorem current_none (h : c.selected m = none) :
    c.current m = c.defaultEnv.data.load 0 c.size := by
  unfold NorEnv.current
  rw [h]

/-- A boot, and a board that goes off in the middle of it. -/
theorem norBoot_spec (hf : c.FlagsOk m) (cut : Option ℕ) :
    c.FlagsOk (norBoot c cut m).2 ∧ c.current (norBoot c cut m).2 = c.current m ∧
      (norBoot c cut m).1.data c = c.current m ∧
      crc32 0 ((norBoot c cut m).1.data c) = (norBoot c cut m).1.env.crc ∧
      (cut = none → NorInUse c (norBoot c cut m).1 (norBoot c cut m).2) ∧
      ∀ x, c.crcOk (m x) = true →
        c.crcOk ((norBoot c cut m).2 (norBoot c cut m).1.flashAddr) = true ∧
          c.dataOf ((norBoot c cut m).2 (norBoot c cut m).1.flashAddr) = c.current m := by
  rcases hsel : c.selected m with _ | b
  · have hinit : (envInit c m).1 = none := hsel
    have hboot : norBoot c cut m = (⟨c.defaultEnv, 0xff, 1, false⟩, m) := by
      unfold norBoot
      rcases henv : envInit c m with ⟨addr, valid⟩
      rw [henv] at hinit
      rw [show addr = none from hinit]
    rw [hboot]
    refine ⟨hf, rfl, (current_none hsel).symm, rfl, fun _ => ⟨hf, Or.inl hsel⟩, fun x hx => ?_⟩
    rw [crcOk_of_selected_none hf hsel x] at hx
    exact absurd hx Bool.false_ne_true
  · have hinit : (envInit c m).1 = some b := hsel
    obtain ⟨hrep, hflags⟩ := repair_spec hf hsel cut
    obtain ⟨v, f, hboot⟩ : ∃ v f, norBoot c cut m =
        (⟨⟨((norRun c (untilCut cut (repairOps c b m)) m) b).crc,
          ((norRun c (untilCut cut (repairOps c b m)) m) b).data⟩, f, v, b⟩,
        norRun c (untilCut cut (repairOps c b m)) m) := by
      unfold norBoot
      rcases henv : envInit c m with ⟨addr, valid⟩
      rw [henv] at hinit
      rw [show addr = some b from hinit]
      exact ⟨_, _, rfl⟩
    rw [hboot]
    have hok : c.crcOk ((norRun c (untilCut cut (repairOps c b m)) m) b) = true := by
      rw [hrep.crcOk, selected_crcOk hsel]
    have hcur := current_some hsel
    refine ⟨hrep.flagsOk, ?_, ?_, of_decide_eq_true hok, fun hcut => ⟨hrep.flagsOk, ?_⟩,
      fun _ _ => ?_⟩
    · rw [current_some hrep.selected, hrep.data, hcur]
    · rw [hcur, ← hrep.data]
      rfl
    · subst hcut
      exact Or.inr ⟨hrep.selected, hflags rfl⟩
    · exact ⟨hok, by rw [hcur, ← hrep.data]⟩

/-- After a save that is cut off a boot takes what it would have taken before it, or what was
saved. -/
theorem save_current (h : NorInUse c r m) (hleft : SaveLeft c r m m') :
    c.FlagsOk m' ∧ (c.current m' = c.current m ∨ c.current m' = r.data c) := by
  rcases hleft with hsame | ⟨hkeep, hcrc⟩ | ⟨hcrc, hdata, hflags, hnew, hflag, hdata'⟩ | hsaved
  · rw [hsame]
    exact ⟨h.flagsOk, Or.inl rfl⟩
  · refine ⟨fun x hx => ?_, Or.inl ?_⟩
    · rcases Bool.eq_or_eq_not x r.flashAddr with rfl | rfl
      · rw [hkeep] at hx ⊢
        exact h.flagsOk _ hx
      · rw [hcrc] at hx
        exact absurd hx Bool.false_ne_true
    · rcases h.selected with hsel | ⟨hsel, -⟩
      · have hb := crcOk_of_selected_none h.flagsOk hsel r.flashAddr
        rw [current_none hsel, current_none (selected_none (b := r.flashAddr) (by rwa [hkeep])
          hcrc)]
      · rw [current_some hsel, current_some (selected_only (b := r.flashAddr) ?_ hcrc), hkeep]
        rw [hkeep, selected_crcOk hsel]
  · refine ⟨fun x hx => ?_, Or.inr ?_⟩
    · rcases Bool.eq_or_eq_not x r.flashAddr with rfl | rfl
      · rcases hflags with hflags | hflags
        · rw [hflags]
          exact h.flagsOk _ (by rw [← hcrc, hx])
        · exact Or.inr (Or.inl hflags)
      · exact Or.inr (Or.inr hflag)
    · have hsel' : c.selected m' = some !r.flashAddr := by
        rcases h.selected with hsel | ⟨-, hfl⟩
        · refine selected_only hnew ?_
          rw [Bool.not_not, hcrc]
          exact crcOk_of_selected_none h.flagsOk hsel _
        · refine selected_erased hnew hflag ?_
          rw [Bool.not_not]
          rcases hflags with hflags | hflags
          · rwa [hflags]
          · exact Or.inr hflags
      rw [current_some hsel', hdata']
      rfl
  · refine ⟨fun x hx => ?_, Or.inr ?_⟩
    · rcases Bool.eq_or_eq_not x r.flashAddr with rfl | rfl
      · exact Or.inr (Or.inl hsaved.flags)
      · exact Or.inl hsaved.newFlags
    · have hsel' : c.selected m' = some !r.flashAddr := by
        refine selected_active hsaved.newCrcOk hsaved.newFlags ?_
        rw [Bool.not_not, hsaved.flags]
      rw [current_some hsel', hsaved.newData]
      rfl

/-- After one that completes the new sector is in use. -/
theorem save_inUse (h : NorInUse c r m) (hsaved : Saved c r m m') :
    NorInUse c { r with flashAddr := !r.flashAddr } m' ∧ c.current m' = r.data c := by
  have hsel : c.selected m' = some !r.flashAddr := by
    refine selected_active hsaved.newCrcOk hsaved.newFlags ?_
    rw [Bool.not_not, hsaved.flags]
  refine ⟨⟨(save_current h (.saved hsaved)).1, Or.inr ⟨hsel, Or.inl hsaved.newFlags⟩⟩, ?_⟩
  rw [current_some hsel, hsaved.newData]
  rfl

include hc in
theorem norStep_inv {s : NorState} {ev : NorEvent} (h : s.Inv c) (hclean : NorEventClean c s ev) :
    (norStep c s ev).Inv c := by
  obtain ⟨ram, flash, last, cut0⟩ := s
  rcases ev with ⟨w, name, vals⟩ | cut | cut
  · rcases ram with _ | r
    · exact h
    · have hset : (norSet c w name vals r).flashAddr = r.flashAddr := by
        unfold norSet
        split <;> rfl
      obtain ⟨hin, hlast⟩ := h
      refine ⟨⟨hin.flagsOk, ?_⟩, hlast⟩
      rw [hset]
      exact hin.selected
  · rcases ram with _ | r
    · exact h
    · obtain ⟨hin, hlast⟩ := h
      rcases cut with _ | k
      · exact save_inUse hin (save_done hclean)
      · obtain ⟨hf, hcur⟩ := save_current hin (save_cut hc k hclean)
        refine ⟨hf, ?_⟩
        rcases hcur with hcur | hcur
        · exact Or.inl (hcur.trans hlast)
        · exact Or.inr (congrArg some hcur)
  · have hf : c.FlagsOk flash := by
      rcases ram with _ | r
      · exact h.1
      · exact h.1.flagsOk
    obtain ⟨hf', hcur, hdata, -, hin, -⟩ := norBoot_spec hf cut
    rcases cut with _ | k
    · exact ⟨hin rfl, hcur.trans hdata.symm⟩
    · refine ⟨hf', ?_⟩
      change c.current (norBoot c (some k) flash).2 = last ∨
        some (c.current (norBoot c (some k) flash).2) = cut0
      rw [hcur]
      rcases ram with _ | r
      · exact h.2
      · exact Or.inl h.2

theorem norBootRight_of_inv {s : NorState} (h : s.Inv c) : NorBootRight c s := by
  obtain ⟨ram, flash, last, cut⟩ := s
  have hf : c.FlagsOk flash ∧ (c.current flash = last ∨ some (c.current flash) = cut) := by
    rcases ram with _ | r
    · exact h
    · exact ⟨h.1.flagsOk, Or.inl h.2⟩
  obtain ⟨-, -, hdata, hcrc, -, hkeeps⟩ := norBoot_spec hf.1 none
  refine ⟨?_, hcrc, fun b hb => ?_⟩
  · rw [hdata]
    exact hf.2
  · rw [hdata]
    exact hkeeps b hb

include hc in
theorem norBootsRight_of_inv : ∀ (evs : List NorEvent) {s : NorState}, s.Inv c →
    NorHistoryClean c evs s → NorBootsRight c evs s
  | [], _, h, _ => norBootRight_of_inv h
  | _ :: evs, _, h, hclean =>
    ⟨norBootRight_of_inv h, norBootsRight_of_inv evs (norStep_inv hc h hclean.1) hclean.2⟩

include hc in
/-- In every history whose saves write right checksums, from any flash with flags that are ever
written, a boot from every state takes the old or the new environment and leaves it to the next
save. -/
theorem nor_boot_selects (m : NorFlash) (hf : c.FlagsOk m) (evs : List NorEvent)
    (h : NorHistoryClean c evs (NorState.start c m)) :
    NorBootsRight c evs (NorState.start c m) :=
  norBootsRight_of_inv hc evs ⟨hf, Or.inl rfl⟩ h

end Inv

section Decide

variable (c : NorEnv)

instance (r : NorRam) (cut : Option ℕ) : Decidable (NorSaveClean c r cut) :=
  match cut with
  | none => inferInstanceAs (Decidable (_ = _))
  | some _ => inferInstanceAs (Decidable (_ = _ ∨ _ ≤ _))

instance (s : NorState) (ev : NorEvent) : Decidable (NorEventClean c s ev) :=
  match ev with
  | .set _ _ _ => isTrue trivial
  | .boot _ => isTrue trivial
  | .save cut =>
    show Decidable (match s.ram with
      | none => True
      | some r => NorSaveClean c r cut) from
    match s.ram with
    | none => isTrue trivial
    | some r => inferInstanceAs (Decidable (NorSaveClean c r cut))

instance decNorHistoryClean : ∀ (evs : List NorEvent) (s : NorState),
    Decidable (NorHistoryClean c evs s)
  | [], _ => isTrue trivial
  | ev :: evs, s => @instDecidableAnd _ _ _ (decNorHistoryClean evs (norStep c s ev))

end Decide

section Example

/-- Eight bytes of data, and `a=b` for the default environment. -/
def smallNor : NorEnv := ⟨8, 0, [0x61, 0x3d, 0x62, 0, 0]⟩

theorem smallNor_valid : smallNor.Valid := ⟨by decide, by decide, by decide⟩

/-- `a=c` is active in the first sector, the second one is erased. -/
def smallFlash : NorFlash
  | false => ⟨crc32 0 [0x61, 0x3d, 0x63, 0, 0, 0, 0, 0], ACTIVE_FLAG,
      Mem.store (fun _ => 0) 0 [0x61, 0x3d, 0x63], fun _ => 0xff⟩
  | true => ⟨0xffffffff, 0xff, fun _ => 0xff, fun _ => 0xff⟩

/-- A save that is cut off behind the checksum, and a repair that is. -/
def norCuts : List NorEvent :=
  [.boot none, .set plainWorld [0x61] [[0x64]], .save (some 3), .boot (some 1), .boot none,
    .save none]

theorem nor_boot_selects_cuts : NorBootsRight smallNor norCuts (NorState.start smallNor
    smallFlash) := by
  refine nor_boot_selects smallNor_valid smallFlash (by decide) norCuts ?_
  decide

/-- A value that does not fit, whose variable is deleted without a new checksum, a save, a value
that does fit, and a save that is cut off behind the erasure. -/
def norOverflow : List NorEvent :=
  [.boot none, .set plainWorld [0x61] [[0x64, 0x64, 0x64, 0x64, 0x64]], .save none,
    .set plainWorld [0x61] [[0x65]], .save (some 1)]

/-- The first save leaves a copy of no use and takes it for the one in use, so that the second one
erases the only copy: a boot takes the default environment. -/
theorem nor_boot_loses : ¬∀ c : NorEnv, c.Valid → ∀ m : NorFlash, c.FlagsOk m → ∀ evs :
    List NorEvent,
    NorBootsRight c evs (NorState.start c m) := by
  intro h
  have hall := h smallNor smallNor_valid smallFlash (by decide) norOverflow
  have hlast := hall.2.2.2.2.2
  exact absurd hlast.data (by decide)

end Example

end InfotmUboot
