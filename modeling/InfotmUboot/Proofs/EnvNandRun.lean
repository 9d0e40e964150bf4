import InfotmUboot.Proofs.EnvNand

/-!
# Histories of saves to NAND flash

In a history of edits, saves and boots, where a save may complete, fail or be cut off by the power,
a boot selects the environment of the last save that completed, or of the one that was cut off after
it.
-/

namespace InfotmUboot

open Lib

/-- What happens: the environment in RAM gets other data and another checksum, it is saved, or the
board starts, with these bytes in its buffers. -/
inductive NandEvent where
  | edit (bytes : Mem)
  | save (fates : List Fate)
  | boot (heap1 heap2 : Mem)

/-- The board, if it is on, its flash, and for the next boot: the environment of the last save that
completed (or of the last boot), and that of a save cut off since. -/
structure NandRun where
  ram : Option EnvRam
  flash : Mem
  last : List UInt8
  cut : Option (List UInt8)

section Run

variable (c : NandEnv)

def nandEnvStep (s : NandRun) : NandEvent → NandRun
  | .edit bytes =>
    { s with ram := s.ram.map fun r => { r with env := bytes.store 4 [envFlags r.env] } }
  | .save fates =>
    match s.ram with
    | none => s
    | some r =>
      match saveenv c r s.flash fates with
      | (.done, r', m) => ⟨some r', m, c.data r.env, none⟩
      | (.failed, r', m) => ⟨some r', m, s.last, s.cut⟩
      | (.lost, _, m) => ⟨none, m, s.last, some (c.data r.env)⟩
  | .boot heap1 heap2 =>
    let r := envRelocateSpec c s.flash heap1 heap2
    ⟨some r, s.flash, c.data r.env, none⟩

/-- A boot selects the last environment or the one whose save was cut off. -/
def BootRight (s : NandRun) (heap1 heap2 : Mem) : Prop :=
  c.data (envRelocateSpec c s.flash heap1 heap2).env = s.last ∨
    some (c.data (envRelocateSpec c s.flash heap1 heap2).env) = s.cut

/-- Every boot of a history is right. -/
def BootsRight : List NandEvent → NandRun → Prop
  | [], _ => True
  | ev :: evs, s =>
    (∀ heap1 heap2, ev = .boot heap1 heap2 → BootRight c s heap1 heap2) ∧
      BootsRight evs (nandEnvStep c s ev)

/-- The board is off, whatever is in its flash: what it boots first is the environment before any
save. -/
def NandRun.start (m : Mem) : NandRun := ⟨none, m, c.current m, none⟩

/-- A copy is of no use, or reads as it did before. -/
def NandEnv.Untaken (i : ℕ) (m m' : Mem) : Prop :=
  c.good i m' = false ∨ c.good i m' = c.good i m ∧
    envFlags (c.read i m') = envFlags (c.read i m) ∧ c.data (c.read i m') = c.data (c.read i m)

/-- What is asked of a save: if it completes, the checksum of what it saves is right, and its flags
come after those of the copy in use; if it fails, or is cut off, what it leaves of the other copy is
of no use or as before, or in the latter case the environment it saved. -/
def SaveClean (r : EnvRam) (m : Mem) (fates : List Fate) : Prop :=
  match saveenv c r m fates with
  | (.done, _, _) => c.crcOk r.env = true ∧ (c.good r.valid m = true →
      Supersedes (other r.valid) (envFlags r.env + 1) (envFlags (c.read r.valid m)))
  | (.failed, _, m') => c.Untaken (other r.valid) m m'
  | (.lost, _, m') => c.Untaken (other r.valid) m m' ∨
      c.good (other r.valid) m' = true ∧ c.data (c.read (other r.valid) m') = c.data r.env

def EventClean (s : NandRun) : NandEvent → Prop
  | .edit _ => True
  | .save fates =>
    match s.ram with
    | none => True
    | some r => SaveClean c r s.flash fates
  | .boot heap1 heap2 => c.Filled s.flash heap1 heap2

def HistoryClean : List NandEvent → NandRun → Prop
  | [], _ => True
  | ev :: evs, s => EventClean c s ev ∧ HistoryClean evs (nandEnvStep c s ev)

end Run

section Inv

variable {c : NandEnv} (hc : c.Valid)

/-- The copy in use is the one that a boot would take. -/
structure InUse (c : NandEnv) (r : EnvRam) (m : Mem) : Prop where
  valid : r.valid = if c.selected m = 0 then 1 else c.selected m

theorem InUse.one_or_two {r : EnvRam} {m : Mem} (h : InUse c r m) : r.valid = 1 ∨ r.valid = 2 := by
  have := h.valid
  rcases selected_cases (c := c) m with h0 | h1 | h2
  · exact Or.inl (by rw [this, if_pos h0])
  · exact Or.inl (by rw [this, h1]; rfl)
  · exact Or.inr (by rw [this, h2]; rfl)

/-- A board that is on uses what a boot would take, and that is the last environment; of one that is
off a boot takes the last or that of the save cut off. -/
def NandRun.Inv (c : NandEnv) (s : NandRun) : Prop :=
  match s.ram with
  | some r => InUse c r s.flash ∧ c.current s.flash = s.last
  | none => c.current s.flash = s.last ∨ some (c.current s.flash) = s.cut

theorem other_other {v : ℕ} (hv : v = 1 ∨ v = 2) : other (other v) = v := by
  rcases hv with rfl | rfl <;> rfl

theorem other_cases {v : ℕ} (hv : v = 1 ∨ v = 2) : other v = 1 ∨ other v = 2 := by
  rcases hv with rfl | rfl
  · exact Or.inr rfl
  · exact Or.inl rfl

/-- What is in use, if the flash has any copy. -/
theorem InUse.good_or {r : EnvRam} {m : Mem} (h : InUse c r m) :
    c.selected m = 0 ∧ c.good r.valid m = false ∧ c.good (other r.valid) m = false ∨
      c.selected m = r.valid ∧ c.good r.valid m = true := by
  have hv := h.one_or_two
  by_cases h0 : c.selected m = 0
  · obtain ⟨h1, h2⟩ := selected_zero.1 h0
    have hval := h.valid
    rw [if_pos h0] at hval
    rw [hval]
    exact Or.inl ⟨h0, h1, h2⟩
  · have hval := h.valid
    rw [if_neg h0] at hval
    exact Or.inr ⟨hval.symm, ((selected_eq hv).1 hval.symm).1⟩

variable {r : EnvRam} {m m' : Mem}

/-- The other copy changes and is not taken. -/
theorem untaken_current (h : InUse c r m)
    (hkeep : c.good r.valid m' = c.good r.valid m ∧ c.read r.valid m' = c.read r.valid m)
    (hun : c.Untaken (other r.valid) m m') :
    c.selected m' = c.selected m ∧ c.current m' = c.current m := by
  have hv := h.one_or_two
  have hsel : c.selected m' = c.selected m := by
    rcases h.good_or with ⟨h0, hg, ho⟩ | ⟨hs, hg⟩
    · have ho' : c.good (other r.valid) m' = false := by
        rcases hun with hun | hun
        · exact hun
        · rw [hun.1, ho]
      have hg' : c.good r.valid m' = false := hkeep.1.trans hg
      rw [h0]
      rcases hv with hv | hv <;> rw [hv] at hg' ho'
      · exact selected_zero.2 ⟨hg', ho'⟩
      · exact selected_zero.2 ⟨ho', hg'⟩
    · rw [hs]
      refine (selected_eq hv).2 ⟨hkeep.1.trans hg, fun ho => ?_⟩
      rcases hun with hun | ⟨hgood, hflags, -⟩
      · rw [hun] at ho
        cases ho
      · rw [hkeep.2, hflags]
        exact ((selected_eq hv).1 hs).2 (hgood ▸ ho)
  refine ⟨hsel, ?_⟩
  rw [NandEnv.current, NandEnv.current, hsel]
  split_ifs with h0
  · rfl
  · rcases h.good_or with ⟨hs, -⟩ | ⟨hs, -⟩
    · exact absurd hs h0
    · rw [hs, hkeep.2]

include hc

/-- The copy in use after a save. -/
theorem saveenv_good (h : InUse c r m) (fates : List Fate) :
    c.good r.valid (saveenv c r m fates).2.2 = c.good r.valid m ∧
      c.read r.valid (saveenv c r m fates).2.2 = c.read r.valid m := by
  have hkeep := saveenv_keeps hc h.one_or_two m fates fun _ => 0
  have hread : c.read r.valid (saveenv c r m fates).2.2 = c.read r.valid m := by
    rw [NandEnv.read, hkeep]
    rfl
  exact ⟨by rw [NandEnv.good, NandEnv.good, hkeep, hread], hread⟩

/-- A save that completes. -/
theorem saveenv_done (h : InUse c r m) (fates : List Fate) (hdone : (saveenv c r m fates).1 = .done)
    (hcrc : c.crcOk r.env = true) (hsup : c.good r.valid m = true →
      Supersedes (other r.valid) (envFlags r.env + 1) (envFlags (c.read r.valid m))) :
    c.selected (saveenv c r m fates).2.2 = other r.valid ∧
      c.current (saveenv c r m fates).2.2 = c.data r.env := by
  have hv := h.one_or_two
  obtain ⟨hok, hsame⟩ := saveenv_reads hc hv hdone fun _ => 0
  obtain ⟨hd, hcr, hf⟩ := data_congr hc.header_le hsame
  obtain ⟨hd', hcr', hf'⟩ := flags_store (c := c) r.env (envFlags r.env + 1)
  obtain ⟨hgood, hread⟩ := saveenv_good hc h fates
  have hnew : c.good (other r.valid) (saveenv c r m fates).2.2 = true := by
    rw [NandEnv.good, hok, Bool.true_and]
    exact (hcr.trans hcr').trans hcrc
  have hsel : c.selected (saveenv c r m fates).2.2 = other r.valid := by
    refine (selected_eq (other_cases hv)).2 ⟨hnew, fun ho => ?_⟩
    rw [other_other hv] at ho ⊢
    rw [hread]
    have hflags : envFlags (c.read (other r.valid) (saveenv c r m fates).2.2) =
      envFlags r.env + 1 :=
      hf.trans hf'
    rw [hflags]
    exact hsup (hgood ▸ ho)
  refine ⟨hsel, ?_⟩
  have hne : other r.valid ≠ 0 := by rcases hv with hv | hv <;> rw [hv] <;> decide
  rw [NandEnv.current, hsel, if_neg hne]
  exact hd.trans hd'

/-- A save cut off with its copy in place. -/
theorem saveenv_lost (h : InUse c r m) (fates : List Fate)
    (hnew : c.data (c.read (other r.valid) (saveenv c r m fates).2.2) = c.data r.env)
    (hgood : c.good (other r.valid) (saveenv c r m fates).2.2 = true) :
    c.current (saveenv c r m fates).2.2 = c.current m ∨
      c.current (saveenv c r m fates).2.2 = c.data r.env := by
  have hv := h.one_or_two
  obtain ⟨-, hread⟩ := saveenv_good hc h fates
  have hne : ∀ v, v = 1 ∨ v = 2 → v ≠ 0 := by rintro v (rfl | rfl) <;> decide
  by_cases hsel : c.selected (saveenv c r m fates).2.2 = other r.valid
  · right
    rw [NandEnv.current, hsel, if_neg (hne _ (other_cases hv)), hnew]
  · left
    have hsel' : c.selected (saveenv c r m fates).2.2 = r.valid := by
      have h0 : c.selected (saveenv c r m fates).2.2 ≠ 0 := by
        intro h0
        have hz := selected_zero.1 h0
        rcases other_cases hv with ho | ho <;> rw [ho] at hgood
        · rw [hz.1] at hgood
          cases hgood
        · rw [hz.2] at hgood
          cases hgood
      rcases selected_cases (c := c) (saveenv c r m fates).2.2 with h1 | h1 | h1
      · exact absurd h1 h0
      · rcases hv with hv | hv <;> rw [hv] at hsel ⊢
        · exact h1
        · exact absurd h1 hsel
      · rcases hv with hv | hv <;> rw [hv] at hsel ⊢
        · exact absurd h1 hsel
        · exact h1
    have hold : c.selected m = r.valid := by
      rcases h.good_or with ⟨-, hg, -⟩ | ⟨hs, -⟩
      · have := ((selected_eq hv).1 hsel').1
        rw [(saveenv_good hc h fates).1, hg] at this
        cases this
      · exact hs
    rw [NandEnv.current, NandEnv.current, hsel', hold, hread]

/-- One event. -/
theorem nandEnvStep_inv {s : NandRun} (h : s.Inv c) {ev : NandEvent} (hclean : EventClean c s ev) :
    (nandEnvStep c s ev).Inv c := by
  obtain ⟨ram, flash, last, cut⟩ := s
  cases ev with
  | edit bytes =>
    rcases ram with _ | r
    · exact h
    · exact ⟨⟨h.1.valid⟩, h.2⟩
  | boot heap1 heap2 =>
    obtain ⟨hval, hdata⟩ := envRelocateSpec_selects hc.header_le hclean
    exact ⟨⟨hval⟩, hdata.symm⟩
  | save fates =>
    rcases ram with _ | r
    · exact h
    obtain ⟨huse, hlast⟩ := h
    have hsave : SaveClean c r flash fates := hclean
    have hgood := saveenv_good hc huse fates
    have hdone := saveenv_done hc huse fates
    have hlost := saveenv_lost hc huse fates
    have hcases := saveenv_cases (c := c) huse.one_or_two flash fates
    unfold nandEnvStep
    unfold SaveClean at hsave
    dsimp only at hsave hlast huse ⊢
    rcases hres : saveenv c r flash fates with ⟨e, r', m'⟩
    rw [hres] at hsave hgood hdone hlost hcases
    have hvalid : e ≠ .done → r'.valid = r.valid := by
      intro hne
      rcases hcases with ⟨m1, fs1, m2, fs2, -, heq⟩ | ⟨e2, m2, -, heq⟩
      · exact absurd (Prod.mk.inj heq).1 hne
      · rw [(Prod.mk.inj (Prod.mk.inj heq).2).1]
    rcases e with _ | _ | _
    · obtain ⟨hsel, hcur⟩ := hdone rfl hsave.1 hsave.2
      have hv' : r'.valid = other r.valid := by
        rcases hcases with ⟨m1, fs1, m2, fs2, -, heq⟩ | ⟨e2, m2, hne, heq⟩
        · rw [(Prod.mk.inj (Prod.mk.inj heq).2).1]
        · exact absurd (Prod.mk.inj heq).1.symm hne
      have hne : other r.valid ≠ 0 := by
        rcases huse.one_or_two with hv | hv <;> rw [hv] <;> decide
      refine ⟨⟨?_⟩, hcur⟩
      rw [hsel, if_neg hne, hv']
    · obtain ⟨hsel, hcur⟩ := untaken_current huse hgood hsave
      refine ⟨⟨?_⟩, hcur.trans hlast⟩
      rw [hvalid nofun, hsel]
      exact huse.valid
    · rcases hsave with hun | ⟨hg, hd⟩
      · exact Or.inl ((untaken_current huse hgood hun).2.trans hlast)
      · rcases hlost hd hg with hcur | hcur
        · exact Or.inl (hcur.trans hlast)
        · exact Or.inr (congrArg some hcur)

theorem bootsRight_of_inv : ∀ (evs : List NandEvent) {s : NandRun}, s.Inv c → HistoryClean c evs s →
    BootsRight c evs s
  | [], _, _, _ => trivial
  | ev :: evs, s, h, hclean => by
    refine ⟨fun heap1 heap2 hev => ?_, bootsRight_of_inv evs (nandEnvStep_inv hc h hclean.1)
      hclean.2⟩
    subst hev
    obtain ⟨-, hdata⟩ := envRelocateSpec_selects hc.header_le hclean.1
    unfold BootRight
    rw [hdata]
    obtain ⟨ram, flash, last, cut⟩ := s
    rcases ram with _ | r
    · exact h
    · exact Or.inl h.2

end Inv

section Decide

variable (c : NandEnv)

instance (i : ℕ) (m m' : Mem) : Decidable (c.Untaken i m m') :=
  inferInstanceAs (Decidable (_ ∨ _ ∧ _ ∧ _))

instance (m heap1 heap2 : Mem) : Decidable (c.Filled m heap1 heap2) :=
  inferInstanceAs (Decidable ((_ → _) ∧ (_ → _)))

instance (s : NandRun) (heap1 heap2 : Mem) : Decidable (BootRight c s heap1 heap2) :=
  inferInstanceAs (Decidable (_ ∨ _))

instance (r : EnvRam) (m : Mem) (fates : List Fate) : Decidable (SaveClean c r m fates) := by
  unfold SaveClean
  split <;> infer_instance

instance (s : NandRun) (ev : NandEvent) : Decidable (EventClean c s ev) :=
  match ev with
  | .edit _ => isTrue trivial
  | .boot heap1 heap2 => inferInstanceAs (Decidable (c.Filled s.flash heap1 heap2))
  | .save fates =>
    show Decidable (match s.ram with
      | none => True
      | some r => SaveClean c r s.flash fates) from
    match s.ram with
    | none => isTrue trivial
    | some r => inferInstanceAs (Decidable (SaveClean c r s.flash fates))

instance decHistoryClean : ∀ (evs : List NandEvent) (s : NandRun), Decidable (HistoryClean c evs s)
  | [], _ => isTrue trivial
  | ev :: evs, s => @instDecidableAnd _ _ _ (decHistoryClean evs (nandEnvStep c s ev))

end Decide

section Example

/-- Two blocks of eight bytes, each for a copy with three bytes of data. -/
def smallEnv : NandEnv := ⟨0, 8, 8, 8, 8, fun _ => 0, []⟩

theorem smallEnv_valid : smallEnv.Valid := ⟨by decide, by decide, by decide, by decide⟩

/-- A first copy with these flags and no variable, and an erased second one. -/
def oneCopy (flags : UInt8) : Mem :=
  smallEnv.crcUpdate (Mem.store (fun _ => 0xff) 4 [flags, 0, 0, 0])

/-- An environment with other data. -/
def otherEnv : Mem := smallEnv.crcUpdate (Mem.store (fun _ => 0) 5 [0x61, 0x3d, 0])

/-- A boot, a save that fails on its write, one that completes, and a boot again. -/
def failedOnce : List NandEvent :=
  [.boot (fun _ => 0) fun _ => 0, .edit otherEnv, .save [.done, .failed fun _ => 0xff], .save [],
    .boot (fun _ => 0) fun _ => 0]

end Example

end InfotmUboot
