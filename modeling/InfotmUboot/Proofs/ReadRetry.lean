import InfotmUboot.ReadRetry
import Mathlib.Tactic

/-!
# The levels of the read retry

From a level the chip has, the loops come to each of its levels once and stop where they began. But
the loop over the second page of a block goes on with the first one if the chip is one with
`nand_param0` 0x95, and the two of them need not end.
-/

namespace InfotmUboot

section Levels

variable {c : RetryConfig} {s : LevelState}

/-- The chips whose failed reads are tried again. -/
def RetryConfig.Retries (c : RetryConfig) : Prop :=
  c.readRetry = 1 ∧ (c.nandParam0 = 0x55 ∨ c.nandParam0 = 0x75 ∨ c.nandParam0 = 0x95)

instance (c : RetryConfig) : Decidable c.Retries := inferInstanceAs (Decidable (_ ∧ (_ ∨ _ ∨ _)))

/-- The chips that are left at level 0. -/
def RetryConfig.Zeroes (c : RetryConfig) : Prop :=
  c.readRetry = 1 ∧ (c.nandParam0 = 0x75 ∧ c.nandParam1 = 20 ∨ c.nandParam1 = 21 ∨ c.nandParam0 =
    0x95)

instance (c : RetryConfig) : Decidable c.Zeroes :=
  inferInstanceAs (Decidable (_ ∧ (_ ∧ _ ∨ _ ∨ _)))

/-- The level a page is done with after it was read at `l`. -/
def RetryConfig.after (c : RetryConfig) (l : UInt32) : UInt32 := if c.Zeroes then 0 else l

theorem retryFailed_none (h : ¬c.Retries) : retryFailed c s = (s, .none) := by
  unfold RetryConfig.Retries at h
  unfold retryFailed
  split_ifs <;> simp_all

theorem retryFailed_again (h : c.Retries) (hg : s.gRetrylevel ≠ nextLevel c s.retrylevel) :
    ∃ s', retryFailed c s = (s', .again) ∧ s'.retrylevel = nextLevel c s.retrylevel ∧
      s'.gRetrylevel = s.gRetrylevel := by
  obtain ⟨h1, h2⟩ := h
  unfold retryFailed
  rw [if_pos h1]
  split_ifs with h55 h75 h95
  · refine ⟨_, Prod.ext rfl (if_neg hg), rfl, rfl⟩
  · refine ⟨_, if_neg hg, rfl, rfl⟩
  · refine ⟨_, if_neg hg, rfl, rfl⟩
  · simp_all

theorem retryFailed_failed (h : c.Retries) (hg : s.gRetrylevel = nextLevel c s.retrylevel) :
    ∃ s', retryFailed c s = (s', .failed) ∧
      (s'.retrylevel = s.gRetrylevel ∨ s'.retrylevel = 0) ∧ s'.gRetrylevel = s.gRetrylevel := by
  obtain ⟨h1, h2⟩ := h
  unfold retryFailed
  rw [if_pos h1]
  split_ifs with h55 h75 h95
  · refine ⟨_, Prod.ext rfl (if_pos hg), Or.inl hg.symm, rfl⟩
  · refine ⟨_, if_pos hg, ?_, rfl⟩
    dsimp only
    split_ifs
    · exact Or.inr rfl
    · exact Or.inl hg.symm
  · refine ⟨_, if_pos hg, ?_, rfl⟩
    dsimp only
    split_ifs
    · exact Or.inr rfl
    · exact Or.inl hg.symm
  · simp_all

theorem zero_levels (f : SetRetryParam) (s : LevelState) : (s.zero f).retrylevel = 0 ∧
    (s.zero f).gRetrylevel = if s.retrylevel = 0 then s.gRetrylevel else 0 := by
  unfold LevelState.zero
  split_ifs with h <;> simp_all

theorem retryEnd_levels (s : LevelState) : (retryEnd c s).retrylevel = c.after s.retrylevel ∧
    (retryEnd c s).gRetrylevel = if c.Zeroes ∧ s.retrylevel ≠ 0 then 0 else s.gRetrylevel := by
  unfold retryEnd RetryConfig.after RetryConfig.Zeroes
  by_cases h : c.readRetry = 1
  · by_cases h1 : c.nandParam0 = 0x75 ∧ c.nandParam1 = 20 <;> by_cases h2 : c.nandParam1 = 21 <;>
      by_cases h3 : c.nandParam0 = 0x95 <;> simp [h, h1, h2, h3, zero_levels]
  · simp [h]

end Levels

section Cycle

variable (c : RetryConfig)

/-- The level of a loop that began with `g` after `k` failed reads. -/
def levelAt (g : UInt32) : ℕ → UInt32
  | 0 => g
  | k + 1 => nextLevel c (levelAt g k)

variable {c} {g : UInt32} {k : ℕ}

theorem toNat_nextLevel (l : UInt32) : (nextLevel c l).toNat =
    if l.toNat < c.retryLevel.toNat then l.toNat + 1 else 0 := by
  have hl := l.toNat_lt
  have hL := c.retryLevel.toNat_lt
  have hadd : (l + 1).toNat = (l.toNat + 1) % 2 ^ 32 := UInt32.toNat_add l 1
  unfold nextLevel
  split_ifs with h1 h2 h2
  · rw [gt_iff_lt, UInt32.lt_iff_toNat_lt] at h1
    omega
  · rfl
  · omega
  · rw [gt_iff_lt, UInt32.lt_iff_toNat_lt] at h1
    omega

/-- From a level the chip has, the levels go round. -/
theorem toNat_levelAt (hg : g ≤ c.retryLevel) : ∀ {k : ℕ}, k ≤ c.retryLevel.toNat + 1 →
    (levelAt c g k).toNat = if g.toNat + k ≤ c.retryLevel.toNat then g.toNat + k
      else g.toNat + k - (c.retryLevel.toNat + 1)
  | 0, _ => by
    rw [UInt32.le_iff_toNat_le] at hg
    rw [if_pos (by omega)]
    rfl
  | k + 1, hk => by
    rw [UInt32.le_iff_toNat_le] at hg
    rw [levelAt, toNat_nextLevel, toNat_levelAt (UInt32.le_iff_toNat_le.2 hg) (by omega)]
    split_ifs <;> omega

/-- From any other level they begin with level 0. -/
theorem toNat_levelAt_high (hg : c.retryLevel < g) : ∀ {k : ℕ}, k ≤ c.retryLevel.toNat →
    (levelAt c g (k + 1)).toNat = k
  | 0, _ => by
    rw [UInt32.lt_iff_toNat_lt] at hg
    rw [levelAt, toNat_nextLevel, levelAt, if_neg (by omega)]
  | k + 1, hk => by
    rw [levelAt, toNat_nextLevel, toNat_levelAt_high hg (by omega), if_pos (by omega)]

/-- The loop is back where it began after as many reads as there are levels. -/
theorem levelAt_back (hg : g ≤ c.retryLevel) (hk : k ≤ c.retryLevel.toNat) :
    levelAt c g (k + 1) = g ↔ k = c.retryLevel.toNat := by
  rw [← UInt32.toNat_inj, toNat_levelAt hg (by omega)]
  split_ifs <;> omega

theorem levelAt_le (h : g ≤ c.retryLevel) : ∀ k, levelAt c g k ≤ c.retryLevel
  | 0 => h
  | k + 1 => by
    rw [levelAt, UInt32.le_iff_toNat_le, toNat_nextLevel]
    split_ifs <;> omega

theorem after_le {l : UInt32} (h : l ≤ c.retryLevel) : c.after l ≤ c.retryLevel := by
  unfold RetryConfig.after
  split_ifs
  · exact UInt32.zero_le
  · exact h

end Cycle

section Pages

variable {c : RetryConfig} {s : LevelState} {ret : ℤ}

theorem keep_levels (s : LevelState) : s.keep.retrylevel = s.retrylevel ∧
    s.keep.gRetrylevel = s.retrylevel := ⟨rfl, rfl⟩

theorem isbadMajor_error (h : ret < 0) : isbadMajor c ret s = (s, .done (-1)) := if_pos h

theorem isbadMinor_error (h : ret < 0) : isbadMinor c ret s = (s, .done (-1)) := if_pos h

theorem retryEnd_keep (s : LevelState) : (retryEnd c s.keep).retrylevel = c.after s.retrylevel ∧
    (retryEnd c s.keep).gRetrylevel = c.after s.retrylevel := by
  have h := @retryEnd_levels c s.keep
  refine ⟨h.1, h.2.trans ?_⟩
  unfold RetryConfig.after
  split_ifs <;> simp_all [keep_levels]

/-- A good mark ends the loop at its level. -/
theorem isbadMajor_good (s : LevelState) : ∃ s', isbadMajor c 0 s =
      (s', if c.badpageminor ≠ c.badpagemajor then .minor else .done 0) ∧
    (c.badpageminor ≠ c.badpagemajor → s'.retrylevel = c.after s.retrylevel) ∧
    s'.gRetrylevel = c.after s.retrylevel := by
  have hend := @retryEnd_keep c s
  unfold isbadMajor retry4End
  simp only [lt_self_iff_false, if_false, ne_eq, not_true_eq_false]
  split_ifs with h
  · refine ⟨_, rfl, fun h' => absurd h h', ?_⟩
    rw [(keep_levels _).2, (retryEnd_levels _).1, hend.1]
    unfold RetryConfig.after
    split_ifs <;> rfl
  · exact ⟨_, rfl, fun _ => hend.1, hend.2⟩

theorem isbadMinor_good (s : LevelState) : ∃ s', isbadMinor c 0 s = (s', .done 0) ∧
    s'.gRetrylevel = c.after s.retrylevel :=
  ⟨_, rfl, (retryEnd_levels s).1⟩

/-- A bad one ends it where there is no retry, -/
theorem isbadMajor_once (hR : ¬c.Retries) (h : 0 < ret) (s : LevelState) :
    ∃ s', isbadMajor c ret s = (s', .done ret) ∧ s'.gRetrylevel = s.retrylevel := by
  unfold isbadMajor retry4End
  rw [if_neg (by omega), if_pos h, retryFailed_none hR]
  dsimp only
  rw [if_pos (by omega)]
  exact ⟨_, rfl, rfl⟩

theorem isbadMinor_once (hR : ¬c.Retries) (h : 0 < ret) (s : LevelState) :
    ∃ s', isbadMinor c ret s = (s', .done ret) ∧ s'.gRetrylevel = c.after s.retrylevel := by
  unfold isbadMinor retry5End
  rw [if_neg (by omega), if_pos h, retryFailed_none hR]
  exact ⟨_, rfl, (retryEnd_levels s).1⟩

/-- leads to the next level, -/
theorem isbadMajor_again (hR : c.Retries) (h : 0 < ret)
    (hg : s.gRetrylevel ≠ nextLevel c s.retrylevel) : ∃ s', isbadMajor c ret s = (s', .major) ∧
      s'.retrylevel = nextLevel c s.retrylevel ∧ s'.gRetrylevel = s.gRetrylevel := by
  obtain ⟨s', hs', hl⟩ := retryFailed_again hR hg
  unfold isbadMajor
  rw [if_neg (by omega), if_pos h, hs']
  exact ⟨s', rfl, hl⟩

theorem isbadMinor_again (hR : c.Retries) (h : 0 < ret)
    (hg : s.gRetrylevel ≠ nextLevel c s.retrylevel) : ∃ s', isbadMinor c ret s =
        (s', if c.nandParam0 = 0x95 then .major else .minor) ∧
      s'.retrylevel = nextLevel c s.retrylevel ∧ s'.gRetrylevel = s.gRetrylevel := by
  obtain ⟨s', hs', hl⟩ := retryFailed_again hR hg
  unfold isbadMinor
  rw [if_neg (by omega), if_pos h, hs']
  exact ⟨s', rfl, hl⟩

/-- and ends it at the last one. -/
theorem isbadMajor_failed (hR : c.Retries) (h : 0 < ret)
    (hg : s.gRetrylevel = nextLevel c s.retrylevel) : ∃ s', isbadMajor c ret s = (s', .done ret) ∧
      (s'.gRetrylevel = s.gRetrylevel ∨ s'.gRetrylevel = 0) := by
  obtain ⟨s', hs', hl, -⟩ := retryFailed_failed hR hg
  unfold isbadMajor retry4End
  rw [if_neg (by omega), if_pos h, hs']
  dsimp only
  rw [if_pos (by omega)]
  exact ⟨_, rfl, hl⟩

theorem isbadMinor_failed (hR : c.Retries) (h : 0 < ret)
    (hg : s.gRetrylevel = nextLevel c s.retrylevel) : ∃ s', isbadMinor c ret s = (s', .done ret) ∧
      (s'.gRetrylevel = s.gRetrylevel ∨ s'.gRetrylevel = 0) := by
  obtain ⟨s', hs', hl, -⟩ := retryFailed_failed hR hg
  unfold isbadMinor retry4End retry5End
  rw [if_neg (by omega), if_pos h, hs']
  dsimp only
  by_cases h95 : c.nandParam0 = 0x95
  · rw [if_pos h95, if_pos (by omega)]
    exact ⟨_, rfl, hl⟩
  · rw [if_neg h95]
    refine ⟨_, rfl, ?_⟩
    rw [(keep_levels _).2, (retryEnd_levels _).1]
    unfold RetryConfig.after
    split_ifs
    · exact Or.inr rfl
    · exact hl

end Pages

/-- Whatever the reads return, the loops are through after some number of them that does not depend
on it, and the level they leave is one of the chip's. -/
structure RetryEnds (c : RetryConfig) (s : LevelState) : Prop where
  isbad : ∃ n, ∀ (rowAddr : UInt32) (rets : List ℤ), rets.length = n →
    ∃ ret, (isbadRun c rowAddr s rets).phase = .done ret ∧
      (isbadRun c rowAddr s rets).retry.gRetrylevel ≤ c.retryLevel
  read : ∃ n, ∀ rets : List ℤ, rets.length = n → ∃ ret, (readRun c s rets).ret = some ret ∧
    (readRun c s rets).retry.gRetrylevel ≤ c.retryLevel

/-- The stored level is one of the chip's, and it is no chip with `nand_param0` 0x95, several levels
and two pages for its marks. -/
def RetryConfig.LoopsEnd (c : RetryConfig) (gRetrylevel : UInt32) : Prop :=
  gRetrylevel ≤ c.retryLevel ∧
    ¬(c.readRetry = 1 ∧ c.nandParam0 = 0x95 ∧ c.retryLevel ≠ 0 ∧ c.badpageminor ≠ c.badpagemajor)

instance (c : RetryConfig) (g : UInt32) : Decidable (c.LoopsEnd g) :=
  inferInstanceAs (Decidable (_ ∧ ¬(_ ∧ _ ∧ _ ∧ _)))

section Ends

variable {c : RetryConfig}

/-- The loop of a page has come to its `k`th read, with no more than `n` to go. -/
def ReadsLeft (c : RetryConfig) (n : ℕ) (s : LevelState) : Prop :=
  ∃ k ≤ c.retryLevel.toNat, s.retrylevel = levelAt c s.gRetrylevel k ∧
    c.retryLevel.toNat + 1 ≤ n + k

/-- `nnd_vs_isbad` has no more than `n` reads to go. -/
def IsbadLeft (c : RetryConfig) (n : ℕ) (s : IsbadState) : Prop :=
  s.retry.gRetrylevel ≤ c.retryLevel ∧ match s.phase with
  | .done _ => True
  | .minor => c.badpageminor ≠ c.badpagemajor ∧ ReadsLeft c n s.retry
  | .major => ∃ m, ReadsLeft c m s.retry ∧ m + (c.retryLevel.toNat + 1) ≤ n

theorem ReadsLeft.pos {n : ℕ} {s : LevelState} (h : ReadsLeft c n s) : 0 < n := by
  obtain ⟨k, hk, -, hn⟩ := h
  omega

/-- A loop begins with all its levels to go. -/
theorem readsLeft_start {s : LevelState} {n : ℕ} (h : s.retrylevel = s.gRetrylevel)
    (hn : c.retryLevel.toNat + 1 ≤ n) : ReadsLeft c n s := ⟨0, Nat.zero_le _, h, hn⟩

/-- A failed read is the last one or leaves one less. -/
theorem ReadsLeft.next {n : ℕ} {s : LevelState} (hg : s.gRetrylevel ≤ c.retryLevel)
    (h : ReadsLeft c (n + 1) s) (hnext : s.gRetrylevel ≠ nextLevel c s.retrylevel) {s' : LevelState}
    (hr : s'.retrylevel = nextLevel c s.retrylevel) (hg' : s'.gRetrylevel = s.gRetrylevel) :
    c.retryLevel ≠ 0 ∧ ReadsLeft c n s' := by
  obtain ⟨k, hk, hlevel, hn⟩ := h
  have hlast : k ≠ c.retryLevel.toNat := fun hlast => hnext (by
    rw [hlevel]
    exact ((levelAt_back hg hk).2 hlast).symm)
  refine ⟨fun h0 => ?_, k + 1, by omega, ?_, by omega⟩
  · rw [h0] at hk hlast
    simp only [UInt32.toNat_zero] at hk hlast
    omega
  · rw [hr, hg', hlevel, levelAt]

theorem level_le {g l : UInt32} (hg : g ≤ c.retryLevel) (h : l = g ∨ l = 0) : l ≤ c.retryLevel := by
  rcases h with h | h
  · exact h ▸ hg
  · exact h ▸ UInt32.zero_le

theorem ReadsLeft.level_le {n : ℕ} {s : LevelState} (hg : s.gRetrylevel ≤ c.retryLevel)
    (h : ReadsLeft c n s) : s.retrylevel ≤ c.retryLevel := by
  obtain ⟨k, -, hlevel, -⟩ := h
  exact hlevel ▸ levelAt_le hg k

/-- One read. -/
theorem IsbadLeft.step (h95 : ¬(c.readRetry = 1 ∧ c.nandParam0 = 0x95 ∧ c.retryLevel ≠ 0 ∧
    c.badpageminor ≠ c.badpagemajor)) {n : ℕ} {s : IsbadState} (h : IsbadLeft c (n + 1) s)
    (rowAddr : UInt32) (ret : ℤ) : IsbadLeft c n (isbadStep c rowAddr s ret) := by
  obtain ⟨hg, hphase⟩ := h
  unfold isbadStep
  rcases hp : s.phase with _ | _ | v <;> rw [hp] at hphase <;> dsimp only at hphase ⊢
  · obtain ⟨m, hleft, hm⟩ := hphase
    obtain ⟨m, rfl⟩ := Nat.exists_eq_succ_of_ne_zero hleft.pos.ne'
    have hlevel := hleft.level_le hg
    rcases lt_trichotomy ret 0 with hneg | rfl | hpos
    · rw [isbadMajor_error hneg]
      exact ⟨hg, trivial⟩
    · obtain ⟨s', hs', hr, hg'⟩ := isbadMajor_good (c := c) s.retry
      rw [hs']
      refine ⟨hg' ▸ after_le hlevel, ?_⟩
      dsimp only
      split_ifs with hdiff
      · exact ⟨hdiff, readsLeft_start ((hr hdiff).trans hg'.symm) (by omega)⟩
      · exact trivial
    · by_cases hR : c.Retries
      · by_cases hnext : s.retry.gRetrylevel = nextLevel c s.retry.retrylevel
        · obtain ⟨s', hs', hl⟩ := isbadMajor_failed hR hpos hnext
          rw [hs']
          exact ⟨InfotmUboot.level_le hg hl, trivial⟩
        · obtain ⟨s', hs', hr, hg'⟩ := isbadMajor_again hR hpos hnext
          rw [hs']
          exact ⟨hg' ▸ hg, m, (hleft.next hg hnext hr hg').2, by omega⟩
      · obtain ⟨s', hs', hg'⟩ := isbadMajor_once hR hpos s.retry
        rw [hs']
        exact ⟨hg' ▸ hlevel, trivial⟩
  · obtain ⟨hdiff, hleft⟩ := hphase
    have hlevel := hleft.level_le hg
    rcases lt_trichotomy ret 0 with hneg | rfl | hpos
    · rw [isbadMinor_error hneg]
      exact ⟨hg, trivial⟩
    · obtain ⟨s', hs', hg'⟩ := isbadMinor_good (c := c) s.retry
      rw [hs']
      exact ⟨hg' ▸ after_le hlevel, trivial⟩
    · by_cases hR : c.Retries
      · by_cases hnext : s.retry.gRetrylevel = nextLevel c s.retry.retrylevel
        · obtain ⟨s', hs', hl⟩ := isbadMinor_failed hR hpos hnext
          rw [hs']
          exact ⟨InfotmUboot.level_le hg hl, trivial⟩
        · obtain ⟨s', hs', hr, hg'⟩ := isbadMinor_again hR hpos hnext
          obtain ⟨hlevels, hleft'⟩ := hleft.next hg hnext hr hg'
          have hpage : c.nandParam0 ≠ 0x95 := fun h => h95 ⟨hR.1, h, hlevels, hdiff⟩
          rw [hs', if_neg hpage]
          exact ⟨hg' ▸ hg, hdiff, hleft'⟩
      · obtain ⟨s', hs', hg'⟩ := isbadMinor_once hR hpos s.retry
        rw [hs']
        exact ⟨hg' ▸ after_le hlevel, trivial⟩
  · rw [IsbadLeft, hp]
    exact ⟨hg, trivial⟩

/-- A run of as many reads. -/
theorem IsbadLeft.run (h95 : ¬(c.readRetry = 1 ∧ c.nandParam0 = 0x95 ∧ c.retryLevel ≠ 0 ∧
    c.badpageminor ≠ c.badpagemajor)) (rowAddr : UInt32) : ∀ {rets : List ℤ} {s : IsbadState},
    IsbadLeft c rets.length s → ∃ ret, (rets.foldl (isbadStep c rowAddr) s).phase = .done ret ∧
      (rets.foldl (isbadStep c rowAddr) s).retry.gRetrylevel ≤ c.retryLevel
  | [], s, ⟨hg, hphase⟩ => by
    rcases hp : s.phase with _ | _ | v <;> rw [hp] at hphase <;> dsimp only at hphase
    · obtain ⟨m, hleft, hm⟩ := hphase
      exact absurd hm (by simp)
    · exact absurd hphase.2.pos (lt_irrefl 0)
    · exact ⟨v, hp, hg⟩
  | ret :: rets, s, h => by
    rw [List.foldl_cons]
    exact IsbadLeft.run h95 rowAddr (h.step h95 rowAddr ret)

theorem retry1End_le (ret : ℤ) {s : LevelState} (h : s.gRetrylevel ≤ c.retryLevel) :
    (retry1End c ret s).retry.gRetrylevel ≤ c.retryLevel := by
  change (retryEnd c s).gRetrylevel ≤ _
  rw [(retryEnd_levels s).2]
  split_ifs
  · exact UInt32.zero_le
  · exact h

/-- The loop of `nnd_vs_read` has no more than `n` reads to go. -/
def ReadLeft (c : RetryConfig) (n : ℕ) (s : ReadState) : Prop :=
  s.retry.gRetrylevel ≤ c.retryLevel ∧ (s.ret = none → ReadsLeft c n s.retry)

theorem ReadLeft.step {n : ℕ} {s : ReadState} (h : ReadLeft c (n + 1) s) (ret : ℤ) :
    ReadLeft c n (readStep c s ret) := by
  obtain ⟨hg, hleft⟩ := h
  unfold readStep
  rcases hret : s.ret with _ | v <;> dsimp only
  · have hleft := hleft hret
    split_ifs with hfail h55
    · by_cases hR : c.Retries
      · by_cases hnext : s.retry.gRetrylevel = nextLevel c s.retry.retrylevel
        · obtain ⟨s', hs', -, hg'⟩ := retryFailed_failed hR hnext
          rw [hs']
          exact ⟨retry1End_le ret (hg' ▸ hg), fun h => absurd h (Option.some_ne_none _)⟩
        · obtain ⟨s', hs', hr, hg'⟩ := retryFailed_again hR hnext
          rw [hs']
          exact ⟨hg' ▸ hg, fun _ => (hleft.next hg hnext hr hg').2⟩
      · rw [retryFailed_none hR]
        exact ⟨retry1End_le ret hg, fun h => absurd h (Option.some_ne_none _)⟩
    · exact ⟨retry1End_le ret (hleft.level_le hg), fun h => absurd h (Option.some_ne_none _)⟩
    · exact ⟨retry1End_le ret hg, fun h => absurd h (Option.some_ne_none _)⟩
  · exact ⟨hg, fun h => absurd (hret.symm.trans h) (Option.some_ne_none _)⟩

theorem ReadLeft.run : ∀ {rets : List ℤ} {s : ReadState}, ReadLeft c rets.length s →
    ∃ ret, (rets.foldl (readStep c) s).ret = some ret ∧
      (rets.foldl (readStep c) s).retry.gRetrylevel ≤ c.retryLevel
  | [], s, ⟨hg, hleft⟩ => by
    rcases hret : s.ret with _ | v
    · exact absurd (hleft hret).pos (lt_irrefl 0)
    · exact ⟨v, hret, hg⟩
  | ret :: rets, s, h => by
    rw [List.foldl_cons]
    exact ReadLeft.run (h.step ret)

theorem retryEnds_of_loopsEnd {s : LevelState} (h : c.LoopsEnd s.gRetrylevel) : RetryEnds c s := by
  obtain ⟨hg, h95⟩ := h
  constructor
  · refine ⟨2 * (c.retryLevel.toNat + 1), fun rowAddr rets hlen => ?_⟩
    refine IsbadLeft.run h95 rowAddr ⟨hg, c.retryLevel.toNat + 1, ?_, by omega⟩
    exact readsLeft_start rfl (by omega)
  · refine ⟨c.retryLevel.toNat + 1, fun rets hlen => ?_⟩
    exact ReadLeft.run ⟨hg, fun _ => readsLeft_start rfl (by omega)⟩

/-- Once it is through, no read is made. -/
theorem isbad_done (rowAddr : UInt32) {s : IsbadState} {ret : ℤ} (h : s.phase = .done ret) :
    ∀ rets : List ℤ, rets.foldl (isbadStep c rowAddr) s = s
  | [] => rfl
  | r :: rets => by
    have hstep : isbadStep c rowAddr s r = s := by rw [isbadStep, h]
    rw [List.foldl_cons, hstep, isbad_done rowAddr h rets]

/-- An error in the first read leaves the stored level. -/
theorem isbadRun_error (rowAddr : UInt32) (s : LevelState) (rets : List ℤ) :
    (isbadRun c rowAddr s (-1 :: rets)).retry.gRetrylevel = s.gRetrylevel := by
  unfold isbadRun
  rw [List.foldl_cons, @isbad_done c rowAddr _ (-1) rfl]
  rfl

/-- On its way between the two pages of a chip with `nand_param0` 0x95. -/
def Between (s : IsbadState) : Prop :=
  s.phase = .major ∨ s.phase = .minor ∧ s.retry.retrylevel = 0 ∧ s.retry.gRetrylevel = 0

theorem nextLevel_zero (h : c.retryLevel ≠ 0) : nextLevel c 0 = 1 := by
  have h0 : c.retryLevel.toNat ≠ 0 := fun h0 => h (UInt32.toNat_inj.1 h0)
  rw [← UInt32.toNat_inj, toNat_nextLevel, UInt32.toNat_zero, if_pos (Nat.pos_of_ne_zero h0)]
  rfl

/-- There is always an outcome that leaves it there. -/
theorem Between.step (h95 : c.readRetry = 1 ∧ c.nandParam0 = 0x95 ∧ c.retryLevel ≠ 0 ∧
    c.badpageminor ≠ c.badpagemajor) (rowAddr : UInt32) {s : IsbadState} (h : Between s) :
    ∃ ret, Between (isbadStep c rowAddr s ret) := by
  obtain ⟨hretry, hparam, hlevels, hdiff⟩ := h95
  have hzero : ∀ l, c.after l = 0 := fun l => if_pos ⟨hretry, Or.inr (Or.inr hparam)⟩
  rcases h with hp | ⟨hp, hr, hg⟩
  · refine ⟨0, Or.inr ?_⟩
    obtain ⟨s', hs', hr, hg⟩ := isbadMajor_good (c := c) s.retry
    rw [isbadStep, hp]
    dsimp only
    rw [hs', if_pos hdiff]
    exact ⟨rfl, (hr hdiff).trans (hzero _), hg.trans (hzero _)⟩
  · refine ⟨1, Or.inl ?_⟩
    obtain ⟨s', hs', -⟩ := @isbadMinor_again c s.retry 1
      ⟨hretry, Or.inr (Or.inr hparam)⟩ one_pos (by
        rw [hr, hg, nextLevel_zero hlevels]
        decide)
    rw [isbadStep, hp]
    dsimp only
    rw [hs', if_pos hparam]

theorem Between.run (h95 : c.readRetry = 1 ∧ c.nandParam0 = 0x95 ∧ c.retryLevel ≠ 0 ∧
    c.badpageminor ≠ c.badpagemajor) (rowAddr : UInt32) : ∀ (n : ℕ) {s : IsbadState}, Between s →
    ∃ rets : List ℤ, rets.length = n ∧ Between (rets.foldl (isbadStep c rowAddr) s)
  | 0, _, h => ⟨[], rfl, h⟩
  | n + 1, _, h => by
    obtain ⟨ret, hnext⟩ := h.step h95 rowAddr
    obtain ⟨rets, hlen, hrun⟩ := Between.run h95 rowAddr n hnext
    exact ⟨ret :: rets, by rw [List.length_cons, hlen], hrun⟩

theorem loopsEnd_of_retryEnds {s : LevelState} (h : RetryEnds c s) : c.LoopsEnd s.gRetrylevel := by
  obtain ⟨n, hn⟩ := h.isbad
  constructor
  · rcases n with _ | n
    · obtain ⟨ret, hret, -⟩ := hn 0 [] rfl
      exact absurd hret (by simp [isbadRun])
    · obtain ⟨ret, -, hg⟩ := hn 0 (-1 :: List.replicate n 0) (by simp)
      rwa [isbadRun_error] at hg
  · intro h95
    obtain ⟨rets, hlen, hbetween⟩ := Between.run (c := c) h95 0 n
      (s := ⟨{ s with retrylevel := s.gRetrylevel }, .major, []⟩) (Or.inl rfl)
    obtain ⟨ret, hret, -⟩ := hn 0 rets hlen
    unfold isbadRun at hret
    rcases hbetween with hp | ⟨hp, -⟩
    · exact absurd (hp.symm.trans hret) (by simp)
    · exact absurd (hp.symm.trans hret) (by simp)

end Ends

/-- The loops end at a level of the chip in just these configurations. -/
theorem retry_ends_iff (c : RetryConfig) (s : LevelState) :
    RetryEnds c s ↔ c.LoopsEnd s.gRetrylevel :=
  ⟨loopsEnd_of_retryEnds, retryEnds_of_loopsEnd⟩

/-- The configuration of a SDTNQFAMA-004G. -/
def sandisk : RetryConfig := ⟨1, 20, 0x95, 20, 0, 255⟩

theorem retry_ends_fails : ¬∀ (c : RetryConfig) (s : LevelState), RetryEnds c s := fun h =>
  (loopsEnd_of_retryEnds (h sandisk ⟨0, 0, 0, []⟩)).2 (by decide)

end InfotmUboot
