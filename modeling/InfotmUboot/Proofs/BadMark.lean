import InfotmUboot.Proofs.ReadRetry

/-!
# What `nnd_vs_isbad` makes of the marks

A page is bad if none of its reads was good and it was read at every level. The block is taken for
bad if one of its pages is, unless an error comes before the last level, and unless the second page
of a chip with `nand_param0` 0x95 is not good at once.
-/

namespace InfotmUboot

/-- What the reads of one mark return. -/
structure MarkOps where
  alloc : Bool
  raw : PageOp
  ecc : PageOp

def MarkOps.ret (o : MarkOps) : ℤ := baseGetBadmark o.alloc o.raw o.ecc

/-- The first `n` of these outcomes. -/
def outcomes (o : ℕ → ℤ) (n : ℕ) : List ℤ := (List.range n).map o

theorem outcomes_succ (o : ℕ → ℤ) (n : ℕ) : outcomes o (n + 1) = outcomes o n ++ [o n] := by
  simp [outcomes, List.range_succ]

theorem outcomes_add (o : ℕ → ℤ) (n : ℕ) : ∀ k,
    outcomes o (n + k) = outcomes o n ++ outcomes (fun i => o (n + i)) k
  | 0 => by simp [outcomes]
  | k + 1 => by
    rw [← Nat.add_assoc, outcomes_succ, outcomes_add o n k, outcomes_succ, List.append_assoc]

section Right

variable (c : RetryConfig) (rowAddr : UInt32)

/-- The page at `row` was read, at every level if there is a retry, and never good. -/
def BadPage (reads : List MarkRead) (row : UInt32) : Prop :=
  (∃ r ∈ reads, r.row = row) ∧ (∀ r ∈ reads, r.row = row → r.ret ≠ 0) ∧
    (c.Retries → ∀ l ≤ c.retryLevel, ∃ r ∈ reads, r.row = row ∧ r.level = l)

/-- While the reads have these outcomes, `nnd_vs_isbad` comes to an end, its result is non-zero if
and only if one of the pages is bad, and it does not read the first page again behind the second
one. -/
def IsbadRight (s : LevelState) (o : ℕ → ℤ) : Prop :=
  ∃ n ret, (isbadRun c rowAddr s (outcomes o n)).phase = .done ret ∧
    (ret ≠ 0 ↔ ∃ row, (row = rowAddr + c.badpagemajor ∨ row = rowAddr + c.badpageminor) ∧
      BadPage c (isbadRun c rowAddr s (outcomes o n)).reads row) ∧
    (isbadRun c rowAddr s (outcomes o n)).reads.Pairwise fun a b =>
      a.row = rowAddr + c.badpageminor → b.row = rowAddr + c.badpageminor

/-- Of the outcomes for a page that is read from the level `g` on, the `k`th is the first one that
is not bad, or that of the last level. -/
structure PageEnds (g : UInt32) (o : ℕ → ℤ) (k : ℕ) : Prop where
  bad : ∀ i < k, 0 < o i
  once : ¬c.Retries → k = 0
  level : c.Retries → g ≤ c.retryLevel → k ≤ c.retryLevel.toNat
  last : o k ≤ 0 ∨ ¬c.Retries ∨ g ≤ c.retryLevel ∧ k = c.retryLevel.toNat

/-- If it is an error, all the levels are read by then. -/
def AllLevels (g : UInt32) (o : ℕ → ℤ) (k : ℕ) : Prop :=
  c.Retries → o k < 0 → (if g ≤ c.retryLevel then c.retryLevel.toNat else c.retryLevel.toNat + 1) ≤
    k

/-- The outcomes `nnd_vs_isbad` is right about, from the level `g` on. -/
def MarksFit (g : UInt32) (o : ℕ → ℤ) : Prop :=
  ∃ k, PageEnds c g o k ∧ AllLevels c g o k ∧ (o k = 0 → c.badpageminor ≠ c.badpagemajor →
    if c.readRetry = 1 ∧ c.nandParam0 = 0x95 ∧ c.retryLevel ≠ 0 then o (k + 1) = 0
    else ∃ j, PageEnds c (c.after (levelAt c g k)) (fun i => o (k + 1 + i)) j ∧
      AllLevels c (c.after (levelAt c g k)) (fun i => o (k + 1 + i)) j)

end Right

section Levels

variable {c : RetryConfig} {g : UInt32} {o : ℕ → ℤ} {k : ℕ}

theorem nextLevel_le (l : UInt32) : nextLevel c l ≤ c.retryLevel := by
  rw [UInt32.le_iff_toNat_le, toNat_nextLevel]
  split_ifs <;> omega

/-- Where the levels are read by a loop that began with `g`. -/
theorem levels_read : (∀ l ≤ c.retryLevel, ∃ i < k + 1, levelAt c g i = l) ↔
    (if g ≤ c.retryLevel then c.retryLevel.toNat else c.retryLevel.toNat + 1) ≤ k := by
  constructor
  · intro h
    split_ifs with hg
    · by_contra hlt
      obtain ⟨i, hi, heq⟩ := h (levelAt c g (k + 1)) (levelAt_le hg _)
      rw [← UInt32.toNat_inj, toNat_levelAt hg (by omega), toNat_levelAt hg (by omega)] at heq
      have hgl := UInt32.le_iff_toNat_le.1 hg
      split_ifs at heq <;> omega
    · by_contra hlt
      have hg := UInt32.not_le.1 hg
      have hk : (levelAt c g (k + 1)).toNat = k := toNat_levelAt_high hg (by omega)
      obtain ⟨i, hi, heq⟩ := h (levelAt c g (k + 1)) (nextLevel_le _)
      rw [← UInt32.toNat_inj, hk] at heq
      rcases i with _ | i
      · have hgl := UInt32.lt_iff_toNat_lt.1 hg
        rw [levelAt] at heq
        omega
      · rw [toNat_levelAt_high hg (by omega)] at heq
        omega
  · intro h l hl
    have hl := UInt32.le_iff_toNat_le.1 hl
    split_ifs at h with hg
    · have hgl := UInt32.le_iff_toNat_le.1 hg
      by_cases hgl' : g.toNat ≤ l.toNat
      · refine ⟨l.toNat - g.toNat, by omega, ?_⟩
        rw [← UInt32.toNat_inj, toNat_levelAt hg (by omega), if_pos (by omega)]
        omega
      · refine ⟨c.retryLevel.toNat + 1 + l.toNat - g.toNat, by omega, ?_⟩
        rw [← UInt32.toNat_inj, toNat_levelAt hg (by omega), if_neg (by omega)]
        omega
    · refine ⟨l.toNat + 1, by omega, ?_⟩
      rw [← UInt32.toNat_inj, toNat_levelAt_high (UInt32.not_le.1 hg) hl]

/-- The reads of a page end, unless the levels do not come back to where they began. -/
theorem pageEnds_or_not (c : RetryConfig) (g : UInt32) (o : ℕ → ℤ) :
    (∃ k, PageEnds c g o k) ∨ c.Retries ∧ c.retryLevel < g ∧ ∀ i, 0 < o i := by
  by_cases hR : c.Retries
  · by_cases hall : ∀ i, 0 < o i
    · by_cases hg : g ≤ c.retryLevel
      · exact Or.inl ⟨c.retryLevel.toNat, fun i _ => hall i, fun h => absurd hR h,
          fun _ _ => le_rfl,
          Or.inr (Or.inr ⟨hg, rfl⟩)⟩
      · exact Or.inr ⟨hR, UInt32.not_le.1 hg, hall⟩
    · obtain ⟨i, hi⟩ := not_forall.1 hall
      have hex : ∃ i, o i ≤ 0 := ⟨i, not_lt.1 hi⟩
      have hbefore (j : ℕ) (hj : j < Nat.find hex) : 0 < o j := not_le.1 (Nat.find_min hex hj)
      by_cases hfirst : g ≤ c.retryLevel ∧ c.retryLevel.toNat < Nat.find hex
      · exact Or.inl ⟨c.retryLevel.toNat, fun j hj => hbefore j (by omega), fun h => absurd hR h,
          fun _ _ => le_rfl, Or.inr (Or.inr ⟨hfirst.1, rfl⟩)⟩
      · exact Or.inl ⟨Nat.find hex, hbefore, fun h => absurd hR h,
          fun _ hg => not_lt.1 fun h => hfirst ⟨hg, h⟩, Or.inl (Nat.find_spec hex)⟩
  · exact Or.inl ⟨0, fun i hi => absurd hi (Nat.not_lt_zero i), fun _ => rfl, fun h => absurd h hR,
      Or.inr (Or.inl hR)⟩

/-- Behind a bad read that is not the last, the level is not the first one. -/
theorem PageEnds.level_ne (h : PageEnds c g o k) {i : ℕ} (hi : i < k) (hR : c.Retries) :
    g ≠ nextLevel c (levelAt c g i) := by
  intro heq
  by_cases hg : g ≤ c.retryLevel
  · have hk := h.level hR hg
    have := (levelAt_back hg (k := i) (by omega)).1 heq.symm
    omega
  · exact hg (heq ▸ nextLevel_le _)

end Levels

section Loops

variable {c : RetryConfig} {rowAddr : UInt32} {g : UInt32} {o : ℕ → ℤ} {k : ℕ}

/-- The first `k` reads of a page. -/
def pageReads (c : RetryConfig) (row g : UInt32) (o : ℕ → ℤ) (k : ℕ) : List MarkRead :=
  (List.range k).map fun i => ⟨row, levelAt c g i, o i⟩

theorem pageReads_succ (row : UInt32) : pageReads c row g o (k + 1) =
    pageReads c row g o k ++ [⟨row, levelAt c g k, o k⟩] := by
  simp [pageReads, List.range_succ]

/-- A page is about to be read at the `k`th level. -/
structure AtRead (c : RetryConfig) (s : IsbadState) (g : UInt32) (k : ℕ) : Prop where
  retrylevel : s.retry.retrylevel = levelAt c g k
  gRetrylevel : s.retry.gRetrylevel = g

/-- What the loops of both pages have in common: how they end with a mark that is not good, -/
structure PageLoop (c : RetryConfig) (rowAddr : UInt32) (ph : IsbadPhase) (row : UInt32)
    (f : ℤ → LevelState → LevelState × IsbadPhase) : Prop where
  step : ∀ {s : IsbadState} {ret : ℤ}, s.phase = ph → isbadStep c rowAddr s ret =
    ⟨(f ret s.retry).1, (f ret s.retry).2, s.reads ++ [⟨row, s.retry.retrylevel, ret⟩]⟩
  error : ∀ {s : LevelState} {ret : ℤ}, ret < 0 → f ret s = (s, .done (-1))
  once : ∀ {s : LevelState} {ret : ℤ}, ¬c.Retries → 0 < ret → ∃ s', f ret s = (s', .done ret)
  failed : ∀ {s : LevelState} {ret : ℤ}, c.Retries → 0 < ret →
    s.gRetrylevel = nextLevel c s.retrylevel → ∃ s', f ret s = (s', .done ret)

/-- and how they go on. -/
def GoesOn (c : RetryConfig) (ph : IsbadPhase) (f : ℤ → LevelState → LevelState × IsbadPhase) :
    Prop :=
  ∀ (s : LevelState) (ret : ℤ), c.Retries → 0 < ret → s.gRetrylevel ≠ nextLevel c s.retrylevel →
    ∃ s', f ret s = (s', ph) ∧ s'.retrylevel = nextLevel c s.retrylevel ∧
      s'.gRetrylevel = s.gRetrylevel

theorem majorLoop (c : RetryConfig) (rowAddr : UInt32) :
    PageLoop c rowAddr .major (rowAddr + c.badpagemajor) (isbadMajor c) where
  step h := by rw [isbadStep, h]
  error := isbadMajor_error
  once hR h := (isbadMajor_once hR h _).imp fun _ h => h.1
  failed hR h hg := (isbadMajor_failed hR h hg).imp fun _ h => h.1

theorem minorLoop (c : RetryConfig) (rowAddr : UInt32) :
    PageLoop c rowAddr .minor (rowAddr + c.badpageminor) (isbadMinor c) where
  step h := by rw [isbadStep, h]
  error := isbadMinor_error
  once hR h := (isbadMinor_once hR h _).imp fun _ h => h.1
  failed hR h hg := (isbadMinor_failed hR h hg).imp fun _ h => h.1

theorem major_goesOn : GoesOn c .major (isbadMajor c) := fun _ _ => isbadMajor_again

theorem minor_goesOn (h : c.nandParam0 ≠ 0x95) : GoesOn c .minor (isbadMinor c) := by
  intro s ret hR hpos hg
  have hagain := isbadMinor_again hR hpos hg
  rwa [if_neg h] at hagain

section Page

variable {ph : IsbadPhase} {row : UInt32} {f : ℤ → LevelState → LevelState × IsbadPhase}
  {s : IsbadState} (hl : PageLoop c rowAddr ph row f) (hp : s.phase = ph) (hs : AtRead c s g 0)

include hl hp hs

/-- The bad reads before the last one. -/
theorem page_reads (hon : GoesOn c ph f) (hR : c.Retries) (hbad : ∀ i < k, 0 < o i)
    (hne : ∀ i < k, g ≠ nextLevel c (levelAt c g i)) : ∀ n ≤ k,
      ((outcomes o n).foldl (isbadStep c rowAddr) s).phase = ph ∧
      AtRead c ((outcomes o n).foldl (isbadStep c rowAddr) s) g n ∧
      ((outcomes o n).foldl (isbadStep c rowAddr) s).reads = s.reads ++ pageReads c row g o n
  | 0, _ => ⟨hp, hs, (List.append_nil _).symm⟩
  | n + 1, hn => by
    obtain ⟨hphase, hat, hreads⟩ := page_reads hon hR hbad hne n (by omega)
    rw [outcomes_succ, List.foldl_append, List.foldl_cons, List.foldl_nil]
    set t := (outcomes o n).foldl (isbadStep c rowAddr) s
    obtain ⟨s', hs', hr, hg⟩ := hon t.retry _ hR (hbad n (by omega)) (by
      rw [hat.gRetrylevel, hat.retrylevel]
      exact hne n (by omega))
    rw [hl.step hphase, hs']
    refine ⟨rfl, ⟨?_, hg.trans hat.gRetrylevel⟩, ?_⟩
    · rw [hr, hat.retrylevel, levelAt]
    · rw [hreads, hat.retrylevel, pageReads_succ, List.append_assoc]

/-- The state at the last read. -/
theorem page_last (hon : 0 < k → GoesOn c ph f) (h : PageEnds c g o k) :
    ((outcomes o k).foldl (isbadStep c rowAddr) s).phase = ph ∧
      AtRead c ((outcomes o k).foldl (isbadStep c rowAddr) s) g k ∧
      ((outcomes o k).foldl (isbadStep c rowAddr) s).reads = s.reads ++ pageReads c row g o k := by
  rcases Nat.eq_zero_or_pos k with rfl | hk
  · exact ⟨hp, hs, (List.append_nil _).symm⟩
  · have hR : c.Retries := by
      by_contra hR
      exact hk.ne' (h.once hR)
    exact page_reads hl hp hs (hon hk) hR h.bad (fun i hi => h.level_ne hi hR) k le_rfl

/-- The last read of a page that is not good ends it all. -/
theorem page_end (hon : 0 < k → GoesOn c ph f) (h : PageEnds c g o k) :
    ((outcomes o (k + 1)).foldl (isbadStep c rowAddr) s).reads =
        s.reads ++ pageReads c row g o (k + 1) ∧
      (o k ≠ 0 → ∃ ret, ret ≠ 0 ∧
        ((outcomes o (k + 1)).foldl (isbadStep c rowAddr) s).phase = .done ret) ∧
      (o k = 0 → ∃ t : LevelState, t.retrylevel = levelAt c g k ∧
        ((outcomes o (k + 1)).foldl (isbadStep c rowAddr) s).phase = (f 0 t).2 ∧
        ((outcomes o (k + 1)).foldl (isbadStep c rowAddr) s).retry = (f 0 t).1) := by
  obtain ⟨hphase, hat, hreads⟩ := page_last hl hp hs hon h
  rw [outcomes_succ, List.foldl_append, List.foldl_cons, List.foldl_nil]
  set t := (outcomes o k).foldl (isbadStep c rowAddr) s
  rw [hl.step hphase]
  refine ⟨?_, fun hne => ?_, fun hgood => ⟨t.retry, hat.retrylevel, by rw [hgood], by rw [hgood]⟩⟩
  · dsimp only
    rw [hreads, hat.retrylevel, pageReads_succ, List.append_assoc]
  · dsimp only
    rcases lt_or_gt_of_ne hne with hneg | hpos
    · exact ⟨-1, by omega, congrArg Prod.snd (hl.error hneg)⟩
    · refine ⟨o k, hne, ?_⟩
      rcases h.last with hle | hR | ⟨hg, hk⟩
      · omega
      · obtain ⟨s', hs'⟩ := hl.once (s := t.retry) hR hpos
        rw [hs']
      · by_cases hR : c.Retries
        · obtain ⟨s', hs'⟩ := hl.failed (s := t.retry) hR hpos (by
            rw [hat.gRetrylevel, hat.retrylevel]
            exact ((levelAt_back hg hk.le).2 hk).symm)
          rw [hs']
        · obtain ⟨s', hs'⟩ := hl.once (s := t.retry) hR hpos
          rw [hs']

end Page

end Loops

section Pages

variable {c : RetryConfig} {rowAddr row g : UInt32} {o : ℕ → ℤ} {k : ℕ} {reads : List MarkRead}

theorem mem_pageReads {r : MarkRead} {n : ℕ} : r ∈ pageReads c row g o n ↔
    ∃ i < n, ⟨row, levelAt c g i, o i⟩ = r := by
  simp [pageReads]

theorem not_badPage {r : MarkRead} (hr : r ∈ reads) (hrow : r.row = row) (hgood : r.ret = 0) :
    ¬BadPage c reads row := fun h => h.2.1 r hr hrow hgood

/-- A page that was good in the end is not bad. -/
theorem not_badPage_good (hgood : o k = 0) (as bs : List MarkRead) :
    ¬BadPage c (as ++ pageReads c row g o (k + 1) ++ bs) row := by
  have hmem : (⟨row, levelAt c g k, o k⟩ : MarkRead) ∈ pageReads c row g o (k + 1) :=
    mem_pageReads.2 ⟨k, Nat.lt_succ_self k, rfl⟩
  exact not_badPage (List.mem_append_left _ (List.mem_append_right _ hmem)) rfl hgood

/-- One that was not is bad if an error did not come too early. -/
theorem badPage_iff (h : PageEnds c g o k) (hbad : o k ≠ 0) (hother : ∀ r ∈ reads, r.row ≠ row) :
    BadPage c (reads ++ pageReads c row g o (k + 1)) row ↔ AllLevels c g o k := by
  have hat (r : MarkRead) : r ∈ reads ++ pageReads c row g o (k + 1) ∧ r.row = row ↔
      r ∈ pageReads c row g o (k + 1) := by
    rw [List.mem_append]
    constructor
    · rintro ⟨hr | hr, hrow⟩
      · exact absurd hrow (hother r hr)
      · exact hr
    · intro hr
      obtain ⟨i, -, heq⟩ := mem_pageReads.1 hr
      exact ⟨Or.inr hr, heq ▸ rfl⟩
  have hlevels : (∀ l ≤ c.retryLevel, ∃ r ∈ reads ++ pageReads c row g o (k + 1), r.row = row ∧
      r.level = l) ↔ ∀ l ≤ c.retryLevel, ∃ i < k + 1, levelAt c g i = l := by
    refine forall₂_congr fun l _ => ⟨?_, ?_⟩
    · rintro ⟨r, hr, hrow, hl⟩
      obtain ⟨i, hi, heq⟩ := mem_pageReads.1 ((hat r).1 ⟨hr, hrow⟩)
      subst heq
      exact ⟨i, hi, hl⟩
    · rintro ⟨i, hi, hl⟩
      exact ⟨_, List.mem_append_right _ (mem_pageReads.2 ⟨i, hi, rfl⟩), rfl, hl⟩
  unfold BadPage AllLevels
  rw [hlevels, levels_read]
  constructor
  · rintro ⟨-, -, hall⟩ hR _
    exact hall hR
  · intro hall
    refine ⟨?_, fun r hr hrow => ?_, fun hR => ?_⟩
    · exact ⟨_, List.mem_append_right _ (mem_pageReads.2 ⟨k, Nat.lt_succ_self k, rfl⟩), rfl⟩
    · obtain ⟨i, hi, heq⟩ := mem_pageReads.1 ((hat r).1 ⟨hr, hrow⟩)
      rw [← heq]
      rcases Nat.lt_succ_iff_lt_or_eq.1 hi with hlt | rfl
      · exact (h.bad i hlt).ne'
      · exact hbad
    · rcases lt_or_gt_of_ne hbad with hneg | hpos
      · exact hall hR hneg
      · rcases h.last with hle | hR' | ⟨hg, hk⟩
        · omega
        · exact absurd hR hR'
        · rw [if_pos hg, hk]

theorem rows_ne (hdiff : c.badpageminor ≠ c.badpagemajor) :
    rowAddr + c.badpagemajor ≠ rowAddr + c.badpageminor := fun h =>
  hdiff ((UInt32.add_right_inj rowAddr).1 h.symm)

theorem not_badPage_other (hrow : ∀ r ∈ reads, r.row ≠ row) : ¬BadPage c reads row := fun h => by
  obtain ⟨r, hr, heq⟩ := h.1
  exact hrow r hr heq

end Pages

section Runs

variable {c : RetryConfig} {rowAddr : UInt32} {s : LevelState} {o : ℕ → ℤ} {n m : ℕ} {ret ret' : ℤ}

theorem isbadRun_outcomes (n k : ℕ) : isbadRun c rowAddr s (outcomes o (n + k)) =
    (outcomes (fun i => o (n + i)) k).foldl (isbadStep c rowAddr)
      (isbadRun c rowAddr s (outcomes o n)) := by
  unfold isbadRun
  rw [outcomes_add, List.foldl_append]

/-- Once it is through, more outcomes change nothing. -/
theorem isbadRun_done (h : (isbadRun c rowAddr s (outcomes o n)).phase = .done ret) (hm : n ≤ m) :
    isbadRun c rowAddr s (outcomes o m) = isbadRun c rowAddr s (outcomes o n) := by
  obtain ⟨k, rfl⟩ := Nat.exists_eq_add_of_le hm
  rw [isbadRun_outcomes, isbad_done rowAddr h]

/-- What it left is all there is to look at. -/
theorem isbadRight_done (h : (isbadRun c rowAddr s (outcomes o n)).phase = .done ret) :
    IsbadRight c rowAddr s o ↔
      (ret ≠ 0 ↔ ∃ row, (row = rowAddr + c.badpagemajor ∨ row = rowAddr + c.badpageminor) ∧
        BadPage c (isbadRun c rowAddr s (outcomes o n)).reads row) ∧
      (isbadRun c rowAddr s (outcomes o n)).reads.Pairwise fun a b =>
        a.row = rowAddr + c.badpageminor → b.row = rowAddr + c.badpageminor := by
  constructor
  · rintro ⟨m, ret', h', hright⟩
    have heq : isbadRun c rowAddr s (outcomes o m) = isbadRun c rowAddr s (outcomes o n) := by
      rcases le_total n m with hle | hle
      · exact isbadRun_done h hle
      · exact (isbadRun_done h' hle).symm
    rw [heq, h] at h'
    cases h'
    rwa [heq] at hright
  · exact fun hright => ⟨n, ret, h, hright⟩

theorem reads_grow (k : ℕ) : ∀ t : IsbadState, ∃ rest,
    ((outcomes o k).foldl (isbadStep c rowAddr) t).reads = t.reads ++ rest := by
  induction k with
  | zero => exact fun t => ⟨[], (List.append_nil _).symm⟩
  | succ k ih =>
    intro t
    obtain ⟨rest, hrest⟩ := ih t
    rw [outcomes_succ, List.foldl_append, List.foldl_cons, List.foldl_nil]
    set u := (outcomes o k).foldl (isbadStep c rowAddr) t
    unfold isbadStep
    rcases u.phase with _ | _ | v
    · exact ⟨rest ++ _, by rw [← List.append_assoc, ← hrest]⟩
    · exact ⟨rest ++ _, by rw [← List.append_assoc, ← hrest]⟩
    · exact ⟨rest, hrest⟩

/-- Outcomes that never end it. -/
theorem not_right (h : ∀ n, ∃ m ≥ n, ∀ ret, (isbadRun c rowAddr s (outcomes o m)).phase ≠ .done
    ret) :
    ¬IsbadRight c rowAddr s o := by
  rintro ⟨n, ret, hdone, -⟩
  obtain ⟨m, hm, hphase⟩ := h n
  exact hphase ret (by rw [isbadRun_done hdone hm, hdone])

end Runs

section Iff

variable {c : RetryConfig} {rowAddr : UInt32} {s : LevelState} {o : ℕ → ℤ} {k : ℕ}

/-- `nnd_vs_isbad` before its first read. -/
def isbadStart (s : LevelState) : IsbadState := ⟨{ s with retrylevel := s.gRetrylevel }, .major, []⟩

theorem isbadStart_at (s : LevelState) : AtRead c (isbadStart s) s.gRetrylevel 0 := ⟨rfl, rfl⟩

theorem pairwise_major (n : ℕ) (hdiff : c.badpageminor ≠ c.badpagemajor) :
    (pageReads c (rowAddr + c.badpagemajor) s.gRetrylevel o n).Pairwise fun a b =>
      a.row = rowAddr + c.badpageminor → b.row = rowAddr + c.badpageminor := by
  refine List.pairwise_of_forall_mem_list fun a ha b _ hrow => ?_
  obtain ⟨i, -, rfl⟩ := mem_pageReads.1 ha
  exact absurd hrow (rows_ne hdiff)

theorem pairwise_row {row : UInt32} {g : UInt32} (o : ℕ → ℤ) (n : ℕ) :
    (pageReads c row g o n).Pairwise fun a b => a.row = row → b.row = row := by
  refine List.pairwise_of_forall_mem_list fun a _ b hb _ => ?_
  obtain ⟨i, -, rfl⟩ := mem_pageReads.1 hb
  rfl

theorem pairwise_first (n : ℕ) : (pageReads c (rowAddr + c.badpagemajor) s.gRetrylevel o n).Pairwise
    fun a b => a.row = rowAddr + c.badpageminor → b.row = rowAddr + c.badpageminor := by
  by_cases hdiff : c.badpageminor = c.badpagemajor
  · rw [hdiff]
    exact pairwise_row o n
  · exact pairwise_major n hdiff

theorem first_not_second {g : UInt32} (hdiff : c.badpageminor ≠ c.badpagemajor) (n : ℕ) :
    ∀ r ∈ pageReads c (rowAddr + c.badpagemajor) g o n, r.row ≠ rowAddr + c.badpageminor := by
  intro r hr
  obtain ⟨i, -, rfl⟩ := mem_pageReads.1 hr
  exact rows_ne hdiff

/-- A first page that is not good. -/
theorem right_of_bad (h : PageEnds c s.gRetrylevel o k) (hbad : o k ≠ 0) :
    IsbadRight c rowAddr s o ↔ AllLevels c s.gRetrylevel o k := by
  obtain ⟨hreads, hend, -⟩ := page_end (majorLoop c rowAddr) rfl (isbadStart_at s)
    (fun _ => major_goesOn) h
  obtain ⟨ret, hret, hphase⟩ := hend hbad
  rw [isbadRight_done hphase, show (isbadRun c rowAddr s (outcomes o (k + 1))).reads =
    _ from hreads]
  change (ret ≠ 0 ↔ ∃ row, _ ∧ BadPage c ([] ++ _) row) ∧ _ ↔ _
  constructor
  · rintro ⟨hiff, -⟩
    obtain ⟨row, hrow, hbadpage⟩ := hiff.1 hret
    by_cases hdiff : c.badpageminor = c.badpagemajor
    · rw [hdiff, or_self] at hrow
      rw [hrow] at hbadpage
      exact (badPage_iff h hbad (fun _ h => absurd h List.not_mem_nil)).1 hbadpage
    · rcases hrow with rfl | rfl
      · exact (badPage_iff h hbad (fun _ h => absurd h List.not_mem_nil)).1 hbadpage
      · exact absurd hbadpage (not_badPage_other (first_not_second hdiff _))
  · intro hall
    refine ⟨⟨fun _ => ⟨_, Or.inl rfl, ?_⟩, fun _ => hret⟩, pairwise_first (k + 1)⟩
    exact (badPage_iff h hbad (fun _ h => absurd h List.not_mem_nil)).2 hall

/-- A good first page, where it is the only one. -/
theorem right_of_only (h : PageEnds c s.gRetrylevel o k) (hgood : o k = 0)
    (hsame : c.badpageminor = c.badpagemajor) : IsbadRight c rowAddr s o := by
  obtain ⟨hreads, -, hend⟩ := page_end (majorLoop c rowAddr) rfl (isbadStart_at s)
    (fun _ => major_goesOn) h
  obtain ⟨t, -, hphase, -⟩ := hend hgood
  obtain ⟨t', ht', -⟩ := isbadMajor_good (c := c) t
  rw [ht', if_neg (not_not.2 hsame)] at hphase
  rw [isbadRight_done hphase, show (isbadRun c rowAddr s (outcomes o (k + 1))).reads =
    _ from hreads]
  refine ⟨⟨fun h0 => absurd rfl h0, ?_⟩, pairwise_first (k + 1)⟩
  rintro ⟨row, hrow, hbadpage⟩
  rw [hsame, or_self] at hrow
  rw [hrow] at hbadpage
  exact absurd hbadpage (List.append_nil ([] ++ _) ▸ not_badPage_good hgood [] [])

/-- Behind a good first page, the second one is about to be read. -/
theorem at_minor (rowAddr : UInt32) (h : PageEnds c s.gRetrylevel o k) (hgood : o k = 0)
    (hdiff : c.badpageminor ≠ c.badpagemajor) :
    (isbadRun c rowAddr s (outcomes o (k + 1))).phase = .minor ∧
      AtRead c (isbadRun c rowAddr s (outcomes o (k + 1))) (c.after (levelAt c s.gRetrylevel k)) 0 ∧
      (isbadRun c rowAddr s (outcomes o (k + 1))).reads =
        pageReads c (rowAddr + c.badpagemajor) s.gRetrylevel o (k + 1) := by
  obtain ⟨hreads, -, hend⟩ := page_end (majorLoop c rowAddr) rfl (isbadStart_at s)
    (fun _ => major_goesOn) h
  obtain ⟨t, hlevel, hphase, hretry⟩ := hend hgood
  obtain ⟨t', ht', hr, hg⟩ := isbadMajor_good (c := c) t
  rw [ht', if_pos hdiff] at hphase
  rw [ht'] at hretry
  refine ⟨hphase, ⟨?_, ?_⟩, hreads⟩
  · exact (congrArg LevelState.retrylevel hretry).trans (hlevel ▸ hr hdiff)
  · exact (congrArg LevelState.gRetrylevel hretry).trans (hlevel ▸ hg)

section Second

variable (h : PageEnds c s.gRetrylevel o k) (hgood : o k = 0)
  (hdiff : c.badpageminor ≠ c.badpagemajor)

include h hgood hdiff

/-- The second page, read by a loop of its own. -/
theorem right_of_second {j : ℕ} (hone : 0 < j → c.nandParam0 ≠ 0x95)
    (hj : PageEnds c (c.after (levelAt c s.gRetrylevel k)) (fun i => o (k + 1 + i)) j) :
    IsbadRight c rowAddr s o ↔
      AllLevels c (c.after (levelAt c s.gRetrylevel k)) (fun i => o (k + 1 + i)) j := by
  obtain ⟨hphase, hat, hreads⟩ := at_minor rowAddr h hgood hdiff
  obtain ⟨hreads', hbad, hend⟩ := page_end (minorLoop c rowAddr) hphase hat
    (fun hpos => minor_goesOn (hone hpos)) hj
  rw [← isbadRun_outcomes] at hreads' hbad hend
  rw [hreads] at hreads'
  have hpair : (isbadRun c rowAddr s (outcomes o (k + 1 + (j + 1)))).reads.Pairwise fun a b =>
      a.row = rowAddr + c.badpageminor → b.row = rowAddr + c.badpageminor := by
    rw [hreads']
    refine List.pairwise_append.2 ⟨pairwise_first (k + 1), pairwise_row _ _, fun a ha b _ hrow =>
      ?_⟩
    exact absurd hrow (first_not_second hdiff _ a ha)
  have hfirst : ¬BadPage c (isbadRun c rowAddr s (outcomes o (k + 1 + (j + 1)))).reads
      (rowAddr + c.badpagemajor) := by
    rw [hreads']
    exact not_badPage_good hgood [] _
  by_cases hlast : o (k + 1 + j) = 0
  · obtain ⟨t, -, hphase', -⟩ := hend hlast
    obtain ⟨t', ht', -⟩ := isbadMinor_good (c := c) t
    rw [ht'] at hphase'
    rw [isbadRight_done hphase']
    refine iff_of_true ⟨⟨fun h0 => absurd rfl h0, ?_⟩, hpair⟩ fun _ hneg => absurd hlast hneg.ne
    rintro ⟨row, rfl | rfl, hbadpage⟩
    · exact absurd hbadpage hfirst
    · rw [hreads', ← List.append_nil (_ ++ _)] at hbadpage
      exact absurd hbadpage (@not_badPage_good c _ _ (fun i => o (k + 1 + i)) j hlast _ _)
  · obtain ⟨ret, hret, hphase'⟩ := hbad hlast
    have hsecond := badPage_iff hj hlast
      (@first_not_second c rowAddr o s.gRetrylevel hdiff (k + 1))
    rw [isbadRight_done hphase', ← hsecond, ← hreads']
    constructor
    · rintro ⟨hiff, -⟩
      obtain ⟨row, rfl | rfl, hbadpage⟩ := hiff.1 hret
      · exact absurd hbadpage hfirst
      · exact hbadpage
    · exact fun hbadpage => ⟨⟨fun _ => ⟨_, Or.inr rfl, hbadpage⟩, fun _ => hret⟩, hpair⟩

/-- The second page of a chip with `nand_param0` 0x95, whose loop is that of the first. -/
theorem right_of_fault (h95 : c.readRetry = 1 ∧ c.nandParam0 = 0x95 ∧ c.retryLevel ≠ 0) :
    IsbadRight c rowAddr s o ↔ o (k + 1) = 0 := by
  have hR : c.Retries := ⟨h95.1, Or.inr (Or.inr h95.2.1)⟩
  have hzero : c.after (levelAt c s.gRetrylevel k) = 0 := if_pos ⟨hR.1, Or.inr (Or.inr h95.2.1)⟩
  rcases le_or_gt (o (k + 1)) 0 with hle | hpos
  · have hends : PageEnds c (c.after (levelAt c s.gRetrylevel k)) (fun i => o (k + 1 + i)) 0 :=
      ⟨fun i hi => absurd hi (Nat.not_lt_zero i), fun _ => rfl, fun _ _ => Nat.zero_le _,
        Or.inl hle⟩
    rw [right_of_second h hgood hdiff (fun h0 => absurd h0 (lt_irrefl 0)) hends, hzero]
    constructor
    · intro hall
      by_contra hne
      have hlevels := hall hR (lt_of_le_of_ne hle hne)
      rw [if_pos UInt32.zero_le] at hlevels
      exact h95.2.2 (UInt32.toNat_inj.1 (Nat.le_zero.1 hlevels))
    · exact fun hgood' _ hneg => absurd hgood' hneg.ne
  · -- the first page is read again
    refine iff_of_false ?_ hpos.ne'
    obtain ⟨hphase, hat, hreads⟩ := at_minor rowAddr h hgood hdiff
    rw [hzero] at hat
    set t := isbadRun c rowAddr s (outcomes o (k + 1)) with ht
    obtain ⟨s', hs', -⟩ := isbadMinor_again (s := t.retry) hR hpos (by
      rw [hat.gRetrylevel, hat.retrylevel, levelAt, nextLevel_zero h95.2.2]
      decide)
    rw [if_pos h95.2.1] at hs'
    have hnext : isbadRun c rowAddr s (outcomes o (k + 2)) = ⟨s', .major,
        t.reads ++ [⟨rowAddr + c.badpageminor, t.retry.retrylevel, o (k + 1)⟩]⟩ := by
      rw [isbadRun_outcomes (k + 1) 1, ← ht]
      exact ((minorLoop c rowAddr).step hphase).trans (by
        rw [show o (k + 1 + 0) = o (k + 1) from rfl, hs'])
    have hagain : (isbadRun c rowAddr s (outcomes o (k + 3))).reads =
        t.reads ++ [⟨rowAddr + c.badpageminor, t.retry.retrylevel, o (k + 1)⟩] ++
          [⟨rowAddr + c.badpagemajor, s'.retrylevel, o (k + 2)⟩] := by
      rw [isbadRun_outcomes (k + 2) 1, hnext]
      exact congrArg IsbadState.reads ((majorLoop c rowAddr).step (s := ⟨s', .major, _⟩) rfl)
    rintro ⟨n, ret, hdone, -, hpair⟩
    have hn : k + 3 ≤ n := by
      by_contra hn
      have heq := isbadRun_done hdone (show n ≤ k + 2 by omega)
      rw [hnext] at heq
      rw [← heq] at hdone
      exact absurd hdone (by simp)
    obtain ⟨i, rfl⟩ := Nat.exists_eq_add_of_le hn
    rw [isbadRun_outcomes] at hpair
    obtain ⟨rest, hrest⟩ := @reads_grow c rowAddr (fun j => o (k + 3 + j)) i
      (isbadRun c rowAddr s (outcomes o (k + 3)))
    rw [hrest, hagain] at hpair
    have hrow := (List.pairwise_append.1 (List.pairwise_append.1 hpair).1).2.2
      ⟨rowAddr + c.badpageminor, t.retry.retrylevel, o (k + 1)⟩
      (List.mem_append_right _ List.mem_cons_self) _ List.mem_cons_self rfl
    exact rows_ne hdiff hrow

/-- A second page that is bad at all levels, of which none is the one it was first read at. -/
theorem not_right_of_second (hR : c.Retries)
    (hlevel : c.retryLevel < c.after (levelAt c s.gRetrylevel k)) (hall : ∀ i, 0 < o (k + 1 + i)) :
    ¬IsbadRight c rowAddr s o := by
  obtain ⟨hphase, hat, -⟩ := at_minor rowAddr h hgood hdiff
  have hone : c.nandParam0 ≠ 0x95 := fun hparam => by
    rw [show c.after _ = 0 from if_pos ⟨hR.1, Or.inr (Or.inr hparam)⟩] at hlevel
    exact absurd hlevel (UInt32.not_lt.2 UInt32.zero_le)
  refine not_right fun n => ⟨k + 1 + n, by omega, fun ret hdone => ?_⟩
  obtain ⟨hminor, -⟩ := page_reads (minorLoop c rowAddr) hphase hat (minor_goesOn hone) hR
    (k := n) (fun i _ => hall i)
    (fun i _ heq => absurd (nextLevel_le _) (UInt32.not_le.2 (heq ▸ hlevel))) n le_rfl
  rw [isbadRun_outcomes, hminor] at hdone
  exact absurd hdone (by simp)

end Second

theorem not_right_of_first (hR : c.Retries) (hlevel : c.retryLevel < s.gRetrylevel)
    (hall : ∀ i, 0 < o i) : ¬IsbadRight c rowAddr s o := by
  refine not_right fun n => ⟨n, le_rfl, fun ret hdone => ?_⟩
  obtain ⟨hmajor, -⟩ := page_reads (majorLoop c rowAddr) rfl (isbadStart_at s) major_goesOn hR
    (k := n) (fun i _ => hall i)
    (fun i _ heq => absurd (nextLevel_le _) (UInt32.not_le.2 (heq ▸ hlevel))) n le_rfl
  exact absurd (hmajor.symm.trans hdone) (by simp)

/-- Where a chip with `nand_param0` 0x95 reads its second page once more, its loop is not its
own. -/
theorem one_level {j : ℕ} {g : UInt32}
    (h95 : ¬(c.readRetry = 1 ∧ c.nandParam0 = 0x95 ∧ c.retryLevel ≠ 0)) (hj : PageEnds c (c.after g)
      o j) (hpos : 0 < j) : c.nandParam0 ≠ 0x95 := fun hparam => by
  have hR : c.Retries := by
    by_contra hR
    exact hpos.ne' (hj.once hR)
  have hzero : c.after g = 0 := if_pos ⟨hR.1, Or.inr (Or.inr hparam)⟩
  have h0 : c.retryLevel = 0 := by
    by_contra h0
    exact h95 ⟨hR.1, hparam, h0⟩
  have hle := hj.level hR (hzero ▸ UInt32.zero_le)
  rw [h0] at hle
  exact hpos.ne' (Nat.le_zero.1 hle)

theorem isbadRight_iff : IsbadRight c rowAddr s o ↔ MarksFit c s.gRetrylevel o := by
  constructor
  · intro hright
    rcases pageEnds_or_not c s.gRetrylevel o with ⟨k, h⟩ | ⟨hR, hlevel, hall⟩
    · refine ⟨k, h, ?_, fun hgood hdiff => ?_⟩
      · by_cases hgood : o k = 0
        · exact fun _ hneg => absurd hgood hneg.ne
        · exact (right_of_bad h hgood).1 hright
      · split_ifs with h95
        · exact (right_of_fault h hgood hdiff h95).1 hright
        · rcases pageEnds_or_not c (c.after (levelAt c s.gRetrylevel k)) fun i => o (k + 1 + i) with
            ⟨j, hj⟩ | ⟨hR, hlevel, hall⟩
          · exact ⟨j, hj, (right_of_second h hgood hdiff (one_level h95 hj) hj).1 hright⟩
          · exact absurd hright (not_right_of_second h hgood hdiff hR hlevel hall)
    · exact absurd hright (not_right_of_first hR hlevel hall)
  · rintro ⟨k, h, hall, hminor⟩
    by_cases hgood : o k = 0
    · by_cases hdiff : c.badpageminor = c.badpagemajor
      · exact right_of_only h hgood hdiff
      · have hminor := hminor hgood hdiff
        split_ifs at hminor with h95
        · exact (right_of_fault h hgood hdiff h95).2 hminor
        · obtain ⟨j, hj, hall'⟩ := hminor
          exact (right_of_second h hgood hdiff (one_level h95 hj) hj).2 hall'
    · exact (right_of_bad h hgood).2 hall

/-- On a SDTNQFAMA-004G, a second page that is bad at level 0. -/
theorem not_marksFit_sandisk (h : o 0 = 0) (h1 : 0 < o 1) : ¬MarksFit sandisk 0 o := by
  rintro ⟨k, hk, -, hminor⟩
  have h0 : k = 0 := by
    by_contra h0
    exact (hk.bad 0 (Nat.pos_of_ne_zero h0)).ne' h
  subst h0
  have hgood := hminor h (by decide)
  rw [if_pos (by decide)] at hgood
  exact h1.ne' hgood

end Iff

/-- `nnd_vs_isbad` takes a block for bad if and only if one of its pages is, for just the outcomes
of the reads of its marks that fit. -/
theorem isbad_right_iff (c : RetryConfig) (rowAddr : UInt32) (s : LevelState) (ops : ℕ → MarkOps) :
    IsbadRight c rowAddr s (fun k => (ops k).ret) ↔
      MarksFit c s.gRetrylevel fun k => (ops k).ret :=
  isbadRight_iff

/-- The mark of a good page, and one that is not. -/
def markOf (good : Bool) : MarkOps :=
  let op : PageOp := ⟨0, if good then 0xff else 0, false⟩
  ⟨true, op, op⟩

theorem isbad_right_fails : ¬∀ (c : RetryConfig) (rowAddr : UInt32) (s : LevelState)
    (ops : ℕ → MarkOps), IsbadRight c rowAddr s fun k => (ops k).ret := fun h =>
  not_marksFit_sandisk (o := fun k => (markOf (k = 0)).ret) rfl (by decide)
    (isbadRight_iff.1 (h sandisk 0 ⟨0, 0, 0, []⟩ fun k => markOf (k = 0)))

end InfotmUboot
