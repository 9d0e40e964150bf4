import InfotmUboot.Proofs.LmbTable

/-!
# Runs of the memory blocks

After any calls of `lmb_add`, `lmb_reserve` and `lmb_free` that meet `LmbOp.Clean` and succeed, both
tables are in order, and the reserved one covers what the calls reserved and did not free.
-/

namespace InfotmUboot

open Lib Lib.Extent

inductive LmbOp where
  | add (base size : ℕ)
  | reserve (base size : ℕ)
  | free (base size : ℕ)
  deriving DecidableEq, Repr

def lmbStep (lmb : Lmb) : LmbOp → Option (ℤ × Lmb)
  | .add base size => lmbAdd lmb base size
  | .reserve base size => lmbReserve lmb base size
  | .free base size => lmbFree lmb base size

/-- Calls up to the first that fails, and whether none did. -/
def lmbRun : List LmbOp → Lmb → Option (Bool × Lmb)
  | [], lmb => some (true, lmb)
  | op :: ops, lmb =>
    match lmbStep lmb op with
    | none => none
    | some (rc, lmb) => if 0 ≤ rc then lmbRun ops lmb else some (false, lmb)

/-- What the calls leave reserved. -/
def reservedOf : List LmbOp → Set ℕ → Set ℕ
  | [], t => t
  | .add _ _ :: ops, t => reservedOf ops t
  | .reserve base size :: ops, t => reservedOf ops (t ∪ points ⟨base, size⟩)
  | .free base size :: ops, t => reservedOf ops (t \ points ⟨base, size⟩)

/-- The regions are sorted and disjoint, and the count is that of a table. -/
structure LmbRegion.Sound (rgn : LmbRegion) : Prop where
  cnt_le : rgn.cnt ≤ MAX_LMB_REGIONS
  sorted : ∀ i j, i < j → j < rgn.cnt → (rgn.region i).base ≤ (rgn.region j).base
  disjoint : ∀ i j, i < j → j < rgn.cnt →
    Disjoint (rgn.region i).extent.points (rgn.region j).extent.points

/-- A run reaches no entry outside the tables, and if its calls succeed the tables are sound and the
reserved one covers what is reserved. -/
def LmbKept (old : Lmb) (ops : List LmbOp) : Prop :=
  ∃ ok lmb, lmbRun ops (lmbInit old) = some (ok, lmb) ∧
    (ok = true → lmb.memory.Sound ∧ lmb.reserved.Sound ∧
      covered lmb.reserved.extents = reservedOf ops ∅)

/-- A table whose one entry is empty: the next range that is added overwrites it. -/
def LmbRegion.Dummy (rgn : LmbRegion) : Prop := rgn.cnt = 1 ∧ (rgn.region 0).size = 0

/-- A range overlaps no region of the table, and neither of two of them that end at `2 ^ 32` and
begin at 0. -/
def LmbRegion.Clear (rgn : LmbRegion) (base size : ℕ) : Prop :=
  ∀ i < rgn.cnt,
    let r := rgn.region i
    (r.base + r.size ≤ base ∨ base + size ≤ r.base) ∧ (base + size = 2 ^ 32 → r.base ≠ 0) ∧
      (base = 0 → r.base + r.size ≠ 2 ^ 32)

/-- When a range may be added to a table: it is one of 32-bit words that does not go over their end,
and it is a region of the table or meets none of them; of an emptied table, it comes before the
stale first entry or is that one, and the next entry is not next to it. -/
def LmbRegion.Takes (rgn : LmbRegion) (base size : ℕ) : Prop :=
  (base < 2 ^ 32 ∧ size < 2 ^ 32 ∧ base + size ≤ 2 ^ 32) ∧
    if rgn.cnt = 0 then
      lmbRegionsAdjacent rgn 0 1 = 0 ∧
        (base < (rgn.region 0).base ∨ rgn.region 0 = ⟨base, size⟩)
    else
      rgn.Dummy ∨ (∃ i < rgn.cnt, rgn.region i = ⟨base, size⟩) ∨ rgn.Clear base size

/-- When a range may be taken out of a table: it does not go over the end of the addresses, and if
it ends there, so does every region that does not begin behind its start. -/
def LmbRegion.Gives (rgn : LmbRegion) (base size : ℕ) : Prop :=
  base + size ≤ 2 ^ 32 ∧ (base + size = 2 ^ 32 → ∀ i < rgn.cnt, (rgn.region i).base ≤ base →
    (rgn.region i).base + (rgn.region i).size = 2 ^ 32)

def LmbOp.Clean (lmb : Lmb) : LmbOp → Prop
  | .add base size => lmb.memory.Takes base size
  | .reserve base size => lmb.reserved.Takes base size
  | .free base size => lmb.reserved.Gives base size

/-- Every call of a run is clean in the state it meets. -/
def CleanRun : List LmbOp → Lmb → Prop
  | [], _ => True
  | op :: ops, lmb => op.Clean lmb ∧
    match lmbStep lmb op with
    | none => True
    | some (_, lmb) => CleanRun ops lmb

instance (rgn : LmbRegion) : Decidable rgn.Dummy := inferInstanceAs (Decidable (_ ∧ _))

instance (rgn : LmbRegion) (base size : ℕ) : Decidable (rgn.Clear base size) :=
  inferInstanceAs (Decidable (∀ i < _, (_ ∨ _) ∧ (_ → _) ∧ (_ → _)))

instance (rgn : LmbRegion) (base size : ℕ) : Decidable (rgn.Takes base size) :=
  inferInstanceAs (Decidable (_ ∧ ite (_ = _) (_ ∧ _) (_ ∨ _)))

instance (rgn : LmbRegion) (base size : ℕ) : Decidable (rgn.Gives base size) :=
  inferInstanceAs (Decidable (_ ∧ (_ → ∀ i < _, _ → _)))

instance (op : LmbOp) (lmb : Lmb) : Decidable (op.Clean lmb) :=
  match op with
  | .add base size => inferInstanceAs (Decidable (lmb.memory.Takes base size))
  | .reserve base size => inferInstanceAs (Decidable (lmb.reserved.Takes base size))
  | .free base size => inferInstanceAs (Decidable (lmb.reserved.Gives base size))

instance decCleanRun : ∀ (ops : List LmbOp) (lmb : Lmb), Decidable (CleanRun ops lmb)
  | [], _ => isTrue trivial
  | op :: ops, lmb =>
    let rest : Decidable (match lmbStep lmb op with
        | none => True
        | some (_, lmb) => CleanRun ops lmb) :=
      match lmbStep lmb op with
      | none => isTrue trivial
      | some (_, lmb) => decCleanRun ops lmb
    @instDecidableAnd _ _ _ rest

section Run

variable {rgn : LmbRegion} {lmb : Lmb}

theorem LmbRegion.init_valid (rgn : LmbRegion) : rgn.init.Valid ∧ covered rgn.init.extents = ∅ := by
  have hex : rgn.init.extents = [⟨0, 0⟩] := rfl
  refine ⟨⟨(by decide : 1 ≤ MAX_LMB_REGIONS), ?_, ?_⟩, ?_⟩
  · rw [hex]
    exact List.pairwise_singleton _ _
  · rw [hex]
    exact (Unwound.nil _).insert (by decide) (by decide) (by decide)
      fun _ hf => absurd hf List.not_mem_nil
  · rw [hex, covered_cons, covered_nil, Set.union_empty, points]
    exact Set.Ico_self 0

theorem LmbRegion.Valid.sound (h : rgn.Valid) : rgn.Sound where
  cnt_le := h.cnt_le
  sorted := fun i j hij hj => by
    have := h.lt hij hj
    omega
  disjoint := fun i j hij hj => by
    have hlt := h.lt hij hj
    refine Set.disjoint_left.2 fun a ha hb => ?_
    have h1 := ha.2
    have h2 := hb.1
    rw [LmbProperty.extent_stop] at h1
    rw [LmbProperty.extent_start] at h2
    omega

/-- A clean addition. -/
theorem LmbRegion.Valid.add (h : rgn.Valid) {base size : ℕ} (ht : rgn.Takes base size) :
    ∃ rc rgn', lmbAddRegion rgn base size = some (rc, rgn') ∧
      (0 ≤ rc → rgn'.Valid ∧
        covered rgn'.extents = covered rgn.extents ∪ points ⟨base, size⟩) := by
  obtain ⟨⟨hb, hs, hstop⟩, ht⟩ := ht
  have hone : Unwound (2 ^ 32) [⟨base, size⟩] :=
    (Unwound.nil _).insert hb hs hstop fun _ hf => absurd hf List.not_mem_nil
  by_cases h0 : rgn.cnt = 0
  · rw [if_pos h0] at ht
    obtain ⟨rgn', hadd, hval, -, hcov⟩ := addRegion_empty h0 hone ht.1 ht.2
    exact ⟨0, rgn', hadd, fun _ => ⟨hval, hcov⟩⟩
  · rw [if_neg h0] at ht
    obtain ⟨rc, rgn', hadd, hval⟩ := addRegion_valid h (by omega) hone fun hv =>
      (ht.resolve_left hv).imp_right fun hclear => ⟨h.inside.insert hb hs hstop fun f hf => by
        obtain ⟨i, hi, rfl⟩ := mem_extents.1 hf
        exact (hclear i hi).2, fun i hi => (hclear i hi).1.symm⟩
    refine ⟨rc, rgn', hadd, fun hrc => ?_⟩
    obtain ⟨hv, -, hcov⟩ := hval hrc
    exact ⟨hv, hcov⟩

/-- One clean call. -/
theorem lmbStep_valid (hm : lmb.memory.Valid) (hr : lmb.reserved.Valid) {op : LmbOp}
    (hc : op.Clean lmb) : ∃ rc lmb', lmbStep lmb op = some (rc, lmb') ∧
      (0 ≤ rc → lmb'.memory.Valid ∧ lmb'.reserved.Valid ∧
        covered lmb'.reserved.extents = reservedOf [op] (covered lmb.reserved.extents)) := by
  cases op with
  | add base size =>
    obtain ⟨rc, rgn', hadd, hval⟩ := hm.add hc
    refine ⟨rc, { lmb with memory := rgn' }, ?_, fun hrc => ⟨(hval hrc).1, hr, rfl⟩⟩
    rw [lmbStep, lmbAdd, hadd]
    rfl
  | reserve base size =>
    obtain ⟨rc, rgn', hadd, hval⟩ := hr.add hc
    refine ⟨rc, { lmb with reserved := rgn' }, ?_, fun hrc => ⟨hm, hval hrc⟩⟩
    rw [lmbStep, lmbReserve, hadd]
    rfl
  | free base size =>
    obtain ⟨rc, rgn', hfree, hval⟩ := freeRegion_valid hr hc.1 hc.2
    refine ⟨rc, { lmb with reserved := rgn' }, ?_, fun hrc => ⟨hm, hval hrc⟩⟩
    rw [lmbStep, lmbFree, hfree]
    rfl

theorem reservedOf_cons (op : LmbOp) (ops : List LmbOp) (t : Set ℕ) :
    reservedOf (op :: ops) t = reservedOf ops (reservedOf [op] t) := by
  cases op <;> rfl

theorem lmbRun_valid : ∀ (ops : List LmbOp) {lmb : Lmb}, lmb.memory.Valid → lmb.reserved.Valid →
    CleanRun ops lmb → ∃ ok lmb', lmbRun ops lmb = some (ok, lmb') ∧
      (ok = true → lmb'.memory.Valid ∧ lmb'.reserved.Valid ∧
        covered lmb'.reserved.extents = reservedOf ops (covered lmb.reserved.extents))
  | [], lmb, hm, hr, _ => ⟨true, lmb, rfl, fun _ => ⟨hm, hr, rfl⟩⟩
  | op :: ops, lmb, hm, hr, hc => by
    obtain ⟨rc, lmb1, hstep, hval⟩ := lmbStep_valid hm hr hc.1
    rw [lmbRun, hstep]
    dsimp only
    split_ifs with hrc
    · obtain ⟨hm1, hr1, hcov1⟩ := hval hrc
      have hrest := hc.2
      rw [hstep] at hrest
      obtain ⟨ok, lmb2, hrun, hend⟩ := lmbRun_valid ops hm1 hr1 hrest
      refine ⟨ok, lmb2, hrun, fun hok => ?_⟩
      obtain ⟨hm2, hr2, hcov2⟩ := hend hok
      exact ⟨hm2, hr2, by rw [hcov2, hcov1, ← reservedOf_cons]⟩
    · exact ⟨false, lmb1, rfl, fun h => absurd h Bool.false_ne_true⟩

end Run

/-- Runs of clean calls keep the tables. -/
theorem lmb_kept (old : Lmb) (ops : List LmbOp) (hc : CleanRun ops (lmbInit old)) :
    LmbKept old ops := by
  obtain ⟨hm, -⟩ := old.memory.init_valid
  obtain ⟨hr, hcov0⟩ := old.reserved.init_valid
  obtain ⟨ok, lmb, hrun, hend⟩ := lmbRun_valid ops hm hr hc
  refine ⟨ok, lmb, hrun, fun hok => ?_⟩
  obtain ⟨hm', hr', hcov⟩ := hend hok
  have hstart : covered (lmbInit old).reserved.extents = ∅ := hcov0
  rw [hstart] at hcov
  exact ⟨hm'.sound, hr'.sound, hcov⟩

def zeroLmb : Lmb := ⟨⟨0, fun _ => ⟨0, 0⟩⟩, ⟨0, fun _ => ⟨0, 0⟩⟩⟩

/-- Two regions and the gap between them, from which a piece is freed. -/
theorem lmb_kept_bridge : LmbKept zeroLmb
    [.reserve 0x1000 0x1000, .reserve 0x3000 0x1000, .reserve 0x2000 0x1000, .free 0x1800 0x800] :=
  lmb_kept _ _ (by decide)

/-- After the last region is freed a reservation is lost, and the region freed is back. -/
theorem lmb_kept_fails : ¬∀ (old : Lmb) (ops : List LmbOp), LmbKept old ops := by
  intro h
  obtain ⟨ok, lmb, hrun, hend⟩ :=
    h zeroLmb [.reserve 0x1000 0x1000, .free 0x1000 0x1000, .reserve 0x2000 0x1000]
  have hval : (lmbRun [.reserve 0x1000 0x1000, .free 0x1000 0x1000, .reserve 0x2000 0x1000]
      (lmbInit zeroLmb)).map (fun r => (r.1, r.2.reserved.cnt, r.2.reserved.region 0)) =
        some (true, 1, ⟨0x1000, 0x1000⟩) := by decide
  rw [hrun, Option.map_some, Option.some.injEq, Prod.mk.injEq, Prod.mk.injEq] at hval
  obtain ⟨hok, hcnt, hreg⟩ := hval
  obtain ⟨-, -, hcov⟩ := hend hok
  have hpos : 0 < lmb.reserved.cnt := hcnt ▸ Nat.one_pos
  have hin : 0x1000 ∈ covered lmb.reserved.extents := by
    refine points_subset_covered (LmbRegion.mem_extents.2 ⟨0, hpos, rfl⟩) ?_
    rw [hreg]
    exact ⟨le_rfl, by decide⟩
  rw [hcov] at hin
  simp [reservedOf, mem_points, stop] at hin

end InfotmUboot
