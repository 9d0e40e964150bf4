import InfotmUboot.Proofs.Geometry
import InfotmUboot.Lib.SkipBad

/-!
# Runs of the burn loop

What a round asks and leaves (`burnFetch_ops`, `burnPlace_run`), and from it the writes of a whole
run. Against a fixed map of bad blocks the skip loop is `Lib.seek` and the writes of the loop lie
where `Lib.place` puts them (`burnLoop_place`).
-/

namespace InfotmUboot

open Lib

variable {σ : Type} (h : σ → Op → Reply × σ)

section Log

/-- The writes in a log: the device, the start and the data. -/
def writeOps (log : List (Op × Reply)) : List (Dev × ℕ × List UInt8) :=
  log.filterMap fun x =>
    match x.1 with
    | .write d start data => some (d, start, data)
    | _ => none

@[simp]
theorem writeOps_nil : writeOps [] = [] := rfl

@[simp]
theorem writeOps_append (l l' : List (Op × Reply)) :
    writeOps (l ++ l') = writeOps l ++ writeOps l' :=
  List.filterMap_append

theorem writeOps_eq_nil {l : List (Op × Reply)} (hl : ∀ x ∈ l, ∀ d s bs, x.1 ≠ .write d s bs) :
    writeOps l = [] := by
  refine List.filterMap_eq_nil_iff.2 fun x hx => ?_
  have hx' := hl x hx
  split
  · rename_i d s bs heq
    exact absurd heq (hx' d s bs)
  · rfl

end Log

section Search

variable {d : Dev} (hd : d.entry.isbad = true)
include hd

theorem vsIsbad_run (o : ℕ) (e : σ) :
    Prog.run h (vsIsbad (some d) o) e =
      ⟨(h e (.isbad d o)).1.ret, (h e (.isbad d o)).2, [(.isbad d o, (h e (.isbad d o)).1)]⟩ := by
  simp [vsIsbad, hd]

/-- The skip loop only asks for bad marks, moves by whole blocks and takes them from the leeway. -/
theorem skipBad_run (skip : ℕ) :
    ∀ (n offs : ℕ) (leeway : ℤ) (e : σ),
      (∃ j : ℕ, (Prog.run h (skipBad (some d) skip n offs leeway) e).val.2 =
          (offs + j * skip, leeway - j * skip) ∧ (j = 0 ∨ (j * skip : ℕ) < leeway)) ∧
        ∀ x ∈ (Prog.run h (skipBad (some d) skip n offs leeway) e).log, ∃ o, x.1 = .isbad d o
  | 0, offs, leeway, e => by
    simp only [skipBad, Prog.run_bind, vsIsbad_run h hd, Prog.run_pure]
    exact ⟨⟨0, by simp⟩, by simp⟩
  | n + 1, offs, leeway, e => by
    simp only [skipBad, Prog.run_bind, vsIsbad_run h hd]
    by_cases hb : (h e (.isbad d offs)).1.ret = 0
    · simp only [hb, if_true, Prog.run_pure]
      exact ⟨⟨0, by simp⟩, by simp⟩
    · simp only [hb, if_false]
      by_cases hl : leeway > skip
      · simp only [hl, if_true]
        obtain ⟨⟨j, hj, hlt⟩, hlog⟩ := skipBad_run skip n (offs + skip) (leeway - skip)
          (h e (.isbad d offs)).2
        refine ⟨⟨j + 1, ?_, Or.inr ?_⟩, ?_⟩
        · rw [hj]
          push_cast
          rw [Nat.add_mul, Prod.mk.injEq]
          constructor
          · omega
          · ring
        · push_cast at hlt ⊢
          rcases hlt with rfl | hlt
          · simpa using hl
          · rw [Int.add_mul]
            omega
        · intro x hx
          rcases List.mem_cons.1 hx with rfl | hx
          · exact ⟨offs, rfl⟩
          · exact hlog x hx
      · simp only [hl, if_false, Prog.run_pure]
        exact ⟨⟨0, by simp⟩, by simp⟩

/-- The bad marks of the device are those of a fixed map. -/
def StaticBad (d : Dev) (bad : ℕ → Bool) : Prop :=
  ∀ (e : σ) (o : ℕ), (h e (.isbad d o)).1.ret = 0 ↔ bad o = false

/-- How many bad blocks a leeway covers. -/
def budget (leeway : ℤ) (skip : ℕ) : ℕ := ((leeway - 1) / skip).toNat

omit hd in
theorem budget_le {leeway : ℤ} {skip : ℕ} (hs : 0 < skip) (hl : ¬leeway > skip) :
    budget leeway skip = 0 := by
  have h0 : (leeway - 1) / (skip : ℤ) ≤ 0 := by
    rcases lt_or_ge (leeway - 1) 0 with hn | hn
    · exact (Int.ediv_neg_of_neg_of_pos hn (by omega)).le
    · rw [Int.ediv_eq_zero_of_lt hn (by omega)]
  unfold budget
  omega

omit hd in
theorem budget_sub {leeway : ℤ} {skip : ℕ} (hs : 0 < skip) (hl : leeway > skip) :
    budget leeway skip = budget (leeway - skip) skip + 1 := by
  have h1 : leeway - 1 = leeway - skip - 1 + 1 * (skip : ℤ) := by ring
  have h2 : 0 ≤ (leeway - skip - 1) / (skip : ℤ) := Int.ediv_nonneg (by omega) (by omega)
  unfold budget
  rw [h1, Int.add_mul_ediv_right _ _ (by omega)]
  omega

/-- Against a fixed map the skip loop is `seek`. -/
theorem skipBad_seek {bad : ℕ → Bool} (hb : StaticBad h d bad) {skip : ℕ} (hs : 0 < skip) :
    ∀ (n offs : ℕ) (leeway : ℤ) (e : σ), leeway.toNat ≤ n →
      match seek bad skip (budget leeway skip) offs with
      | some (o, k) => ∃ l, (Prog.run h (skipBad (some d) skip n offs leeway) e).val =
          (true, o, l) ∧
          budget l skip = k
      | none => (Prog.run h (skipBad (some d) skip n offs leeway) e).val.1 = false
  | 0, offs, leeway, e, hn => by
    have hk : budget leeway skip = 0 := budget_le hs (by omega)
    simp only [skipBad, Prog.run_bind, vsIsbad_run h hd, Prog.run_pure, hk, seek]
    rcases hbo : bad offs with _ | _
    · have h0 := (hb e offs).2 hbo
      exact ⟨leeway, by simp [h0], hk⟩
    · have h0 : ¬(h e (.isbad d offs)).1.ret = 0 := fun h0 => by
        rw [(hb e offs).1 h0] at hbo
        exact absurd hbo (by simp)
      simp [h0]
  | n + 1, offs, leeway, e, hn => by
    simp only [skipBad, Prog.run_bind, vsIsbad_run h hd]
    rcases hbo : bad offs with _ | _
    · have h0 := (hb e offs).2 hbo
      have hsk : seek bad skip (budget leeway skip) offs = some (offs, budget leeway skip) := by
        cases budget leeway skip <;> simp [seek, hbo]
      rw [hsk]
      exact ⟨leeway, by simp [h0], rfl⟩
    · have h0 : ¬(h e (.isbad d offs)).1.ret = 0 := fun h0 => by
        rw [(hb e offs).1 h0] at hbo
        exact absurd hbo (by simp)
      by_cases hl : leeway > skip
      · rw [budget_sub hs hl]
        simp only [seek, hbo, if_true, h0, if_false, hl]
        exact skipBad_seek hb hs n (offs + skip) (leeway - skip) _ (by omega)
      · rw [budget_le hs hl]
        simp [seek, hbo, h0, hl]

end Search

section Fetch

variable (c : BurnConf)

theorem vsAssignById_false (id : ℤ) :
    vsAssignById id false = pure (if (Dev.ofId id).isSome then 0 else -1, Dev.ofId id) := by
  unfold vsAssignById
  rcases Dev.ofId id with _ | d <;> rfl

theorem vsRead_asks (cur : Option Dev) (s : ℕ) (n : ℤ) :
    (vsRead cur s n).Asks fun o => ∃ d, cur = some d ∧ o = .read d s n := by
  unfold vsRead
  rcases cur with _ | d
  · exact Prog.asks_pure _
  · by_cases hr : d.entry.read = true
    · by_cases hn : n = 0
      · simp [hr, hn]
      · simp only [hr, not_true_eq_false, if_false, hn]
        exact Prog.Asks.bind ((Prog.asks_op _).2 ⟨d, rfl, rfl⟩) fun _ => Prog.asks_pure _
    · simp [hr]

theorem ssAesData_asks (m : Mem) (a len : ℕ) :
    (ssAesData m a len).Asks fun o => ∃ bs, o = .aesData bs :=
  Prog.Asks.bind ((Prog.asks_op _).2 ⟨_, rfl⟩) fun _ => Prog.asks_pure _

/-- The read half of a round only reads from the source and runs the crypto engine. -/
theorem burnFetch_asks (p : BurnPos) :
    (burnFetch c p).Asks fun o =>
      (∃ d, Dev.ofId c.idI = some d ∧ o = .read d p.offsI c.unit) ∨ ∃ bs, o = .aesData bs := by
  unfold burnFetch
  rw [vsAssignById_false, pure_bind]
  refine Prog.Asks.bind ((vsRead_asks _ _ _).mono fun o ho => Or.inl ho) fun r => ?_
  by_cases hc : c.encrypt = true
  · rw [if_pos hc]
    exact (ssAesData_asks _ _ _).mono fun o ho => Or.inr ho
  · rw [if_neg hc]
    exact Prog.asks_pure _

end Fetch

section Place

variable (c : BurnConf) {d : Dev}

theorem vsWrite_asks (cur : Option Dev) (o : ℕ) (data : List UInt8) :
    (vsWrite cur o data).Asks fun op => ∃ d, cur = some d ∧ op = .write d o data := by
  unfold vsWrite
  by_cases hd : data = []
  · rw [if_pos hd]
    exact Prog.asks_pure _
  · rw [if_neg hd]
    rcases cur with _ | d
    · exact Prog.asks_pure _
    · by_cases hw : d.entry.write = true
      · simp only [hw, if_true]
        exact Prog.Asks.bind ((Prog.asks_op _).2 ⟨d, rfl, rfl⟩) fun _ => Prog.asks_pure _
      · simp [hw]

theorem vsWrite_writeOps (o : ℕ) (data : List UInt8) (e : σ) :
    writeOps (Prog.run h (vsWrite (some d) o data) e).log =
      if d.entry.write = true ∧ data ≠ [] then [(d, o, data)] else [] := by
  unfold vsWrite
  by_cases hd : data = []
  · simp [hd]
  · by_cases hw : d.entry.write = true
    · simp [hd, hw, writeOps]
    · simp [hd, hw]

/-- The data of a round, once its read half has left `buf`. -/
def BurnPos.data (p : BurnPos) : List UInt8 := p.buf.load p.bufAt c.unit

/-- A round writes if its target has a write and a round moves any data at all. -/
def BurnConf.Writes (d : Dev) : Prop := d.entry.write = true ∧ c.unit ≠ 0

theorem BurnPos.data_ne_nil (p : BurnPos) : p.data c ≠ [] ↔ c.unit ≠ 0 := by
  rw [← List.length_pos_iff, BurnPos.data, Mem.length_load, Nat.pos_iff_ne_zero]

theorem burnPlace_none (hn : Dev.ofId c.idO = none) (p : BurnPos) (e : σ) :
    Prog.run h (burnPlace c p) e = ⟨(true, p.offsO, p.leeway), e, []⟩ := by
  unfold burnPlace
  rw [vsAssignById_false, pure_bind]
  simp [hn]

/-- The skip loop of a round, where the target's offset asks for it. -/
def burnSkip (d : Dev) (p : BurnPos) : Strat (Bool × ℕ × ℤ) :=
  if c.skip ≠ 0 ∧ p.offsO &&& (c.skip - 1) = 0 then
    skipBad (some d) c.skip p.leeway.toNat p.offsO p.leeway
  else pure (true, p.offsO, p.leeway)

theorem burnPlace_eq (hd : Dev.ofId c.idO = some d) (p : BurnPos) :
    burnPlace c p = burnSkip c d p >>= fun r =>
      if r.1 then do
        let _ ← vsWrite (some d) r.2.1 (p.data c)
        pure r
      else pure r := by
  unfold burnPlace burnSkip
  rw [vsAssignById_false, pure_bind]
  simp only [hd, Option.isSome_some, if_true, ne_eq, not_true_eq_false, if_false]
  by_cases hs : ¬c.skip = 0 ∧ p.offsO &&& c.skip - 1 = 0
  · rw [if_pos hs, if_pos hs]
    rfl
  · rw [if_neg hs, if_neg hs]
    rfl

theorem burnSkip_run (hb : c.skip ≠ 0 → d.entry.isbad = true) (p : BurnPos) (e : σ) :
    (∃ j : ℕ, (Prog.run h (burnSkip c d p) e).val.2 =
        (p.offsO + j * c.skip, p.leeway - j * c.skip) ∧
          (j = 0 ∨ ((j * c.skip : ℕ) < p.leeway ∧ p.offsO &&& (c.skip - 1) = 0))) ∧
      ∀ x ∈ (Prog.run h (burnSkip c d p) e).log, ∃ o, x.1 = .isbad d o := by
  unfold burnSkip
  by_cases hs : c.skip ≠ 0 ∧ p.offsO &&& (c.skip - 1) = 0
  · rw [if_pos hs]
    obtain ⟨⟨j, hj, hlt⟩, hlog⟩ :=
      skipBad_run h (hb hs.1) c.skip p.leeway.toNat p.offsO p.leeway e
    exact ⟨⟨j, hj, hlt.imp_right fun h => ⟨h, hs.2⟩⟩, hlog⟩
  · rw [if_neg hs]
    exact ⟨⟨0, by simp⟩, by simp⟩

/-- The write half of a round, whatever the environment says of bad blocks: it comes to where the
skip loop stops and writes its data there, if there was a good block. -/
theorem burnPlace_run (hd : Dev.ofId c.idO = some d) (hb : c.skip ≠ 0 → d.entry.isbad = true)
    (p : BurnPos) (e : σ) :
    let out := Prog.run h (burnPlace c p) e
    out.val = (Prog.run h (burnSkip c d p) e).val ∧
      (out.val.1 = true → c.Writes d → writeOps out.log = [(d, out.val.2.1, p.data c)]) ∧
      (out.val.1 = false ∨ ¬c.Writes d → writeOps out.log = []) ∧
      ∀ x ∈ out.log, (∃ o, x.1 = .isbad d o) ∨ x.1 = .write d out.val.2.1 (p.data c) := by
  obtain ⟨hj, hlog⟩ := burnSkip_run h c hb p e
  have hops : writeOps (Prog.run h (burnSkip c d p) e).log = [] :=
    writeOps_eq_nil fun x hx d' s bs heq => by
      obtain ⟨o, ho⟩ := hlog x hx
      rw [ho] at heq
      exact absurd heq (by simp)
  rw [burnPlace_eq c hd p]
  simp only [Prog.run_bind]
  set r := Prog.run h (burnSkip c d p) e with hr
  rcases hg : r.val.1 with _ | _
  · simp only [Bool.false_eq_true, if_false, Prog.run_pure, List.append_nil, hops]
    exact ⟨trivial, fun ht => absurd (hg.symm.trans ht) (by simp), fun _ => trivial,
      fun x hx => Or.inl (hlog x hx)⟩
  · simp only [if_true, Prog.run_bind, Prog.run_pure, List.append_nil, writeOps_append, hops,
      List.nil_append, vsWrite_writeOps, BurnPos.data_ne_nil]
    refine ⟨trivial, fun _ hw => if_pos hw, fun hn => if_neg ?_, fun x hx => ?_⟩
    · rcases hn with hn | hn
      · exact absurd (hg.symm.trans hn) (by simp)
      · exact hn
    · rcases List.mem_append.1 hx with hx | hx
      · exact Or.inl (hlog x hx)
      · obtain ⟨d', hd', hx'⟩ := (vsWrite_asks (some d) r.val.2.1 (p.data c)).log h _ x hx
        rw [Option.some.inj hd']
        exact Or.inr hx'

theorem vsIsbad_asks (cur : Option Dev) (o : ℕ) :
    (vsIsbad cur o).Asks fun op => ∃ d, cur = some d ∧ op = .isbad d o := by
  unfold vsIsbad
  rcases cur with _ | d
  · exact Prog.asks_pure _
  · dsimp only
    exact Prog.Asks.ite (fun _ => Prog.Asks.bind ((Prog.asks_op _).2 ⟨d, rfl, rfl⟩)
      fun _ => Prog.asks_pure _) fun _ => Prog.asks_pure _

theorem skipBad_asks (cur : Option Dev) (skip : ℕ) :
    ∀ (n offs : ℕ) (leeway : ℤ),
      (skipBad cur skip n offs leeway).Asks fun op => ∃ d o, cur = some d ∧ op = .isbad d o
  | 0, offs, leeway =>
    Prog.Asks.bind ((vsIsbad_asks cur offs).mono fun _ ⟨d, hd, ho⟩ => ⟨d, offs, hd, ho⟩)
      fun _ => Prog.asks_pure _
  | n + 1, offs, leeway => by
    unfold skipBad
    refine Prog.Asks.bind ((vsIsbad_asks cur offs).mono
      fun _ ⟨d, hd, ho⟩ => ⟨d, offs, hd, ho⟩) fun b => ?_
    refine Prog.Asks.ite (fun _ => Prog.asks_pure _) fun _ => ?_
    exact Prog.Asks.ite (fun _ => skipBad_asks cur skip n _ _) fun _ => Prog.asks_pure _

/-- The write half of a round only asks its target. -/
theorem burnPlace_asks (p : BurnPos) :
    (burnPlace c p).Asks fun op =>
      ∃ d, Dev.ofId c.idO = some d ∧ ((∃ o, op = .isbad d o) ∨ ∃ o bs, op = .write d o bs) := by
  rcases hd : Dev.ofId c.idO with _ | d
  · unfold burnPlace
    rw [vsAssignById_false, pure_bind]
    simp [hd]
  · rw [burnPlace_eq c hd p]
    refine Prog.Asks.bind (Prog.Asks.ite (fun _ => ?_) fun _ => Prog.asks_pure _) fun r => ?_
    · refine (skipBad_asks (some d) _ _ _ _).mono fun op ⟨d', o, hd', ho⟩ => ?_
      rw [← Option.some.inj hd'] at ho
      exact ⟨d, rfl, Or.inl ⟨o, ho⟩⟩
    · refine Prog.Asks.ite (fun _ => ?_) fun _ => Prog.asks_pure _
      refine Prog.Asks.bind ((vsWrite_asks (some d) _ _).mono fun op ⟨d', hd', ho⟩ => ?_)
        fun _ => Prog.asks_pure _
      rw [← Option.some.inj hd'] at ho
      exact ⟨d, rfl, Or.inr ⟨_, _, ho⟩⟩

/-- Against a fixed map of bad blocks a round lands where `land` says. -/
theorem burnSkip_land (hb : c.skip ≠ 0 → d.entry.isbad = true) {bad : ℕ → Bool}
    (hs : StaticBad h d bad) {k : ℕ} (hk : c.skip = 0 ∨ c.skip = 2 ^ k) (p : BurnPos) (e : σ) :
    match land bad c.skip (budget p.leeway c.skip) p.offsO with
    | some (o, n) => ∃ l, (Prog.run h (burnSkip c d p) e).val = (true, o, l) ∧
        budget l c.skip = n
    | none => (Prog.run h (burnSkip c d p) e).val.1 = false := by
  unfold burnSkip land
  rcases hk with hk | hk
  · rw [if_neg (by simp [hk]), if_neg (by simp [hk])]
    exact ⟨p.leeway, rfl, rfl⟩
  · rw [and_mask hk]
    by_cases h0 : c.skip ≠ 0 ∧ p.offsO % c.skip = 0
    · rw [if_pos h0, if_pos h0]
      exact skipBad_seek h (hb h0.1) hs (Nat.pos_of_ne_zero h0.1) _ _ _ e (le_refl _)
    · rw [if_neg h0, if_neg h0]
      exact ⟨p.leeway, rfl, rfl⟩

end Place

section Loop

variable (c : BurnConf) {d : Dev}

/-- Where the loop goes on after a round that left `buf` and came to `o` with the leeway `l`. -/
def BurnPos.next (p : BurnPos) (buf : Mem) (o : ℕ) (l : ℤ) : BurnPos where
  offsI := p.offsI + c.unit
  offsO := o + c.step
  remain := p.remain - min p.remain c.step
  leeway := l
  buf := buf
  bufAt := p.bufAt + if c.type = IUS_DESC_EXEC then c.step else 0

@[simp]
theorem next_remain (p : BurnPos) (buf : Mem) (o : ℕ) (l : ℤ) :
    (p.next c buf o l).remain = p.remain - min p.remain c.step := rfl

@[simp]
theorem next_offsI (p : BurnPos) (buf : Mem) (o : ℕ) (l : ℤ) :
    (p.next c buf o l).offsI = p.offsI + c.unit := rfl

@[simp]
theorem next_offsO (p : BurnPos) (buf : Mem) (o : ℕ) (l : ℤ) :
    (p.next c buf o l).offsO = o + c.step := rfl

@[simp]
theorem next_leeway (p : BurnPos) (buf : Mem) (o : ℕ) (l : ℤ) :
    (p.next c buf o l).leeway = l := rfl

theorem burnLoop_zero (n : ℕ) {p : BurnPos} (hp : p.remain = 0) :
    burnLoop c n p = pure 0 := by
  cases n with
  | zero => rfl
  | succ n => simp [burnLoop, hp]

theorem burnLoop_succ (n : ℕ) {p : BurnPos} (hp : p.remain ≠ 0) (e : σ) :
    let f := Prog.run h (burnFetch c p) e
    let s := Prog.run h (burnPlace c { p with buf := f.val }) f.env
    let r := Prog.run h (burnLoop c n (p.next c f.val s.val.2.1 s.val.2.2)) s.env
    Prog.run h (burnLoop c (n + 1) p) e =
      if s.val.1 = true then ⟨r.val, r.env, f.log ++ (s.log ++ r.log)⟩
      else ⟨-EBADBLK, s.env, f.log ++ s.log⟩ := by
  simp only [burnLoop, hp, if_false, Prog.run_bind]
  set f := Prog.run h (burnFetch c p) e
  set s := Prog.run h (burnPlace c { p with buf := f.val }) f.env
  rcases hg : s.val.1 with _ | _
  · simp
  · simp [BurnPos.next]

/-- The loop erases nothing. -/
theorem burnLoop_noErase :
    ∀ (n : ℕ) (p : BurnPos), (burnLoop c n p).Asks fun o => ∀ d s m, o ≠ .erase d s m
  | 0, p => Prog.asks_pure _
  | n + 1, p => by
    unfold burnLoop
    refine Prog.Asks.ite (fun _ => Prog.asks_pure _) fun _ => ?_
    refine Prog.Asks.bind ((burnFetch_asks c p).mono ?_) fun buf => ?_
    · rintro o (⟨d, _, rfl⟩ | ⟨bs, rfl⟩) <;> simp
    · refine Prog.Asks.bind ((burnPlace_asks c _).mono ?_) fun s => ?_
      · rintro o ⟨d, _, ⟨x, rfl⟩ | ⟨x, bs, rfl⟩⟩ <;> simp
      · exact Prog.Asks.ite (fun _ => Prog.asks_pure _) fun _ => burnLoop_noErase n _

/-- How many rounds a remainder takes. -/
def chunks (remain step : ℕ) : ℕ := (remain + (step - 1)) / step

theorem chunks_zero {step : ℕ} (hs : 0 < step) : chunks 0 step = 0 :=
  Nat.div_eq_of_lt (by omega)

theorem chunks_sub {remain step : ℕ} (hs : 0 < step) (hr : remain ≠ 0) :
    chunks remain step = chunks (remain - min remain step) step + 1 := by
  unfold chunks
  rcases Nat.le_total step remain with hle | hle
  · rw [Nat.min_eq_right hle, show remain + (step - 1) = remain - step + (step - 1) + step by omega,
      Nat.add_div_right _ hs]
  · rw [Nat.min_eq_left hle, Nat.sub_self, Nat.zero_add, Nat.div_eq_of_lt (by omega :
      step - 1 < step),
      show remain + (step - 1) = remain - 1 + step by omega, Nat.add_div_right _ hs,
      Nat.div_eq_of_lt (by omega)]

/-- The writes of the read half: none. -/
theorem burnFetch_writeOps (p : BurnPos) (e : σ) :
    writeOps (Prog.run h (burnFetch c p) e).log = [] :=
  writeOps_eq_nil fun x hx d' s bs heq => by
    rcases (burnFetch_asks c p).log h e x hx with ⟨d, _, hx'⟩ | ⟨bs', hx'⟩
    · rw [hx'] at heq
      exact absurd heq (by simp)
    · rw [hx'] at heq
      exact absurd heq (by simp)

theorem burnLoop_none (hn : Dev.ofId c.idO = none) :
    ∀ (n : ℕ) (p : BurnPos) (e : σ),
      (Prog.run h (burnLoop c n p) e).val = 0 ∧ writeOps (Prog.run h (burnLoop c n p) e).log = []
  | 0, p, e => by simp [burnLoop]
  | n + 1, p, e => by
    by_cases hp : p.remain = 0
    · rw [burnLoop_zero c _ hp]
      exact ⟨rfl, rfl⟩
    · rw [burnLoop_succ h c n hp e, burnPlace_none h c hn]
      simp only [if_true, List.nil_append, writeOps_append, burnFetch_writeOps]
      exact burnLoop_none hn n _ _

/-- Against a fixed map of bad blocks the writes of the loop lie where `place` puts its chunks,
and it fails exactly if one of them has no place. -/
theorem burnLoop_place (hd : Dev.ofId c.idO = some d) (hb : c.skip ≠ 0 → d.entry.isbad = true)
    {bad : ℕ → Bool} (hs : StaticBad h d bad) {k : ℕ} (hk : c.skip = 0 ∨ c.skip = 2 ^ k)
    (hstep : 0 < c.step) :
    ∀ (n : ℕ) (p : BurnPos) (e : σ), p.remain ≤ n →
      let r := place bad c.skip c.step (chunks p.remain c.step) (budget p.leeway c.skip) p.offsO
      let out := Prog.run h (burnLoop c n p) e
      out.val = (if r.2 = true then 0 else -EBADBLK) ∧
        (c.Writes d → (writeOps out.log).map (fun w => (w.1, w.2.1, w.2.2.length)) =
          r.1.map fun o => (d, o, c.unit)) ∧
        (¬c.Writes d → writeOps out.log = [])
  | 0, p, e, hn => by
    have hp : p.remain = 0 := by omega
    rw [burnLoop_zero c _ hp, hp, chunks_zero hstep]
    simp [place]
  | n + 1, p, e, hn => by
    by_cases hp : p.remain = 0
    · rw [burnLoop_zero c _ hp, hp, chunks_zero hstep]
      simp [place]
    · rw [burnLoop_succ h c n hp e, chunks_sub hstep hp]
      set f := Prog.run h (burnFetch c p) e
      have hland := burnSkip_land h c hb hs hk { p with buf := f.val } f.env
      obtain ⟨hval, hwr, hnw, _⟩ := burnPlace_run h c hd hb { p with buf := f.val } f.env
      set s := Prog.run h (burnPlace c { p with buf := f.val }) f.env
      rw [← hval] at hland
      rcases Option.eq_none_or_eq_some (land bad c.skip (budget p.leeway c.skip) p.offsO) with
        hl | ⟨⟨o, m⟩, hl⟩
      · simp only [hl] at hland
        simp only [place, hl, hland, Bool.false_eq_true, if_false, writeOps_append]
        rw [hnw (Or.inl hland), burnFetch_writeOps]
        simp
      · simp only [hl] at hland
        obtain ⟨l, hsv, hm⟩ := hland
        have hrem : (p.next c f.val s.val.2.1 s.val.2.2).remain ≤ n := by
          rw [next_remain]
          omega
        obtain ⟨hv, hw, hnw'⟩ := burnLoop_place hd hb hs hk hstep n _ s.env hrem
        rw [hsv] at hv hw hnw'
        simp only [next_remain, next_offsO, next_leeway, hm] at hv hw hnw'
        simp only [place, hl, hsv, if_true, writeOps_append]
        rw [burnFetch_writeOps, List.nil_append]
        refine ⟨hv, fun hwrites => ?_, fun hnone => ?_⟩
        · rw [hwr (by rw [hsv]) hwrites, hsv, List.map_append, hw hwrites]
          simp [BurnPos.data]
        · rw [hnw (Or.inr hnone), hnw' hnone]
          rfl

/-- Whatever the environment says of bad blocks: if what remains and the leeway fit into `M` chunks
from `offs0` on, every write is one of these chunks. -/
theorem burnLoop_within (hd : Dev.ofId c.idO = some d) (hb : c.skip ≠ 0 → d.entry.isbad = true)
    (hskip : ∃ q, c.skip = q * c.step) (offs0 M : ℕ) :
    ∀ (n : ℕ) (p : BurnPos) (e : σ) (a : ℕ), p.offsO = offs0 + a * c.step →
      (p.remain = 0 ∨ (a * c.step + p.remain : ℤ) + max p.leeway 0 ≤ M * c.step) →
      ∀ w ∈ writeOps (Prog.run h (burnLoop c n p) e).log,
        ∃ b < M, w.1 = d ∧ w.2.1 = offs0 + b * c.step ∧ w.2.2.length = c.unit
  | 0, p, e, a, ha, hfit, w, hw => by simp [burnLoop] at hw
  | n + 1, p, e, a, ha, hfit, w, hw => by
    by_cases hp : p.remain = 0
    · rw [burnLoop_zero c _ hp] at hw
      simp at hw
    · have hfit' := hfit.resolve_left hp
      obtain ⟨q, hq⟩ := hskip
      rw [burnLoop_succ h c n hp e] at hw
      set f := Prog.run h (burnFetch c p) e
      obtain ⟨hval, hwr, hnw, _⟩ := burnPlace_run h c hd hb { p with buf := f.val } f.env
      obtain ⟨⟨j, hj, hlee⟩, _⟩ := burnSkip_run h c hb { p with buf := f.val } f.env
      set s := Prog.run h (burnPlace c { p with buf := f.val }) f.env
      rw [← hval] at hj
      dsimp only at hj hlee
      -- the skipped blocks come out of the leeway
      have hmax : max (p.leeway - (j * c.skip : ℕ)) 0 + (j * c.skip : ℕ) ≤ max p.leeway 0 := by
        rcases hlee with rfl | ⟨hlt, _⟩
        · simp
        · rw [max_eq_left (by omega), max_eq_left (by omega)]
          omega
      have hb' : a * c.step + j * c.skip = (a + j * q) * c.step := by
        rw [hq, Nat.add_mul, Nat.mul_assoc]
      have hbM : a + j * q < M := by
        have h1 : ((a + j * q) * c.step : ℕ) < M * c.step := by
          rw [← hb']
          have h2 : (0 : ℤ) ≤ max (p.leeway - (j * c.skip : ℕ)) 0 := le_max_right _ _
          have h3 : (a * c.step + j * c.skip + p.remain : ℤ) ≤ M * c.step := by
            push_cast at hmax hfit' h2 ⊢
            linarith
          have h4 : a * c.step + j * c.skip + p.remain ≤ M * c.step := by exact_mod_cast h3
          omega
        exact Nat.lt_of_mul_lt_mul_right h1
      have hplace : s.val.2.1 = offs0 + (a + j * q) * c.step := by
        rw [hj, ← hb', ← Nat.add_assoc, ← ha]
      rcases hg : s.val.1 with _ | _
      · simp only [hg, Bool.false_eq_true, if_false, writeOps_append] at hw
        rw [burnFetch_writeOps, hnw (Or.inl hg)] at hw
        simp at hw
      · simp only [hg, if_true, writeOps_append, List.mem_append] at hw
        rcases hw with hw | hw | hw
        · rw [burnFetch_writeOps] at hw
          simp at hw
        · by_cases hwrites : c.Writes d
          · rw [hwr hg hwrites, List.mem_singleton] at hw
            rw [hw]
            exact ⟨a + j * q, hbM, rfl, hplace, Mem.length_load _ _ _⟩
          · rw [hnw (Or.inr hwrites)] at hw
            simp at hw
        · refine burnLoop_within hd hb ⟨q, hq⟩ offs0 M n _ s.env (a + j * q + 1) ?_ ?_ w hw
          · rw [next_offsO, hplace, Nat.add_assoc, ← Nat.succ_mul]
          · rw [next_remain, next_leeway, hj]
            rcases Nat.le_total p.remain c.step with hle | hle
            · exact Or.inl (by rw [Nat.min_eq_left hle, Nat.sub_self])
            · right
              rw [Nat.min_eq_right hle, Nat.cast_sub hle]
              push_cast at hmax hfit' hb' ⊢
              have hb'' : (a * c.step + j * c.skip : ℤ) = (a + j * q) * c.step := by
                exact_mod_cast hb'
              linarith

end Loop

section Image

variable (B : Board) (desc : IusDesc) (idI idO : ℤ)

/-- What the image has to write. -/
def remainOf : ℕ := burnRemain B desc (Dev.ofId idI) idO

/-- How many rounds the loop of the image takes. -/
def rounds : ℕ := chunks (remainOf B desc idI idO) (burnConf B desc idI idO false).step

variable (max : ℕ) (buf : Mem) (bufAt : ℕ)

/-- What `burn_image_loop` does before its loop: the erase and the look for a secure header. -/
def burnPrelude : Strat (Bool × Mem) := do
  if vsDeviceErasable idO then do
    let (_, cur) ← vsAssignById idO false
    let _ ← vsErase cur desc.offo max
  burnEncrypt desc.type idI desc.offi buf bufAt

theorem burnImageLoop_eq (hne : idI ≠ idO) :
    burnImageLoop B desc idI idO max buf bufAt =
      burnPrelude desc idI idO max buf bufAt >>= fun r =>
        match burnRefusal B desc idI idO with
        | some ret => pure ret
        | none =>
          burnLoop (burnConf B desc idI idO r.1) (burnRemain B desc (Dev.ofId idI) idO)
            (burnStart B desc idI idO max r.2 bufAt) := by
  unfold burnImageLoop burnPrelude
  rw [if_neg hne]
  cases vsDeviceErasable idO with
  | true => exact ((bind_assoc _ _ _).trans (bind_congr fun _ => bind_assoc _ _ _)).symm
  | false => rfl

/-- The prelude erases the region of the target and reads from the source. -/
theorem burnPrelude_asks :
    (burnPrelude desc idI idO max buf bufAt).Asks fun o =>
      (∃ d, Dev.ofId idO = some d ∧ o = .erase d desc.offo max) ∨
        (∃ d, Dev.ofId idI = some d ∧ o = .read d desc.offi ISI_SIZE) ∨
          o = .aesInit ENCRYPTION none := by
  have henc : (burnEncrypt desc.type idI desc.offi buf bufAt).Asks fun o =>
      (∃ d, Dev.ofId idO = some d ∧ o = .erase d desc.offo max) ∨
        (∃ d, Dev.ofId idI = some d ∧ o = .read d desc.offi ISI_SIZE) ∨
          o = .aesInit ENCRYPTION none := by
    unfold burnEncrypt
    rw [vsAssignById_false, pure_bind]
    dsimp only
    split_ifs with ht
    · exact Prog.asks_pure _
    · refine Prog.Asks.bind ((vsRead_asks _ _ _).mono fun o ho => Or.inr (Or.inl ho)) fun r => ?_
      split_ifs
      · exact Prog.Asks.bind ((Prog.asks_op _).2 (Or.inr (Or.inr rfl))) fun _ => Prog.asks_pure _
      · exact Prog.asks_pure _
  unfold burnPrelude
  split_ifs with he
  · rw [vsAssignById_false, pure_bind]
    refine Prog.Asks.bind ?_ fun _ => henc
    unfold vsErase
    rcases hd : Dev.ofId idO with _ | d
    · exact Prog.asks_pure _
    · dsimp only
      split_ifs
      · exact Prog.Asks.bind ((Prog.asks_op _).2 (Or.inl ⟨d, rfl, rfl⟩)) fun _ => Prog.asks_pure _
      · exact Prog.asks_pure _
  · exact henc

theorem burnPrelude_writeOps (e : σ) :
    writeOps (Prog.run h (burnPrelude desc idI idO max buf bufAt) e).log = [] :=
  writeOps_eq_nil fun x hx d s bs heq => by
    have hx' := (burnPrelude_asks desc idI idO max buf bufAt).log h e x hx
    rw [heq] at hx'
    simp at hx'

/-- The source and the target are the same, or the image is refused: nothing is written. -/
theorem burnImageLoop_refused (href : idI = idO ∨ burnRefusal B desc idI idO ≠ none) (e : σ) :
    let out := Prog.run h (burnImageLoop B desc idI idO max buf bufAt) e
    out.val ≠ 0 ∧ writeOps out.log = [] := by
  by_cases hne : idI = idO
  · unfold burnImageLoop
    simp [hne]
  · obtain ⟨ret, hret⟩ := Option.ne_none_iff_exists'.1 (href.resolve_left hne)
    have hval : ret ≠ 0 := by
      unfold burnRefusal at hret
      split_ifs at hret
      · exact Option.some.inj hret ▸ by decide
      · exact Option.some.inj hret ▸ by decide
    rw [burnImageLoop_eq B desc idI idO max buf bufAt hne]
    simp only [Prog.run_bind, hret, Prog.run_pure, List.append_nil, burnPrelude_writeOps]
    exact ⟨hval, trivial⟩

/-- Otherwise the loop runs, in the environment the prelude leaves. -/
theorem burnImageLoop_run (hne : idI ≠ idO) (href : burnRefusal B desc idI idO = none) (e : σ) :
    let r := Prog.run h (burnPrelude desc idI idO max buf bufAt) e
    let l := Prog.run h (burnLoop (burnConf B desc idI idO r.val.1)
      (burnRemain B desc (Dev.ofId idI) idO) (burnStart B desc idI idO max r.val.2 bufAt)) r.env
    Prog.run h (burnImageLoop B desc idI idO max buf bufAt) e = ⟨l.val, l.env, r.log ++ l.log⟩ := by
  rw [burnImageLoop_eq B desc idI idO max buf bufAt hne]
  simp only [Prog.run_bind, href]

/-- Against a fixed map of bad blocks, an image that is not refused is written where `place` has its
chunks, and the burn fails exactly if one of them has no place. -/
theorem burnImageLoop_place {d : Dev} {bad : ℕ → Bool} (hd : Dev.ofId idO = some d)
    (hbad : StaticBad h d bad) (hstnf : desc.type = IUS_DESC_STNF → idO = DEV_FND)
    (hne : idI ≠ idO) (href : burnRefusal B desc idI idO = none) (e : σ) :
    let out := Prog.run h (burnImageLoop B desc idI idO max buf bufAt) e
    let c := burnConf B desc idI idO false
    let r := place bad c.skip c.step (rounds B desc idI idO)
      (budget (s32 (max - remainOf B desc idI idO)) c.skip) desc.offo
    out.val = (if r.2 = true then 0 else -EBADBLK) ∧
      (c.Writes d → (writeOps out.log).map (fun w => (w.1, w.2.1, w.2.2.length)) =
        r.1.map fun o => (d, o, c.unit)) ∧
      (¬c.Writes d → writeOps out.log = []) := by
  obtain ⟨hisbad, ⟨k, hskip⟩, ⟨k', _, hstep⟩, _⟩ := burnConf_geometry B desc idI idO hd
    (fnd_of_stnf desc idO hd hstnf) href false
  rw [burnImageLoop_run h B desc idI idO max buf bufAt hne href e]
  have hops := burnPrelude_writeOps h desc idI idO max buf bufAt e
  set r := Prog.run h (burnPrelude desc idI idO max buf bufAt) e
  obtain ⟨hval, hwr, hnw⟩ := burnLoop_place h (burnConf B desc idI idO r.val.1) hd hisbad hbad
    hskip (hstep ▸ Nat.two_pow_pos k') (burnRemain B desc (Dev.ofId idI) idO)
    (burnStart B desc idI idO max r.val.2 bufAt) r.env (le_refl _)
  refine ⟨hval, fun hw => ?_, fun hw => ?_⟩
  · rw [writeOps_append, hops, List.nil_append]
    exact hwr hw
  · rw [writeOps_append, hops, List.nil_append]
    exact hnw hw

end Image

end InfotmUboot
