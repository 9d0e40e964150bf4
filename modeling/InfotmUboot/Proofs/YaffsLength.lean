import InfotmUboot.Extra
import InfotmUboot.Proofs.BurnRun
import InfotmUboot.Proofs.Extra
import InfotmUboot.Proofs.IuwRw

/-!
# What a yaffs image is read as

The loop of `yaffs_conv` takes pages of 2064 bytes until the count of what is left is 0, and nothing
else ends it. `iuw_extra` does not look at the length, which it takes from the buffer after the hand
shake, and `burn_extra` looks at it as a signed number (`yaffs_lengths_iff`).
-/

namespace InfotmUboot

open Lib

section Silent

/-- What the target is asked. -/
def ToTarget : Op → Prop
  | .isbad _ _ => True
  | .write _ _ _ => True
  | _ => False

variable (B : Board) (conv : YaffsConvInfo) {γ : Type}

theorem yaffsPutPage_asks (buf : Mem) (a : ℕ) (p : YaffsPos) :
    (yaffsPutPage B buf a p).Asks ToTarget := by
  unfold yaffsPutPage
  refine Prog.Asks.ite (fun _ => Prog.asks_pure _) fun _ => ?_
  rcases B.nand.getConfig .normal with _ | nc
  · exact Prog.asks_pure _
  dsimp only
  rw [vsAssignById_false, pure_bind]
  have hrest (g : Bool × ℕ × ℤ) : Prog.Asks ToTarget (do
      if ¬ g.1 then return (-EBADBLK, { offs := g.2.1, part := g.2.2 })
      let _ ← vsWrite (Dev.ofId DEV_FND) g.2.1 (buf.load a (fndAlign B.nand))
      let step := vsAlign B (Dev.ofId DEV_FND) DEV_FND
      return ((0 : ℤ), { offs := g.2.1 + step, part := g.2.2 - step }) : Strat (ℤ × YaffsPos)) :=
    Prog.Asks.ite (fun _ => Prog.asks_pure _) fun _ =>
      ((vsWrite_asks _ _ _).mono fun _ ⟨_, _, ho⟩ => ho ▸ trivial).bind fun _ => Prog.asks_pure _
  refine Prog.Asks.ite (fun _ => ?_) fun _ => hrest (true, p.offs, p.part)
  exact ((skipBad_asks _ _ _ _ _).mono fun _ ⟨_, _, _, ho⟩ => ho ▸ trivial).bind fun g => hrest g

end Silent

section Loop

variable (B : Board) (conv : YaffsConvInfo) {γ σ α : Type} {h : σ → Op → Reply × σ}
  {pick : Op × Reply → Option α}

/-- A part of a round leaves the source as it is, and takes nothing from it. -/
def KeepsSource (h : σ → Op → Reply × σ) (pick : Op × Reply → Option α) (src : γ)
    (p : Strat (YaffsState γ)) : Prop :=
  Prog.Traces h p fun s l => s.src = src ∧ l.filterMap pick = []

/-- What `pick` sees of a run is not what the target is asked. -/
def OffTarget (pick : Op × Reply → Option α) : Prop := ∀ o r, ToTarget o → pick (o, r) = none

theorem KeepsSource.bind {src : γ} {p : Strat (YaffsState γ)}
    {f : YaffsState γ → Strat (YaffsState γ)} (hp : KeepsSource h pick src p)
    (hf : ∀ s, s.src = src → KeepsSource h pick src (f s)) : KeepsSource h pick src (p >>= f) := by
  refine Prog.Traces.bind hp fun s l ⟨hs, hl⟩ => (hf s hs).mono fun s' l' ⟨hs', hl'⟩ => ⟨hs', ?_⟩
  rw [List.filterMap_append, hl, hl', List.append_nil]

theorem keepsSource_pure {src : γ} {s : YaffsState γ} (hs : s.src = src) :
    KeepsSource h pick src (pure s) :=
  Prog.traces_pure ⟨hs, rfl⟩

theorem yaffsPut_keeps (hpick : OffTarget pick) (s : YaffsState γ) (a : ℕ) :
    KeepsSource h pick s.src (yaffsPut B s a) := by
  intro e
  refine ⟨?_, Prog.Asks.picks hpick ((yaffsPutPage_asks B s.buf a s.pos).bind fun _ =>
    Prog.asks_pure _) e⟩
  rw [yaffsPut, Prog.run_bind]
  rfl

theorem yaffsRound_keeps (hpick : OffTarget pick) (s : YaffsState γ) :
    KeepsSource h pick s.src (yaffsRound B conv s) := by
  refine Prog.Traces.ite (fun _ => yaffsPut_keeps B hpick s s.p) fun _ => ?_
  refine Prog.Traces.ite (fun _ => Prog.Traces.ite (fun _ => ?_) fun _ => ?_) fun _ => ?_
  · refine KeepsSource.bind (yaffsPut_keeps B hpick _ 0) fun s' hs' => ?_
    refine KeepsSource.bind (hs' ▸ yaffsPut_keeps B hpick s' s'.p) fun s'' hs'' => ?_
    exact keepsSource_pure hs''
  · exact yaffsPut_keeps B hpick _ s.p
  · refine Prog.Traces.ite (fun _ => ?_) fun _ => keepsSource_pure rfl
    exact KeepsSource.bind (yaffsPut_keeps B hpick _ 0) fun s' hs' => keepsSource_pure hs'

/-- A source of pages: `rem` is the count of what is left, a page that is got is seen as `x`. -/
structure PageSource (h : σ → Op → Reply × σ) (getPage : γ → Mem → ℕ → Strat (ℤ × Mem × γ))
    (rem : γ → ℤ) (ok : γ → Prop) (pick : Op × Reply → Option α) (x : α) : Prop where
  off : OffTarget pick
  last : ∀ src buf a, rem src = 0 →
    Prog.Traces h (getPage src buf a) fun r l => r.1 ≠ 0 ∧ l.filterMap pick = []
  next : ∀ src buf a, ok src → rem src ≠ 0 → Prog.Traces h (getPage src buf a) fun r l =>
    r.1 = 0 ∧ ok r.2.2 ∧ rem r.2.2 = s32 (rem src - 2064) ∧ l.filterMap pick = [x]

variable {getPage : γ → Mem → ℕ → Strat (ℤ × Mem × γ)} {rem : γ → ℤ} {ok : γ → Prop} {x : α}

theorem s32_dvd (z : ℤ) : (2 : ℤ) ^ 32 ∣ z - s32 z := by
  unfold s32
  rw [Int.bmod_def]
  split <;> omega

/-- When the loop ends, the pages it has got make up the count, but for the wrap of 32 bits. -/
theorem yaffsConvLoop_ended (hsrc : PageSource h getPage rem ok pick x) :
    ∀ (n : ℕ) (s : YaffsState γ), ok s.src →
      Prog.Traces h (yaffsConvLoop B conv getPage n s) fun r l => ∀ s', r = some s' →
        ∃ k : ℕ, l.filterMap pick = List.replicate k x ∧ (2 : ℤ) ^ 32 ∣ rem s.src - 2064 * k
  | 0, _, _ => Prog.traces_pure nofun
  | n + 1, s, hok => by
    by_cases h0 : rem s.src = 0
    · refine (hsrc.last s.src s.buf s.p h0).bind fun r l ⟨hr, hl⟩ => ?_
      refine Prog.Traces.ite (fun _ => Prog.traces_pure fun s' _ => ⟨0, ?_, ?_⟩) fun hz =>
        absurd hr hz
      · rw [List.append_nil, hl]
        rfl
      · rw [h0]
        simp
    · refine (hsrc.next s.src s.buf s.p hok h0).bind fun r l ⟨hr, hok', hrem, hl⟩ => ?_
      refine Prog.Traces.ite (fun hz => absurd hr hz) fun _ => ?_
      refine Prog.Traces.bind (yaffsRound_keeps B conv hsrc.off _) fun t l' ⟨ht, hl'⟩ => ?_
      refine (yaffsConvLoop_ended hsrc n t (ht ▸ hok')).mono fun o l'' hend s' hs' => ?_
      obtain ⟨k, hk, hdvd⟩ := hend s' hs'
      refine ⟨k + 1, ?_, ?_⟩
      · rw [List.filterMap_append, List.filterMap_append, hl, hl', hk]
        rfl
      · have hs := s32_dvd (rem s.src - 2064)
        rw [ht, hrem] at hdvd
        push_cast
        omega

/-- With a count of whole pages the loop gets just these. -/
theorem yaffsConvLoop_ends (hsrc : PageSource h getPage rem ok pick x) :
    ∀ (k n : ℕ) (s : YaffsState γ), ok s.src → k < n → 2064 * k < 2 ^ 32 →
      rem s.src = s32 (2064 * k) →
        Prog.Traces h (yaffsConvLoop B conv getPage n s) fun r l =>
          (∃ s', r = some s') ∧ l.filterMap pick = List.replicate k x
  | 0, n + 1, s, _, _, _, hrem => by
    refine (hsrc.last s.src s.buf s.p hrem).bind fun r l hlast => ?_
    obtain ⟨hr, hl⟩ := hlast
    refine Prog.Traces.ite (fun _ => Prog.traces_pure ⟨⟨_, rfl⟩, ?_⟩) fun hz => absurd hr hz
    rw [List.append_nil, hl]
    rfl
  | k + 1, n + 1, s, hok, hn, hk, hrem => by
    have h0 : rem s.src ≠ 0 := by
      rw [hrem, s32, Int.bmod_def]
      split <;> omega
    refine (hsrc.next s.src s.buf s.p hok h0).bind fun r l hround => ?_
    obtain ⟨hr, hok', hrem', hl⟩ := hround
    refine Prog.Traces.ite (fun hz => absurd hr hz) fun _ => ?_
    refine Prog.Traces.bind (yaffsRound_keeps B conv hsrc.off _) fun t l' hkeep => ?_
    obtain ⟨ht, hl'⟩ := hkeep
    have hnext : rem t.src = s32 (2064 * k) := by
      rw [ht, hrem', hrem]
      unfold s32
      rw [Int.bmod_def, Int.bmod_def, Int.bmod_def]
      split <;> split <;> split <;> omega
    refine (yaffsConvLoop_ends hsrc k n t (ht ▸ hok') (by omega) (by omega) hnext).mono ?_
    rintro o l'' ⟨hend, hl''⟩
    refine ⟨hend, ?_⟩
    rw [List.filterMap_append, List.filterMap_append, hl, hl', hl'']
    rfl

end Loop

section Sources

variable {σ : Type} {h : σ → Op → Reply × σ}

theorem iuwSource : PageSource h iuwGetPage (fun z => z) (fun _ => True) hostOf (.inn 2064) where
  off o r ho := by
    cases o <;> first | rfl | exact absurd ho id
  last _ _ _ h0 := Prog.Traces.ite
    (fun _ => Prog.traces_pure ⟨show (-1 : ℤ) ≠ 0 by decide, rfl⟩) fun hne => absurd h0 hne
  next _ _ _ _ h0 := Prog.Traces.ite (fun hz => absurd hz h0) fun _ _ => ⟨rfl, trivial, rfl, rfl⟩

/-- What a read of a device takes. -/
def readOf : Op × Reply → Option ℕ
  | (.read _ _ n, _) => some n.toNat
  | _ => none

/-- The source is a device that can be read. -/
def IusSource.Readable (s : IusSource) : Prop :=
  ∃ d, Dev.ofId s.id = some d ∧ d.entry.read = true

theorem iusSource_pages :
    PageSource h iusGetPage IusSource.remain IusSource.Readable readOf 2064 where
  off o r ho := by
    cases o <;> first | rfl | exact absurd ho id
  last _ _ _ h0 := Prog.Traces.ite
    (fun _ => Prog.traces_pure ⟨show (-1 : ℤ) ≠ 0 by decide, rfl⟩) fun hne => absurd h0 hne
  next src buf a hok h0 := by
    obtain ⟨d, hd, hread⟩ := hok
    refine Prog.Traces.ite (fun hz => absurd hz h0) fun _ => ?_
    rw [vsAssignById_false, pure_bind]
    simp only [hd, vsRead, hread]
    exact fun _ => ⟨rfl, ⟨d, hd, hread⟩, rfl, rfl⟩

end Sources

section Burn

variable (B : Board) {γ σ α : Type} {h : σ → Op → Reply × σ} {pick : Op × Reply → Option α}
  {getPage : γ → Mem → ℕ → Strat (ℤ × Mem × γ)} {rem : γ → ℤ} {ok : γ → Prop} {x : α}

/-- What the start of a burn asks. -/
def ToFlash : Op → Prop
  | .reset _ => True
  | .malloc _ => True
  | .erase _ _ _ => True
  | o => ToTarget o

theorem vsErase_asks (cur : Option Dev) (start size : ℕ) :
    (vsErase cur start size).Asks ToFlash := by
  unfold vsErase
  rcases cur with _ | d
  · exact Prog.asks_pure _
  · exact Prog.Asks.ite (fun _ => ((Prog.asks_op _).2 trivial).bind fun _ => Prog.asks_pure _)
      fun _ => Prog.asks_pure _

theorem vsAssignById_asks (id : ℤ) (reset : Bool) : (vsAssignById id reset).Asks ToFlash := by
  unfold vsAssignById
  rcases Dev.ofId id with _ | d
  · exact Prog.asks_pure _
  refine Prog.Asks.ite (fun _ => ?_) fun _ => Prog.asks_pure _
  refine Prog.Asks.bind ?_ fun _ => Prog.asks_pure _
  exact Prog.Asks.ite (fun _ => ((Prog.asks_op _).2 trivial).bind fun _ => Prog.asks_pure _)
    fun _ => Prog.asks_pure _

theorem toFlash_of_target {o : Op} (ho : ToTarget o) : ToFlash o := by
  cases o <;> trivial

/-- What is taken in a burn is taken in its loop. -/
theorem yaffsBurn_traces {n offs : ℕ} {part : ℤ} {src : γ} {Q : Bool → List α → Prop}
    (hpick : ∀ o r, ToFlash o → pick (o, r) = none)
    (hloop : ∀ s : YaffsState γ, s.src = src →
      Prog.Traces h (yaffsConvLoop B (yaffsInfo B) getPage n s) fun r l =>
        Q r.isSome (l.filterMap pick)) :
    Prog.Traces h (yaffsBurn B getPage n offs part src) fun r l =>
      (r = none ∨ r = some 0) ∧ Q r.isSome (l.filterMap pick) := by
  refine (Prog.Asks.picks hpick (vsAssignById_asks DEV_FND true)).bind fun q l hl => ?_
  have hmalloc : Prog.Asks ToFlash (Prog.op (.malloc (fndAlign B.nand * 2)) : Strat Reply) :=
    (Prog.asks_op _).2 trivial
  refine (Prog.Asks.picks hpick hmalloc).bind fun m l' hl' => ?_
  refine (Prog.Asks.picks hpick (vsErase_asks q.2 offs _)).bind fun _ l'' hl'' => ?_
  refine (hloop _ rfl).bind fun r k hk => ?_
  rcases r with _ | s'
  · refine Prog.traces_pure ⟨.inl rfl, ?_⟩
    simpa [List.filterMap_append, hl, hl', hl''] using hk
  refine Prog.Traces.ite (fun _ => ?_) fun _ => Prog.traces_pure ⟨.inr rfl, ?_⟩
  · have hput : Prog.Asks ToFlash (yaffsPut B
        { s' with buf := pageFit (yaffsInfo B) s'.buf (some 0) (some s'.p) } 0) :=
      ((yaffsPutPage_asks B _ 0 s'.pos).mono fun _ ho => toFlash_of_target ho).bind fun _ =>
        Prog.asks_pure _
    refine (Prog.Asks.picks hpick hput).bind fun _ k' hk' => Prog.traces_pure ⟨.inr rfl, ?_⟩
    simpa [List.filterMap_append, hl, hl', hl'', hk'] using hk
  · simpa [List.filterMap_append, hl, hl', hl''] using hk

/-- A burn from a source comes to an end if the count is one of whole pages, and has taken these. -/
theorem yaffsBurn_ends (hsrc : PageSource h getPage rem ok pick x)
    (hpick : ∀ o r, ToFlash o → pick (o, r) = none) {k : ℕ} {src : γ} (hok : ok src)
    (hk : 2064 * k < 2 ^ 32) (hrem : rem src = s32 (2064 * k)) (offs : ℕ) (part : ℤ) :
    Prog.Traces h (yaffsBurn B getPage (k + 1) offs part src) fun r l =>
      r = some 0 ∧ l.filterMap pick = List.replicate k x := by
  refine (yaffsBurn_traces B (Q := fun ended l => ended = true ∧ l = List.replicate k x) hpick
    fun s hs => ?_).mono fun r l ⟨hr, hsome, hl⟩ => ⟨hr.resolve_left ?_, hl⟩
  · refine (yaffsConvLoop_ends B _ hsrc k (k + 1) s (hs ▸ hok) (Nat.lt_succ_self k) hk
      (hs ▸ hrem)).mono fun r l ⟨⟨s', hs'⟩, hl⟩ => ⟨?_, hl⟩
    rw [hs']
    rfl
  · rintro rfl
    exact absurd hsome (by decide)

/-- A burn that comes to an end has taken pages that make up the count, but for the wrap. -/
theorem yaffsBurn_ended (hsrc : PageSource h getPage rem ok pick x)
    (hpick : ∀ o r, ToFlash o → pick (o, r) = none) {src : γ} (hok : ok src) (n offs : ℕ)
    (part : ℤ) :
    Prog.Traces h (yaffsBurn B getPage n offs part src) fun r l => r ≠ none →
      r = some 0 ∧ ∃ k : ℕ, l.filterMap pick = List.replicate k x ∧
        (2 : ℤ) ^ 32 ∣ rem src - 2064 * k := by
  refine (yaffsBurn_traces B (Q := fun ended l => ended = true →
    ∃ k : ℕ, l = List.replicate k x ∧ (2 : ℤ) ^ 32 ∣ rem src - 2064 * k) hpick
      fun s hs => ?_).mono fun r l ⟨hr, hq⟩ hne => ⟨hr.resolve_left hne, hq ?_⟩
  · refine (yaffsConvLoop_ended B _ hsrc n s (hs ▸ hok)).mono fun r l hend hsome => ?_
    obtain ⟨s', hs'⟩ := Option.isSome_iff_exists.1 hsome
    rw [← hs]
    exact hend s' hs'
  · rw [hr.resolve_left hne]
    rfl

end Burn

section Iuw

variable (B : Board) {σ : Type} (h : σ → Op → Reply × σ)

/-- `iuw_extra` up to the image of a board with NAND: the buffer after the hand shake and the
offset, if it gets so far. -/
def iuwReady (pack : Mem) : Strat (Option (Mem × ℕ)) := do
  let part := iuw2part (iuwCmdCmd pack)
  let offs := part.elim 0 B.nandPartOffset
  let r ← Prog.op (.malloc EXTRA_BUFFER_SIZE)
  if r.ret = 0 ∨ B.storageDevice ≠ DEV_NAND ∨ offs = 0 ∨ storageSize B part = 0 then return none
  let (ret, pack) ← iuwShakeHand IUW_SUB_STEP EXTRA_BUFFER_SIZE pack
  return if ret ≠ 0 then none else some (pack, offs)

/-- The image, and the hand shake behind it. -/
def iuwImage (fuel offs : ℕ) (pack : Mem) : Strat (Option (ℤ × Mem × Option Dev)) := do
  let some ret ← yaffsBurn B iuwGetPage fuel (toU64 offs) (s32 (iuwCmdMax pack)) (iuwCmdLen pack)
    | return none
  let (ret, pack) ← if ret = 0 then iuwShakeHand 0 0 pack else pure (ret, pack)
  return some (ret, pack, some .fnd)

theorem iuwExtra_ready {pack m : Mem} {offs : ℕ} {e : σ}
    (hready : (Prog.run h (iuwReady B pack) e).val = some (m, offs)) (cur : Option Dev) :
    ∃ e' l, hostLog l = [.out IUW_CMD_LEN, .inn IUW_CMD_LEN] ∧ ∀ fuel,
      (Prog.run h (iuwExtra B fuel pack cur) e).val =
          (Prog.run h (iuwImage B fuel offs m) e').val ∧
        (Prog.run h (iuwExtra B fuel pack cur) e).log =
          l ++ (Prog.run h (iuwImage B fuel offs m) e').log := by
  unfold iuwReady at hready
  simp only [Prog.run_bind_val, Prog.run_op] at hready
  by_cases hgo : (h e (.malloc EXTRA_BUFFER_SIZE)).1.ret = 0 ∨ B.storageDevice ≠ DEV_NAND ∨
      (iuw2part (iuwCmdCmd pack)).elim 0 B.nandPartOffset = 0 ∨
        storageSize B (iuw2part (iuwCmdCmd pack)) = 0
  · simp only [hgo, ↓reduceIte, Prog.run_pure] at hready
    exact absurd hready (by simp)
  simp only [hgo, ↓reduceIte] at hready
  obtain ⟨hmalloc, hnand, hoffs, hsize⟩ : (h e (.malloc EXTRA_BUFFER_SIZE)).1.ret ≠ 0 ∧
      B.storageDevice = DEV_NAND ∧ (iuw2part (iuwCmdCmd pack)).elim 0 B.nandPartOffset ≠ 0 ∧
        storageSize B (iuw2part (iuwCmdCmd pack)) ≠ 0 := by
    simpa only [not_or, not_not] using hgo
  simp only [Prog.run_bind_val, Prog.run_pure] at hready
  obtain ⟨s, -, hdid, hs⟩ := shakeHand_did (h := h) (le_refl IUW_CMD_LEN) IUW_SUB_STEP
    EXTRA_BUFFER_SIZE pack (h e (.malloc EXTRA_BUFFER_SIZE)).2
  generalize hout : Prog.run h (iuwShakeHand IUW_SUB_STEP EXTRA_BUFFER_SIZE pack)
    (h e (.malloc EXTRA_BUFFER_SIZE)).2 = out at hready hdid hs
  obtain ⟨⟨ret, m'⟩, e', l⟩ := out
  by_cases hret : ret = 0
  · subst hret
    obtain ⟨rfl, rfl⟩ : m' = m ∧ (iuw2part (iuwCmdCmd pack)).elim 0 B.nandPartOffset = offs := by
      simpa using hready
    rcases hpart : iuw2part (iuwCmdCmd pack) with _ | part
    · rw [hpart] at hoffs
      exact absurd rfl hoffs
    rw [hpart, Option.elim_some] at hoffs
    rw [hpart] at hsize
    refine ⟨e', (.malloc EXTRA_BUFFER_SIZE, (h e (.malloc EXTRA_BUFFER_SIZE)).1) :: l, ?_,
      fun fuel => ?_⟩
    · rw [← hs rfl, ← hdid.host]
      rfl
    · have hpre : Prog.run h (extraPrelude B pack cur) e =
          ⟨(.burn (.yaffs (toU64 (B.nandPartOffset part)) (s32 (iuwCmdMax m')) (iuwCmdLen m')), m',
            cur), e', (.malloc EXTRA_BUFFER_SIZE, (h e (.malloc EXTRA_BUFFER_SIZE)).1) :: l⟩ := by
        simp [extraPrelude, extraLookup, extraBurnOf, hpart, hmalloc, storageOffset, hnand, hsize,
          hoffs, hout, Prog.run_bind]
      rw [iuwExtra_eq, Prog.run_bind, hpre]
      exact ⟨rfl, rfl⟩
  · exact absurd hready (by simp [hret])

/-- An image that gets to the conversion: the conversion ends, and what the PC sends of the image is
as long as the command says. -/
def IuwYaffsRight (pack : Mem) (cur : Option Dev) (e : σ) : Prop :=
  ∀ m offs, (Prog.run h (iuwReady B pack) e).val = some (m, offs) → ∃ fuel k t,
    (Prog.run h (iuwExtra B fuel pack cur) e).val ≠ none ∧
      hostLog (Prog.run h (iuwExtra B fuel pack cur) e).log =
        [.out IUW_CMD_LEN, .inn IUW_CMD_LEN] ++ List.replicate k (.inn 2064) ++ t ∧ Shake t ∧
      2064 * k = pack.get32 0xc

/-- The buffer still has the length of the command after the hand shake, and this is one of whole
pages. -/
def IuwYaffsFits (pack : Mem) (e : σ) : Prop :=
  ∀ m offs, (Prog.run h (iuwReady B pack) e).val = some (m, offs) →
    m.get32 0xc = pack.get32 0xc ∧ 2064 ∣ pack.get32 0xc

theorem toFlash_host (o : Op) (r : Reply) (ho : ToFlash o) : hostOf (o, r) = none := by
  cases o <;> first | rfl | exact absurd ho id

/-- What a run of the image leaves, if it comes to an end. -/
theorem iuwImage_ended (fuel offs : ℕ) (m : Mem) :
    Prog.Traces h (iuwImage B fuel offs m) fun r l => r ≠ none → ∃ (k : ℕ) (t : List Host),
      Shake t ∧ hostLog l = List.replicate k (.inn 2064) ++ t ∧
        (2 : ℤ) ^ 32 ∣ iuwCmdLen m - 2064 * k := by
  refine (yaffsBurn_ended B iuwSource toFlash_host trivial fuel _ _).bind fun r l hend => ?_
  rcases r with _ | ret
  · exact Prog.traces_pure fun h0 => absurd rfl h0
  obtain ⟨hret, k, hl, hdvd⟩ := hend nofun
  obtain rfl : ret = 0 := Option.some.inj hret
  refine Prog.Traces.ite (fun _ => ?_) fun h0 => absurd rfl h0
  refine (shakeHand_did (le_refl IUW_CMD_LEN) 0 0 m).bind fun q l' ⟨t, ht, hdid, _⟩ =>
    Prog.traces_pure fun _ => ⟨k, t, ht, ?_, hdvd⟩
  rw [List.append_nil, hostLog, List.filterMap_append, hl, ← hdid.host]
  rfl

theorem iuwImage_ends {k : ℕ} {m : Mem} (hk : 2064 * k < 2 ^ 32)
    (hlen : iuwCmdLen m = s32 (2064 * k)) (offs : ℕ) :
    Prog.Traces h (iuwImage B (k + 1) offs m) fun r l => r ≠ none ∧ ∃ t,
      Shake t ∧ hostLog l = List.replicate k (.inn 2064) ++ t := by
  refine (yaffsBurn_ends B iuwSource toFlash_host trivial hk hlen _ _).bind fun r l ⟨hr, hl⟩ => ?_
  subst hr
  refine Prog.Traces.ite (fun _ => ?_) fun h0 => absurd rfl h0
  refine (shakeHand_did (le_refl IUW_CMD_LEN) 0 0 m).bind fun q l' ⟨t, ht, hdid, _⟩ =>
    Prog.traces_pure ⟨nofun, t, ht, ?_⟩
  rw [List.append_nil, hostLog, List.filterMap_append, hl, ← hdid.host]
  rfl

end Iuw

section Package

variable (B : Board) {σ : Type} (h : σ → Op → Reply × σ)

/-- `burn_extra` takes the image for a yaffs image and its length for one of whole pages; the source
is a device that can be read. -/
structure BurnYaffsAccepted (desc : IusDesc) (idI : ℤ) (e : σ) : Prop where
  image : desc.type ≠ IUS_DESC_REBOOT ∧ desc.type ≠ IUS_DESC_BOOT ∧ desc.type ≠ IUS_DESC_BOOTR
  buffer : (h e (.malloc EXTRA_BUFFER_SIZE)).1.ret ≠ 0
  nand : B.storageDevice = DEV_NAND
  offset : (ius2part desc.type).elim 0 B.nandPartOffset ≠ 0
  size : storageSize B (ius2part desc.type) ≠ 0
  length : (s32 desc.len).tmod 2064 = 0
  source : (iusSource desc idI).Readable

/-- An accepted image: the conversion ends, and what is read of the source is as long as the
descriptor says. -/
def BurnYaffsRight (desc : IusDesc) (idI : ℤ) (cur : Option Dev) (e : σ) : Prop :=
  BurnYaffsAccepted B h desc idI e → ∃ fuel k,
    (Prog.run h (burnExtra B fuel desc idI cur) e).val ≠ none ∧
      (Prog.run h (burnExtra B fuel desc idI cur) e).log.filterMap readOf = List.replicate k 2064 ∧
      2064 * k = desc.len

/-- The length is not negative as an `int`. -/
def BurnYaffsFits (desc : IusDesc) (idI : ℤ) (e : σ) : Prop :=
  BurnYaffsAccepted B h desc idI e → desc.len < 2 ^ 31

variable {B h} {desc : IusDesc} {idI : ℤ} {e : σ}

theorem iusSource_remain (desc : IusDesc) (idI : ℤ) :
    (iusSource desc idI).remain = s32 desc.len := by
  simp only [iusSource]

theorem burnExtra_accepted (ha : BurnYaffsAccepted B h desc idI e) (cur : Option Dev) :
    ∃ e' offs, ∀ fuel,
      (Prog.run h (burnExtra B fuel desc idI cur) e).val =
          (Prog.run h (yaffsBurn B iusGetPage fuel offs (storageSize B (ius2part desc.type))
            (iusSource desc idI)) e').val ∧
        (Prog.run h (burnExtra B fuel desc idI cur) e).log.filterMap readOf =
          (Prog.run h (yaffsBurn B iusGetPage fuel offs (storageSize B (ius2part desc.type))
            (iusSource desc idI)) e').log.filterMap readOf := by
  obtain ⟨⟨h1, h2, h3⟩, hbuf, hnand, hoffs, hsize, hlen, -⟩ := ha
  rcases hpart : ius2part desc.type with _ | part
  · rw [hpart] at hoffs
    exact absurd rfl hoffs
  rw [hpart, Option.elim_some] at hoffs
  rw [hpart] at hsize
  have hrem : (iusSource desc idI).remain.tmod 2064 = 0 := by
    rw [iusSource_remain]
    exact hlen
  refine ⟨(h e (.malloc EXTRA_BUFFER_SIZE)).2, toU64 (B.nandPartOffset part), fun fuel => ?_⟩
  simp [burnExtra, h1, h2, h3, hbuf, hpart, storageOffset, hnand, hoffs, hsize, hrem, readOf]
  rfl

theorem toFlash_read (o : Op) (r : Reply) (ho : ToFlash o) : readOf (o, r) = none := by
  cases o <;> first | rfl | exact absurd ho id

theorem burn_yaffs_iff (cur : Option Dev) :
    BurnYaffsRight B h desc idI cur e ↔ BurnYaffsFits B h desc idI e := by
  have hlt : desc.len < 2 ^ 32 := desc.length.toNat_lt
  constructor
  · intro hright ha
    obtain ⟨fuel, k, hval, hlog, hk⟩ := hright ha
    by_contra hge
    have hs := s32_natCast hlt
    rw [if_neg hge] at hs
    have hdvd := Int.dvd_of_tmod_eq_zero ha.length
    rw [hs] at hdvd
    omega
  · intro hfits ha
    have hlt31 := hfits ha
    have hs := s32_natCast hlt
    rw [if_pos hlt31] at hs
    have hdvd := Int.dvd_of_tmod_eq_zero ha.length
    rw [hs] at hdvd
    obtain ⟨k, hk⟩ : 2064 ∣ desc.len := by exact_mod_cast hdvd
    obtain ⟨e', offs, hrun⟩ := burnExtra_accepted ha cur
    obtain ⟨hval, hlog⟩ := hrun (k + 1)
    have hrem : (iusSource desc idI).remain = s32 (2064 * k) := by
      rw [iusSource_remain, hk]
      push_cast
      rfl
    obtain ⟨hend, htaken⟩ := yaffsBurn_ends B iusSource_pages toFlash_read ha.source
      (by omega) hrem offs (storageSize B (ius2part desc.type)) e'
    exact ⟨k + 1, k, by rw [hval, hend]; exact nofun, by rw [hlog, htaken], hk.symm⟩

end Package

section Right

variable (B : Board) {σ : Type} (h : σ → Op → Reply × σ)

theorem Shake.count {t : List Host} (ht : Shake t) : t.count (.inn 2064) = 0 := by
  cases ht <;> decide

theorem iuw_yaffs_iff (pack : Mem) (cur : Option Dev) (e : σ) :
    IuwYaffsRight B h pack cur e ↔ IuwYaffsFits B h pack e := by
  constructor
  · intro hright m offs hready
    obtain ⟨fuel, k, t, hval, hlog, ht, hk⟩ := hright m offs hready
    obtain ⟨e', l, hl, hrun⟩ := iuwExtra_ready B h hready cur
    obtain ⟨hval', hlog'⟩ := hrun fuel
    rw [hval'] at hval
    obtain ⟨k', t', ht', hlog'', hdvd⟩ := iuwImage_ended B h fuel offs m e' hval
    have hsame : hostLog (Prog.run h (iuwExtra B fuel pack cur) e).log =
        [.out IUW_CMD_LEN, .inn IUW_CMD_LEN] ++ List.replicate k' (.inn 2064) ++ t' := by
      rw [hlog', hostLog, List.filterMap_append, List.append_assoc, ← hlog'', ← hl]
      rfl
    obtain rfl : k' = k := by
      have hcount := congrArg (List.count (.inn 2064)) (hsame.symm.trans hlog)
      simpa [ht.count, ht'.count, IUW_CMD_LEN] using hcount
    have hm := Mem.get32_lt m 0xc
    have hp := Mem.get32_lt pack 0xc
    have hs := s32_natCast hm
    rw [iuwCmdLen] at hdvd
    refine ⟨?_, ⟨k', hk.symm⟩⟩
    split_ifs at hs with hlt
    · rw [hs] at hdvd
      omega
    · rw [hs] at hdvd
      omega
  · intro hfits m offs hready
    obtain ⟨hsame, k, hk⟩ := hfits m offs hready
    obtain ⟨e', l, hl, hrun⟩ := iuwExtra_ready B h hready cur
    obtain ⟨hval, hlog⟩ := hrun (k + 1)
    have hlen : iuwCmdLen m = s32 (2064 * k) := by
      rw [iuwCmdLen, hsame, hk]
      push_cast
      rfl
    have hlt := Mem.get32_lt pack 0xc
    obtain ⟨hne, t, ht, hhost⟩ := iuwImage_ends B h (by omega) hlen offs e'
    refine ⟨k + 1, k, t, by rwa [hval], ?_, ht, hk.symm⟩
    rw [hlog, hostLog, List.filterMap_append, List.append_assoc, ← hhost, ← hl]
    rfl

/-- A yaffs image ends with its announced length exactly if the length outlives the hand shake and
is one of whole pages, when it comes from the PC, and is below 2 GiB, when it comes in a package. -/
theorem yaffs_lengths_iff (pack : Mem) (desc : IusDesc) (idI : ℤ) (cur : Option Dev) (e : σ) :
    (IuwYaffsRight B h pack cur e ↔ IuwYaffsFits B h pack e) ∧
      (BurnYaffsRight B h desc idI cur e ↔ BurnYaffsFits B h desc idI e) :=
  ⟨iuw_yaffs_iff B h pack cur e, burn_yaffs_iff cur⟩

/-- The command for a system image of 1000 bytes. -/
def oddCommand : Mem :=
  Mem.store (fun _ => 0) 0 (bytes32 (IUW_CMD_SYSM ||| IUW_CMD_MAGIC <<< 24) ++ bytes32 0 ++
    bytes32 0x10000 ++ bytes32 1000)

theorem iuw_yaffs_odd :
    ¬IuwYaffsRight extraBoard hostStep oddCommand none [oddCommand.load 0 IUW_CMD_LEN] := by
  intro hright
  have hready : ((Prog.run hostStep (iuwReady extraBoard oddCommand)
      [oddCommand.load 0 IUW_CMD_LEN]).val).isSome = true := by decide
  obtain ⟨⟨m, offs⟩, hm⟩ := Option.isSome_iff_exists.1 hready
  have hdvd := ((iuw_yaffs_iff _ _ _ _ _).1 hright m offs hm).2
  have hlen : oddCommand.get32 0xc = 1000 := by decide
  omega

end Right

end InfotmUboot
