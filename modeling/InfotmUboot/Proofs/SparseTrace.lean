import InfotmUboot.Proofs.Server
import InfotmUboot.SparseTrace

/-!
# The window of a sparse burn

Without its notes the noted `sparse_burn` is `sparse_burn`.
-/

namespace InfotmUboot

open Lib Lib.Noted

section Erasure

variable (c : SparseConf) {γ : Type} (getData : γ → Strat (ℤ × List UInt8 × γ))

theorem bare_fillLoop (n : ℕ) : ∀ (stillto : ℤ) (s : SparseState γ),
    bare (sparseFillLoopNoted c getData n stillto s) = sparseFillLoop c getData n stillto s := by
  induction n with
  | zero => exact fun _ _ => rfl
  | succ n ih =>
    intro stillto s
    simp only [sparseFillLoopNoted, sparseFillLoop, bare_bind, bare_lift]
    refine bind_congr fun r => ?_
    obtain ⟨step, data, src⟩ := r
    simp only [bare_note, pure_bind, bare_ite, bare_pure, ih]
    rfl

theorem bare_getData (len : ℕ) (s : SparseState γ) :
    bare (getDataFromSourceNoted c getData len s) = getDataFromSource c getData len s := by
  simp only [getDataFromSourceNoted, getDataFromSource, bare_bind, bare_note, pure_bind,
    bare_ite, bare_pure, bare_fillLoop]
  rfl

theorem bare_rawLoop (n : ℕ) : ∀ (len : ℕ) (s : SparseState γ),
    bare (processRawLoopNoted c getData n len s) = processRawLoop c getData n len s := by
  induction n with
  | zero => exact fun _ _ => rfl
  | succ n ih =>
    intro len s
    simp only [processRawLoopNoted, processRawLoop, bare_bind, bare_lift, bare_ite, bare_pure,
      bare_getData]
    refine ite_congr rfl (fun _ => rfl) fun _ => bind_congr fun r => ?_
    obtain ⟨ret, s⟩ := r
    refine ite_congr rfl (fun _ => rfl) fun _ => bind_congr fun r => ?_
    obtain ⟨ret, target⟩ := r
    simp only [bare_note, pure_bind, ih]
    rfl

theorem bare_fillWrites (fillbuf : Mem) (n : ℕ) : ∀ len target crc : ℕ,
    bare (processFillLoopNoted c fillbuf n len target crc) =
      processFillLoop c fillbuf n len target crc := by
  induction n with
  | zero => exact fun _ _ _ => rfl
  | succ n ih =>
    intro len target crc
    simp only [processFillLoopNoted, processFillLoop, bare_bind, bare_lift, bare_ite,
      bare_pure]
    refine ite_congr rfl (fun _ => rfl) fun _ => bind_congr fun r => ?_
    obtain ⟨ret, target⟩ := r
    simp only [bare_note, pure_bind, ih]

theorem bare_fetch (s : SparseState γ) : bare (fetchNoted c getData s) =
    if s32 s.inBuffer < 4 then getDataFromSource c getData 4 s else pure (s32 s.inBuffer, s) := by
  simp only [fetchNoted, bare_ite, bare_getData, bare_pure]

theorem bare_fillChunk (blocks blkSz : ℕ) (s : SparseState γ) :
    bare (processFillChunkNoted c getData blocks blkSz s) =
      processFillChunk c getData blocks blkSz s := by
  simp only [processFillChunkNoted, processFillChunk, bare_bind, bare_fetch]
  split_ifs
  all_goals
    refine bind_congr fun r => ?_
    simp only [bare_note, pure_bind, bare_lift]
    refine bind_congr fun q => ?_
    rw [bare_ite]
    refine ite_congr rfl (fun _ => rfl) fun _ => ?_
    simp only [bare_bind, bare_fillWrites, bare_pure]

theorem bare_crcChunk (s : SparseState γ) :
    bare (processCrc32ChunkNoted c getData s) = processCrc32Chunk c getData s := by
  simp only [processCrc32ChunkNoted, processCrc32Chunk, bare_bind, bare_fetch]
  split_ifs
  all_goals
    refine bind_congr fun r => ?_
    simp only [bare_note, pure_bind, bare_pure]

theorem bare_rawChunk (fuel blocks blkSz : ℕ) (s : SparseState γ) :
    bare (processRawChunkNoted c getData fuel blocks blkSz s) =
      processRawChunk c getData fuel blocks blkSz s := by
  simp only [processRawChunkNoted, processRawChunk, bare_bind, bare_rawLoop]
  refine bind_congr fun r => ?_
  cases r <;> rfl

theorem bare_chunk (fuel : ℕ) (h : SparseHeader) (s : SparseState γ) :
    bare (sparseChunkNoted c getData fuel h s) = sparseChunk c getData fuel h s := by
  simp only [sparseChunkNoted, sparseChunk, bare_ite, bare_bind, bare_getData, bare_pure]
  split_ifs
  all_goals
    refine bind_congr fun r => ?_
    simp only [sparseBodyNoted, bare_note, pure_bind, bare_ite, bare_bind, bare_pure,
      bare_rawChunk, bare_fillChunk, bare_crcChunk]
    refine ite_congr rfl (fun _ => rfl) fun _ => ite_congr rfl (fun _ => ?_) fun _ => rfl
    refine ite_congr rfl (fun _ => rfl) fun _ => bind_congr fun q => ?_
    cases q <;> rfl

theorem bare_chunks (fuel : ℕ) (h : SparseHeader) (n : ℕ) : ∀ (total : ℕ) (s : SparseState γ),
    bare (sparseChunksNoted c getData fuel h n total s) =
      sparseChunks c getData fuel h n total s := by
  induction n with
  | zero => exact fun _ _ => rfl
  | succ n ih =>
    intro total s
    simp only [sparseChunksNoted, sparseChunks, bare_bind, bare_chunk]
    refine bind_congr fun r => ?_
    rcases r with _ | ⟨_ | blks, s⟩
    · rfl
    · rfl
    · exact ih _ _

variable (B : Board)

theorem bare_burn (fuel : ℕ) (dev : ℤ) (offs : ℕ) (size : ℤ) (step : ℕ) (src : γ)
    (cur : Option Dev) : bare (sparseBurnNoted B getData fuel dev offs size step src cur) =
      sparseBurn B getData fuel dev offs size step src cur := by
  simp only [sparseBurnNoted, sparseBurn, sparseImageNoted, bare_bind, bare_lift, bare_ite,
    bare_pure, bare_getData]
  refine bind_congr fun r => ite_congr rfl (fun _ => rfl) fun _ => bind_congr fun q =>
    bind_congr fun t => ?_
  simp only [bare_note, pure_bind, bare_chunks]
  refine ite_congr rfl (fun _ => rfl) fun _ => ite_congr rfl (fun _ => bind_congr fun _ => ?_)
    fun _ => ?_
  all_goals
    refine bind_congr fun w => ?_
    cases w <;> rfl

end Erasure

section Window

variable {γ : Type} {l : List SparseStep} {s : SparseState γ}

@[simp]
theorem received_ask (step : ℕ) (b b' : SparseBuffer) (ret : ℤ) (data : List UInt8) :
    received (l ++ [.ask step b ret data b']) = received l ++ data := by
  simp [received]

@[simp]
theorem consumed_ask (step : ℕ) (b b' : SparseBuffer) (ret : ℤ) (data : List UInt8) :
    consumed (l ++ [.ask step b ret data b']) = consumed l := by
  simp [consumed]

@[simp]
theorem received_moved (part : SparsePart) (n : ℤ) (b b' : SparseBuffer) :
    received (l ++ [.moved part n b b']) = received l := by
  simp [received]

@[simp]
theorem consumed_moved (part : SparsePart) (n : ℕ) (b b' : SparseBuffer) :
    consumed (l ++ [.moved part n b b']) = consumed l + n := by
  simp [consumed]

theorem isWindow_got (b b' : SparseBuffer) : IsWindow (l ++ [.got b']) b ↔ IsWindow l b := by
  have hr : received (l ++ [.got b']) = received l := by simp [received]
  have hc : consumed (l ++ [.got b']) = consumed l := by simp [consumed]
  exact ⟨fun h => ⟨h.1, h.2, hr ▸ hc ▸ h.3, hr ▸ hc ▸ h.4⟩,
    fun h => ⟨h.1, h.2, hr.symm ▸ hc.symm ▸ h.3, hr.symm ▸ hc.symm ▸ h.4⟩⟩

theorem isWindow_wrote (part : SparsePart) (b b' : SparseBuffer) :
    IsWindow (l ++ [.wrote part b']) b ↔ IsWindow l b := by
  have hr : received (l ++ [.wrote part b']) = received l := by simp [received]
  have hc : consumed (l ++ [.wrote part b']) = consumed l := by simp [consumed]
  exact ⟨fun h => ⟨h.1, h.2, hr ▸ hc ▸ h.3, hr ▸ hc ▸ h.4⟩,
    fun h => ⟨h.1, h.2, hr.symm ▸ hc.symm ▸ h.3, hr.symm ▸ hc.symm ▸ h.4⟩⟩

theorem IsWindow.length {b : SparseBuffer} (h : IsWindow l b) :
    consumed l + (b.deepth - b.index) = (received l).length := by
  have hl := congrArg List.length h.bytes
  rw [Mem.length_load, List.length_drop] at hl
  have := h.consumed_le
  omega

theorem IsWindow.inBuffer (h : IsWindow l s.buffer) : s.inBuffer = s.deepth - s.index := by
  have h1 : s.index ≤ s.deepth := h.index_le
  have h2 : s.deepth ≤ 0x100000 := h.deepth_le
  unfold SparseState.inBuffer toU32
  omega

theorem IsWindow.s32_inBuffer (h : IsWindow l s.buffer) :
    s32 s.inBuffer = (s.deepth - s.index : ℕ) := by
  have h2 : s.deepth ≤ 0x100000 := h.deepth_le
  rw [h.inBuffer]
  exact s32_of_range (by omega) (by omega)

/-- What a call of the source adds keeps the window if and only if the call returns the number of
bytes it stored, and stored none past the end. -/
theorem isWindow_add (h : IsWindow l s.buffer) (step : ℕ) (b b' : SparseBuffer) (ret : ℤ)
    (data : List UInt8) (src : γ) :
    IsWindow (l ++ [.ask step b ret data b']) (s.add ret data src).buffer ↔
      toU32 ret = data.length ∧ s.deepth + data.length ≤ CONFIG_SPARSE_BUF_SIZE := by
  have hle : s.index ≤ s.deepth := h.index_le
  have hsize : s.deepth ≤ 0x100000 := h.deepth_le
  have hlen : consumed l + (s.deepth - s.index) = (received l).length := h.length
  have hbytes : s.copybuf.load s.index (s.deepth - s.index) = (received l).drop (consumed l) :=
    h.bytes
  constructor
  · intro h'
    have hlen' := h'.length
    have hle' : s.index ≤ toU32 (s.deepth + ret) := h'.index_le
    have hsize' : toU32 (s.deepth + ret) ≤ 0x100000 := h'.deepth_le
    simp only [consumed_ask, received_ask, List.length_append] at hlen'
    change consumed l + (toU32 (s.deepth + ret) - s.index) = _ at hlen'
    have hadd : toU32 (s.deepth + ret) = s.deepth + data.length := by omega
    refine ⟨?_, by change _ ≤ 0x100000; omega⟩
    unfold toU32 at *
    omega
  · rintro ⟨hret, hroom⟩
    change _ ≤ 0x100000 at hroom
    have hadd : toU32 (s.deepth + ret) = s.deepth + data.length := by
      unfold toU32 at *
      omega
    refine ⟨?_, ?_, ?_, ?_⟩
    · change s.index ≤ toU32 (s.deepth + ret)
      omega
    · change toU32 (s.deepth + ret) ≤ 0x100000
      omega
    · rw [consumed_ask, received_ask, List.length_append]
      omega
    · change (s.copybuf.store s.deepth data).load s.index (toU32 (s.deepth + ret) - s.index) = _
      rw [hadd, show s.deepth + data.length - s.index = s.deepth - s.index + data.length by omega,
        Mem.load_add, Mem.load_store_after _ _ (by omega), show s.index + (s.deepth - s.index) =
          s.deepth by omega, Mem.load_store_same, hbytes, consumed_ask, received_ask,
        List.drop_append_of_le_length (by omega)]

/-- Moving `index` keeps the window if and only if the window holds the bytes passed. -/
theorem isWindow_skip (h : IsWindow l s.buffer) (part : SparsePart) {n : ℕ} (hn : n ≤ 0x100000)
    (b b' : SparseBuffer) : IsWindow (l ++ [.moved part n b b']) (s.skip n).buffer ↔
      s.index + n ≤ s.deepth := by
  have hle : s.index ≤ s.deepth := h.index_le
  have hsize : s.deepth ≤ 0x100000 := h.deepth_le
  have hlen : consumed l + (s.deepth - s.index) = (received l).length := h.length
  have hbytes : s.copybuf.load s.index (s.deepth - s.index) = (received l).drop (consumed l) :=
    h.bytes
  have hi : (s.skip n).buffer.index = s.index + n := u32_of_lt (by omega)
  constructor
  · intro h'
    rw [← hi]
    exact h'.index_le
  · intro hfits
    refine ⟨hi ▸ hfits, hsize, ?_, ?_⟩
    · rw [consumed_moved, received_moved]
      omega
    · rw [hi, consumed_moved, received_moved, ← List.drop_drop, ← hbytes, Mem.drop_load _ _
        (by omega), Nat.sub_sub]
      rfl

theorem seek_natCast (h : IsWindow l s.buffer) {n : ℕ} (hn : n ≤ 0x100000) :
    s.seek n = if s.index + n = s.deepth then { s with index := 0, deepth := 0 } else s.skip n := by
  have hle : s.index ≤ s.deepth := h.index_le
  have hsize : s.deepth ≤ 0x100000 := h.deepth_le
  have hi : toU32 ((s.index : ℤ) + (n : ℕ)) = s.index + n := by
    unfold toU32
    omega
  unfold SparseState.seek SparseState.skip
  simp only [hi, u32_of_lt (show s.index + n < 2 ^ 32 by omega)]

/-- A drained window may start again at the front. -/
theorem isWindow_seek (h : IsWindow l s.buffer) (part : SparsePart) {n : ℕ} (hn : n ≤ 0x100000)
    (b b' : SparseBuffer) : IsWindow (l ++ [.moved part n b b']) (s.seek n).buffer ↔
      s.index + n ≤ s.deepth := by
  rw [seek_natCast h hn]
  split_ifs with hd
  · have hskip := (isWindow_skip h part hn b b').2 hd.le
    have hlen := hskip.length
    have hi : (s.skip n).buffer.index = s.deepth :=
      (u32_of_lt (by have : s.deepth ≤ 0x100000 := h.deepth_le; omega)).trans hd
    rw [hi] at hlen
    change _ + (s.deepth - s.deepth) = _ at hlen
    refine ⟨fun _ => hd.le, fun _ => ⟨le_rfl, Nat.zero_le _, hskip.consumed_le, ?_⟩⟩
    rw [List.drop_eq_nil_of_le (by omega)]
    rfl
  · exact isWindow_skip h part hn b b'

variable {c : SparseConf}

theorem isWindow_realign (h : IsWindow l s.buffer) : IsWindow l s.realign.buffer := by
  have hin := h.inBuffer
  have hsize : s.deepth ≤ 0x100000 := h.deepth_le
  refine ⟨Nat.zero_le _, ?_, h.consumed_le, ?_⟩
  · change s.inBuffer ≤ 0x100000
    omega
  · change (s.copybuf.store 0 (s.copybuf.load s.index s.inBuffer)).load 0 (s.inBuffer - 0) = _
    rw [Nat.sub_zero]
    conv_lhs => arg 3; rw [← Mem.length_load s.copybuf s.index s.inBuffer]
    rw [Mem.load_store_same, hin]
    exact h.bytes

theorem isWindow_readied (h : IsWindow l s.buffer) (len : ℕ) :
    IsWindow l (s.readied c len).buffer := by
  unfold SparseState.readied
  dsimp only
  split_ifs
  · exact isWindow_realign h
  · exact h

/-- Where the bytes in the window leave room for a step, there is room behind them once the window
is readied. -/
theorem readied_room (h : IsWindow l s.buffer)
    (hroom : ¬toU32 (CONFIG_SPARSE_BUF_SIZE - s.inBuffer) < c.step) (len : ℕ) :
    (s.readied c len).deepth + c.step ≤ CONFIG_SPARSE_BUF_SIZE := by
  have hle : s.index ≤ s.deepth := h.index_le
  have hsize : s.deepth ≤ 0x100000 := h.deepth_le
  have hin := h.inBuffer
  change ¬toU32 ((0x100000 : ℕ) - (s.inBuffer : ℤ)) < c.step at hroom
  change _ ≤ 0x100000
  unfold SparseState.readied
  dsimp only
  split_ifs with hcond
  · change s.inBuffer + c.step ≤ _
    unfold toU32 at hroom
    omega
  · change ¬((toU32 ((0x100000 : ℕ) - (s.deepth : ℤ)) < len ∨
      toU32 ((0x100000 : ℕ) - (s.deepth : ℤ)) < c.step) ∧ s.index ≠ 0) at hcond
    unfold toU32 at hroom hcond
    omega

end Window

section Steps

/-- A step is right exactly where it fits. -/
def StepIff (l : List SparseStep) (e : SparseStep) : Prop :=
  SparseStepRight l e ↔ SparseStepFits e

/-- What is proved of a piece of `sparse_burn` from the steps `l` on. -/
abbrev Steps {α : Type} (Q : List SparseStep → α → Prop) (l : List SparseStep)
    (p : SparseNoted α) : Prop :=
  Records SparseStepKeeps StepIff Q l p

variable (c : SparseConf) {γ : Type} (getData : γ → Strat (ℤ × List UInt8 × γ))
  {l : List SparseStep} {s : SparseState γ}

theorem keeps_ask {step : ℕ} {b b' : SparseBuffer} {ret : ℤ} {data : List UInt8} :
    SparseStepKeeps (.ask step b ret data b') ↔
      toU32 ret = data.length ∧ b.deepth + data.length ≤ b.size := by
  simp [SparseStepKeeps, SparseStepFits]

theorem keeps_moved {part : SparsePart} {n : ℤ} {b b' : SparseBuffer} :
    SparseStepKeeps (.moved part n b b') ↔ SparseStepFits (.moved part n b b') := by
  simp [SparseStepKeeps]

theorem stepIff_ask (h : IsWindow l s.buffer) {step : ℕ}
    (hroom : s.deepth + step ≤ CONFIG_SPARSE_BUF_SIZE) (ret : ℤ) (data : List UInt8) (src : γ) :
    StepIff l (.ask step s.buffer ret data (s.add ret data src).buffer) :=
  (and_iff_right hroom).trans (isWindow_add h _ _ _ ret data src)

theorem stepIff_got (h : IsWindow l s.buffer) : StepIff l (.got s.buffer) :=
  iff_of_true ((isWindow_got _ _).2 h) trivial

theorem stepIff_wrote (h : IsWindow l s.buffer) : StepIff l (.wrote .raw s.buffer) :=
  iff_of_true ((isWindow_wrote _ _ _).2 h) SparsePart.noConfusion

theorem stepIff_filled (fillbuf : Mem) : StepIff l (.wrote .fill (fillBuffer fillbuf)) := by
  refine iff_of_false (fun h => ?_) fun h => h rfl
  have hle : CONFIG_SPARSE_COPY_SIZE ≤ 0 := h.deepth_le
  exact absurd hle (by decide)

/-- A move past bytes that the window holds. -/
theorem stepIff_seek_of_le (h : IsWindow l s.buffer) (part : SparsePart) {n : ℕ}
    (hn : s.index + n ≤ s.deepth) :
    StepIff l (.moved part n s.buffer (s.seek n).buffer) := by
  have hsize : s.deepth ≤ 0x100000 := h.deepth_le
  refine iff_of_true ((isWindow_seek h part (by omega) _ _).2 hn) (Or.inr (Or.inr ?_))
  exact_mod_cast hn

theorem follows_fillLoop (n : ℕ) : ∀ (stillto : ℤ) (l : List SparseStep) (s : SparseState γ),
    IsWindow l s.buffer → s.deepth + c.step ≤ CONFIG_SPARSE_BUF_SIZE →
    Steps (fun l' s' => IsWindow l' s'.buffer) l (sparseFillLoopNoted c getData n stillto s) := by
  induction n with
  | zero => exact fun _ _ _ h _ => Records.pure h
  | succ n ih =>
    intro stillto l s h hroom
    refine Records.lift_bind (Prog.Gives.of_forall _ fun _ => trivial) fun r _ => ?_
    obtain ⟨step, data, src⟩ := r
    refine Records.note_bind (stepIff_ask h hroom step data src) fun hkeeps => ?_
    have h' := (isWindow_add h c.step s.buffer (s.add step data src).buffer step data src).2
      (keeps_ask.1 hkeeps)
    refine Records.ite (fun _ => Records.pure h') fun hdeep => ?_
    refine Records.ite (fun _ => ih _ _ _ h' ?_) fun _ => Records.pure h'
    change ¬_ > toU32 ((0x100000 : ℕ) - (c.step : ℤ)) at hdeep
    change _ ≤ 0x100000 at hroom ⊢
    unfold toU32 at hdeep
    omega

/-- `get_data_from_source` leaves a window and returns how much it holds. -/
def Fetched (l : List SparseStep) (r : ℤ × SparseState γ) : Prop :=
  IsWindow l r.2.buffer ∧ r.1 = (r.2.deepth - r.2.index : ℕ)

theorem fetched_window (h : IsWindow l s.buffer) : Fetched l (s32 s.inBuffer, s) := by
  refine And.intro h ?_
  dsimp only
  rw [h.s32_inBuffer]

/-- The end of `get_data_from_source`. -/
theorem follows_got (h : IsWindow l s.buffer) :
    Steps Fetched l (do
      note (.got s.buffer)
      return (s32 s.inBuffer, s)) := by
  refine Records.note_bind (stepIff_got h) fun _ => Records.pure ?_
  exact fetched_window ((isWindow_got _ _).2 h)

theorem follows_getData (len : ℕ) (h : IsWindow l s.buffer) :
    Steps Fetched l (getDataFromSourceNoted c getData len s) := by
  unfold getDataFromSourceNoted
  refine Records.ite (fun _ => follows_got h) fun hmore => ?_
  have hroom := (not_or.1 hmore).1
  have hready := isWindow_readied (c := c) h (s.cut len)
  refine Records.ite (fun _ => ?_) fun _ => Records.pure_bind (follows_got hready)
  exact (follows_fillLoop c getData _ _ _ _ hready (readied_room h hroom _)).bind
    fun _ _ _ hl => follows_got hl

theorem follows_fetch (h : IsWindow l s.buffer) : Steps Fetched l (fetchNoted c getData s) :=
  Records.ite (fun _ => follows_getData c getData 4 h) fun _ => Records.pure (fetched_window h)

/-- A write returns how many bytes it wrote, if it does not fail. -/
theorem gives_write (buf : Mem) (index deepth target : ℕ) {len : ℕ} (hlen : len ≤ 0x100000) :
    Prog.Gives (fun r : ℤ × ℕ => r.1 = -1 ∨ ∃ k : ℕ, k ≤ len ∧ r.1 = k)
      (writeDataToDisk c buf index deepth target len) := by
  have hs {k : ℕ} (hk : k ≤ len) : s32 k = k := s32_of_range (by omega) (by omega)
  have hk := andNot_le len (toU32 (c.blksz - 1))
  simp only [writeDataToDisk, hs le_rfl, hs hk]
  refine Prog.Gives.ite (fun _ => Or.inl rfl) fun _ => Prog.Gives.bind _ fun r => ?_
  refine Prog.Gives.ite (fun _ => Or.inr ⟨len, le_rfl, rfl⟩) fun _ => ?_
  exact Prog.Gives.bind _ fun _ => Or.inr ⟨_, hk, rfl⟩

/-- A piece that returns a state leaves a window in it. -/
def Left {α : Type} (l : List SparseStep) (r : Option (α × SparseState γ)) : Prop :=
  ∀ q ∈ r, IsWindow l q.2.buffer

theorem left_none {α : Type} : Left l (none : Option (α × SparseState γ)) := fun _ hq => by
  simp at hq

theorem left_some {α : Type} {a : α} (h : IsWindow l s.buffer) : Left l (some (a, s)) :=
  fun q hq => by
    cases hq
    exact h

theorem follows_rawLoop (n : ℕ) : ∀ (len : ℕ) (l : List SparseStep) (s : SparseState γ),
    IsWindow l s.buffer → Steps Left l (processRawLoopNoted c getData n len s) := by
  induction n with
  | zero => exact fun _ _ _ _ => Records.pure left_none
  | succ n ih =>
    intro len l s h
    refine Records.ite (fun _ => Records.pure (left_some h)) fun _ => ?_
    refine (follows_getData c getData len h).bind fun l₁ r _ hr => ?_
    obtain ⟨ret, s₁⟩ := r
    obtain ⟨h₁, hret⟩ := hr
    dsimp only at h₁ hret
    have hsize : s₁.deepth ≤ 0x100000 := h₁.deepth_le
    have hle : s₁.index ≤ s₁.deepth := h₁.index_le
    have hn : min (toU32 ret) len ≤ s₁.deepth - s₁.index := by
      rw [hret, toU32_natCast (by omega)]
      exact min_le_left _ _
    refine Records.ite (fun _ => Records.pure (left_some h₁)) fun _ => ?_
    refine Records.lift_bind (gives_write c _ _ _ _ (by omega)) fun w hw => ?_
    obtain ⟨written, target⟩ := w
    have hb : IsWindow l₁ (s₁.burnt (min (toU32 ret) len) target).buffer := h₁
    have h₂ := (isWindow_wrote .raw _ (s₁.burnt (min (toU32 ret) len) target).buffer).2 hb
    refine Records.note_bind (stepIff_wrote hb) fun _ => ?_
    refine Records.ite (fun _ => Records.pure (left_some h₂)) fun hne => ?_
    rcases hw with hw | ⟨k, hk, hw⟩
    · exact absurd hw hne
    · dsimp only at hw
      subst hw
      have hfits : s₁.index + k ≤ s₁.deepth := by omega
      refine Records.note_bind (stepIff_seek_of_le h₂ .raw hfits) fun _ => ih _ _ _ ?_
      exact (isWindow_seek h₂ .raw (by omega) _ _).2 hfits

theorem follows_rawChunk (fuel blocks blkSz : ℕ) (h : IsWindow l s.buffer) :
    Steps Left l (processRawChunkNoted c getData fuel blocks blkSz s) := by
  refine (follows_rawLoop c getData fuel _ _ _ h).bind fun l₁ r _ hr => ?_
  rcases r with _ | ⟨ok, s₁⟩
  · exact Records.pure left_none
  · exact Records.pure (left_some (hr _ rfl))

/-- The writes of a fill chunk leave the window that was put aside. -/
theorem follows_fillWrites (fillbuf : Mem) {b : SparseBuffer} (n : ℕ) :
    ∀ (len target crc : ℕ) (l : List SparseStep), IsWindow l b →
      Steps (fun l' _ => IsWindow l' b) l (processFillLoopNoted c fillbuf n len target crc) := by
  induction n with
  | zero => exact fun _ _ _ _ h => Records.pure h
  | succ n ih =>
    intro len target crc l h
    refine Records.ite (fun _ => Records.pure h) fun _ => ?_
    refine Records.lift_bind (Prog.Gives.of_forall _ fun _ => trivial) fun w _ => ?_
    refine Records.note_bind (stepIff_filled fillbuf) fun _ => ih _ _ _ _ ?_
    exact (isWindow_wrote _ _ _).2 h

theorem fits_moved {part : SparsePart} (hp : part ≠ .chunk) (hp' : part ≠ .raw) {n : ℕ}
    {b b' : SparseBuffer} : SparseStepFits (.moved part n b b') ↔ b.index + n ≤ b.deepth := by
  simp only [SparseStepFits, hp, hp', false_or]
  exact_mod_cast Iff.rfl

/-- A move past bytes whose presence nothing has checked. -/
theorem stepIff_skip (h : IsWindow l s.buffer) {part : SparsePart} (hp : part ≠ .chunk)
    (hp' : part ≠ .raw) : StepIff l (.moved part 4 s.buffer (s.skip 4).buffer) :=
  (isWindow_skip h part (by norm_num) _ _).trans (fits_moved hp hp' (n := 4) (b := s.buffer)).symm

theorem window_skip (h : IsWindow l s.buffer) {part : SparsePart} (hp : part ≠ .chunk)
    (hp' : part ≠ .raw) {b' : SparseBuffer} (hk : SparseStepKeeps (.moved part 4 s.buffer b')) :
    IsWindow (l ++ [.moved part 4 s.buffer b']) (s.skip 4).buffer :=
  (isWindow_skip h part (by norm_num) _ _).2 ((fits_moved hp hp').1 (keeps_moved.1 hk))

theorem follows_fillChunk (blocks blkSz : ℕ) (h : IsWindow l s.buffer) :
    Steps (fun l' r => IsWindow l' r.2.buffer) l
      (processFillChunkNoted c getData blocks blkSz s) := by
  refine (follows_fetch c getData h).bind fun l₁ r _ hr => ?_
  obtain ⟨ret, s₁⟩ := r
  refine Records.note_bind (stepIff_skip hr.1 (by decide) (by decide)) fun hk => ?_
  have h₂ := window_skip hr.1 (by decide) (by decide) hk
  refine Records.lift_bind (Prog.Gives.of_forall _ fun _ => trivial) fun q _ => ?_
  refine Records.ite (fun _ => Records.pure h₂) fun _ => ?_
  exact (follows_fillWrites c _ _ _ _ _ _ h₂).bind fun _ _ _ hl => Records.pure hl

theorem follows_crcChunk (h : IsWindow l s.buffer) :
    Steps (fun l' r => IsWindow l' r.2.buffer) l (processCrc32ChunkNoted c getData s) := by
  refine (follows_fetch c getData h).bind fun l₁ r _ hr => ?_
  obtain ⟨ret, s₁⟩ := r
  refine Records.note_bind (stepIff_skip hr.1 (by decide) (by decide)) fun hk => ?_
  exact Records.pure (window_skip hr.1 (by decide) (by decide) hk)

theorem follows_body (fuel : ℕ) (hd : SparseHeader) (ch : ChunkHeader) (h : IsWindow l s.buffer) :
    Steps Left l (sparseBodyNoted c getData fuel hd ch s) := by
  have refused : Steps Left l (pure (some (none, s)) : SparseNoted (Option (Option ℕ × _))) :=
    Records.pure (left_some h)
  refine Records.ite (fun _ => ?_) fun _ => Records.ite (fun _ => ?_) fun _ => Records.ite
    (fun _ => ?_) fun _ => Records.ite (fun _ => ?_) fun _ => Records.pure (left_some h)
  · refine Records.ite (fun _ => refused) fun _ => ?_
    refine (follows_rawChunk c getData fuel _ _ h).bind fun l₁ r _ hr => ?_
    rcases r with _ | ⟨n, s₁⟩
    · exact Records.pure left_none
    · exact Records.pure (left_some (hr _ rfl))
  · refine Records.ite (fun _ => refused) fun _ => ?_
    refine (follows_fillChunk c getData _ _ h).bind fun l₁ r _ hr => ?_
    obtain ⟨n, s₁⟩ := r
    exact Records.pure (left_some hr)
  · refine Records.ite (fun _ => refused) fun _ => ?_
    exact Records.pure (left_some h)
  · refine (follows_crcChunk c getData h).bind fun l₁ r _ hr => ?_
    obtain ⟨ret, s₁⟩ := r
    exact Records.pure (left_some hr)

theorem follows_chunk (fuel : ℕ) (hd : SparseHeader) (h : IsWindow l s.buffer) :
    Steps Left l (sparseChunkNoted c getData fuel hd s) := by
  -- the header is only passed where the window holds it
  have hread {l₁ : List SparseStep} {ret : ℤ} {s₁ : SparseState γ} (h₁ : IsWindow l₁ s₁.buffer)
      (hret : ¬(toU32 ret < CHUNK_HEADER_LEN ∨ ret = -1) →
        s₁.index + CHUNK_HEADER_LEN ≤ s₁.deepth) :
      Steps Left l₁ (if toU32 ret < CHUNK_HEADER_LEN ∨ ret = -1 then pure (some (none, s₁)) else do
        note (.moved .chunk CHUNK_HEADER_LEN s₁.buffer (s₁.seek CHUNK_HEADER_LEN).buffer)
        sparseBodyNoted c getData fuel hd (ChunkHeader.load s₁.copybuf s₁.index)
          (s₁.seek CHUNK_HEADER_LEN)) := by
    refine Records.ite (fun _ => Records.pure (left_some h₁)) fun hok => ?_
    refine Records.note_bind (stepIff_seek_of_le h₁ .chunk (hret hok)) fun _ => ?_
    exact follows_body c getData fuel hd _ ((isWindow_seek h₁ .chunk (by decide) _ _).2 (hret hok))
  refine Records.ite (fun _ => ?_) fun hheld => ?_
  · refine (follows_getData c getData _ h).bind fun l₁ r _ hr => ?_
    obtain ⟨ret, s₁⟩ := r
    refine hread hr.1 fun hok => ?_
    have hsize : s₁.deepth ≤ 0x100000 := hr.1.deepth_le
    have hle : s₁.index ≤ s₁.deepth := hr.1.index_le
    have hret : ret = (s₁.deepth - s₁.index : ℕ) := hr.2
    have hlt := (not_or.1 hok).1
    rw [hret, toU32_natCast (by omega)] at hlt
    omega
  · refine Records.pure_bind (hread h fun _ => ?_)
    have hle : s.index ≤ s.deepth := h.index_le
    rw [h.inBuffer] at hheld
    omega

theorem follows_chunks (fuel : ℕ) (hd : SparseHeader) (n : ℕ) :
    ∀ (total : ℕ) (l : List SparseStep) (s : SparseState γ), IsWindow l s.buffer →
      Steps Left l (sparseChunksNoted c getData fuel hd n total s) := by
  induction n with
  | zero => exact fun _ _ _ h => Records.pure (left_some h)
  | succ n ih =>
    intro total l s h
    refine (follows_chunk c getData fuel hd h).bind fun l₁ r _ hr => ?_
    rcases r with _ | ⟨_ | blks, s₁⟩
    · exact Records.pure left_none
    · exact Records.pure (left_some (hr _ rfl))
    · exact ih _ _ _ (hr _ rfl)

variable (B : Board)

/-- Nothing is asked of the result of the whole burn. -/
theorem follows_image (fuel : ℕ) (cur : Option Dev) (h : IsWindow l s.buffer) :
    Steps (fun _ _ => True) l (sparseImageNoted B getData c fuel cur s) := by
  refine (follows_getData c getData _ h).bind fun l₁ r _ hr => ?_
  obtain ⟨ret, s₁⟩ := r
  have hseek := isWindow_seek hr.1 .header (show SPARSE_HEADER_LEN ≤ 0x100000 by decide)
    s₁.buffer (s₁.seek SPARSE_HEADER_LEN).buffer
  have hfits : SparseStepFits (.moved .header SPARSE_HEADER_LEN s₁.buffer
      (s₁.seek SPARSE_HEADER_LEN).buffer) ↔ s₁.index + SPARSE_HEADER_LEN ≤ s₁.deepth :=
    fits_moved (by decide) (by decide)
  refine Records.note_bind (hseek.trans hfits.symm) fun hk => ?_
  have h₂ := hseek.2 (hfits.1 (keeps_moved.1 hk))
  refine Records.ite (fun _ => Records.pure trivial) fun _ => Records.ite (fun _ => ?_) fun _ => ?_
  · refine Records.lift_bind (Prog.Gives.of_forall _ fun _ => trivial) fun _ _ => ?_
    refine (follows_chunks c getData fuel _ _ _ _ _ h₂).bind fun l₃ w _ _ => ?_
    cases w <;> exact Records.pure trivial
  · refine (follows_chunks c getData fuel _ _ _ _ _ h₂).bind fun l₃ w _ _ => ?_
    cases w <;> exact Records.pure trivial

theorem isWindow_start (copybuf : Mem) (remain : ℤ) (src : γ) (target crc : ℕ) :
    IsWindow [] (SparseState.buffer
      { copybuf, index := 0, deepth := 0, remain, src, target, crc }) :=
  ⟨le_rfl, Nat.zero_le _, le_rfl, rfl⟩

theorem follows_burn (fuel : ℕ) (dev : ℤ) (offs : ℕ) (size : ℤ) (step : ℕ) (src : γ)
    (cur : Option Dev) : Steps (fun _ _ => True) []
      (sparseBurnNoted B getData fuel dev offs size step src cur) := by
  refine Records.lift_bind (Prog.Gives.of_forall _ fun _ => trivial) fun r _ => ?_
  refine Records.ite (fun _ => Records.pure trivial) fun _ => ?_
  refine Records.lift_bind (Prog.Gives.of_forall _ fun _ => trivial) fun q _ => ?_
  exact follows_image _ getData B fuel _ (isWindow_start _ _ _ _ _)

end Steps

section Runs

variable (B : Board) {γ : Type} (getData : γ → Strat (ℤ × List UInt8 × γ)) {σ : Type}
  (env : σ → Op → Reply × σ)

/-- Over every source, environment and image: the steps are those of `sparse_burn`; all of them
are right if and only if all fit; and a step is right if and only if it fits as long as those before
it keep the window. -/
theorem sparse_right_iff (fuel : ℕ) (dev : ℤ) (offs : ℕ) (size : ℤ) (step : ℕ) (src : γ)
    (cur : Option Dev) (st : σ) :
    bare (sparseBurnNoted B getData fuel dev offs size step src cur) =
        sparseBurn B getData fuel dev offs size step src cur ∧
      (SparseRunRight (sparseSteps B getData fuel dev offs size step src cur env st) ↔
        ∀ e ∈ sparseSteps B getData fuel dev offs size step src cur env st, SparseStepFits e) ∧
      ∀ l₁ e l₂, sparseSteps B getData fuel dev offs size step src cur env st = l₁ ++ e :: l₂ →
        (∀ x ∈ l₁, SparseStepKeeps x) → (SparseStepRight l₁ e ↔ SparseStepFits e) := by
  have hrun := (follows_burn getData B fuel dev offs size step src cur).run env st
  exact ⟨bare_burn getData B fuel dev offs size step src cur,
    hrun.all_iff fun _ hx => Or.inl hx, hrun⟩

/-- The steps of a burn of no bytes: the header is passed although the window is empty. -/
theorem sparseSteps_empty : ∃ b b' rest,
    sparseSteps bareBoard (fun _ : Unit => pure (0, [], ())) 0 0 0 0 512 () none
        (fun (s : Unit) (_ : Op) => ((⟨1, []⟩ : Reply), s)) () =
      .got b :: .moved .header 28 b b' :: rest ∧ b'.index = 28 ∧ b'.deepth = 0 :=
  ⟨_, _, _, rfl, rfl, rfl⟩

/-- A stream that ends before its header takes `index` past `deepth`. -/
theorem sparse_not_right : ¬∀ (B : Board) (γ : Type) (getData : γ → Strat (ℤ × List UInt8 × γ))
    (fuel : ℕ) (dev : ℤ) (offs : ℕ) (size : ℤ) (step : ℕ) (src : γ) (cur : Option Dev) (σ : Type)
    (env : σ → Op → Reply × σ) (st : σ), step ≤ CONFIG_SPARSE_BUF_SIZE →
      SparseRunRight (sparseSteps B getData fuel dev offs size step src cur env st) := by
  intro hall
  obtain ⟨b, b', rest, hsteps, hindex, hdeepth⟩ := sparseSteps_empty
  have hright := hall _ _ _ 0 0 0 0 512 () none _ _ () (by decide) [.got b] _ rest hsteps
  have hle := hright.index_le
  rw [hindex, hdeepth] at hle
  exact absurd hle (by decide)

end Runs

end InfotmUboot
