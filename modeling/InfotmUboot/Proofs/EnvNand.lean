import InfotmUboot.EnvNand
import InfotmUboot.Lib.Word

/-!
# Runs of the redundant environment in NAND flash

`saveenv` keeps to the region of the copy that is not in use (`saveenv_frame`), and what it wrote
with success is what a boot reads (`writeenv_reads`). So the boot after any saves selects the
environment of the last of them that completed, or the one whose writing was cut off
(`nand_boot_selects`), as long as the flags of a new copy come after those of the old one.
-/

namespace InfotmUboot

open Lib

/-- The bytes of a region: whole blocks, at least one. -/
def NandEnv.span (c : NandEnv) : ℕ :=
  (max c.envRange c.erasesize + c.erasesize - 1) / c.erasesize * c.erasesize

/-- A configuration: the copies lie in different blocks, and the defaults fit. -/
structure NandEnv.Valid (c : NandEnv) : Prop where
  erasesize_pos : 0 < c.erasesize
  header_le : ENV_HEADER_SIZE ≤ c.envSize
  default_fits : c.defaultEnvironment.length ≤ c.dataSize
  apart : c.envOffset + c.span ≤ c.envOffsetRedund ∨ c.envOffsetRedund + c.span ≤ c.envOffset

section Frame

variable {c : NandEnv}

theorem putBlock_of_not {m j : Mem} {a n x : ℕ} (h : x < a ∨ a + n ≤ x) : putBlock m a n j x =
    m x :=
  if_neg (by omega)

variable (hc : 0 < c.erasesize) {o : ℕ}
include hc

theorem block_le_span {k l : ℕ} (hl : l ≤ max c.envRange c.erasesize) (h : k * c.erasesize < l) :
    (k + 1) * c.erasesize ≤ c.span := by
  refine Nat.mul_le_mul_right _ ((Nat.le_div_iff_mul_le hc).2 ?_)
  rw [Nat.add_mul, Nat.one_mul]
  omega

/-- An erasure changes nothing before its first block nor past the region. -/
theorem eraseOptsLoop_frame {l : ℕ} (hl : l ≤ max c.envRange c.erasesize) {x : ℕ} :
    ∀ (n k : ℕ) (m : Mem) (fs : List Fate), x < o + k * c.erasesize ∨ o + c.span ≤ x →
      (eraseOptsLoop c (o + l) n (o + k * c.erasesize) m fs).2.1 x = m x
  | 0, _, _, _, _ => rfl
  | n + 1, k, m, fs, hx => by
    have hnext : o + k * c.erasesize + c.erasesize = o + (k + 1) * c.erasesize := by ring
    rw [eraseOptsLoop]
    split_ifs with hgo hbad herr
    · rw [hnext]
      exact eraseOptsLoop_frame hl n (k + 1) m fs (by omega)
    · rfl
    · have hblk := block_le_span hc hl (show k * c.erasesize < l by omega)
      have hout : ∀ j, putBlock m (o + k * c.erasesize) c.erasesize j x = m x :=
        fun j => putBlock_of_not (by omega)
      rw [hnext]
      rcases fs.headD .done with _ | j | j
      · exact (eraseOptsLoop_frame hl n (k + 1) _ _ (by omega)).trans (hout _)
      · exact (eraseOptsLoop_frame hl n (k + 1) _ _ (by omega)).trans (hout _)
      · exact hout j
    · rfl

theorem writeenvLoop_frame (buf : Mem) {x : ℕ} :
    ∀ (n k s : ℕ) (m : Mem) (fs : List Fate), x < o + k * c.erasesize ∨ o + c.span ≤ x →
      (writeenvLoop c buf (o + c.envRange) n (o + k * c.erasesize) s m fs).2.1 x = m x
  | 0, _, _, _, _, _ => rfl
  | n + 1, k, s, m, fs, hx => by
    have hnext : o + k * c.erasesize + c.erasesize = o + (k + 1) * c.erasesize := by ring
    rw [writeenvLoop]
    split_ifs with hgo hbad
    · rw [hnext]
      exact writeenvLoop_frame buf n (k + 1) s m fs (by omega)
    · have hblk := block_le_span hc (le_max_left c.envRange c.erasesize)
        (show k * c.erasesize < c.envRange by omega)
      have hlen : c.len ≤ c.erasesize := min_le_left _ _
      have hout : ∀ j, putBlock m (o + k * c.erasesize) c.erasesize j x = m x :=
        fun j => putBlock_of_not (by omega)
      rw [hnext]
      rcases fs.headD .done with _ | j | j
      · refine (writeenvLoop_frame buf n (k + 1) _ _ _ (by omega)).trans ?_
        rcases hx with hx | hx
        · exact Mem.store_of_lt _ _ hx
        · exact Mem.store_of_ge _ _ (by rw [Mem.length_load]; omega)
      · exact hout j
      · exact hout j
    all_goals rfl

/-- What is read of a region is in its blocks. -/
theorem readenvLoop_congr {m m' : Mem} (h : ∀ x, o ≤ x → x < o + c.span → m x = m' x) :
    ∀ (n k s : ℕ) (buf : Mem),
      readenvLoop c m (o + c.envRange) n (o + k * c.erasesize) s buf =
        readenvLoop c m' (o + c.envRange) n (o + k * c.erasesize) s buf
  | 0, _, _, _ => rfl
  | n + 1, k, s, buf => by
    have hnext : o + k * c.erasesize + c.erasesize = o + (k + 1) * c.erasesize := by ring
    rw [readenvLoop, readenvLoop]
    split_ifs with hgo hbad
    · rw [hnext]
      exact readenvLoop_congr h n (k + 1) s buf
    · have hblk := block_le_span hc (le_max_left c.envRange c.erasesize)
        (show k * c.erasesize < c.envRange by omega)
      have hlen : c.len ≤ c.erasesize := min_le_left _ _
      have hload : ∀ i < c.len, m (o + k * c.erasesize + i) = m' (o + k * c.erasesize + i) :=
        fun i hi => h _ (by omega) (by omega)
      rw [hnext, Mem.load_congr hload]
      exact readenvLoop_congr h n (k + 1) _ _
    · rfl

end Frame

section ReadBack

variable {c : NandEnv}

/-- Whether a read comes short does not depend on what is read. -/
theorem readenvLoop_fst (m m' : Mem) (stop : ℕ) : ∀ (n off s : ℕ) (b b' : Mem),
    (readenvLoop c m stop n off s b).1 = (readenvLoop c m' stop n off s b').1
  | 0, _, _, _, _ => rfl
  | n + 1, off, s, b, b' => by
    rw [readenvLoop, readenvLoop]
    split_ifs with hgo hbad
    · exact readenvLoop_fst m m' stop n _ s b b'
    · exact readenvLoop_fst m m' stop n _ (s + c.len) _ _
    · rfl

/-- The buffer before a read shows only if the read comes short. -/
theorem readenvLoop_heap (m : Mem) (stop : ℕ) : ∀ (n off s : ℕ) {b b' : Mem},
    (∀ x < s, b x = b' x) →
    (readenvLoop c m stop n off s b).1 = (readenvLoop c m stop n off s b').1 ∧
      ((readenvLoop c m stop n off s b).1 = true → ∀ x < c.envSize,
        (readenvLoop c m stop n off s b).2 x = (readenvLoop c m stop n off s b').2 x)
  | 0, _, _, _, _, _ => ⟨rfl, nofun⟩
  | n + 1, off, s, b, b', h => by
    rw [readenvLoop, readenvLoop]
    split_ifs with hgo hbad
    · exact readenvLoop_heap m stop n _ s h
    · refine readenvLoop_heap m stop n _ (s + c.len) fun x hx => ?_
      by_cases hxs : x < s
      · rw [Mem.store_of_lt _ _ hxs, Mem.store_of_lt _ _ hxs, h x hxs]
      · exact Mem.store_congr _ _ (by omega) (by rw [Mem.length_load]; omega)
    · refine ⟨rfl, fun hs x hx => h x ?_⟩
      rw [decide_eq_true_eq] at hs
      omega

theorem writeenvLoop_saved {buf : Mem} {stop : ℕ} : ∀ {n off s : ℕ} {m m' : Mem} {fs fs' :
    List Fate},
    writeenvLoop c buf stop n off s m fs = (.done, m', fs') → s ≤ c.envSize
  | 0, _, _, _, _, _, _, h => by cases h
  | n + 1, off, s, m, m', fs, fs', h => by
    rw [writeenvLoop] at h
    split_ifs at h with hgo hbad hs
    · exact hgo.1.le
    · exact hgo.1.le
    · cases h
    · omega

/-- What a write that succeeds leaves is read back. -/
theorem writeenvLoop_reads (hc : 0 < c.erasesize) {o : ℕ} {buf : Mem} :
    ∀ (n k s : ℕ) {m m' : Mem} {fs fs' : List Fate} (b : Mem),
      writeenvLoop c buf (o + c.envRange) n (o + k * c.erasesize) s m fs = (.done, m', fs') →
      (readenvLoop c m' (o + c.envRange) n (o + k * c.erasesize) s b).1 = true ∧
        ∀ x < c.envSize, (readenvLoop c m' (o + c.envRange) n (o + k * c.erasesize) s b).2 x =
          if s ≤ x then buf x else b x
  | 0, _, _, _, _, _, _, _, h => by cases h
  | n + 1, k, s, m, m', fs, fs', b, h => by
    have hnext : o + k * c.erasesize + c.erasesize = o + (k + 1) * c.erasesize := by ring
    rw [writeenvLoop] at h
    rw [readenvLoop]
    by_cases hgo : s < c.envSize ∧ o + k * c.erasesize < o + c.envRange
    · rw [if_pos hgo] at h ⊢
      by_cases hbad : c.isbad (o + k * c.erasesize) ≠ 0
      · rw [if_pos hbad, hnext] at h ⊢
        exact writeenvLoop_reads hc n (k + 1) s b h
      · rw [if_neg hbad, hnext] at h ⊢
        have hlen : c.len ≤ c.erasesize := min_le_left _ _
        rcases hf : fs.headD .done with _ | j | j <;> rw [hf] at h
        · dsimp only at h
          have hsaved := writeenvLoop_saved h
          have hblock : m'.load (o + k * c.erasesize) c.len = buf.load s c.len := by
            have hframe : ∀ i < c.len, m' (o + k * c.erasesize + i) =
                m.store (o + k * c.erasesize) (buf.load s c.len) (o + k * c.erasesize + i) := by
              intro i hi
              have hfr := writeenvLoop_frame (x := o + k * c.erasesize + i) hc (o := o)
                buf n (k + 1)
                (s + c.len) (m.store (o + k * c.erasesize) (buf.load s c.len)) fs.tail (by omega)
              rw [h] at hfr
              exact hfr
            rw [Mem.load_congr hframe]
            have := Mem.load_store_same m (o + k * c.erasesize) (buf.load s c.len)
            rwa [Mem.length_load] at this
          obtain ⟨hok, hread⟩ := writeenvLoop_reads hc n (k + 1) (s + c.len)
            (b.store s (m'.load (o + k * c.erasesize) c.len)) h
          refine ⟨hok, fun x hx => ?_⟩
          rw [hread x hx, hblock]
          by_cases h1 : s + c.len ≤ x
          · rw [if_pos h1, if_pos (by omega)]
          · rw [if_neg h1]
            by_cases h2 : s ≤ x
            · obtain ⟨i, rfl⟩ := Nat.exists_eq_add_of_le h2
              rw [if_pos h2, Mem.store_add _ _ _ (by rw [Mem.length_load]; omega), Mem.getElem_load]
            · rw [if_neg h2, Mem.store_of_lt _ _ (by omega)]
        · cases h
        · cases h
    · rw [if_neg hgo] at h ⊢
      split_ifs at h with hs
      · cases h
      · have hs' : s = c.envSize := by omega
        exact ⟨decide_eq_true hs', fun x hx => by rw [if_neg (by omega)]⟩

theorem writeenv_reads (hc : 0 < c.erasesize) {o : ℕ} {buf m m' : Mem} {fs fs' : List Fate}
    (h : writeenv c o buf m fs = (.done, m', fs')) (heap : Mem) :
    (readenv c o m' heap).1 = true ∧ ∀ x < c.envSize, (readenv c o m' heap).2 x = buf x := by
  have h0 : o + 0 * c.erasesize = o := by omega
  unfold writeenv at h
  rw [← h0, Nat.add_assoc, Nat.zero_mul, Nat.zero_add] at h
  obtain ⟨hok, hread⟩ := writeenvLoop_reads hc (o := o) (c.envRange + 1) 0 0 heap (by
    rw [h0]
    exact h)
  rw [h0] at hok hread
  refine ⟨hok, fun x hx => ?_⟩
  have := hread x hx
  rwa [if_pos (Nat.zero_le x)] at this

end ReadBack

section Copies

variable (c : NandEnv)

/-- What a boot finds of a copy, with an empty buffer. -/
def NandEnv.read (i : ℕ) (m : Mem) : Mem := (readenv c (c.offset i) m fun _ => 0).2

/-- The copy can be read whole and its checksum is right. -/
def NandEnv.good (i : ℕ) (m : Mem) : Bool :=
  (readenv c (c.offset i) m fun _ => 0).1 && c.crcOk (c.read i m)

/-- The copy that a boot takes, and what it has for an environment then. -/
def NandEnv.selected (m : Mem) : ℕ :=
  envSelect (c.good 1 m) (c.good 2 m) (envFlags (c.read 1 m)) (envFlags (c.read 2 m))

def NandEnv.current (m : Mem) : List UInt8 :=
  if c.selected m = 0 then c.data c.defaultEnv else c.data (c.read (c.selected m) m)

/-- The other copy. -/
def other (v : ℕ) : ℕ := if v = 1 then 2 else 1

variable {c}

theorem data_congr {m m' : Mem} (hc : ENV_HEADER_SIZE ≤ c.envSize) (h : ∀ x < c.envSize,
    m x = m' x) :
    c.data m = c.data m' ∧ c.crcOk m = c.crcOk m' ∧ envFlags m = envFlags m' := by
  have hdata : c.data m = c.data m' := by
    refine Mem.load_congr fun i hi => h _ ?_
    unfold NandEnv.dataSize at hi
    omega
  have h5 : ∀ x < 5, m x = m' x := fun x hx => h x (hx.trans_le hc)
  refine ⟨hdata, ?_, h5 4 (by decide)⟩
  have hcrc : m.get32 0 = m'.get32 0 := by
    simp only [Mem.get32, Mem.get16, h5 0 (by decide), h5 (0 + 1) (by decide),
      h5 (0 + 2) (by decide),
      h5 (0 + 2 + 1) (by decide)]
  rw [NandEnv.crcOk, NandEnv.crcOk, hdata, hcrc]

theorem flags_store (m : Mem) (b : UInt8) :
    c.data (m.store 4 [b]) = c.data m ∧ c.crcOk (m.store 4 [b]) = c.crcOk m ∧
      envFlags (m.store 4 [b]) = b := by
  have hdata : c.data (m.store 4 [b]) = c.data m :=
    Mem.load_congr fun i _ => Mem.store_of_ge _ _ (by
      rw [List.length_singleton]
      unfold ENV_HEADER_SIZE
      omega)
  have hlow : ∀ x < 4, m.store 4 [b] x = m x := fun x hx => Mem.store_of_lt _ _ hx
  refine ⟨hdata, ?_, Mem.store_add m 4 [b] (i := 0) Nat.one_pos⟩
  have hcrc : (m.store 4 [b]).get32 0 = m.get32 0 := by
    simp only [Mem.get32, Mem.get16, hlow 0 (by decide), hlow (0 + 1) (by decide),
      hlow (0 + 2) (by decide), hlow (0 + 2 + 1) (by decide)]
  rw [NandEnv.crcOk, NandEnv.crcOk, hdata, hcrc]

theorem readenv_heap (o : ℕ) (m b b' : Mem) :
    (readenv c o m b).1 = (readenv c o m b').1 ∧ ((readenv c o m b).1 = true →
      ∀ x < c.envSize, (readenv c o m b).2 x = (readenv c o m b').2 x) :=
  readenvLoop_heap m _ _ _ 0 fun x hx => absurd hx (Nat.not_lt_zero x)

/-- A copy that was right once is read whole. -/
theorem readenv_whole {i : ℕ} {m : Mem} (h : c.good i m = true) (m' b : Mem) :
    (readenv c (c.offset i) m' b).1 = true := by
  rw [NandEnv.good, Bool.and_eq_true] at h
  exact (readenvLoop_fst m' m _ _ _ 0 b _).trans h.1

theorem readenv_congr (hc : 0 < c.erasesize) {o : ℕ} {m m' : Mem}
    (h : ∀ x, o ≤ x → x < o + c.span → m x = m' x) (b : Mem) : readenv c o m b =
      readenv c o m' b := by
  have := readenvLoop_congr hc h (c.envRange + 1) 0 0 b
  rwa [Nat.zero_mul, Nat.add_zero] at this

/-- The regions of the two copies are apart. -/
theorem NandEnv.Valid.offsets (h : c.Valid) {v : ℕ} (hv : v = 1 ∨ v = 2) :
    c.offset (other v) + c.span ≤ c.offset v ∨ c.offset v + c.span ≤ c.offset (other v) := by
  have := h.apart
  rcases hv with rfl | rfl
  · exact this.symm
  · exact this

/-- `saveenv` in terms of the copy that is not in use. -/
theorem saveenv_eq {r : EnvRam} (hv : r.valid = 1 ∨ r.valid = 2) (m : Mem) (fs : List Fate) :
    saveenv c r m fs =
      let env := r.env.store 4 [envFlags r.env + 1]
      if c.envRange < c.envSize then (.failed, ⟨env, r.valid⟩, m)
      else
        match nandEraseOpts c (c.offset (other r.valid)) c.envRange m fs with
        | (.done, m, fs) =>
          match writeenv c (c.offset (other r.valid)) env m fs with
          | (.done, m, _) => (.done, ⟨env, other r.valid⟩, m)
          | (e, m, _) => (e, ⟨env, r.valid⟩, m)
        | (e, m, _) => (e, ⟨env, r.valid⟩, m) := by
  obtain ⟨env, v⟩ := r
  rcases hv with rfl | rfl <;> rfl

variable (h : c.Valid) {r : EnvRam} (hv : r.valid = 1 ∨ r.valid = 2)
include h hv

/-- A save keeps to the region of the copy that is not in use. -/
theorem saveenv_frame (m : Mem) (fs : List Fate) {x : ℕ}
    (hx : x < c.offset (other r.valid) ∨ c.offset (other r.valid) + c.span ≤ x) :
    (saveenv c r m fs).2.2 x = m x := by
  have herase : (nandEraseOpts c (c.offset (other r.valid)) c.envRange m fs).2.1 x = m x := by
    have := eraseOptsLoop_frame (x := x) h.erasesize_pos (o := c.offset (other r.valid)) le_rfl
      (max c.envRange c.erasesize) 0 m fs (by omega)
    rwa [Nat.zero_mul, Nat.add_zero] at this
  have hwrite : ∀ buf m fs, (writeenv c (c.offset (other r.valid)) buf m fs).2.1 x = m x := by
    intro buf m fs
    have := writeenvLoop_frame (x := x) h.erasesize_pos (o := c.offset (other r.valid)) buf
      (c.envRange + 1) 0 0 m fs (by omega)
    rwa [Nat.zero_mul, Nat.add_zero] at this
  rw [saveenv_eq hv]
  dsimp only
  split_ifs
  · rfl
  rcases he : nandEraseOpts c (c.offset (other r.valid)) c.envRange m fs with ⟨e, m1, fs1⟩
  rw [he] at herase
  rcases e with _ | _ | _
  · have hwr := hwrite (r.env.store 4 [envFlags r.env + 1]) m1 fs1
    rcases hw : writeenv c (c.offset (other r.valid)) (r.env.store 4 [envFlags r.env + 1])
      m1 fs1 with
      ⟨e, m2, fs2⟩
    rw [hw] at hwr
    dsimp only at hwr ⊢
    rw [hw]
    rcases e with _ | _ | _ <;> exact hwr.trans herase
  · exact herase
  · exact herase

/-- The copy in use reads as before. -/
theorem saveenv_keeps (m : Mem) (fs : List Fate) (heap : Mem) :
    readenv c (c.offset r.valid) (saveenv c r m fs).2.2 heap =
      readenv c (c.offset r.valid) m heap := by
  have := h.offsets hv
  exact readenv_congr h.erasesize_pos (fun x h1 h2 => saveenv_frame h hv m fs (by omega)) heap

omit h in
/-- How a save ends: with the environment written and its copy in use, or with the copy in use as
before. The flags are counted on in any case. -/
theorem saveenv_cases (m : Mem) (fs : List Fate) :
    (∃ m1 fs1 m2 fs2, writeenv c (c.offset (other r.valid)) (r.env.store 4 [envFlags r.env + 1]) m1
      fs1 =
        (.done, m2, fs2) ∧
      saveenv c r m fs = (.done, ⟨r.env.store 4 [envFlags r.env + 1], other r.valid⟩, m2)) ∨
    ∃ e m2, e ≠ .done ∧
      saveenv c r m fs = (e, ⟨r.env.store 4 [envFlags r.env + 1], r.valid⟩, m2) := by
  rw [saveenv_eq hv]
  dsimp only
  split_ifs with hsize
  · exact Or.inr ⟨.failed, m, nofun, rfl⟩
  rcases nandEraseOpts c (c.offset (other r.valid)) c.envRange m fs with ⟨e, m1, fs1⟩
  rcases e with _ | _ | _
  · rcases hw : writeenv c (c.offset (other r.valid)) (r.env.store 4 [envFlags r.env + 1])
      m1 fs1 with
      ⟨e, m2, fs2⟩
    dsimp only
    rw [hw]
    rcases e with _ | _ | _
    · exact Or.inl ⟨m1, fs1, m2, fs2, hw, rfl⟩
    · exact Or.inr ⟨.failed, m2, nofun, rfl⟩
    · exact Or.inr ⟨.lost, m2, nofun, rfl⟩
  · exact Or.inr ⟨.failed, m1, nofun, rfl⟩
  · exact Or.inr ⟨.lost, m1, nofun, rfl⟩

/-- A save that completes leaves a copy that reads as what was saved. -/
theorem saveenv_reads {m : Mem} {fs : List Fate} (hdone : (saveenv c r m fs).1 = .done)
    (heap : Mem) :
    (readenv c (c.offset (other r.valid)) (saveenv c r m fs).2.2 heap).1 = true ∧
      ∀ x < c.envSize, (readenv c (c.offset (other r.valid)) (saveenv c r m fs).2.2 heap).2 x =
        r.env.store 4 [envFlags r.env + 1] x := by
  rcases saveenv_cases hv m fs with ⟨m1, fs1, m2, fs2, hw, heq⟩ | ⟨e, m2, hne, heq⟩
  · rw [heq]
    exact writeenv_reads h.erasesize_pos hw heap
  · rw [heq] at hdone
    exact absurd hdone hne

end Copies

section Select

/-- The flags of copy `v` come after those of the other copy, or are the same and it is the
first. -/
def Supersedes (v : ℕ) (new old : UInt8) : Prop :=
  old = 255 ∧ new = 0 ∨ ¬(old = 0 ∧ new = 255) ∧ (old < new ∨ old = new ∧ v = 1)

instance (v : ℕ) (new old : UInt8) : Decidable (Supersedes v new old) :=
  inferInstanceAs (Decidable (_ ∧ _ ∨ ¬(_ ∧ _) ∧ (_ ∨ _ ∧ _)))

/-- One more than the flags, counted on once. -/
theorem supersedes_succ (v : ℕ) (old : UInt8) : Supersedes v (old + 1) old := by
  by_cases h : old = 255
  · exact Or.inl ⟨h, by rw [h]; decide⟩
  · refine Or.inr ⟨?_, Or.inl ?_⟩
    · rintro ⟨rfl, h0⟩
      exact absurd h0 (by decide)
    · have hlt : old.toNat < 255 := by
        have := old.toNat_lt
        have hne : old.toNat ≠ 255 := fun he => h (UInt8.toNat_inj.1 he)
        omega
      rw [UInt8.lt_iff_toNat_lt, UInt8.toNat_add]
      change old.toNat < (old.toNat + 1) % 256
      omega

theorem envSelect_one (f1 f2 : UInt8) : envSelect true true f1 f2 = 1 ↔ Supersedes 1 f1 f2 := by
  unfold envSelect Supersedes
  simp only [Bool.true_eq_false, and_self, and_false, if_false, and_true]
  have hle : ¬f2 > f1 ↔ f2 < f1 ∨ f2 = f1 := by
    simp only [gt_iff_lt, UInt8.lt_iff_toNat_lt, ← UInt8.toNat_inj]
    omega
  split_ifs with h1 h2 h3 h4
  · refine iff_of_false (by decide) ?_
    rintro (⟨h, -⟩ | ⟨h, -⟩)
    · rw [h1.2] at h
      exact absurd h (by decide)
    · exact h ⟨h1.2, h1.1⟩
  · exact iff_of_true rfl (Or.inl h2)
  · exact iff_of_true rfl (Or.inr ⟨fun h => h1 ⟨h.2, h.1⟩, Or.inl h3⟩)
  · refine iff_of_false (by decide) ?_
    rintro (h | ⟨-, h⟩)
    · exact h2 h
    · exact hle.2 h h4
  · exact iff_of_true rfl (Or.inr ⟨fun h => h1 ⟨h.2, h.1⟩, hle.1 h4⟩)

theorem envSelect_two (f1 f2 : UInt8) : envSelect true true f1 f2 = 2 ↔ Supersedes 2 f2 f1 := by
  unfold envSelect Supersedes
  simp only [Bool.true_eq_false, and_self, and_false, false_and, if_false, or_false,
    (by decide : ¬(2 : ℕ) = 1)]
  split_ifs with h1 h2 h3 h4
  · exact iff_of_true rfl (Or.inl h1)
  · refine iff_of_false (by decide) ?_
    rintro (h | ⟨h, -⟩)
    · exact h1 h
    · exact h ⟨h2.2, h2.1⟩
  · refine iff_of_false (by decide) ?_
    rintro (h | ⟨-, h⟩)
    · exact h1 h
    · exact UInt8.lt_asymm h h3
  · exact iff_of_true rfl (Or.inr ⟨fun h => h2 ⟨h.2, h.1⟩, h4⟩)
  · refine iff_of_false (by decide) ?_
    rintro (h | ⟨-, h⟩)
    · exact h1 h
    · exact h4 h

variable {c : NandEnv} {m : Mem}

theorem selected_cases (m : Mem) : c.selected m = 0 ∨ c.selected m = 1 ∨ c.selected m = 2 := by
  unfold NandEnv.selected envSelect
  split_ifs <;> simp

theorem selected_zero : c.selected m = 0 ↔ c.good 1 m = false ∧ c.good 2 m = false := by
  unfold NandEnv.selected envSelect
  rcases c.good 1 m <;> rcases c.good 2 m <;> simp
  split_ifs <;> simp

/-- When a boot takes copy `v`. -/
theorem selected_eq {v : ℕ} (hv : v = 1 ∨ v = 2) : c.selected m = v ↔
    c.good v m = true ∧ (c.good (other v) m = true →
      Supersedes v (envFlags (c.read v m)) (envFlags (c.read (other v) m))) := by
  rcases hv with rfl | rfl
  · change envSelect _ _ _ _ = 1 ↔ c.good 1 m = true ∧ (c.good 2 m = true → _)
    rcases c.good 1 m <;> rcases c.good 2 m
    · simp [envSelect]
    · simp [envSelect]
    · simp [envSelect]
    · simp only [true_and, true_imp_iff]
      exact envSelect_one _ _
  · change envSelect _ _ _ _ = 2 ↔ c.good 2 m = true ∧ (c.good 1 m = true → _)
    rcases c.good 1 m <;> rcases c.good 2 m
    · simp [envSelect]
    · simp [envSelect]
    · simp [envSelect]
    · simp only [true_and, true_imp_iff]
      exact envSelect_two _ _

/-- A buffer that a copy does not fill has no right checksum by chance. -/
def NandEnv.Filled (c : NandEnv) (m heap1 heap2 : Mem) : Prop :=
  ((readenv c c.envOffset m heap1).1 = false → c.crcOk (readenv c c.envOffset m heap1).2 = false) ∧
    ((readenv c c.envOffsetRedund m heap2).1 = false →
      c.crcOk (readenv c c.envOffsetRedund m heap2).2 = false)

theorem good_heap (hc : ENV_HEADER_SIZE ≤ c.envSize) (i : ℕ) (heap : Mem)
    (h : (readenv c (c.offset i) m heap).1 = false →
      c.crcOk (readenv c (c.offset i) m heap).2 = false) :
    c.crcOk (readenv c (c.offset i) m heap).2 = c.good i m ∧ (c.good i m = true →
      envFlags (readenv c (c.offset i) m heap).2 = envFlags (c.read i m) ∧
        c.data (readenv c (c.offset i) m heap).2 = c.data (c.read i m)) := by
  obtain ⟨hok, hsame⟩ := readenv_heap (c := c) (c.offset i) m heap fun _ => 0
  unfold NandEnv.good
  rcases hr : (readenv c (c.offset i) m heap).1
  · rw [hr] at hok
    rw [h hr, ← hok]
    exact ⟨rfl, nofun⟩
  · obtain ⟨hdata, hcrc, hflags⟩ := data_congr hc (hsame hr)
    rw [hr] at hok
    rw [← hok, Bool.true_and, hcrc]
    exact ⟨rfl, fun _ => ⟨hflags, hdata⟩⟩

theorem envSelect_heap (hc : ENV_HEADER_SIZE ≤ c.envSize) {heap1 heap2 : Mem}
    (h : c.Filled m heap1 heap2) :
    envSelect (c.crcOk (readenv c c.envOffset m heap1).2)
      (c.crcOk (readenv c c.envOffsetRedund m heap2).2) (envFlags (readenv c c.envOffset m heap1).2)
      (envFlags (readenv c c.envOffsetRedund m heap2).2) = c.selected m := by
  obtain ⟨hgood1, hread1⟩ := good_heap hc 1 heap1 h.1
  obtain ⟨hgood2, hread2⟩ := good_heap hc 2 heap2 h.2
  change envSelect (c.crcOk (readenv c (c.offset 1) m heap1).2)
    (c.crcOk (readenv c (c.offset 2) m heap2).2) (envFlags (readenv c (c.offset 1) m heap1).2)
    (envFlags (readenv c (c.offset 2) m heap2).2) = _
  rw [hgood1, hgood2, NandEnv.selected]
  rcases hg1 : c.good 1 m <;> rcases hg2 : c.good 2 m
  · rfl
  · rfl
  · rfl
  · rw [(hread1 hg1).1, (hread2 hg2).1]

/-- What a boot takes. -/
theorem envRelocateSpec_selects (hc : ENV_HEADER_SIZE ≤ c.envSize) {heap1 heap2 : Mem}
    (h : c.Filled m heap1 heap2) :
    (envRelocateSpec c m heap1 heap2).valid = (if c.selected m = 0 then 1 else c.selected m) ∧
      c.data (envRelocateSpec c m heap1 heap2).env = c.current m := by
  unfold envRelocateSpec
  dsimp only
  rw [envSelect_heap hc h]
  rcases selected_cases (c := c) m with h0 | h1 | h2
  · rw [NandEnv.current, h0]
    exact ⟨rfl, rfl⟩
  · rw [NandEnv.current, h1]
    exact ⟨rfl, ((good_heap hc 1 heap1 h.1).2 ((selected_eq (Or.inl rfl)).1 h1).1).2⟩
  · rw [NandEnv.current, h2]
    exact ⟨rfl, ((good_heap hc 2 heap2 h.2).2 ((selected_eq (Or.inr rfl)).1 h2).1).2⟩

end Select

end InfotmUboot
