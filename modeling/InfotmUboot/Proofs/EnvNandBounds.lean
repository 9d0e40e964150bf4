import InfotmUboot.Lib.SkipBad
import InfotmUboot.Proofs.EnvNand

/-!
# What the loops of the environment touch

`writeenv` and `readenv` go over the same good blocks of the range and stop at the same one, so what
was written with success is read back. But each transfer has the same length, and the last one may
end behind the buffer, or behind the range if this does not end with a block. `env_nand_right_iff`
says when that happens.
-/

namespace InfotmUboot

open Lib

section Walk

variable (c : NandEnv) (o : ℕ)

/-- Whether block `k` of a copy is passed over. -/
def NandEnv.badAt (k : ℕ) : Bool := c.isbad (o + k * c.erasesize) ≠ 0

/-- The blocks that begin in the range. -/
def NandEnv.blocks : ℕ := (c.envRange + c.erasesize - 1) / c.erasesize

/-- The loops look at block `k`, if they come that far. -/
def NandEnv.Active (k : ℕ) : Prop :=
  k * c.erasesize < c.envRange ∧ goods (c.badAt o) k * c.len < c.envSize

/-- The flash after `k` blocks of `writeenv`. -/
def NandEnv.written (c : NandEnv) (o : ℕ) (buf : Mem) : ℕ → Mem → Mem
  | 0, m => m
  | k + 1, m =>
    if c.badAt o k then NandEnv.written c o buf k m
    else (NandEnv.written c o buf k m).store (o + k * c.erasesize)
      (buf.load (goods (c.badAt o) k * c.len) c.len)

/-- The buffer after `k` blocks of `readenv`. -/
def NandEnv.loaded (c : NandEnv) (o : ℕ) (m : Mem) : ℕ → Mem → Mem
  | 0, heap => heap
  | k + 1, heap =>
    if c.badAt o k then NandEnv.loaded c o m k heap
    else (NandEnv.loaded c o m k heap).store (goods (c.badAt o) k * c.len)
      (m.load (o + k * c.erasesize) c.len)

variable {c o} (hc : 0 < c.erasesize)

theorem badAt_iff {k : ℕ} : c.badAt o k = true ↔ c.isbad (o + k * c.erasesize) ≠ 0 :=
  decide_eq_true_iff

theorem goods_zero (bad : ℕ → Bool) : goods bad 0 = 0 := Nat.count_zero _

theorem passed_mul {k : ℕ} (h : c.badAt o k = false) :
    goods (c.badAt o) (k + 1) * c.len = goods (c.badAt o) k * c.len + c.len := by
  rw [goods_succ _ h, Nat.add_mul, Nat.one_mul]

theorem writeenvLoop_passes (buf : Mem) : ∀ (k n : ℕ) {m : Mem}, (∀ j < k, c.Active o j) →
    writeenvLoop c buf (o + c.envRange) (n + k) o 0 m [] =
      writeenvLoop c buf (o + c.envRange) n (o + k * c.erasesize) (goods (c.badAt o) k * c.len)
        (c.written o buf k m) []
  | 0, n, m, _ => by rw [Nat.zero_mul, goods_zero, Nat.zero_mul]; rfl
  | k + 1, n, m, h => by
    obtain ⟨hin, hneed⟩ := h k (Nat.lt_succ_self k)
    have hnext : o + k * c.erasesize + c.erasesize = o + (k + 1) * c.erasesize := by ring
    rw [← Nat.add_assoc, Nat.add_right_comm, writeenvLoop_passes buf k (n + 1) fun j hj =>
      h j (Nat.lt_succ_of_lt hj), writeenvLoop, if_pos ⟨hneed, by omega⟩, hnext, NandEnv.written]
    rcases hb : c.badAt o k with _ | _
    · have hgood : ¬c.isbad (o + k * c.erasesize) ≠ 0 := by
        rw [← badAt_iff, hb]
        exact Bool.false_ne_true
      rw [if_neg hgood, if_neg Bool.false_ne_true, passed_mul hb]
      rfl
    · rw [if_pos (badAt_iff.1 hb), if_pos rfl, goods_succ_bad _ hb]

theorem readenvLoop_passes (m : Mem) : ∀ (k n : ℕ) {heap : Mem}, (∀ j < k, c.Active o j) →
    readenvLoop c m (o + c.envRange) (n + k) o 0 heap =
      readenvLoop c m (o + c.envRange) n (o + k * c.erasesize) (goods (c.badAt o) k * c.len)
        (c.loaded o m k heap)
  | 0, n, heap, _ => by rw [Nat.zero_mul, goods_zero, Nat.zero_mul]; rfl
  | k + 1, n, heap, h => by
    obtain ⟨hin, hneed⟩ := h k (Nat.lt_succ_self k)
    have hnext : o + k * c.erasesize + c.erasesize = o + (k + 1) * c.erasesize := by ring
    rw [← Nat.add_assoc, Nat.add_right_comm, readenvLoop_passes m k (n + 1) fun j hj =>
      h j (Nat.lt_succ_of_lt hj), readenvLoop, if_pos ⟨hneed, by omega⟩, hnext, NandEnv.loaded]
    rcases hb : c.badAt o k with _ | _
    · have hgood : ¬c.isbad (o + k * c.erasesize) ≠ 0 := by
        rw [← badAt_iff, hb]
        exact Bool.false_ne_true
      rw [if_neg hgood, if_neg Bool.false_ne_true, passed_mul hb]
    · rw [if_pos (badAt_iff.1 hb), if_pos rfl, goods_succ_bad _ hb]

/-- Where both loops stop. -/
structure NandEnv.Stops (c : NandEnv) (o e : ℕ) : Prop where
  active : ∀ k < e, c.Active o k
  stop : ¬c.Active o e
  write_eq : ∀ buf m, (writeenv c o buf m []).2.1 = c.written o buf e m
  read_eq : ∀ m heap, (readenv c o m heap).2 = c.loaded o m e heap

include hc

theorem lt_blocks {k : ℕ} : k < c.blocks ↔ k * c.erasesize < c.envRange := by
  rw [NandEnv.blocks, ← Nat.succ_le_iff, Nat.le_div_iff_mul_le hc, Nat.succ_mul]
  omega

theorem exists_stops : ∃ e, c.Stops o e := by
  classical
  have hex : ∃ k, ¬c.Active o k := ⟨c.blocks, fun h => absurd ((lt_blocks hc).2 h.1) (lt_irrefl _)⟩
  obtain ⟨e, he⟩ : ∃ e, e = Nat.find hex := ⟨_, rfl⟩
  have hstop : ¬c.Active o e := he ▸ Nat.find_spec hex
  have hactive : ∀ k < e, c.Active o k := fun k hk => not_not.1 (Nat.find_min hex (he ▸ hk))
  have hle : e ≤ c.envRange := by
    rcases Nat.eq_zero_or_pos e with h0 | hpos
    · omega
    · have hlast := (hactive (e - 1) (by omega)).1
      have := Nat.le_mul_of_pos_right (e - 1) hc
      omega
  have hfuel : c.envRange + 1 = c.envRange - e + 1 + e := by omega
  have hend : ¬(goods (c.badAt o) e * c.len < c.envSize ∧
      o + e * c.erasesize < o + c.envRange) := fun h => hstop ⟨by omega, h.1⟩
  refine ⟨e, hactive, hstop, fun buf m => ?_, fun m heap => ?_⟩
  · rw [writeenv, hfuel, writeenvLoop_passes buf e _ hactive, writeenvLoop, if_neg hend]
  · rw [readenv, hfuel, readenvLoop_passes m e _ hactive, readenvLoop, if_neg hend]

/-- A block that begins in the range and that the good blocks before do not make up for is
visited. -/
theorem NandEnv.Stops.lt {e k : ℕ} (h : c.Stops o e) (hk : c.Active o k) : k < e := by
  by_contra hle
  have hgoods := goods_mono (c.badAt o) (Nat.not_lt.1 hle)
  have hin := (lt_blocks hc).2 hk.1
  exact h.stop ⟨(lt_blocks hc).1 (by omega),
    lt_of_le_of_lt (Nat.mul_le_mul_right _ hgoods) hk.2⟩

end Walk

section Bounds

variable {c : NandEnv} {o : ℕ}

/-- The transfer of each good block up to `e` stays in the range and in the buffer. -/
def NandEnv.InBounds (c : NandEnv) (o e : ℕ) : Prop :=
  ∀ k < e, c.badAt o k = false → k * c.erasesize + c.len ≤ c.envRange ∧
    goods (c.badAt o) k * c.len + c.len ≤ c.envSize

theorem written_frame {buf m : Mem} {x : ℕ} (hx : x < o ∨ o + c.envRange ≤ x) :
    ∀ {e : ℕ}, c.InBounds o e → c.written o buf e m x = m x
  | 0, _ => rfl
  | e + 1, h => by
    have ih : c.written o buf e m x = m x :=
      written_frame hx fun k hk => h k (Nat.lt_succ_of_lt hk)
    rw [NandEnv.written]
    split_ifs with hb
    · exact ih
    · have := (h e (Nat.lt_succ_self e) (by simpa using hb)).1
      have hlen := Mem.length_load buf (goods (c.badAt o) e * c.len) c.len
      rw [← ih]
      rcases hx with hx | hx
      · exact Mem.store_of_lt _ _ (by omega)
      · exact Mem.store_of_ge _ _ (by omega)

theorem written_congr {buf buf' m : Mem} (hbuf : ∀ i < c.envSize, buf i = buf' i) :
    ∀ {e : ℕ}, c.InBounds o e → c.written o buf e m = c.written o buf' e m
  | 0, _ => rfl
  | e + 1, h => by
    have ih : c.written o buf e m = c.written o buf' e m :=
      written_congr hbuf fun k hk => h k (Nat.lt_succ_of_lt hk)
    rw [NandEnv.written, NandEnv.written, ih]
    split_ifs with hb
    · rfl
    · have := (h e (Nat.lt_succ_self e) (by simpa using hb)).2
      rw [Mem.load_congr fun i hi => hbuf _ (by omega)]

theorem loaded_frame {m heap : Mem} {x : ℕ} (hx : c.envSize ≤ x) :
    ∀ {e : ℕ}, c.InBounds o e → c.loaded o m e heap x = heap x
  | 0, _ => rfl
  | e + 1, h => by
    have ih : c.loaded o m e heap x = heap x :=
      loaded_frame hx fun k hk => h k (Nat.lt_succ_of_lt hk)
    rw [NandEnv.loaded]
    split_ifs with hb
    · exact ih
    · have := (h e (Nat.lt_succ_self e) (by simpa using hb)).2
      rw [← ih]
      exact Mem.store_of_ge _ _ (by rw [Mem.length_load]; omega)

theorem loaded_congr {m m' heap : Mem} (hm : ∀ x, o ≤ x → x < o + c.envRange → m x = m' x) :
    ∀ {e : ℕ}, c.InBounds o e → c.loaded o m e heap = c.loaded o m' e heap
  | 0, _ => rfl
  | e + 1, h => by
    have ih : c.loaded o m e heap = c.loaded o m' e heap :=
      loaded_congr hm fun k hk => h k (Nat.lt_succ_of_lt hk)
    rw [NandEnv.loaded, NandEnv.loaded, ih]
    split_ifs with hb
    · rfl
    · have := (h e (Nat.lt_succ_self e) (by simpa using hb)).1
      rw [Mem.load_congr fun i hi => hm _ (by omega) (by omega)]

/-- A one stays where it was stored as long as ones are. -/
theorem store_ones {m : Mem} {a b n x : ℕ} (h : a ≤ x ∧ x < a + n ∨ m x = 1) :
    m.store a (Mem.load (fun _ => 1) b n) x = 1 := by
  by_cases hin : a ≤ x ∧ x < a + n
  · obtain ⟨i, rfl⟩ := Nat.exists_eq_add_of_le hin.1
    rw [Mem.store_add _ _ _ (by rw [Mem.length_load]; omega), Mem.getElem_load]
  · rw [Mem.store, Mem.length_load, if_neg hin]
    exact h.resolve_left hin

theorem written_ones {m : Mem} {k x : ℕ} (hb : c.badAt o k = false)
    (hx : o + k * c.erasesize ≤ x ∧ x < o + k * c.erasesize + c.len) :
    ∀ {e : ℕ}, k < e → c.written o (fun _ => 1) e m x = 1
  | 0, h => absurd h (Nat.not_lt_zero k)
  | e + 1, h => by
    rw [NandEnv.written]
    by_cases hk : k = e
    · subst hk
      rw [if_neg (by rw [hb]; exact Bool.false_ne_true)]
      exact store_ones (Or.inl hx)
    · have ih : c.written o (fun _ => 1) e m x = 1 := written_ones hb hx (by omega)
      split_ifs
      · exact ih
      · exact store_ones (Or.inr ih)

theorem loaded_ones {heap : Mem} {k x : ℕ} (hb : c.badAt o k = false)
    (hx : goods (c.badAt o) k * c.len ≤ x ∧ x < goods (c.badAt o) k * c.len + c.len) :
    ∀ {e : ℕ}, k < e → c.loaded o (fun _ => 1) e heap x = 1
  | 0, h => absurd h (Nat.not_lt_zero k)
  | e + 1, h => by
    rw [NandEnv.loaded]
    by_cases hk : k = e
    · subst hk
      rw [if_neg (by rw [hb]; exact Bool.false_ne_true)]
      exact store_ones (Or.inl hx)
    · have ih : c.loaded o (fun _ => 1) e heap x = 1 := loaded_ones hb hx (by omega)
      split_ifs
      · exact ih
      · exact store_ones (Or.inr ih)

end Bounds

section Right

variable (c : NandEnv) (o : ℕ)

/-- What was written with success is read back with success. As long as the flash does what it is
told, `writeenv` changes no byte outside the range and uses none outside the buffer, and `readenv`
changes none outside the buffer and uses none outside the range. -/
structure EnvNandRight : Prop where
  reads : ∀ buf m fs m' fs' heap, writeenv c o buf m fs = (.done, m', fs') →
    (readenv c o m' heap).1 = true ∧
      (readenv c o m' heap).2.load 0 c.envSize = buf.load 0 c.envSize
  write_range : ∀ buf m x, x < o ∨ o + c.envRange ≤ x → (writeenv c o buf m []).2.1 x = m x
  write_buf : ∀ buf buf' m, (∀ i < c.envSize, buf i = buf' i) →
    (writeenv c o buf m []).2.1 = (writeenv c o buf' m []).2.1
  read_buf : ∀ m heap x, c.envSize ≤ x → (readenv c o m heap).2 x = heap x
  read_range : ∀ m m' heap, (∀ x, o ≤ x → x < o + c.envRange → m x = m' x) →
    (readenv c o m heap).2 = (readenv c o m' heap).2

/-- The environment is a whole number of transfers, or the range has not enough good blocks for it;
and the block in which the range ends, if it ends inside one, has room for a transfer, is bad or is
not needed. -/
def EnvNandFits : Prop :=
  (c.len ∣ c.envSize ∨ goods (c.badAt o) c.blocks * c.len < c.envSize) ∧
    (c.envRange % c.erasesize = 0 ∨ c.len ≤ c.envRange % c.erasesize ∨
      c.badAt o (c.envRange / c.erasesize) = true ∨
      c.envSize ≤ goods (c.badAt o) (c.envRange / c.erasesize) * c.len)

variable {c o} (hc : 0 < c.erasesize)
include hc

theorem fits_of_inBounds {e : ℕ} (h : c.Stops o e) (hin : c.InBounds o e) : EnvNandFits c o := by
  constructor
  · by_contra hno
    rw [not_or] at hno
    obtain ⟨hdvd, hmany⟩ := hno
    have hpos : 0 < c.len := Nat.pos_of_ne_zero fun h0 => by
      have : c.envSize = 0 := by
        unfold NandEnv.len at h0
        omega
      exact hdvd (this ▸ Nat.dvd_zero c.len)
    -- the transfer that the end of the environment falls into
    have hdiv := Nat.div_add_mod' c.envSize c.len
    have hmod : c.envSize % c.len ≠ 0 := fun h0 => hdvd (Nat.dvd_of_mod_eq_zero h0)
    have hlt := Nat.mod_lt c.envSize hpos
    have hq : c.envSize / c.len < goods (c.badAt o) c.blocks := by
      rw [Nat.div_lt_iff_lt_mul hpos]
      refine lt_of_le_of_ne (Nat.not_lt.1 hmany) fun heq => hdvd ?_
      rw [heq]
      exact Nat.dvd_mul_left _ _
    obtain ⟨k, hk, hgood, hcount⟩ := exists_goods hq
    have hactive : c.Active o k := ⟨(lt_blocks hc).1 hk, by rw [hcount]; omega⟩
    have := (hin k (h.lt hc hactive) hgood).2
    rw [hcount] at this
    omega
  · by_contra hno
    simp only [not_or, Nat.not_le, Bool.not_eq_true] at hno
    obtain ⟨hmod, hlen, hgood, hneed⟩ := hno
    have hdiv := Nat.div_add_mod' c.envRange c.erasesize
    have hactive : c.Active o (c.envRange / c.erasesize) := ⟨by omega, hneed⟩
    have := (hin _ (h.lt hc hactive) hgood).1
    omega

theorem inBounds_of_fits {e : ℕ} (h : c.Stops o e) (hfit : EnvNandFits c o) : c.InBounds o e := by
  intro k hk hb
  obtain ⟨hrange, hneed⟩ := h.active k hk
  obtain ⟨hwhole, hlast⟩ := hfit
  have hle : c.len ≤ c.erasesize := min_le_left _ _
  constructor
  · have hdiv := Nat.div_add_mod' c.envRange c.erasesize
    rcases Nat.lt_or_ge k (c.envRange / c.erasesize) with hlt | hge
    · have := Nat.mul_le_mul_right c.erasesize (Nat.succ_le_of_lt hlt)
      rw [Nat.succ_mul] at this
      omega
    · have heq : k = c.envRange / c.erasesize :=
        le_antisymm ((Nat.le_div_iff_mul_le hc).2 hrange.le) hge
      rw [← heq] at hlast hdiv
      rcases hlast with hmod | hroom | hbad | henough
      · omega
      · omega
      · exact absurd hbad (by rw [hb]; exact Bool.false_ne_true)
      · omega
  · have hnext : goods (c.badAt o) (k + 1) * c.len = _ := passed_mul hb
    have hcount := goods_mono (c.badAt o) (Nat.succ_le_of_lt ((lt_blocks hc).2 hrange))
    rcases hwhole with ⟨q, hq⟩ | hfew
    · have hlt : goods (c.badAt o) k < q := by
        rw [hq, Nat.mul_comm] at hneed
        exact Nat.lt_of_mul_lt_mul_left hneed
      have := Nat.mul_le_mul_right c.len (Nat.succ_le_of_lt hlt)
      rw [Nat.succ_mul, Nat.mul_comm q, ← hq] at this
      exact this
    · have := Nat.mul_le_mul_right c.len hcount
      rw [Nat.succ_eq_add_one, hnext] at this
      omega

theorem inBounds_iff {e : ℕ} (h : c.Stops o e) : c.InBounds o e ↔ EnvNandFits c o :=
  ⟨fits_of_inBounds hc h, inBounds_of_fits hc h⟩

theorem right_of_inBounds {e : ℕ} (h : c.Stops o e) (hin : c.InBounds o e) : EnvNandRight c o where
  reads buf m fs m' fs' heap hw := by
    obtain ⟨hok, hread⟩ := writeenv_reads hc hw heap
    exact ⟨hok, Mem.load_congr fun i hi => by rw [Nat.zero_add]; exact hread i hi⟩
  write_range buf m x hx := by rw [h.write_eq, written_frame hx hin]
  write_buf buf buf' m hbuf := by rw [h.write_eq, h.write_eq, written_congr hbuf hin]
  read_buf m heap x hx := by rw [h.read_eq, loaded_frame hx hin]
  read_range m m' heap hm := by rw [h.read_eq, h.read_eq, loaded_congr hm hin]

omit hc in
theorem inBounds_of_right {e : ℕ} (h : c.Stops o e) (hr : EnvNandRight c o) : c.InBounds o e := by
  intro k hk hb
  obtain ⟨hrange, hneed⟩ := h.active k hk
  constructor
  · by_contra hout
    have hone : c.written o (fun _ => 1) e (fun _ => 0) (o + c.envRange) = 1 :=
      written_ones hb ⟨by omega, by omega⟩ hk
    rw [← h.write_eq, hr.write_range _ _ _ (Or.inr le_rfl)] at hone
    exact absurd hone (by decide)
  · by_contra hout
    have hone : c.loaded o (fun _ => 1) e (fun _ => 0) c.envSize = 1 :=
      loaded_ones hb ⟨by omega, by omega⟩ hk
    rw [← h.read_eq, hr.read_buf _ _ _ le_rfl] at hone
    exact absurd hone (by decide)

/-- The environment is read back as it was written, and nothing outside the range and the buffer is
touched, just when the transfers fit. -/
theorem env_nand_right_iff : EnvNandRight c o ↔ EnvNandFits c o := by
  obtain ⟨e, h⟩ := exists_stops (o := o) hc
  rw [← inBounds_iff hc h]
  exact ⟨inBounds_of_right h, right_of_inBounds hc h⟩

omit hc

/-- Two blocks of eight bytes, and an environment that is one block and a half. -/
def halfEnv : NandEnv := ⟨0, 16, 16, 12, 8, fun _ => 0, []⟩

/-- An environment of two whole blocks, around a bad one. -/
theorem env_nand_right_small :
    EnvNandRight ⟨0, 24, 24, 16, 8, fun o => if o = 8 then 1 else 0, []⟩ 0 :=
  (env_nand_right_iff (by decide)).2 ⟨Or.inl (by decide), Or.inl (by decide)⟩

/-- The second block of it is read past the end of the buffer. -/
theorem env_nand_not_right : ¬∀ (c : NandEnv) (o : ℕ), 0 < c.erasesize → EnvNandRight c o := by
  intro h
  have hread := (h halfEnv 0 (by decide)).read_buf (fun _ => 1) (fun _ => 0) 12 (by decide)
  exact absurd hread (by decide)

end Right

end InfotmUboot
