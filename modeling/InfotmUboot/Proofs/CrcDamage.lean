import InfotmUboot.Proofs.ErasedCrc
import InfotmUboot.Lib.Lfsr

/-!
# What the checksum sees

The step of the CRC is eight steps of a shift register of 32 bits, and the register runs through all
its states but zero. So the checksums of two messages that differ in no more than two bits, or only
within 32 bits in a row, are different.
-/

namespace InfotmUboot

open Lib Function

/-- The polynomial, the low bit first. -/
def CRC32_POLY : ℕ := 0xedb88320

section Register

/-- Eight steps at a time. -/
theorem crc32Shift_eq (r : ℕ) : crc32Shift r = (lfsr CRC32_POLY)^[8] r := by
  have hcols : crc32Cols = (List.range 8).map fun i => (lfsr CRC32_POLY)^[8] (2 ^ i) := by decide
  have hsplit : r = r % 2 ^ 8 ^^^ (r >>> 8) <<< 8 := by
    refine Nat.eq_of_testBit_eq fun i => ?_
    rw [Nat.testBit_xor, Nat.testBit_mod_two_pow, Nat.testBit_shiftLeft, Nat.testBit_shiftRight]
    by_cases hi : 8 ≤ i
    · simp [hi, Nat.not_lt.2 hi]
    · simp [hi, Nat.not_le.1 hi]
  have hlow : applyCols crc32Cols r = (lfsr CRC32_POLY)^[8] (r % 2 ^ 8) := by
    rw [← applyCols_eq 8 _ (lfsr_iterate_xor CRC32_POLY 8) _ (Nat.mod_lt _ (by norm_num)), ← hcols]
    exact (applyCols_mod_len crc32Cols r).symm
  have hhigh : (lfsr CRC32_POLY)^[8] ((r >>> 8) <<< 8) = r >>> 8 :=
    lfsr_iterate_shiftLeft CRC32_POLY 8 _
  conv_rhs => rw [hsplit, lfsr_iterate_xor, hhigh]
  rw [crc32Shift, hlow]

theorem crc32_poly_bounds : 2 ^ 31 ≤ CRC32_POLY ∧ CRC32_POLY < 2 ^ 32 := by decide

theorem foldl_crc32Step (r : ℕ) (bs : List UInt8) :
    bs.foldl crc32Step r = bs.foldl (fun r b => (lfsr CRC32_POLY)^[8] (r ^^^ b.toNat)) r := by
  congr 1
  funext r b
  rw [crc32Step_eq, crc32Shift_eq]

/-- No state but zero comes back sooner than after all the others. -/
theorem lfsr_late {x : ℕ} (hx : x < 2 ^ 32) (h0 : x ≠ 0) {d : ℕ} (hd : 0 < d)
    (hlt : d < 2 ^ 32 - 1) : (lfsr CRC32_POLY)^[d] x ≠ x := by
  intro hback
  obtain ⟨hlo, hhi⟩ := crc32_poly_bounds
  obtain ⟨n, rfl⟩ : ∃ n, crc32Shift^[n] crc32Fixed = x := by
    refine exists_iterate_eq (fun y hy hle => ?_) ⟨by decide, by decide⟩ crc32_period
      (N := 2 ^ 32 - 1) (by omega) (by omega)
    have hlt := crc32Shift_lt (r := y) (by omega)
    have hne : crc32Shift y ≠ 0 := by
      rw [crc32Shift_eq]
      exact lfsr_iterate_ne_zero hlo hhi 8 (by omega) (by omega)
    omega
  have hper : IsPeriodicPt crc32Shift d (crc32Shift^[n] crc32Fixed) := by
    have h8 : crc32Shift = (lfsr CRC32_POLY)^[8] := funext crc32Shift_eq
    have hmul : IsPeriodicPt (lfsr CRC32_POLY) (d * 8) (crc32Shift^[n] crc32Fixed) :=
      IsPeriodicPt.mul_const hback 8
    rw [IsPeriodicPt, IsFixedPt, Nat.mul_comm, iterate_mul, ← h8] at hmul
    exact hmul
  have hdvd := hper.minimalPeriod_dvd
  have hmem : crc32Fixed ∈ periodicPts crc32Shift :=
    minimalPeriod_pos_iff_mem_periodicPts.1 (by rw [crc32_period]; norm_num)
  rw [minimalPeriod_apply_iterate hmem, crc32_period] at hdvd
  exact absurd (Nat.le_of_dvd hd hdvd) (by omega)

end Register

section Sum

theorem crc32_damage {as bs : List UInt8} (h : Damage 32 as bs) (hlen : as.length < 2 ^ 29)
    (c : ℕ) : crc32 c as ≠ crc32 c bs := by
  intro heq
  have hfold := Nat.xor_left_injective heq
  simp only [foldl_crc32Step] at hfold
  exact lfsr_damage crc32_poly_bounds.1 crc32_poly_bounds.2
    (fun x hx h0 d hd hlt => lfsr_late hx h0 hd hlt) h (P := 2 ^ 32 - 1) (by omega) _ hfold

/-- One bit of the message never changes just one bit of the checksum. -/
theorem crc32_one_bit {as bs : List UInt8} (hlen : as.length = bs.length) (hne : as ≠ bs)
    {i : ℕ} (hi : ∀ l, bitAt as l ≠ bitAt bs l → l = i) (hsmall : 8 * as.length + 32 < 2 ^ 32)
    (c : ℕ) {j : ℕ} (hj : j < 32) : crc32 c as ^^^ crc32 c bs ≠ 2 ^ j := by
  have hd : Damage 1 as bs := ⟨hlen, hne, Or.inl ⟨i, i, fun l hl => Or.inl (hi l hl)⟩⟩
  obtain ⟨k, e, h0, he, hk, hv⟩ := hd.row (k := i) fun l hl => by
    have := hi l hl
    omega
  obtain rfl : e = 1 := by omega
  obtain ⟨hlo, hhi⟩ := crc32_poly_bounds
  intro heq
  have hsum : (lfsr CRC32_POLY)^[8 * as.length - k] 1 = 2 ^ j := by
    unfold crc32 at heq
    rw [foldl_crc32Step, foldl_crc32Step, foldl_lfsr, foldl_lfsr, ← hlen, xor_swap, Nat.xor_self,
      Nat.xor_zero, ← lfsr_iterate_xor, xor_swap, Nat.xor_self, Nat.zero_xor, hv,
      lfsr_iterate_shiftLeft_of_le _ hk.le] at heq
    exact heq
  have hback : (lfsr CRC32_POLY)^[j + (8 * as.length - k)] 1 = 1 := by
    rw [iterate_add_apply, hsum, ← Nat.one_shiftLeft, lfsr_iterate_shiftLeft]
  exact lfsr_late (by norm_num) one_ne_zero (by omega) (by omega) hback

/-- What can happen to a message and the checksum `v` stored for it. -/
inductive Hit (as as' : List UInt8) (v v' : ℕ) : Prop
  | message (h : Damage 32 as as') (hv : v = v')
  | sum (h : as = as') (hv : v ≠ v')
  | both (hlen : as.length = as'.length) (hne : as ≠ as') (i : ℕ)
      (hi : ∀ l, bitAt as l ≠ bitAt as' l → l = i) (j : ℕ) (hj : j < 32) (hv : v ^^^ v' = 2 ^ j)

theorem Hit.found {as as' : List UInt8} {v v' c : ℕ} (h : Hit as as' v v')
    (hsmall : 8 * as.length + 32 < 2 ^ 32) (hok : crc32 c as = v) :
    crc32 c as' ≠ v' := by
  intro hok'
  cases h with
  | message h hv => exact crc32_damage h (by omega) c (by rw [hok, hv, hok'])
  | sum h hv => exact hv (by rw [← hok, h, hok'])
  | both hlen hne i hi j hj hv =>
    exact crc32_one_bit hlen hne hi hsmall c hj (by rw [hok, hok', hv])

end Sum

section Record

/-- How a number is read from four bytes: bit `l` of it is bit `σ l` of the bytes. -/
structure Reads (val : List UInt8 → ℕ) (σ : ℕ → ℕ) : Prop where
  lt : ∀ bs, bs.length = 4 → val bs < 2 ^ 32
  bit : ∀ bs, bs.length = 4 → ∀ l < 32, (val bs).testBit l = bitAt bs (σ l)
  inv : ∀ l < 32, σ l < 32 ∧ σ (σ l) = l

/-- A record in `n` bytes at `a` with a checksum field at `f` is damaged: only in the field, only
beside it, or in two bits anywhere. -/
structure RecordDamage (m m' : Mem) (a n f : ℕ) : Prop where
  damage : Damage 32 (m.load a n) (m'.load a n)
  edge : TwoBits (m.load a n) (m'.load a n) ∨ m.load f 4 = m'.load f 4 ∨
    ∀ i, a ≤ i → i < a + n → i < f ∨ f + 4 ≤ i → m i = m' i

/-- The damage to a part of a record that has the field, if it is damaged. -/
theorem RecordDamage.part {m m' : Mem} {a n f b k : ℕ} (h : RecordDamage m m' a n f) (ha : a ≤ b)
    (hb : b + k ≤ a + n) (hne : m.load b k ≠ m'.load b k) : RecordDamage m m' b k f := by
  refine ⟨h.damage.part ha hb hne, ?_⟩
  rcases h.edge with h2 | hfield | hrest
  · exact Or.inl (h2.part ha hb)
  · exact Or.inr (Or.inl hfield)
  · exact Or.inr (Or.inr fun i h1 h2 => hrest i (by omega) (by omega))

/-- Another byte anywhere in a record. -/
theorem RecordDamage.of_byte {m : Mem} {a n f x : ℕ} {c : UInt8} (ha : a ≤ x) (hx : x < a + n)
    (hc : m x ≠ c) : RecordDamage m (m.store x [c]) a n f := by
  refine ⟨Damage.of_byte ha hx hc (by omega), Or.inr ?_⟩
  by_cases hin : f ≤ x ∧ x < f + 4
  · refine Or.inr fun i _ _ hi => ?_
    rcases Nat.lt_or_ge i x with h1 | h1
    · exact (Mem.store_of_lt m [c] h1).symm
    · exact (Mem.store_of_ge m [c] (by rw [List.length_singleton]; omega)).symm
  · refine Or.inl (Mem.load_congr fun i hi => ?_)
    rcases Nat.lt_or_ge (f + i) x with h1 | h1
    · exact (Mem.store_of_lt m [c] h1).symm
    · exact (Mem.store_of_ge m [c] (by rw [List.length_singleton]; omega)).symm

variable {val : List UInt8 → ℕ} {σ : ℕ → ℕ}

theorem Reads.ne (hval : Reads val σ) {xs ys : List UInt8} (hx : xs.length = 4)
    (hy : ys.length = 4) (hne : xs ≠ ys) : val xs ≠ val ys := by
  intro heq
  refine hne (eq_of_bitAt (by rw [hx, hy]) fun l => ?_)
  by_cases hl : l < 32
  · obtain ⟨hs, hinv⟩ := hval.inv l hl
    rw [← hinv, ← hval.bit xs hx _ hs, ← hval.bit ys hy _ hs, heq]
  · rw [bitAt_of_ge (by omega), bitAt_of_ge (by omega)]

/-- One bit of the field is one bit of the number. -/
theorem Reads.one_bit (hval : Reads val σ) {xs ys : List UInt8} (hx : xs.length = 4)
    (hy : ys.length = 4) (hne : xs ≠ ys) {i : ℕ} (hi : ∀ l, bitAt xs l ≠ bitAt ys l → l = i) :
    ∃ j < 32, val xs ^^^ val ys = 2 ^ j := by
  obtain ⟨l, hl⟩ := exists_bitAt_ne (by rw [hx, hy]) hne
  obtain rfl := hi l hl
  have hlt : l < 32 := by
    have := lt_of_bitAt_ne (by rw [hx, hy]) hl
    omega
  refine ⟨σ l, (hval.inv l hlt).1, Nat.eq_of_testBit_eq fun j => ?_⟩
  rw [Nat.testBit_xor, Nat.testBit_two_pow]
  by_cases hj : j < 32
  · rw [hval.bit xs hx j hj, hval.bit ys hy j hj]
    by_cases he : σ l = j
    · subst he
      rw [(hval.inv l hlt).2]
      simpa using hl
    · have hsame : bitAt xs (σ j) = bitAt ys (σ j) := by
        by_contra hd
        exact he (by rw [← hi _ hd, (hval.inv j hj).2])
      simp [he, hsame]
  · have hhigh : ∀ zs, zs.length = 4 → (val zs).testBit j = false := fun zs hz =>
      Nat.testBit_lt_two_pow
        (lt_of_lt_of_le (hval.lt zs hz) (Nat.pow_le_pow_right (by omega) (Nat.not_lt.1 hj)))
    have hne' : σ l ≠ j := by
      have := (hval.inv l hlt).1
      omega
    simp [hhigh xs hx, hhigh ys hy, hne']

variable {m m' : Mem} {a n f : ℕ}

/-- The record with the field blanked. -/
def blanked (m : Mem) (a n f : ℕ) : List UInt8 := (m.store f (bytes32 0)).load a n

theorem bitAt_blanked {l : ℕ} (h : bitAt (blanked m a n f) l ≠ bitAt (blanked m' a n f) l) :
    bitAt (m.load a n) l ≠ bitAt (m'.load a n) l ∧ (a + l / 8 < f ∨ f + 4 ≤ a + l / 8) := by
  have hl : l < 8 * n := by
    have := lt_of_bitAt_ne (by simp [blanked]) h
    simpa [blanked] using this
  unfold blanked at h
  rw [bitAt_load _ _ hl, bitAt_load _ _ hl] at h
  rw [bitAt_load _ _ hl, bitAt_load _ _ hl]
  by_cases hin : f ≤ a + l / 8 ∧ a + l / 8 < f + 4
  · have hsame : m.store f (bytes32 0) (a + l / 8) = m'.store f (bytes32 0) (a + l / 8) :=
      Mem.store_congr m m' hin.1 (by rw [length_bytes32]; exact hin.2)
    exact absurd (congrArg (fun b : UInt8 => b.toNat.testBit (l % 8)) hsame) h
  · have hout : a + l / 8 < f ∨ f + 4 ≤ a + l / 8 := by omega
    refine ⟨?_, hout⟩
    rcases hout with hlt | hge
    · rwa [Mem.store_of_lt _ _ hlt, Mem.store_of_lt _ _ hlt] at h
    · rwa [Mem.store_of_ge _ _ (by rw [length_bytes32]; exact hge),
        Mem.store_of_ge _ _ (by rw [length_bytes32]; exact hge)] at h

theorem blanked_congr (h : ∀ i, a ≤ i → i < a + n → i < f ∨ f + 4 ≤ i → m i = m' i) :
    blanked m a n f = blanked m' a n f := by
  refine Mem.load_congr fun i hi => ?_
  by_cases hin : f ≤ a + i ∧ a + i < f + 4
  · exact Mem.store_congr m m' hin.1 (by rw [length_bytes32]; exact hin.2)
  · have hsame := h (a + i) (by omega) (by omega) (by omega)
    by_cases hlt : a + i < f
    · rw [Mem.store_of_lt _ _ hlt, Mem.store_of_lt _ _ hlt, hsame]
    · rw [Mem.store_of_ge _ _ (by rw [length_bytes32]; omega),
        Mem.store_of_ge _ _ (by rw [length_bytes32]; omega), hsame]

/-- Damage beside the field is damage to what is summed. -/
theorem RecordDamage.beside (h : RecordDamage m m' a n f) (hfield : m.load f 4 = m'.load f 4) :
    Damage 32 (blanked m a n f) (blanked m' a n f) := by
  refine ⟨by simp [blanked], fun heq => h.damage.ne (Mem.load_congr fun i hi => ?_), ?_⟩
  · by_cases hin : f ≤ a + i ∧ a + i < f + 4
    · have hbyte := List.getElem_of_eq hfield (i := a + i - f) (by rw [Mem.length_load]; omega)
      rwa [Mem.getElem_load, Mem.getElem_load, Nat.add_sub_cancel' hin.1] at hbyte
    · have hbyte := List.getElem_of_eq heq (i := i) (by simpa [blanked] using hi)
      unfold blanked at hbyte
      rw [Mem.getElem_load, Mem.getElem_load] at hbyte
      by_cases hlt : a + i < f
      · rwa [Mem.store_of_lt _ _ hlt, Mem.store_of_lt _ _ hlt] at hbyte
      · rwa [Mem.store_of_ge _ _ (by rw [length_bytes32]; omega),
          Mem.store_of_ge _ _ (by rw [length_bytes32]; omega)] at hbyte
  · rcases h.damage.small with ⟨i, j, hl⟩ | ⟨k, hl⟩
    · exact Or.inl ⟨i, j, fun l hd => hl l (bitAt_blanked hd).1⟩
    · exact Or.inr ⟨k, fun l hd => hl l (bitAt_blanked hd).1⟩

theorem RecordDamage.hit (h : RecordDamage m m' a n f) (hval : Reads val σ) (hf : a ≤ f)
    (hn : f + 4 ≤ a + n) :
    Hit (blanked m a n f) (blanked m' a n f) (val (m.load f 4)) (val (m'.load f 4)) := by
  by_cases hfield : m.load f 4 = m'.load f 4
  · exact Hit.message (h.beside hfield) (by rw [hfield])
  have hvne := hval.ne (by simp) (by simp) hfield
  by_cases hblank : blanked m a n f = blanked m' a n f
  · exact Hit.sum hblank hvne
  rcases h.edge with ⟨i, j, hl⟩ | hsame | hrest
  · -- one of the two bits is in the field, the other beside it
    obtain ⟨p, hp⟩ := exists_bitAt_ne (by simp) hfield
    have hp' := bitAt_part hf hn hp
    have hlt : p < 32 := by
      have := lt_of_bitAt_ne (by simp) hp
      rw [Mem.length_load] at this
      omega
    obtain ⟨q, hq⟩ := exists_bitAt_ne (by simp [blanked]) hblank
    obtain ⟨hq', hout⟩ := bitAt_blanked hq
    have hpij := hl _ hp'
    have hqij := hl _ hq'
    obtain ⟨v, hv, hxor⟩ := hval.one_bit (by simp) (by simp) hfield (i := p) fun l hd => by
      have := hl _ (bitAt_part hf hn hd)
      have hlt' : l < 32 := by
        have := lt_of_bitAt_ne (by simp) hd
        rw [Mem.length_load] at this
        omega
      omega
    refine Hit.both (by simp [blanked]) hblank q (fun l hd => ?_) v hv hxor
    obtain ⟨hd', hout'⟩ := bitAt_blanked hd
    have := hl _ hd'
    omega
  · exact absurd hsame hfield
  · exact absurd (blanked_congr hrest) hblank

end Record

end InfotmUboot
