import InfotmUboot.Crc32
import InfotmUboot.Lib.Columns

/-!
# The checksum of erased flash

The register of the CRC under bytes `0xff` runs through all values but one fixed point before it
comes back: of fewer than `2 ^ 32` such bytes the checksum is the erased word only for four of them.
-/

namespace InfotmUboot

open Lib Function

section Table

/-- The table at the powers of two. -/
def crc32Cols : List ℕ := (List.range 8).map fun i => crc32Tab.getD (2 ^ i) 0

theorem crc32Tab_eq : ∀ i < 256, crc32Tab.getD i 0 = applyCols crc32Cols i := by
  have htable : crc32Tab = (List.range 256).map (applyCols crc32Cols) := by decide +kernel
  intro i hi
  rw [htable, List.getD_eq_getElem _ _ (by simpa using hi), List.getElem_map, List.getElem_range]

theorem applyCols_mod_len : ∀ (cs : List ℕ) (r : ℕ),
    applyCols cs (r % 2 ^ cs.length) = applyCols cs r
  | [], _ => rfl
  | c :: cs, r => by
    have ih := applyCols_mod_len cs (r / 2)
    have hbit : r % 2 ^ (cs.length + 1) % 2 = r % 2 :=
      Nat.mod_mod_of_dvd _ (Dvd.intro_left (2 ^ cs.length) (pow_succ 2 cs.length).symm)
    have hrest : r % 2 ^ (cs.length + 1) / 2 = r / 2 % 2 ^ cs.length := by
      rw [pow_succ, Nat.mul_comm, Nat.mod_mul_right_div_self]
    rw [List.length_cons, applyCols, applyCols, hbit, hrest, ih]

/-- The part of the step that is linear in the register. -/
def crc32Shift (r : ℕ) : ℕ := applyCols crc32Cols r ^^^ (r >>> 8)

theorem crc32Shift_xor (a b : ℕ) : crc32Shift (a ^^^ b) = crc32Shift a ^^^ crc32Shift b := by
  unfold crc32Shift
  rw [applyCols_xor, Nat.shiftRight_xor_distrib]
  exact (xor_swap _ _ _ _).symm

theorem crc32Step_eq (r : ℕ) (b : UInt8) : crc32Step r b = crc32Shift (r ^^^ b.toNat) := by
  have hb : b.toNat >>> 8 = 0 := by
    rw [Nat.shiftRight_eq_div_pow]
    have := b.toNat_lt
    omega
  unfold crc32Step crc32Shift
  rw [crc32Tab_eq _ (Nat.mod_lt _ (by omega)), Nat.shiftRight_xor_distrib, hb, Nat.xor_zero]
  congr 1
  exact applyCols_mod_len crc32Cols (r ^^^ b.toNat)

theorem crc32Step_lt {r : ℕ} (hr : r < 2 ^ 32) (b : UInt8) : crc32Step r b < 2 ^ 32 := by
  unfold crc32Step
  refine Nat.xor_lt_two_pow ?_ ?_
  · have hlen : crc32Tab.length = 256 := by decide +kernel
    have hall : ∀ x ∈ crc32Tab, x < 2 ^ 32 := by decide +kernel
    rw [List.getD_eq_getElem _ _ (by rw [hlen]; exact Nat.mod_lt _ (by omega))]
    exact hall _ (List.getElem_mem _)
  · rw [Nat.shiftRight_eq_div_pow]
    omega

theorem crc32_lt (bs : List UInt8) : crc32 0 bs < 2 ^ 32 := by
  have hfold : ∀ (bs : List UInt8) (r : ℕ), r < 2 ^ 32 → bs.foldl crc32Step r < 2 ^ 32 := by
    intro bs
    induction bs with
    | nil => exact fun _ h => h
    | cons b bs ih => exact fun r h => ih _ (crc32Step_lt h b)
  exact Nat.xor_lt_two_pow (hfold bs _ (by norm_num)) (by norm_num)

end Table

section Erased

/-- The register that a byte `0xff` leaves as it is. -/
def crc32Fixed : ℕ := 0xb6d0fdc0

theorem crc32Step_fixed (d : ℕ) :
    crc32Step (crc32Fixed ^^^ d) 0xff = crc32Fixed ^^^ crc32Shift d := by
  have hfix : crc32Shift (crc32Fixed ^^^ (0xff : UInt8).toNat) = crc32Fixed := by decide
  rw [crc32Step_eq, Nat.xor_assoc, Nat.xor_comm d, ← Nat.xor_assoc, crc32Shift_xor, hfix]

theorem crc32Shift_iterate (n d : ℕ) :
    (fun r => crc32Step r 0xff)^[n] (crc32Fixed ^^^ d) = crc32Fixed ^^^ crc32Shift^[n] d := by
  induction n generalizing d with
  | zero => rfl
  | succ n ih =>
    simp only [Function.iterate_succ, Function.comp_apply]
    rw [crc32Step_fixed, ih]

/-- The columns of the step. -/
def crc32ShiftCols : List ℕ := (List.range 32).map fun i => crc32Shift (2 ^ i)

theorem crc32Shift_lt {r : ℕ} (hr : r < 2 ^ 32) : crc32Shift r < 2 ^ 32 := by
  have h := crc32Step_lt hr 0
  rwa [crc32Step_eq, UInt8.toNat_zero, Nat.xor_zero] at h

theorem crc32Shift_cols (n : ℕ) : ∀ r < 2 ^ 32,
    (applyCols crc32ShiftCols)^[n] r = crc32Shift^[n] r := by
  induction n with
  | zero => exact fun _ _ => rfl
  | succ n ih =>
    intro r hr
    have hstep : applyCols crc32ShiftCols r = crc32Shift r :=
      applyCols_eq 32 crc32Shift crc32Shift_xor r hr
    simp only [Function.iterate_succ, Function.comp_apply]
    rw [hstep, ih _ (crc32Shift_lt hr)]

theorem crc32_iter {n r : ℕ} (hn : n < 2 ^ 32) (hr : r < 2 ^ 32) :
    crc32Shift^[n] r = iterCols 32 crc32ShiftCols n r := by
  rw [iterCols_eq 32 crc32ShiftCols n r hn]
  exact (crc32Shift_cols n r hr).symm

/-- The register comes back after `2 ^ 32 - 1` steps and not before. -/
theorem crc32_period : minimalPeriod crc32Shift crc32Fixed = 2 ^ 32 - 1 := by
  refine minimalPeriod_eq_of_primes ?_ fun p hp hdvd hper => ?_
  · have h := crc32_iter (n := 2 ^ 32 - 1) (r := crc32Fixed) (by norm_num) (by decide)
    exact h.trans (by decide +kernel)
  · have hcases : p = 3 ∨ p = 5 ∨ p = 17 ∨ p = 257 ∨ p = 65537 := by
      rw [show 2 ^ 32 - 1 = 3 * 5 * 17 * 257 * 65537 by norm_num] at hdvd
      rcases (Nat.Prime.dvd_mul hp).1 hdvd with hdvd | h
      · rcases (Nat.Prime.dvd_mul hp).1 hdvd with hdvd | h
        · rcases (Nat.Prime.dvd_mul hp).1 hdvd with hdvd | h
          · rcases (Nat.Prime.dvd_mul hp).1 hdvd with h | h
            · exact Or.inl ((Nat.prime_dvd_prime_iff_eq hp (by norm_num)).1 h)
            · exact Or.inr (Or.inl ((Nat.prime_dvd_prime_iff_eq hp (by norm_num)).1 h))
          · exact Or.inr (Or.inr (Or.inl ((Nat.prime_dvd_prime_iff_eq hp (by norm_num)).1 h)))
        · have := (Nat.prime_dvd_prime_iff_eq hp (by norm_num)).1 h
          omega
      · have := (Nat.prime_dvd_prime_iff_eq hp (by norm_num)).1 h
        omega
    have hiter : iterCols 32 crc32ShiftCols ((2 ^ 32 - 1) / p) crc32Fixed = crc32Fixed := by
      rw [← crc32_iter (lt_of_le_of_lt (Nat.div_le_self _ _) (by norm_num)) (by decide)]
      exact hper
    have hne : ∀ q ∈ [3, 5, 17, 257, 65537],
        iterCols 32 crc32ShiftCols ((2 ^ 32 - 1) / q) crc32Fixed ≠ crc32Fixed := by
      decide +kernel
    refine hne p ?_ hiter
    simp only [List.mem_cons, List.not_mem_nil, or_false]
    omega

theorem foldl_replicate {α β : Type*} (f : α → β → α) (b : β) (n : ℕ) (a : α) :
    (List.replicate n b).foldl f a = (fun x => f x b)^[n] a := by
  induction n generalizing a with
  | zero => rfl
  | succ n ih => rw [List.replicate_succ, List.foldl_cons, ih]; rfl

/-- An erased sector does not carry the checksum of its data. -/
theorem crc_erased_ne {n : ℕ} (h4 : 4 < n) (hn : n < 2 ^ 32) :
    crc32 0 (List.replicate n 0xff) ≠ 0xffffffff := by
  intro h
  unfold crc32 at h
  have hreg : (List.replicate n 0xff).foldl crc32Step (0 ^^^ 0xffffffff) = 0 := by
    have hx := congrArg (· ^^^ 0xffffffff) h
    simpa only [Nat.xor_assoc, Nat.xor_self, Nat.xor_zero] using hx
  rw [foldl_replicate, show n = n - 4 + 4 by omega, Function.iterate_add_apply] at hreg
  have h0 : (fun r => crc32Step r 0xff)^[4] (0 ^^^ 0xffffffff) = crc32Fixed ^^^ crc32Fixed := by
    decide
  rw [h0, crc32Shift_iterate] at hreg
  have hper : IsPeriodicPt crc32Shift (n - 4) crc32Fixed := by
    have hx := congrArg (crc32Fixed ^^^ ·) hreg
    simp only [← Nat.xor_assoc, Nat.xor_self, Nat.zero_xor, Nat.xor_zero] at hx
    exact hx
  have hle := Nat.le_of_dvd (by omega) hper.minimalPeriod_dvd
  rw [crc32_period] at hle
  omega

theorem crc32_zeros {n r : ℕ} (hn : n < 2 ^ 32) (hr : r < 2 ^ 32) :
    (List.replicate n 0).foldl crc32Step r = iterCols 32 crc32ShiftCols n r := by
  have hstep : (fun r => crc32Step r 0) = crc32Shift := by
    funext r
    rw [crc32Step_eq, UInt8.toNat_zero, Nat.xor_zero]
  rw [foldl_replicate, hstep, crc32_iter hn hr]

end Erased

end InfotmUboot
