import InfotmUboot.Lib.Bits
import InfotmUboot.Lib.Columns

/-!
# Shift registers with feedback

The register goes one bit to the right, and the feedback word comes in where a one falls out. Bits
come in at the low end, so what is fed over the whole of a message is the message as one number:
two messages of one length leave registers whose difference is the register of the difference of
the messages alone.
-/

namespace Lib

open Function

section Register

variable (poly : ℕ)

def lfsr (r : ℕ) : ℕ := (if r % 2 = 1 then poly else 0) ^^^ r >>> 1

theorem lfsr_xor (a b : ℕ) : lfsr poly (a ^^^ b) = lfsr poly a ^^^ lfsr poly b := by
  have hcols := applyCols_xor [poly] a b
  simp only [applyCols, Nat.xor_zero] at hcols
  unfold lfsr
  rw [hcols, Nat.shiftRight_xor_distrib]
  exact (xor_swap _ _ _ _).symm

theorem lfsr_iterate_xor (n a b : ℕ) :
    (lfsr poly)^[n] (a ^^^ b) = (lfsr poly)^[n] a ^^^ (lfsr poly)^[n] b := by
  induction n generalizing a b with
  | zero => rfl
  | succ n ih => simp only [iterate_succ, comp_apply, lfsr_xor, ih]

/-- An even number has only to go down. -/
theorem lfsr_shiftLeft (x : ℕ) : lfsr poly (x <<< 1) = x := by
  have heven : x <<< 1 % 2 ≠ 1 := by rw [Nat.shiftLeft_eq]; omega
  simp [lfsr, heven, Nat.shiftLeft_shiftRight]

theorem lfsr_iterate_shiftLeft (n x : ℕ) : (lfsr poly)^[n] (x <<< n) = x := by
  induction n with
  | zero => rfl
  | succ n ih => rw [Nat.shiftLeft_add, iterate_succ, comp_apply, lfsr_shiftLeft, ih]

/-- More steps than the number is shifted by. -/
theorem lfsr_iterate_shiftLeft_of_le {k n : ℕ} (h : k ≤ n) (x : ℕ) :
    (lfsr poly)^[n] (x <<< k) = (lfsr poly)^[n - k] x := by
  conv_lhs => rw [← Nat.sub_add_cancel h, iterate_add_apply, lfsr_iterate_shiftLeft]

variable {poly} {w : ℕ}

/-- A register that is not empty does not run empty. -/
theorem lfsr_ne_zero (hw : 2 ^ w ≤ poly) {r : ℕ} (hr : r < 2 ^ (w + 1)) (h0 : r ≠ 0) :
    lfsr poly r ≠ 0 := by
  unfold lfsr
  rw [Nat.shiftRight_eq_div_pow, pow_one]
  split_ifs with hodd
  · intro h
    have heq : poly = r / 2 := Nat.xor_eq_zero_iff.1 h
    rw [pow_succ] at hr
    omega
  · rw [Nat.zero_xor]
    omega

theorem lfsr_lt (hp : poly < 2 ^ (w + 1)) {r : ℕ} (hr : r < 2 ^ (w + 1)) :
    lfsr poly r < 2 ^ (w + 1) := by
  refine Nat.xor_lt_two_pow ?_ ?_
  · split_ifs
    · exact hp
    · exact Nat.two_pow_pos _
  · exact lt_of_le_of_lt (Nat.shiftRight_le _ _) hr

theorem lfsr_iterate_lt (hp : poly < 2 ^ (w + 1)) (n : ℕ) {r : ℕ} (hr : r < 2 ^ (w + 1)) :
    (lfsr poly)^[n] r < 2 ^ (w + 1) := by
  induction n generalizing r with
  | zero => exact hr
  | succ n ih => exact ih (lfsr_lt hp hr)

theorem lfsr_iterate_ne_zero (hw : 2 ^ w ≤ poly) (hp : poly < 2 ^ (w + 1)) (n : ℕ) {r : ℕ}
    (hr : r < 2 ^ (w + 1)) (h0 : r ≠ 0) : (lfsr poly)^[n] r ≠ 0 := by
  induction n generalizing r with
  | zero => exact h0
  | succ n ih => exact ih (lfsr_lt hp hr) (lfsr_ne_zero hw hr h0)

end Register

section Message

/-- Byte after byte is fed as eight bits at once. -/
theorem foldl_lfsr (poly r : ℕ) (bs : List UInt8) :
    bs.foldl (fun r b => (lfsr poly)^[8] (r ^^^ b.toNat)) r
      = (lfsr poly)^[8 * bs.length] (r ^^^ bitsOf bs) := by
  induction bs generalizing r with
  | nil => simp [bitsOf]
  | cons b bs ih =>
    rw [List.foldl_cons, ih, List.length_cons, Nat.mul_succ, iterate_add_apply, bitsOf,
      ← Nat.xor_assoc, lfsr_iterate_xor poly 8 (r ^^^ b.toNat), lfsr_iterate_shiftLeft]

variable {w : ℕ} {as bs : List UInt8}

/-- A register of `w + 1` bits whose states come back late sees the damage. -/
theorem lfsr_damage {poly P : ℕ} (hw : 2 ^ w ≤ poly) (hp : poly < 2 ^ (w + 1))
    (hper : ∀ x < 2 ^ (w + 1), x ≠ 0 → ∀ d, 0 < d → d < P → (lfsr poly)^[d] x ≠ x)
    (h : Damage (w + 1) as bs) (hlen : 8 * as.length ≤ P) (r : ℕ) :
    as.foldl (fun r b => (lfsr poly)^[8] (r ^^^ b.toNat)) r
      ≠ bs.foldl (fun r b => (lfsr poly)^[8] (r ^^^ b.toNat)) r := by
  rw [foldl_lfsr, foldl_lfsr, ← h.length_eq]
  intro heq
  have hdiff : (lfsr poly)^[8 * as.length] (bitsOf as ^^^ bitsOf bs) = 0 := by
    rw [lfsr_iterate_xor, lfsr_iterate_xor] at heq
    rw [lfsr_iterate_xor]
    exact Nat.xor_eq_zero_iff.2 (Nat.xor_right_injective heq)
  rcases h.shape w.succ_pos with ⟨k, e, h0, he, hk, hv⟩ | ⟨i, d, hd, hi, hv⟩
  · rw [hv, lfsr_iterate_shiftLeft_of_le poly hk.le] at hdiff
    exact lfsr_iterate_ne_zero hw hp _ he h0 hdiff
  · have hone : 1 < 2 ^ (w + 1) := Nat.one_lt_two_pow w.succ_ne_zero
    rw [hv, lfsr_iterate_shiftLeft_of_le poly (by omega), lfsr_iterate_xor,
      lfsr_iterate_shiftLeft_of_le poly (by omega : d ≤ 8 * as.length - i),
      show 8 * as.length - i = d + (8 * as.length - i - d) by omega, iterate_add_apply] at hdiff
    rw [Nat.add_sub_cancel_left] at hdiff
    refine hper _ (lfsr_iterate_lt hp (8 * as.length - i - d) hone)
      (lfsr_iterate_ne_zero hw hp _ hone one_ne_zero) d hd (by omega) ?_
    exact Nat.xor_eq_zero_iff.1 hdiff

end Message

end Lib
