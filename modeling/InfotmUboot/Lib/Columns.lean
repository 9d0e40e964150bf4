import Mathlib.Data.Nat.Bitwise
import Mathlib.Dynamics.PeriodicPts.Lemmas
import Mathlib.Tactic.NormNum.Prime

/-!
# Linear maps on the bits of a number

A map on numbers that respects exclusive or is given by its values at the powers of two, its
columns. Its iterates are computed by squaring, and with them the least period of a point.
-/

namespace Lib

section Columns

/-- The exclusive or of the columns at the set bits of `r`. -/
def applyCols : List ℕ → ℕ → ℕ
  | [], _ => 0
  | c :: cs, r => (if r % 2 = 1 then c else 0) ^^^ applyCols cs (r / 2)

@[simp]
theorem applyCols_zero : ∀ cs : List ℕ, applyCols cs 0 = 0
  | [] => rfl
  | _ :: cs => by
    have ih := applyCols_zero cs
    simp [applyCols, ih]

theorem xor_swap (a b x y : ℕ) : a ^^^ x ^^^ (b ^^^ y) = a ^^^ b ^^^ (x ^^^ y) := by
  rw [Nat.xor_assoc, Nat.xor_assoc, ← Nat.xor_assoc x b y, Nat.xor_comm x b, Nat.xor_assoc b x y]

theorem applyCols_xor : ∀ (cs : List ℕ) (a b : ℕ),
    applyCols cs (a ^^^ b) = applyCols cs a ^^^ applyCols cs b
  | [], _, _ => by simp [applyCols]
  | c :: cs, a, b => by
    have ih := applyCols_xor cs (a / 2) (b / 2)
    have hbit : (if (a ^^^ b) % 2 = 1 then c else 0)
        = (if a % 2 = 1 then c else 0) ^^^ (if b % 2 = 1 then c else 0) := by
      have hx := @Nat.xor_mod_two_eq_one a b
      by_cases ha : a % 2 = 1 <;> by_cases hb : b % 2 = 1
      · rw [if_neg (by rw [hx]; tauto), if_pos ha, if_pos hb, Nat.xor_self]
      · rw [if_pos (by rw [hx]; tauto), if_pos ha, if_neg hb, Nat.xor_zero]
      · rw [if_pos (by rw [hx]; tauto), if_neg ha, if_pos hb, Nat.zero_xor]
      · rw [if_neg (by rw [hx]; tauto), if_neg ha, if_neg hb, Nat.xor_zero]
    simp only [applyCols]
    rw [Nat.xor_div_two, ih, hbit]
    exact xor_swap _ _ _ _

/-- The columns of one map after another. -/
def mulCols (as bs : List ℕ) : List ℕ := bs.map (applyCols as)

theorem applyCols_mulCols (as : List ℕ) : ∀ (bs : List ℕ) (r : ℕ),
    applyCols (mulCols as bs) r = applyCols as (applyCols bs r)
  | [], _ => by simp [mulCols, applyCols]
  | b :: bs, r => by
    have ih := applyCols_mulCols as bs (r / 2)
    simp only [mulCols] at ih
    simp only [mulCols, List.map_cons, applyCols]
    rw [ih, applyCols_xor]
    split_ifs with hr
    · rfl
    · rw [applyCols_zero]

/-- A linear map is what its columns say. -/
theorem applyCols_eq : ∀ (k : ℕ) (g : ℕ → ℕ), (∀ a b, g (a ^^^ b) = g a ^^^ g b) →
    ∀ r < 2 ^ k, applyCols ((List.range k).map fun i => g (2 ^ i)) r = g r
  | 0, g, hg, r, hr => by
    have h0 := hg 0 0
    simp only [Nat.xor_self] at h0
    rw [show r = 0 by omega, h0]
    rfl
  | k + 1, g, hg, r, hr => by
    have h0 := hg 0 0
    simp only [Nat.xor_self] at h0
    have ih := applyCols_eq k (fun x => g (x <<< 1))
      (fun a b => by simp only [Nat.shiftLeft_xor_distrib, hg]) (r / 2) (by omega)
    rw [List.range_succ_eq_map, List.map_cons, List.map_map]
    have hcols : (List.range k).map ((fun i => g (2 ^ i)) ∘ Nat.succ)
        = (List.range k).map fun i => g (2 ^ i <<< 1) := by
      refine List.map_congr_left fun i _ => ?_
      simp only [Function.comp_apply, Nat.succ_eq_add_one, Nat.shiftLeft_eq, pow_succ, pow_zero,
        one_mul]
    rw [hcols]
    simp only [applyCols]
    rw [ih]
    have hsplit : (if r % 2 = 1 then 1 else 0) ^^^ (r / 2) <<< 1 = r := by
      refine Nat.eq_of_testBit_eq fun i => ?_
      rw [Nat.testBit_xor, Nat.testBit_shiftLeft]
      rcases i with _ | i
      · by_cases h1 : r % 2 = 1 <;> simp [h1, Nat.testBit_zero]
      · have h1 : (if r % 2 = 1 then 1 else 0).testBit (i + 1) = false := by
          split_ifs <;> simp [Nat.testBit_succ]
        rw [h1, Nat.testBit_succ]
        simp
    calc (if r % 2 = 1 then g (2 ^ 0) else 0) ^^^ g ((r / 2) <<< 1)
        = g (if r % 2 = 1 then 1 else 0) ^^^ g ((r / 2) <<< 1) := by
          congr 1
          split_ifs
          · rfl
          · exact h0.symm
      _ = g r := by rw [← hg, hsplit]

/-- `n` steps from `r`, in `k` squarings. -/
def iterCols : ℕ → List ℕ → ℕ → ℕ → ℕ
  | 0, _, _, r => r
  | k + 1, cs, n, r =>
    iterCols k (mulCols cs cs) (n / 2) (if n % 2 = 1 then applyCols cs r else r)

theorem iterCols_eq : ∀ (k : ℕ) (cs : List ℕ) (n r : ℕ), n < 2 ^ k →
    iterCols k cs n r = (applyCols cs)^[n] r
  | 0, cs, n, r, hn => by
    rw [show n = 0 by omega]
    rfl
  | k + 1, cs, n, r, hn => by
    have ih := iterCols_eq k (mulCols cs cs) (n / 2) (if n % 2 = 1 then applyCols cs r else r)
      (by omega)
    have hsq : applyCols (mulCols cs cs) = (applyCols cs)^[2] :=
      funext fun x => applyCols_mulCols cs cs x
    rw [iterCols, ih, hsq, ← Function.iterate_mul]
    have hodd : (if n % 2 = 1 then applyCols cs r else r) = (applyCols cs)^[n % 2] r := by
      rcases Nat.mod_two_eq_zero_or_one n with h0 | h1
      · rw [h0]; rfl
      · rw [h1]; rfl
    rw [hodd, ← Function.iterate_add_apply, Nat.div_add_mod]

end Columns

section Period

open Function

/-- The least period is `N` if `N` is one and no `N / p`, for a prime `p` that divides `N`, is
one. -/
theorem minimalPeriod_eq_of_primes {α : Type*} {f : α → α} {x : α} {N : ℕ}
    (hper : IsPeriodicPt f N x)
    (hp : ∀ p, p.Prime → p ∣ N → ¬ IsPeriodicPt f (N / p) x) : minimalPeriod f x = N := by
  obtain ⟨q, hq⟩ := hper.minimalPeriod_dvd
  by_contra hne
  have hq1 : q ≠ 1 := fun h => hne (by rw [hq, h, Nat.mul_one])
  obtain ⟨p, hprime, s, hs⟩ := Nat.exists_prime_and_dvd hq1
  refine hp p hprime ⟨minimalPeriod f x * s, ?_⟩ ?_
  · rw [hq, hs, Nat.mul_left_comm]
  · have hdiv : N / p = minimalPeriod f x * s := by
      rw [hq, hs, Nat.mul_left_comm, Nat.mul_div_cancel_left _ hprime.pos]
    rw [hdiv]
    exact (isPeriodicPt_minimalPeriod f x).mul_const s

/-- A point that comes back after `N` steps only, among `N` points, comes to all of them. -/
theorem exists_iterate_eq {f : ℕ → ℕ} {N x : ℕ} (hf : ∀ y, 0 < y → y ≤ N → 0 < f y ∧ f y ≤ N)
    (hx : 0 < x ∧ x ≤ N) (hper : minimalPeriod f x = N) {y : ℕ} (h0 : 0 < y) (hy : y ≤ N) :
    ∃ n, f^[n] x = y := by
  have hmem : ∀ n, 0 < f^[n] x ∧ f^[n] x ≤ N := by
    intro n
    induction n with
    | zero => exact hx
    | succ n ih =>
      rw [iterate_succ_apply']
      exact hf _ ih.1 ih.2
  have hinj : Set.InjOn (fun n => f^[n] x) (Finset.range N : Finset ℕ) := by
    have h := iterate_injOn_Iio_minimalPeriod (f := f) (x := x)
    rwa [hper, ← Finset.coe_range] at h
  have himage : (Finset.range N).image (fun n => f^[n] x) = Finset.Icc 1 N := by
    refine Finset.eq_of_subset_of_card_le (fun z hz => ?_) ?_
    · obtain ⟨n, -, rfl⟩ := Finset.mem_image.1 hz
      exact Finset.mem_Icc.2 (hmem n)
    · rw [Finset.card_image_of_injOn hinj, Nat.card_Icc, Finset.card_range]
      omega
  obtain ⟨n, -, hn⟩ := Finset.mem_image.1 (himage ▸ Finset.mem_Icc.2 ⟨h0, hy⟩)
  exact ⟨n, hn⟩

end Period

end Lib
