import InfotmUboot.Proofs.NndRead
import InfotmUboot.VsRead
import Mathlib.Tactic

/-!
# What `vs_read` stores

A read is taken apart at the aligned offsets. That is right if the first part is not longer than the
whole and starts below 4 GiB, and on `nnd` if the length is one of whole pages.
-/

namespace InfotmUboot

open Lib

/-- Reads of aligned pieces of a device with this content, as far as they do not fail. -/
def HonestRead (content : Mem) (align : ℕ) (read : DriverRead) : Prop :=
  ∀ (call start : ℕ) (length : ℤ), start % align = 0 → 0 < length → length % align = 0 →
    0 ≤ (read call start length).1 → (read call start length).2 = content.load start length.toNat

/-- A `vs_read` of a positive length that succeeds stores what the device has there, and stores
nothing else. -/
def VsReadRight (d : Dev) (align start : ℕ) (length : ℤ) : Prop :=
  ∀ (content : Mem) (read : DriverRead), HonestRead content align read →
    0 ≤ (vsReadCall d align start length read).ret →
    ∀ i : ℤ, storedAt (vsReadCall d align start length read).writes i =
      if 0 ≤ i ∧ i < length then some (content (start + i.toNat)) else none

/-- The device cannot be read, or the start is aligned or below 4 GiB with the next aligned offset
in reach, and on `nnd` the length is aligned. -/
def VsReadFits (d : Dev) (align start : ℕ) (length : ℤ) : Prop :=
  d.entry.read = false ∨
    (d = .nnd → length % align = 0) ∧
      (start % align = 0 ∨ start < 2 ^ 32 ∧ align - start % align ≤ length)

section Stored

variable {writes : List (ℤ × List UInt8)} {w : ℤ × List UInt8} {i : ℤ}

theorem storedAt_append : storedAt (writes ++ [w]) i =
    if w.1 ≤ i ∧ i < w.1 + w.2.length then w.2[(i - w.1).toNat]? else storedAt writes i := by
  unfold storedAt
  rw [List.foldl_append]
  rfl

theorem storedAt_nil : storedAt [] i = none := rfl

theorem storedAt_in (h : w.1 ≤ i ∧ i < w.1 + w.2.length) : storedAt (writes ++ [w]) i ≠ none := by
  rw [storedAt_append, if_pos h, List.getElem?_eq_getElem (by omega)]
  exact Option.some_ne_none _

/-- Later stores leave no place that was reached before. -/
theorem storedAt_mono (h : storedAt writes i ≠ none) (w : ℤ × List UInt8) :
    storedAt (writes ++ [w]) i ≠ none := by
  rw [storedAt_append]
  split_ifs with hin
  · rw [List.getElem?_eq_getElem (by omega)]
    exact Option.some_ne_none _
  · exact h

end Stored

/-- It is the `vs_read` of the bytes alone, whose parts follow each other. -/
theorem vsReadParts_val (d : Dev) (align start : ℕ) (length : ℤ) (r : ℕ → ℤ → ℤ × List UInt8)
    (hd : d ≠ .fnd) (hr : ∀ s n, (r s n).2.length = n.toNat) :
    (vsReadParts d align start length fun _ => r).ret = (vsReadVal d align start length r).1 ∧
      (0 ≤ (vsReadVal d align start length r).1 →
        (vsReadParts d align start length fun _ => r).writes.flatMap Prod.snd =
          (vsReadVal d align start length r).2) := by
  unfold vsReadParts vsReadVal
  rw [if_neg hd]
  dsimp only
  set head := if vsPrelen align start ≠ 0 then r (andNot (u32 start) (vsMask align)) align
    else (0, [])
  set mid := if vsMidlen d align start length ≠ 0 then
    r (start + vsPrelen align start) (vsMidlen d align start length) else (0, []) with hmid
  set tail := r ((start + vsPrelen align start : ℕ) + vsMidlen d align start length).toNat align
  have hfirst : (if vsPrelen align start ≠ 0 then
      [((0 : ℤ), (fit align head.2).drop (align - vsPrelen align start))] else []).flatMap
        Prod.snd =
        (fit align head.2).drop (align - vsPrelen align start) := by
    by_cases h0 : vsPrelen align start = 0
    · rw [if_neg (not_not.2 h0), h0, List.drop_eq_nil_of_le (by simp)]
      rfl
    · rw [if_pos h0]
      simp
  have hfit : fit (vsMidlen d align start length).toNat mid.2 = mid.2 := by
    refine fit_of_length ?_
    rw [hmid]
    split_ifs with h0
    · exact hr _ _
    · rw [not_not.1 h0]
      rfl
  by_cases h1 : head.1 < 0
  · rw [if_pos h1, if_pos h1]
    exact ⟨rfl, fun h => absurd h1 (not_lt.2 h)⟩
  rw [if_neg h1, if_neg h1]
  by_cases h2 : mid.1 < 0
  · rw [if_pos h2, if_pos h2]
    exact ⟨rfl, fun h => absurd h2 (not_lt.2 h)⟩
  rw [if_neg h2, if_neg h2, hfit]
  by_cases h3 : vsPostlen d align start length = 0
  · rw [if_pos h3, if_pos h3]
    refine ⟨rfl, fun _ => ?_⟩
    rw [List.flatMap_append, hfirst]
    simp
  rw [if_neg h3, if_neg h3]
  by_cases h4 : tail.1 < 0
  · rw [if_pos h4, if_pos h4]
    exact ⟨rfl, fun h => absurd h4 (not_lt.2 h)⟩
  · rw [if_neg h4, if_neg h4]
    refine ⟨rfl, fun _ => ?_⟩
    rw [List.flatMap_append, List.flatMap_append, hfirst]
    simp

section Lengths

variable {d : Dev} {align k start : ℕ} {length : ℤ} (ha : align = 2 ^ k) (hk : k < 32)

include ha hk

theorem vsMask_eq : vsMask align = align - 1 := by
  have hpos : 0 < align := ha ▸ Nat.two_pow_pos k
  have hlt : align < 2 ^ 32 := ha ▸ Nat.pow_lt_pow_right (by norm_num) hk
  unfold vsMask
  rw [show (align : ℤ) - 1 = ((align - 1 : ℕ) : ℤ) by omega, toU32_natCast (by omega)]

theorem vsPrelen_eq :
    vsPrelen align start = if start % align = 0 then 0 else align - start % align := by
  have hpos : 0 < align := ha ▸ Nat.two_pow_pos k
  have hlt : align < 2 ^ 32 := ha ▸ Nat.pow_lt_pow_right (by norm_num) hk
  have hmod : start % align < align := Nat.mod_lt _ hpos
  unfold vsPrelen
  rw [vsMask_eq ha hk, and_mask ha]
  dsimp only
  by_cases h : start % align = 0
  · rw [if_neg (not_not.2 h), if_pos h]
  · rw [if_pos h, if_neg h,
      show (align : ℤ) - (start % align : ℕ) = ((align - start % align : ℕ) : ℤ) by omega,
      toU32_natCast (by omega)]

theorem vsLength_eq {n : ℕ} (hn : n < 2 ^ 31) (hd : d = .nnd → n % align = 0) :
    vsLength d align n = n := by
  have hpos : 0 < align := ha ▸ Nat.two_pow_pos k
  have hle : align ≤ 2 ^ 31 := ha ▸ Nat.pow_le_pow_right (by norm_num) (by omega)
  unfold vsLength
  split_ifs with h
  · obtain ⟨q, hq⟩ := Nat.dvd_of_mod_eq_zero (hd h)
    have hround : (n + (align - 1)) % align = align - 1 := by
      rw [hq, Nat.mul_add_mod, Nat.mod_eq_of_lt (by omega)]
    rw [vsMask_eq ha hk, show (n : ℤ) + (align - 1 : ℕ) = ((n + (align - 1) : ℕ) : ℤ) by omega,
      toU32_natCast (by omega), andNot_mask ha, hround, Nat.add_sub_cancel]
    exact s32_of_range (by omega) (by omega)
  · rfl

/-- The three parts of a read whose first is not longer than the whole. -/
theorem vsParts_eq {n : ℕ} (hn : n < 2 ^ 31) (hd : d = .nnd → n % align = 0)
    (hp : vsPrelen align start ≤ n) :
    vsPostlen d align start n = (n - vsPrelen align start) % align ∧
      vsMidlen d align start n =
        ((n - vsPrelen align start) / align * align : ℕ) := by
  have hpost : vsPostlen d align start n = (n - vsPrelen align start) % align := by
    unfold vsPostlen
    rw [vsLength_eq ha hk hn hd, vsMask_eq ha hk, and_mask ha,
      show (n : ℤ) - (vsPrelen align start : ℕ) = ((n - vsPrelen align start : ℕ) : ℤ) by omega,
      toU32_natCast (by omega)]
  refine ⟨hpost, ?_⟩
  have hsplit := Nat.div_add_mod' (n - vsPrelen align start) align
  have hrest : s32 ((n : ℤ) - (vsPrelen align start : ℕ)) = (n - vsPrelen align start : ℕ) := by
    rw [s32_of_range (by omega) (by omega)]
    omega
  unfold vsMidlen
  rw [vsLength_eq ha hk hn hd, hpost, hrest, s32_of_range (by omega) (by omega)]
  omega

end Lengths

section Right

variable {d : Dev} {align k start n : ℕ} {content : Mem} {read : DriverRead} {i : ℤ}

theorem storedAt_load {writes : List (ℤ × List UInt8)} (x m : ℕ) :
    storedAt (writes ++ [((x : ℤ), content.load (start + x) m)]) i =
      if (x : ℤ) ≤ i ∧ i < x + m then some (content (start + i.toNat)) else storedAt writes i := by
  rw [storedAt_append]
  dsimp only
  rw [Mem.length_load]
  split_ifs with h
  · have hlt : (i - x).toNat < (content.load (start + x) m).length := by
      rw [Mem.length_load]
      omega
    rw [List.getElem?_eq_getElem hlt, Mem.getElem_load]
    congr 2
    omega
  · rfl

variable (ha : align = 2 ^ k) (hk : k < 32)

include ha hk

/-- The block in front of an offset below 4 GiB. -/
theorem head_block (hs : start < 2 ^ 32) :
    andNot (u32 start) (vsMask align) = start - start % align := by
  rw [vsMask_eq ha hk, u32_of_lt hs, andNot_mask ha]

theorem parts_right (hn : 0 < n) (hn31 : n < 2 ^ 31) (hd : d = .nnd → n % align = 0)
    (hs : start % align = 0 ∨ start < 2 ^ 32 ∧ (align : ℤ) - (start % align : ℕ) ≤ n)
    (hread : HonestRead content align read)
    (hret : 0 ≤ (vsReadParts d align start n read).ret) :
    storedAt (vsReadParts d align start n read).writes i =
      if 0 ≤ i ∧ i < n then some (content (start + i.toNat)) else none := by
  have hpos : 0 < align := ha ▸ Nat.two_pow_pos k
  have hmod : start % align < align := Nat.mod_lt _ hpos
  have hprelen : vsPrelen align start = if start % align = 0 then 0 else align - start % align :=
    vsPrelen_eq ha hk
  have hp : vsPrelen align start ≤ n := by
    rw [hprelen]
    split_ifs <;> omega
  have hstart : (start + vsPrelen align start) % align = 0 := by
    rw [hprelen]
    split_ifs with h
    · exact h
    · have hdiv := Nat.div_add_mod' start align
      rw [show start + (align - start % align) = (start / align + 1) * align by
        rw [Nat.add_mul]
        omega]
      exact Nat.mul_mod_left _ _
  obtain ⟨hpost, hmid⟩ := vsParts_eq ha hk hn31 hd hp
  have hsplit := Nat.div_add_mod' (n - vsPrelen align start) align
  have hq := Nat.mod_lt (n - vsPrelen align start) hpos
  have hmul : (n - vsPrelen align start) / align * align % align = 0 := Nat.mul_mod_left _ _
  generalize hM : (n - vsPrelen align start) / align * align = M at *
  generalize hQ : (n - vsPrelen align start) % align = Q at *
  have hhead : vsPrelen align start ≠ 0 →
      0 ≤ (read 0 (andNot (u32 start) (vsMask align)) align).1 →
      (fit align (read 0 (andNot (u32 start) (vsMask align)) align).2).drop
        (align - vsPrelen align start) = content.load start (vsPrelen align start) := by
    intro hne hok
    have h0 : start % align ≠ 0 := fun h0 => hne (by rw [hprelen, if_pos h0])
    have hlow : start < 2 ^ 32 := (hs.resolve_left h0).1
    have hdiv := Nat.div_add_mod' start align
    rw [head_block ha hk hlow] at hok ⊢
    rw [hread 0 (start - start % align) align
      (Nat.mod_eq_zero_of_dvd (Nat.dvd_sub_mod start)) (by omega) (by simp) hok, Int.toNat_natCast,
      fit_of_length (Mem.length_load _ _ _), hprelen, if_neg h0, Mem.drop_load _ _ (by omega)]
    congr 1 <;> omega
  have hmiddle : M ≠ 0 → 0 ≤ (read 1 (start + vsPrelen align start) M).1 →
      (read 1 (start + vsPrelen align start) M).2 =
        content.load (start + vsPrelen align start) M := fun hne hok =>
    hread 1 _ M hstart (by omega) (by exact_mod_cast hmul) hok
  have htail : 0 ≤ (read 2 ((start + vsPrelen align start : ℕ) + (M : ℤ)).toNat align).1 →
      (fit align (read 2 ((start + vsPrelen align start : ℕ) + (M : ℤ)).toNat align).2).take Q =
        content.load (start + (vsPrelen align start + M)) Q := by
    intro hok
    have hat : ((start + vsPrelen align start : ℕ) + (M : ℤ)).toNat =
      start + (vsPrelen align start + M) := by omega
    rw [hat] at hok ⊢
    rw [hread 2 _ align (by rw [← Nat.add_assoc, Nat.add_mod, hstart, hmul]; simp)
      (by omega) (by simp)
      hok, Int.toNat_natCast, fit_of_length (Mem.length_load _ _ _), Mem.take_load _ _ hq.le]
  clear hprelen hs
  unfold vsReadParts at hret ⊢
  rw [hpost, hmid] at hret ⊢
  dsimp only at hret ⊢
  set P := vsPrelen align start
  set head := if P ≠ 0 then read 0 (andNot (u32 start) (vsMask align)) align else (0, [])
    with heqhead
  set mid := if (M : ℤ) ≠ 0 then read 1 (start + P) M else (0, []) with heqmid
  set tail := read 2 ((start + P : ℕ) + (M : ℤ)).toNat align
  have hw1 (h : 0 ≤ head.1) :
      storedAt (if P ≠ 0 then [((0 : ℤ), (fit align head.2).drop (align - P))] else []) i =
        if 0 ≤ i ∧ i < P then some (content (start + i.toNat)) else none := by
    by_cases h0 : P = 0
    · rw [if_neg (not_not.2 h0), storedAt_nil, if_neg (by omega)]
    · rw [heqhead, if_pos h0] at h ⊢
      rw [if_pos h0, hhead h0 h]
      have hstored := @storedAt_load start content i [] 0 P
      rw [List.nil_append, Nat.add_zero, storedAt_nil] at hstored
      simpa using hstored
  have hw2 (h : 0 ≤ mid.1) : mid.2 = content.load (start + P) M := by
    by_cases h0 : M = 0
    · rw [heqmid, if_neg (by omega), h0, Mem.load_zero]
    · rw [heqmid, if_pos (by omega)] at h ⊢
      exact hmiddle h0 h
  by_cases h1 : head.1 < 0
  · rw [if_pos h1] at hret
    exact absurd hret (not_le.2 h1)
  rw [if_neg h1] at hret ⊢
  by_cases h2 : mid.1 < 0
  · rw [if_pos h2] at hret
    exact absurd hret (not_le.2 h2)
  rw [if_neg h2] at hret ⊢
  rw [hw2 (not_lt.1 h2)]
  by_cases h3 : Q = 0
  · rw [if_pos h3, storedAt_load, hw1 (not_lt.1 h1)]
    split_ifs <;> first | rfl | omega
  rw [if_neg h3] at hret ⊢
  by_cases h4 : tail.1 < 0
  · rw [if_pos h4] at hret
    exact absurd hret (not_le.2 h4)
  rw [if_neg h4, htail (not_lt.1 h4), ← Nat.cast_add, storedAt_load, storedAt_load,
    hw1 (not_lt.1 h1)]
  split_ifs <;> first | rfl | omega

end Right

section Failing

variable {d : Dev} {align k start n : ℕ} {content : Mem} {i : ℤ}

/-- A device that never fails. -/
def sureRead (content : Mem) : DriverRead := fun _ start length =>
  if 0 < length then (length, content.load start length.toNat) else (0, [])

theorem sureRead_honest (content : Mem) (align : ℕ) : HonestRead content align
    (sureRead content) := by
  intro call start length _ hpos _ _
  unfold sureRead
  rw [if_pos hpos]

theorem sureRead_ret (call start : ℕ) (length : ℤ) : 0 ≤
    (sureRead content call start length).1 := by
  unfold sureRead
  split_ifs with h
  · exact h.le
  · exact le_rfl

/-- The stores of such a read, one after the other. -/
theorem sureRead_parts (d : Dev) (align start : ℕ) (length : ℤ) (content : Mem) :
    let prelen := vsPrelen align start
    let midlen := vsMidlen d align start length
    let first := if prelen ≠ 0 then sureRead content 0 (andNot (u32 start) (vsMask align)) align
      else (0, [])
    let head := if prelen ≠ 0 then [((0 : ℤ), (fit align first.2).drop (align - prelen))] else []
    let mid := (if midlen ≠ 0 then sureRead content 1 (start + prelen) midlen else (0, [])).2
    let tail := sureRead content 2 ((start + prelen : ℕ) + midlen).toNat align
    0 ≤ (vsReadParts d align start length (sureRead content)).ret ∧
      (vsReadParts d align start length (sureRead content)).writes =
        if vsPostlen d align start length = 0 then head ++ [((prelen : ℤ), mid)]
        else head ++ [((prelen : ℤ), mid)] ++
          [(prelen + midlen, (fit align tail.2).take (vsPostlen d align start length))] := by
  intro prelen midlen first head mid tail
  have hpart {c : Prop} [Decidable c] (call s : ℕ) (len : ℤ) :
      0 ≤ (if c then sureRead content call s len else (0, [])).1 := by
    split_ifs
    · exact sureRead_ret call s len
    · exact le_rfl
  unfold vsReadParts
  dsimp only
  rw [if_neg (not_lt.2 (hpart _ _ _)), if_neg (not_lt.2 (hpart _ _ _))]
  by_cases hpost : vsPostlen d align start length = 0
  · rw [if_pos hpost, if_pos hpost]
    exact ⟨add_nonneg (hpart _ _ _) (hpart _ _ _), rfl⟩
  · rw [if_neg hpost, if_neg hpost, if_neg (not_lt.2 (sureRead_ret _ _ _))]
    exact ⟨add_nonneg (add_nonneg (hpart _ _ _) (hpart _ _ _)) (sureRead_ret _ _ _), rfl⟩

/-- What a right `vs_read` leaves of it. -/
theorem VsReadRight.stored (h : VsReadRight d align start n) (hd : d ≠ .fnd)
    (hread : d.entry.read = true) (hn : 0 < n) (content : Mem) (i : ℤ) :
    storedAt (vsReadParts d align start n (sureRead content)).writes i =
      if 0 ≤ i ∧ i < n then some (content (start + i.toNat)) else none := by
  have hcall : vsReadCall d align start n (sureRead content) =
      vsReadParts d align start n (sureRead content) := by
    unfold vsReadCall
    rw [if_neg (not_not.2 hread), if_neg (by omega), if_neg hd]
  have hright := h content (sureRead content) (sureRead_honest content align)
  rw [hcall] at hright
  exact hright (sureRead_parts d align start n content).1 i

variable (h : VsReadRight d align start n) (hd : d ≠ .fnd) (hread : d.entry.read = true)
  (hn : 0 < n)
  (hn31 : n < 2 ^ 31) (ha : align = 2 ^ k) (hk : k < 32)

include h hd hread hn ha hk

/-- The first part is not longer than the whole. -/
theorem prelen_le : vsPrelen align start ≤ n := by
  by_contra hlong
  have hout := h.stored hd hread hn (fun _ => 0) n
  rw [if_neg (by omega), (sureRead_parts d align start n _).2] at hout
  have hne : vsPrelen align start ≠ 0 := by omega
  have hle : vsPrelen align start ≤ align := by
    rw [vsPrelen_eq ha hk]
    split_ifs <;> omega
  rw [if_pos hne] at hout
  have hfirst (bs : List UInt8) : storedAt [((0 : ℤ), (fit align bs).drop
      (align - vsPrelen align start))] n ≠ none := by
    have hlen : ((fit align bs).drop (align - vsPrelen align start)).length =
        vsPrelen align start := by
      rw [List.length_drop, length_fit]
      omega
    exact @storedAt_in [] _ _ (by rw [hlen]; omega)
  by_cases hpost : vsPostlen d align start n = 0
  · rw [if_pos hpost] at hout
    exact storedAt_mono (hfirst _) _ hout
  · rw [if_neg hpost] at hout
    exact storedAt_mono (storedAt_mono (hfirst _) _) _ hout

/-- It is read where it is: the mask of the first part has 32 bits. -/
theorem start_low (hmid : 0 ≤ vsMidlen d align start n) (hne : start % align ≠ 0) :
    start < 2 ^ 32 := by
  have hpos : 0 < align := ha ▸ Nat.two_pow_pos k
  have hmod : start % align < align := Nat.mod_lt _ hpos
  have hprelen : vsPrelen align start = if start % align = 0 then 0 else align - start % align :=
    vsPrelen_eq ha hk
  rw [if_neg hne] at hprelen
  have hout := h.stored hd hread hn (fun x => if x = start then 1 else 0) 0
  rw [if_pos (by omega), (sureRead_parts d align start n _).2] at hout
  rw [if_pos (show vsPrelen align start ≠ 0 by omega),
    if_pos (show vsPrelen align start ≠ 0 by omega)] at hout
  dsimp only [Int.toNat_zero, Nat.add_zero] at hout
  have hlast (ws : List (ℤ × List UInt8)) (bs cs : List UInt8) :
      storedAt (if vsPostlen d align start n = 0 then ws ++ [((vsPrelen align start : ℤ), bs)]
        else ws ++ [((vsPrelen align start : ℤ), bs)] ++
          [(vsPrelen align start + vsMidlen d align start n, cs)]) 0 = storedAt ws 0 := by
    split_ifs
    · rw [storedAt_append, if_neg (by omega)]
    · rw [storedAt_append, if_neg (by omega), storedAt_append, if_neg (by omega)]
  have hdvd : align ∣ 2 ^ 32 := ha ▸ pow_dvd_pow 2 (by omega)
  have hlow : u32 start % align = start % align := Nat.mod_mod_of_dvd start hdvd
  have hle := Nat.mod_le (u32 start) align
  have hblock : andNot (u32 start) (vsMask align) + (align - vsPrelen align start) =
    u32 start + 0 := by
    rw [vsMask_eq ha hk, andNot_mask ha]
    omega
  have hcall (c : Mem) (s : ℕ) : (sureRead c 0 s align).2 = c.load s align := by
    unfold sureRead
    rw [if_pos (by omega), Int.toNat_natCast]
  have hstored := @storedAt_load (u32 start) (fun x => if x = start then 1 else 0) 0 []
    0 (vsPrelen align start)
  rw [List.nil_append, if_pos (by omega)] at hstored
  rw [hlast, hcall, fit_of_length (Mem.length_load _ _ _), Mem.drop_load _ _ (by omega), hblock,
    show align - (align - vsPrelen align start) = vsPrelen align start by omega] at hout
  have hbyte := hstored.symm.trans hout
  by_contra hhigh
  have hother : u32 start ≠ start := by
    have := u32_lt start
    omega
  simp only [Int.toNat_zero, Nat.add_zero, if_true, Option.some_inj, if_neg hother] at hbyte
  exact absurd hbyte (by decide)

omit h hd hread hn

omit ha hk in
theorem s32_rest {r p q : ℕ} (hr : r ≤ 2 ^ 31) (hq : p + q ≤ r) (hlt : r < 2 ^ 31 ∨ p ≠ 0) :
    s32 ((r : ℤ) - p - q) = r - p - q := s32_of_range (by omega) (by omega)

omit ha hk in
theorem parts_past {r p q : ℕ} (hq : q ≤ r - p) (hp : p ≤ n) (hn : n < r) :
    0 ≤ (r : ℤ) - p - q ∧ (n : ℤ) < p + (r - p - q) + q := ⟨by omega, by omega⟩

/-- The parts of a read on `nnd`, whose length is rounded up to `r`. -/
theorem nnd_parts (hn31 : n < 2 ^ 31) (hne : n % align ≠ 0) (hp : vsPrelen align start ≤ n) :
    0 ≤ vsMidlen .nnd align start n ∧
        (n : ℤ) < vsPrelen align start + vsMidlen .nnd align start n + vsPostlen .nnd
          align start n ∨
      vsPrelen align start = 0 ∧ vsMidlen .nnd align start n < 0 ∧
        vsPostlen .nnd align start n = 0 := by
  have hpos : 0 < align := ha ▸ Nat.two_pow_pos k
  obtain ⟨t, ht⟩ : align ∣ 2 ^ 31 := by
    rw [ha]
    exact pow_dvd_pow 2 (by omega)
  have hlen : vsLength .nnd align n =
      s32 (((n + (align - 1)) / align * align : ℕ) : ℤ) := by
    have hle : align ≤ 2 ^ 31 := Nat.le_of_dvd (by norm_num) ⟨t, ht⟩
    have hdiv := Nat.div_add_mod' (n + (align - 1)) align
    unfold vsLength
    rw [if_pos rfl, vsMask_eq ha hk,
      show (n : ℤ) + (align - 1 : ℕ) = ((n + (align - 1) : ℕ) : ℤ) by omega,
      toU32_natCast (by omega), andNot_mask ha]
    congr 2
    omega
  have hle : align ≤ 2 ^ 31 := Nat.le_of_dvd (by norm_num) ⟨t, ht⟩
  have hdiv := Nat.div_add_mod' (n + (align - 1)) align
  have hmod := Nat.mod_lt (n + (align - 1)) hpos
  have hround : n < (n + (align - 1)) / align * align := by
    have hneq : n ≠ (n + (align - 1)) / align * align := fun heq =>
      hne (heq ▸ Nat.mul_mod_left _ _)
    omega
  have hmost : (n + (align - 1)) / align * align ≤ 2 ^ 31 := by
    by_contra hgt
    have hq : t < (n + (align - 1)) / align := by
      refine Nat.lt_of_mul_lt_mul_right (a := align) ?_
      rw [Nat.mul_comm t, ← ht]
      omega
    have hbig := Nat.mul_le_mul_right align hq
    rw [Nat.succ_mul, Nat.mul_comm t, ← ht] at hbig
    omega
  have htop : 2 ^ 31 % align = 0 := Nat.mod_eq_zero_of_dvd ⟨t, ht⟩
  clear ht
  generalize (n + (align - 1)) / align * align = r at *
  have hmask := vsMask_eq ha hk
  have hpa : vsPrelen align start ≤ align := by
    rw [vsPrelen_eq ha hk]
    split_ifs <;> omega
  have hpost (x : ℕ) (hx : toU32 (vsLength .nnd align n - vsPrelen align start) = x) :
      vsPostlen .nnd align start n = x % align := by
    rw [vsPostlen, hx, hmask, and_mask ha]
  rcases Nat.lt_or_eq_of_le hmost with hlt | heq
  · have hr : s32 ((r : ℕ) : ℤ) = r := s32_of_range (by omega) (by omega)
    have hq := hpost (r - vsPrelen align start) (by
      rw [hlen, hr, show (r : ℤ) - (vsPrelen align start : ℕ) =
        ((r - vsPrelen align start : ℕ) : ℤ) by omega, toU32_natCast (by omega)])
    have hql := Nat.mod_le (r - vsPrelen align start) align
    generalize (r - vsPrelen align start) % align = q at *
    have hin : s32 ((r : ℤ) - (vsPrelen align start : ℕ)) = r - vsPrelen align start :=
      s32_of_range (by omega) (by omega)
    have hm : vsMidlen .nnd align start n = r - vsPrelen align start - q := by
      rw [vsMidlen, hq, hlen, hr, hin]
      exact s32_rest hmost (by omega) (Or.inl hlt)
    rw [hm, hq]
    exact Or.inl (parts_past hql hp hround)
  · -- the length has become negative
    have hr : s32 ((r : ℕ) : ℤ) = -2 ^ 31 := by
      unfold s32
      rw [heq, Int.bmod_def]
      norm_num
    by_cases h0 : vsPrelen align start = 0
    · have hq := hpost (2 ^ 31) (by
        rw [hlen, hr, h0]
        rfl)
      rw [htop] at hq
      refine Or.inr ⟨h0, ?_, hq⟩
      rw [vsMidlen, hq, hlen, hr, h0]
      decide
    · have hq := hpost (r - vsPrelen align start) (by
        rw [hlen, hr, heq]
        unfold toU32
        omega)
      have hql := Nat.mod_le (r - vsPrelen align start) align
      generalize (r - vsPrelen align start) % align = q at *
      have hin : s32 (-2 ^ 31 - (vsPrelen align start : ℕ)) = r - vsPrelen align start := by
        unfold s32
        rw [heq, Int.bmod_def]
        split <;> omega
      have hm : vsMidlen .nnd align start n = r - vsPrelen align start - q := by
        rw [vsMidlen, hq, hlen, hr, hin]
        exact s32_rest hmost (by omega) (Or.inr h0)
      rw [hm, hq]
      exact Or.inl (parts_past hql hp hround)

include h hd hread hn

/-- On `nnd` there is nothing to round up. -/
theorem nnd_aligned (hn31 : n < 2 ^ 31) (hnnd : d = .nnd) : n % align = 0 := by
  subst hnnd
  have hp := prelen_le h hd hread hn ha hk
  by_contra hne
  have hwrites := fun c => (sureRead_parts .nnd align start n c).2
  rcases nnd_parts ha hk hn31 hne hp with ⟨hm, hpast⟩ | ⟨h0, hm, hq⟩
  · have hout := h.stored hd hread hn (fun _ => 0) n
    rw [if_neg (by omega), hwrites] at hout
    by_cases hin : (n : ℤ) < vsPrelen align start + vsMidlen .nnd align start n
    · rw [if_pos (show vsMidlen .nnd align start n ≠ 0 by omega)] at hout
      have hmid (ws : List (ℤ × List UInt8)) : storedAt (ws ++ [((vsPrelen align start : ℤ),
          (sureRead (fun _ => 0) 1 (start + vsPrelen align start)
            (vsMidlen .nnd align start n)).2)]) n ≠ none := by
        refine storedAt_in ⟨by omega, ?_⟩
        unfold sureRead
        rw [if_pos (by omega), Mem.length_load]
        omega
      by_cases hq : vsPostlen .nnd align start n = 0
      · rw [if_pos hq] at hout
        exact hmid _ hout
      · rw [if_neg hq] at hout
        exact storedAt_mono (hmid _) _ hout
    · have hq : vsPostlen .nnd align start n < align := by
        rw [vsPostlen, vsMask_eq ha hk, and_mask ha]
        exact Nat.mod_lt _ (ha ▸ Nat.two_pow_pos k)
      rw [if_neg (show vsPostlen .nnd align start n ≠ 0 by omega)] at hout
      refine storedAt_in ⟨by omega, ?_⟩ hout
      rw [List.length_take, length_fit]
      omega
  · have hout := h.stored hd hread hn (fun _ => 0) 0
    rw [if_pos (by omega), hwrites, if_pos hq, if_neg (not_not.2 h0), List.nil_append, h0,
      if_pos hm.ne] at hout
    unfold sureRead at hout
    rw [if_neg (by omega), ← List.nil_append [_], storedAt_append, if_neg (by simp), storedAt_nil]
      at hout
    exact absurd hout (by simp)

end Failing

section Iff

variable {d : Dev} {align k start n : ℕ}

theorem fits_of_right (h : VsReadRight d align start n) (hd : d ≠ .fnd) (hn : 0 < n)
    (hn31 : n < 2 ^ 31) (ha : align = 2 ^ k) (hk : k < 32) : VsReadFits d align start n := by
  by_cases hread : d.entry.read = true
  · have hnnd := nnd_aligned h hd hread hn ha hk hn31
    have hp := prelen_le h hd hread hn ha hk
    have hmid := (vsParts_eq ha hk hn31 hnnd hp).2
    refine Or.inr ⟨fun h' => by exact_mod_cast hnnd h', ?_⟩
    by_cases h0 : start % align = 0
    · exact Or.inl h0
    · refine Or.inr ⟨start_low h hd hread hn ha hk (hmid ▸ Nat.cast_nonneg _) h0, ?_⟩
      rw [vsPrelen_eq ha hk, if_neg h0] at hp
      omega
  · exact Or.inl (Bool.not_eq_true _ ▸ hread)

theorem right_of_fits (h : VsReadFits d align start n) (hd : d ≠ .fnd) (hn : 0 < n)
    (hn31 : n < 2 ^ 31) (ha : align = 2 ^ k) (hk : k < 32) : VsReadRight d align start n := by
  intro content read hhonest hret i
  unfold vsReadCall at hret ⊢
  by_cases hread : d.entry.read = true
  · rw [if_neg (not_not.2 hread), if_neg (by omega), if_neg hd] at hret ⊢
    rcases h with h | ⟨hnnd, hs⟩
    · exact absurd (h.symm.trans hread) (by decide)
    · exact parts_right ha hk hn hn31 (fun h' => by exact_mod_cast hnnd h') hs hhonest hret
  · rw [if_pos hread] at hret
    exact absurd hret (by decide)

end Iff

/-- `vs_read` stores just what was asked for, from the offsets and of the lengths that fit. -/
theorem vs_read_right_iff (d : Dev) (k : Fin 32) (start n : ℕ) (hd : d ≠ .fnd) (hn : 0 < n)
    (hn31 : n < 2 ^ 31) : VsReadRight d (2 ^ k.val) start n ↔ VsReadFits d (2 ^ k.val) start n :=
  ⟨fun h => fits_of_right h hd hn hn31 rfl k.isLt, fun h => right_of_fits h hd hn hn31 rfl k.isLt⟩

/-- A read across a block of a card. -/
theorem vs_read_right_card : VsReadRight .mmc0 (2 ^ 9) 100 1000 :=
  (vs_read_right_iff .mmc0 9 100 1000 (by decide) (by norm_num) (by norm_num)).2
    (Or.inr ⟨fun h => absurd h (by decide), Or.inr (by norm_num)⟩)

/-- A read from inside a block at 4 GiB. -/
theorem vs_read_right_fails : ¬∀ (d : Dev) (k : Fin 32) (start n : ℕ), d ≠ .fnd → 0 < n →
    n < 2 ^ 31 →
    VsReadRight d (2 ^ k.val) start n := fun h => by
  rcases fits_of_right (h .mmc0 9 (2 ^ 32 + 100) 1000 (by decide) (by norm_num) (by norm_num))
    (by decide) (by norm_num) (by norm_num) rfl (by norm_num) with hread | ⟨-, hstart | ⟨hlow, -⟩⟩
  · exact absurd hread (by decide)
  · exact absurd hstart (by norm_num)
  · exact absurd hlow (by norm_num)

end InfotmUboot
