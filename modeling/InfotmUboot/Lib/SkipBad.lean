import Mathlib.Data.Nat.Count
import Mathlib.Data.List.Basic
import Mathlib.Tactic.Linarith

/-!
# Placing chunks past bad blocks

Chunks of `step` go into blocks of `q` chunks each, one after the other, and a bad block is passed
over at its first chunk as long as the budget `k` of passed blocks lasts (`place`). `place_get`
gives the place of every chunk in closed form: chunk `t` is chunk `t % q` of the good block number
`t / q` from the first block on, counted by `Nat.count`.
-/

namespace Lib

section Place

variable (bad : ℕ → Bool) (skip step : ℕ)

/-- The first offset from `offs` on, in strides of `skip`, that is not bad, with what is left of a
budget of `k` strides. -/
def seek : ℕ → ℕ → Option (ℕ × ℕ)
  | 0, offs => if bad offs then none else some (offs, 0)
  | k + 1, offs => if bad offs then seek k (offs + skip) else some (offs, k + 1)

/-- What `seek` finds is a number of strides away. -/
theorem seek_stride :
    ∀ (k offs o k' : ℕ), seek bad skip k offs = some (o, k') → ∃ j, o = offs + j * skip
  | 0, offs, o, k', h => by
    unfold seek at h
    split_ifs at h
    rw [Option.some.injEq, Prod.mk.injEq] at h
    exact ⟨0, by rw [← h.1]; simp⟩
  | k + 1, offs, o, k', h => by
    unfold seek at h
    split_ifs at h
    · obtain ⟨j, rfl⟩ := seek_stride k (offs + skip) o k' h
      refine ⟨j + 1, ?_⟩
      rw [Nat.add_mul, Nat.one_mul]
      omega
    · rw [Option.some.injEq, Prod.mk.injEq] at h
      exact ⟨0, by rw [← h.1]; simp⟩

/-- Where a chunk at `offs` lands: bad blocks are looked for at block boundaries only. -/
def land (k offs : ℕ) : Option (ℕ × ℕ) :=
  if skip ≠ 0 ∧ offs % skip = 0 then seek bad skip k offs else some (offs, k)

/-- The offsets of `n` chunks from `offs` on, and whether all of them found a place. -/
def place : ℕ → ℕ → ℕ → List ℕ × Bool
  | 0, _, _ => ([], true)
  | n + 1, k, offs =>
    match land bad skip k offs with
    | none => ([], false)
    | some (o, k') =>
      let r := place n k' (o + step)
      (o :: r.1, r.2)

end Place

section Blocks

variable (badB : ℕ → Bool) (skip : ℕ)

/-- How many blocks before `b` are good. -/
def goods (b : ℕ) : ℕ := Nat.count (fun i => badB i = false) b

theorem goods_succ {c : ℕ} (h : badB c = false) : goods badB (c + 1) = goods badB c + 1 := by
  rw [goods, goods, Nat.count_succ, if_pos h]

theorem goods_succ_bad {c : ℕ} (h : badB c = true) : goods badB (c + 1) = goods badB c := by
  rw [goods, goods, Nat.count_succ, if_neg (by simp [h]), Nat.add_zero]

theorem goods_add_bad {c : ℕ} :
    ∀ {j : ℕ}, (∀ i < j, badB (c + i) = true) → goods badB (c + j) = goods badB c
  | 0, _ => rfl
  | j + 1, h => by
    rw [← Nat.add_assoc, goods_succ_bad badB (h j (by omega))]
    exact goods_add_bad fun i hi => h i (by omega)

theorem goods_mono {a b : ℕ} (h : a ≤ b) : goods badB a ≤ goods badB b :=
  Nat.count_monotone _ h

/-- A good block with at least as many good blocks before it is not an earlier one. -/
theorem le_of_goods_le {c g : ℕ} (hg : badB g = false) (h : goods badB c ≤ goods badB g) :
    c ≤ g := by
  by_contra hlt
  have h1 := goods_succ badB hg
  have h2 := goods_mono badB (by omega : g + 1 ≤ c)
  omega

theorem goods_add_le (c j : ℕ) : goods badB (c + j) ≤ goods badB c + j := by
  induction j with
  | zero => exact le_refl _
  | succ j ih =>
    rw [← Nat.add_assoc]
    rcases hb : badB (c + j) with _ | _
    · rw [goods_succ badB hb]
      omega
    · rw [goods_succ_bad badB hb]
      omega

/-- Good blocks are told apart by the good blocks before them. -/
theorem goods_inj {g g' : ℕ} (hg : badB g = false) (hg' : badB g' = false)
    (h : goods badB g = goods badB g') : g = g' :=
  le_antisymm (le_of_goods_le badB hg' h.le) (le_of_goods_le badB hg h.ge)

variable {badB skip}

/-- The good blocks before `b` are counted one by one. -/
theorem exists_goods {j : ℕ} : ∀ {b : ℕ}, j < goods badB b → ∃ c < b, badB c = false ∧
    goods badB c = j
  | 0, h => absurd h (by rw [goods, Nat.count_zero]; exact Nat.not_lt_zero j)
  | b + 1, h => by
    by_cases hlt : j < goods badB b
    · obtain ⟨c, hc, hgood⟩ := exists_goods hlt
      exact ⟨c, Nat.lt_succ_of_lt hc, hgood⟩
    · rcases hb : badB b with _ | _
      · rw [goods_succ badB hb] at h
        exact ⟨b, Nat.lt_succ_self b, hb, by omega⟩
      · rw [goods_succ_bad badB hb] at h
        exact absurd h hlt

/-- From the start of block `c` on, `seek` finds the first good block or runs out of budget. -/
theorem seek_blocks (hskip : 0 < skip) :
    ∀ (k c : ℕ),
      (∃ j ≤ k, (∀ i < j, badB (c + i) = true) ∧ badB (c + j) = false ∧
        seek (fun x => badB (x / skip)) skip k (c * skip) = some ((c + j) * skip, k - j)) ∨
      ((∀ i ≤ k, badB (c + i) = true) ∧
        seek (fun x => badB (x / skip)) skip k (c * skip) = none)
  | 0, c => by
    simp only [seek, Nat.mul_div_cancel _ hskip]
    rcases hb : badB c with _ | _
    · exact Or.inl ⟨0, le_refl 0, by simp, hb, by simp⟩
    · refine Or.inr ⟨fun i hi => ?_, by simp⟩
      rw [Nat.le_zero.1 hi]
      exact hb
  | k + 1, c => by
    simp only [seek, Nat.mul_div_cancel _ hskip]
    rcases hb : badB c with _ | _
    · exact Or.inl ⟨0, Nat.zero_le _, by simp, hb, by simp⟩
    · rw [if_pos rfl, show c * skip + skip = (c + 1) * skip from (Nat.succ_mul c skip).symm]
      rcases seek_blocks hskip k (c + 1) with ⟨j, hj, hbad, hgood, hs⟩ | ⟨hbad, hs⟩
      · refine Or.inl ⟨j + 1, by omega, fun i hi => ?_, ?_, ?_⟩
        · rcases i with _ | i
          · exact hb
          · have := hbad i (by omega)
            rwa [show c + 1 + i = c + (i + 1) by omega] at this
        · rwa [show c + 1 + j = c + (j + 1) by omega] at hgood
        · rw [hs, show c + 1 + j = c + (j + 1) by omega, Nat.succ_sub_succ]
      · refine Or.inr ⟨fun i hi => ?_, hs⟩
        rcases i with _ | i
        · exact hb
        · have := hbad i (by omega)
          rwa [show c + 1 + i = c + (i + 1) by omega] at this

end Blocks

section Layout

variable (badB : ℕ → Bool) (q step f K : ℕ)

/-- `x` is the place of chunk `t`, counted from block `f` with a budget of `K` bad blocks: chunk
`t % q` of the good block that has `t / q` good ones before it. -/
def IsPlace (t x : ℕ) : Prop :=
  ∃ g, f ≤ g ∧ badB g = false ∧ goods badB g = goods badB f + t / q ∧ g ≤ f + t / q + K ∧
    x = g * (q * step) + t % q * step

/-- The placement has come to chunk `t`: `offs` is in block `c`, which a chunk in the middle of it
knows to be good, and every block from `f` on was either filled or taken from the budget. -/
def Reaches (t k offs : ℕ) : Prop :=
  ∃ c, f ≤ c ∧ goods badB c = goods badB f + t / q ∧ c + k = f + t / q + K ∧
    (t % q ≠ 0 → badB c = false) ∧ offs = c * (q * step) + t % q * step

variable {badB q step f K}

theorem IsPlace.unique {t x y : ℕ} (hx : IsPlace badB q step f K t x)
    (hy : IsPlace badB q step f K t y) : x = y := by
  obtain ⟨g, _, hg, hc, _, rfl⟩ := hx
  obtain ⟨g', _, hg', hc', _, rfl⟩ := hy
  rw [goods_inj badB hg hg' (hc.trans hc'.symm)]

theorem reaches_zero : Reaches badB q step f K 0 K (f * (q * step)) :=
  ⟨f, le_refl f, by simp, by simp, by simp, by simp⟩

variable (hq : 0 < q) (hstep : 0 < step)
include hq

theorem mod_succ {t : ℕ} :
    (t % q + 1 < q ∧ (t + 1) % q = t % q + 1 ∧ (t + 1) / q = t / q) ∨
      (t % q + 1 = q ∧ (t + 1) % q = 0 ∧ (t + 1) / q = t / q + 1) := by
  have hm := Nat.mod_lt t hq
  have hd := Nat.div_add_mod t q
  rcases Nat.lt_or_ge (t % q + 1) q with h | h
  · left
    have ht : t + 1 = q * (t / q) + (t % q + 1) := by omega
    refine ⟨h, ?_, ?_⟩
    · rw [ht, Nat.mul_add_mod, Nat.mod_eq_of_lt h]
    · rw [ht, Nat.mul_add_div hq, Nat.div_eq_of_lt h, Nat.add_zero]
  · right
    have he : t % q + 1 = q := by omega
    have ht : t + 1 = q * (t / q + 1) := by
      rw [Nat.mul_add, Nat.mul_one]
      omega
    refine ⟨he, ?_, ?_⟩
    · rw [ht, Nat.mul_mod_right]
    · rw [ht, Nat.mul_div_cancel_left _ hq]

/-- After a chunk in the good block `g` the placement has come to the next one. -/
theorem reaches_succ {t k g : ℕ} (hf : f ≤ g) (hg : badB g = false)
    (hc : goods badB g = goods badB f + t / q) (hk : g + k = f + t / q + K) :
    Reaches badB q step f K (t + 1) k (g * (q * step) + t % q * step + step) := by
  rcases mod_succ hq (t := t) with ⟨_, hm, hd⟩ | ⟨he, hm, hd⟩
  · refine ⟨g, hf, by rw [hd, hc], by rw [hd, hk], fun _ => hg, ?_⟩
    rw [hm, Nat.add_mul, Nat.one_mul, Nat.add_assoc]
  · refine ⟨g + 1, by omega, ?_, by omega, fun h => absurd hm h, ?_⟩
    · rw [goods_succ badB hg, hc, hd, Nat.add_assoc]
    · rw [hm, Nat.zero_mul, Nat.add_zero, Nat.add_mul, Nat.one_mul, Nat.add_assoc,
        ← Nat.succ_mul, Nat.succ_eq_add_one, he]

include hstep

/-- One chunk: it lands on its place and the placement goes on, or no later chunk has a place. -/
theorem land_reaches {t k offs : ℕ} (h : Reaches badB q step f K t k offs) :
    (∃ o k', land (fun x => badB (x / (q * step))) (q * step) k offs = some (o, k') ∧
        IsPlace badB q step f K t o ∧ Reaches badB q step f K (t + 1) k' (o + step)) ∨
      (land (fun x => badB (x / (q * step))) (q * step) k offs = none ∧
        ∀ t' x, t ≤ t' → ¬IsPlace badB q step f K t' x) := by
  obtain ⟨c, hf, hc, hk, hr, rfl⟩ := h
  have hskip : 0 < q * step := Nat.mul_pos hq hstep
  by_cases hm : t % q = 0
  · rw [hm, Nat.zero_mul, Nat.add_zero]
    have hl : land (fun x => badB (x / (q * step))) (q * step) k (c * (q * step)) =
        seek (fun x => badB (x / (q * step))) (q * step) k (c * (q * step)) :=
      if_pos ⟨hskip.ne', Nat.mul_mod_left c _⟩
    rw [hl]
    rcases @seek_blocks badB _ hskip k c with ⟨j, hj, hbad, hgood, hs⟩ | ⟨hbad, hs⟩
    · have hcj : goods badB (c + j) = goods badB f + t / q := by
        rw [goods_add_bad badB hbad, hc]
      refine Or.inl ⟨_, _, hs, ⟨c + j, by omega, hgood, hcj, by omega, by simp [hm]⟩, ?_⟩
      have hn := @reaches_succ badB q step f K hq t (k - j) (c + j) (by omega) hgood hcj
        (by omega)
      rwa [hm, Nat.zero_mul, Nat.add_zero] at hn
    · refine Or.inr ⟨hs, ?_⟩
      rintro t' x ht ⟨g, _, hg, hgc, hgk, _⟩
      have hdiv : t / q ≤ t' / q := Nat.div_le_div_right ht
      have hcg : c ≤ g := le_of_goods_le badB hg (by omega)
      have hgt : c + k < g := by
        by_contra hle
        obtain ⟨i, rfl⟩ := Nat.exists_eq_add_of_le hcg
        rw [hbad i (by omega)] at hg
        exact absurd hg (by simp)
      obtain ⟨i, rfl⟩ := Nat.exists_eq_add_of_le (show c + (k + 1) ≤ g by omega)
      have h1 : goods badB (c + (k + 1)) = goods badB c :=
        goods_add_bad badB fun i hi => hbad i (by omega)
      have h2 := goods_add_le badB (c + (k + 1)) i
      omega
  · have hlt : t % q * step < q * step := Nat.mul_lt_mul_of_pos_right (Nat.mod_lt t hq) hstep
    have hl : land (fun x => badB (x / (q * step))) (q * step) k (c * (q * step) + t % q * step) =
        some (c * (q * step) + t % q * step, k) := by
      refine if_neg fun ⟨_, h0⟩ => ?_
      rw [Nat.mul_comm c, Nat.mul_add_mod, Nat.mod_eq_of_lt hlt] at h0
      exact absurd h0 (Nat.mul_ne_zero hm hstep.ne')
    exact Or.inl ⟨_, _, hl, ⟨c, hf, hr hm, hc, by omega, rfl⟩,
      reaches_succ hq hf (hr hm) hc hk⟩

/-- From chunk `t` on, `place` gives every chunk its place, up to the first that has none. -/
theorem place_get :
    ∀ (n t k offs : ℕ), Reaches badB q step f K t k offs →
      ∀ i x, (place (fun x => badB (x / (q * step))) (q * step) step n k offs).1[i]? = some x ↔
        i < n ∧ IsPlace badB q step f K (t + i) x
  | 0, t, k, offs, h, i, x => by simp [place]
  | n + 1, t, k, offs, h, i, x => by
    rcases land_reaches hq hstep h with ⟨o, k', hl, ho, hr⟩ | ⟨hl, hno⟩
    · simp only [place, hl]
      rcases i with _ | i
      · rw [List.getElem?_cons_zero, Option.some.injEq, Nat.add_zero]
        constructor
        · rintro rfl
          exact ⟨Nat.succ_pos n, ho⟩
        · exact fun hx => ho.unique hx.2
      · rw [List.getElem?_cons_succ, place_get n (t + 1) k' (o + step) hr i x,
          Nat.add_lt_add_iff_right, Nat.add_assoc, Nat.add_comm 1 i]
    · simp only [place, hl, List.getElem?_nil]
      exact iff_of_false (by simp) fun hx => hno _ _ (Nat.le_add_right t i) hx.2

end Layout

section Contiguous

variable (bad : ℕ → Bool) (skip step : ℕ)

theorem place_length :
    ∀ (n k offs : ℕ), (place bad skip step n k offs).1.length ≤ n ∧
      ((place bad skip step n k offs).2 = true →
        (place bad skip step n k offs).1.length = n)
  | 0, k, offs => by simp [place]
  | n + 1, k, offs => by
    rcases hl : land bad skip k offs with _ | ⟨o, k'⟩
    · simp [place, hl]
    · obtain ⟨h1, h2⟩ := place_length n k' (o + step)
      simp only [place, hl, List.length_cons]
      exact ⟨by omega, fun h => by rw [h2 h]⟩

/-- A chunk lands no earlier than it starts to look. -/
theorem land_ge {k offs o k' : ℕ} (h : land bad skip k offs = some (o, k')) : offs ≤ o := by
  unfold land at h
  split_ifs at h
  · obtain ⟨j, rfl⟩ := seek_stride bad skip k offs o k' h
    exact Nat.le_add_right _ _
  · rw [Option.some.injEq, Prod.mk.injEq] at h
    exact h.1.le

theorem place_ge : ∀ (n k offs : ℕ), ∀ o ∈ (place bad skip step n k offs).1, offs ≤ o
  | 0, k, offs, o, ho => by simp [place] at ho
  | n + 1, k, offs, o, ho => by
    rcases hl : land bad skip k offs with _ | ⟨x, k'⟩
    · simp [place, hl] at ho
    · have hx := land_ge bad skip hl
      simp only [place, hl, List.mem_cons] at ho
      rcases ho with rfl | ho
      · exact hx
      · have := place_ge n k' (x + step) o ho
        omega

/-- The chunks lie one after the other and do not overlap. -/
theorem place_pairwise :
    ∀ (n k offs : ℕ), (place bad skip step n k offs).1.Pairwise fun a b => a + step ≤ b
  | 0, k, offs => by simp [place]
  | n + 1, k, offs => by
    rcases hl : land bad skip k offs with _ | ⟨x, k'⟩
    · simp [place, hl]
    · simp only [place, hl]
      exact List.Pairwise.cons (place_ge bad skip step n k' (x + step))
        (place_pairwise n k' (x + step))

/-- If the first chunk finds no place, no number of chunks does. -/
theorem place_one_false {k offs : ℕ} (h : (place bad skip step 1 k offs).2 = false) (n : ℕ) :
    place bad skip step (n + 1) k offs = ([], false) := by
  rcases hl : land bad skip k offs with _ | ⟨o, k'⟩
  · simp [place, hl]
  · simp [place, hl] at h

/-- Otherwise the first of them is the first one's place. -/
theorem place_one_true {k offs : ℕ} (h : (place bad skip step 1 k offs).2 ≠ false) (n : ℕ) :
    ∃ j, (j ≠ 0 → offs % skip = 0) ∧ offs + j * skip ∈ (place bad skip step (n + 1) k offs).1 := by
  rcases hl : land bad skip k offs with _ | ⟨o, k'⟩
  · simp [place, hl] at h
  · have ho : ∃ j, (j ≠ 0 → offs % skip = 0) ∧ o = offs + j * skip := by
      unfold land at hl
      split_ifs at hl with hs
      · obtain ⟨j, hj⟩ := seek_stride bad skip k offs o k' hl
        exact ⟨j, fun _ => hs.2, hj⟩
      · rw [Option.some.injEq, Prod.mk.injEq] at hl
        exact ⟨0, fun h0 => absurd rfl h0, by rw [← hl.1]; simp⟩
    obtain ⟨j, hj, rfl⟩ := ho
    exact ⟨j, hj, by simp [place, hl]⟩

end Contiguous

section Walk

variable (badB : ℕ → Bool) (p limit : ℕ)

/-- The rows a reader goes through for `n` rows from `row` on, with `p` rows to a block: at every
row it moves on by whole blocks until it is in a good one, and gives up after `limit` bad ones. -/
def walk : ℕ → ℕ → Option (List ℕ)
  | 0, _ => some []
  | n + 1, row =>
    match seek (fun r => badB (r / p)) p limit row with
    | none => none
    | some (r, _) => (walk n (r + 1)).map (r :: ·)

variable {badB p}

theorem seek_good {bad : ℕ → Bool} {skip k offs : ℕ} (h : bad offs = false) :
    seek bad skip k offs = some (offs, k) := by
  cases k <;> simp [seek, h]

/-- Where `seek` stops is good. -/
theorem seek_isGood {bad : ℕ → Bool} {skip : ℕ} :
    ∀ {k offs o k' : ℕ}, seek bad skip k offs = some (o, k') → bad o = false
  | 0, offs, o, k', h => by
    unfold seek at h
    split_ifs at h with hb
    rw [Option.some.injEq, Prod.mk.injEq] at h
    rw [← h.1]
    exact eq_false_of_ne_true hb
  | k + 1, offs, o, k', h => by
    unfold seek at h
    split_ifs at h with hb
    · exact seek_isGood h
    · rw [Option.some.injEq, Prod.mk.injEq] at h
      rw [← h.1]
      exact eq_false_of_ne_true hb

/-- Seeking by offsets `t` into a stretch of `s` of them is seeking by stretches. -/
theorem seek_shift {s t : ℕ} (ht : t < s) :
    ∀ k row : ℕ, seek (fun o => badB (o / (p * s))) (p * s) k (row * s + t) =
      (seek (fun r => badB (r / p)) p k row).map fun x => (x.1 * s + t, x.2) := by
  have hdiv (row : ℕ) : (row * s + t) / (p * s) = row / p := by
    rw [Nat.mul_comm p, ← Nat.div_div_eq_div_mul, Nat.mul_comm row, Nat.mul_add_div (by omega),
      Nat.div_eq_of_lt ht, Nat.add_zero]
  intro k
  induction k with
  | zero =>
    intro row
    simp only [seek, hdiv]
    split_ifs <;> rfl
  | succ k ih =>
    intro row
    have hnext : row * s + t + p * s = (row + p) * s + t := by
      rw [Nat.add_mul]
      omega
    simp only [seek, hdiv, hnext, ih]
    split_ifs <;> rfl

/-- A greater budget leaves more of it. -/
theorem seek_more {bad : ℕ → Bool} {skip : ℕ} (m : ℕ) :
    ∀ {k offs o k' : ℕ}, seek bad skip k offs = some (o, k') →
      seek bad skip (k + m) offs = some (o, k' + m)
  | 0, offs, o, k', h => by
    unfold seek at h
    split_ifs at h with hb
    rw [Option.some.injEq, Prod.mk.injEq] at h
    rw [seek_good (eq_false_of_ne_true hb), ← h.1, ← h.2]
  | k + 1, offs, o, k', h => by
    unfold seek at h
    split_ifs at h with hb
    · rw [show k + 1 + m = k + m + 1 by omega, seek, if_pos hb, seek_more m h]
    · rw [Option.some.injEq, Prod.mk.injEq] at h
      rw [seek_good (eq_false_of_ne_true hb), ← h.1, ← h.2]

theorem length_walk : ∀ {n row : ℕ} {rs : List ℕ}, walk badB p limit n row = some rs → rs.length = n
  | 0, row, rs, h => by
    rw [walk, Option.some.injEq] at h
    rw [← h, List.length_nil]
  | n + 1, row, rs, h => by
    rw [walk] at h
    rcases hs : seek (fun r => badB (r / p)) p limit row with _ | ⟨r, k⟩
    · rw [hs] at h
      exact absurd h (by simp)
    · rw [hs] at h
      obtain ⟨rs', hrs', rfl⟩ := Option.map_eq_some_iff.1 h
      rw [List.length_cons, length_walk hrs']

/-- A walk starts in the first good block. -/
theorem walk_seek {row r k n : ℕ}
    (h : seek (fun r => badB (r / p)) p limit row = some (r, k)) :
    walk badB p limit (n + 1) row = walk badB p limit (n + 1) r := by
  have hr := @seek_isGood (fun r => badB (r / p)) p limit row r k h
  have hg : seek (fun r => badB (r / p)) p limit r = some (r, limit) := seek_good hr
  rw [walk, walk, h, hg]

/-- Within a good block the rows follow one another. -/
theorem walk_block {n : ℕ} :
    ∀ {a row : ℕ}, badB (row / p) = false → row % p + a ≤ p →
      walk badB p limit (a + n) row =
        (walk badB p limit n (row + a)).map (List.range' row a ++ ·)
  | 0, row, _, _ => by
    rw [Nat.zero_add, Nat.add_zero]
    simp
  | a + 1, row, hg, ha => by
    have hseek : seek (fun r => badB (r / p)) p limit row = some (row, limit) := seek_good hg
    rw [show a + 1 + n = a + n + 1 by omega, walk, hseek]
    dsimp only
    rcases Nat.eq_zero_or_pos a with rfl | hpos
    · rw [Nat.zero_add, Nat.zero_add]
      rfl
    · have hdm := Nat.div_add_mod row p
      have hrow : row + 1 = p * (row / p) + (row % p + 1) := by omega
      have hdiv : (row + 1) / p = row / p := by
        rw [hrow, Nat.mul_add_div (by omega),
          Nat.div_eq_of_lt (show row % p + 1 < p by omega), Nat.add_zero]
      have hmod : (row + 1) % p = row % p + 1 := by
        rw [hrow, Nat.mul_add_mod, Nat.mod_eq_of_lt (by omega)]
      rw [walk_block (hdiv ▸ hg) (by omega), Option.map_map,
        show row + 1 + a = row + (a + 1) by omega]
      rfl

/-- From the start of block `f` on, row `j` of the walk is row `j % p` of the good block that has
`j / p` good ones between `f` and it. -/
theorem walk_get {f : ℕ} (hp : 0 < p) :
    ∀ {n t c : ℕ} {rs : List ℕ}, f ≤ c → goods badB c = goods badB f + t / p →
      (t % p ≠ 0 → badB c = false) → walk badB p limit n (c * p + t % p) = some rs →
      rs.length = n ∧ ∀ j < n, ∃ g, f ≤ g ∧ badB g = false ∧
        goods badB g = goods badB f + (t + j) / p ∧ rs[j]? = some (g * p + (t + j) % p)
  | 0, t, c, rs, _, _, _, h => by
    rw [walk, Option.some.injEq] at h
    rw [← h]
    exact ⟨rfl, fun j hj => absurd hj (Nat.not_lt_zero j)⟩
  | n + 1, t, c, rs, hfc, hgoods, hr, h => by
    have hlt := Nat.mod_lt t hp
    have hseek : ∀ x, seek (fun r => badB (r / p)) p limit (c * p + t % p) = some x →
        ∃ g, f ≤ g ∧ badB g = false ∧ goods badB g = goods badB f + t / p ∧
          x.1 = g * p + t % p := by
      intro x hx
      by_cases hm : t % p = 0
      · simp only [hm, Nat.add_zero] at hx ⊢
        rcases @seek_blocks badB p hp limit c with ⟨j, _, hbad, hg, hs⟩ | ⟨_, hs⟩
        · rw [hs, Option.some.injEq] at hx
          refine ⟨c + j, by omega, hg, ?_, by rw [← hx]⟩
          rw [goods_add_bad badB hbad, hgoods]
        · rw [hs] at hx
          exact absurd hx (by simp)
      · have hdiv : (c * p + t % p) / p = c := by
          rw [Nat.mul_comm, Nat.mul_add_div hp, Nat.div_eq_of_lt hlt, Nat.add_zero]
        have hgood : badB ((c * p + t % p) / p) = false := by
          rw [hdiv]
          exact hr hm
        have hs : seek (fun r => badB (r / p)) p limit (c * p + t % p) =
            some (c * p + t % p, limit) := seek_good hgood
        rw [hs, Option.some.injEq] at hx
        exact ⟨c, hfc, hr hm, hgoods, by rw [← hx]⟩
    rw [walk] at h
    rcases hsk : seek (fun r => badB (r / p)) p limit (c * p + t % p) with _ | ⟨x, k⟩
    · rw [hsk] at h
      exact absurd h (by simp)
    · rw [hsk] at h
      obtain ⟨g, hfg, hg, hgg, hx⟩ := hseek _ hsk
      dsimp only at h hx
      obtain ⟨rs', hrs', rfl⟩ := Option.map_eq_some_iff.1 h
      have hnext : ∃ c', f ≤ c' ∧ goods badB c' = goods badB f + (t + 1) / p ∧
          ((t + 1) % p ≠ 0 → badB c' = false) ∧ x + 1 = c' * p + (t + 1) % p := by
        rcases mod_succ hp (t := t) with ⟨_, hm, hd⟩ | ⟨he, hm, hd⟩
        · exact ⟨g, hfg, by rw [hgg, hd], fun _ => hg, by rw [hx, hm, Nat.add_assoc]⟩
        · refine ⟨g + 1, by omega, ?_, fun h0 => absurd hm h0, ?_⟩
          · rw [goods_succ badB hg, hgg, hd, Nat.add_assoc]
          · rw [hx, hm, Nat.add_zero, Nat.add_mul, Nat.one_mul]
            omega
      obtain ⟨c', hfc', hgoods', hr', hx'⟩ := hnext
      rw [hx'] at hrs'
      obtain ⟨hlen, hget⟩ := walk_get hp hfc' hgoods' hr' hrs'
      refine ⟨by rw [List.length_cons, hlen], fun j hj => ?_⟩
      rcases j with _ | j
      · exact ⟨g, hfg, hg, hgg, by rw [List.getElem?_cons_zero, hx, Nat.add_zero]⟩
      · obtain ⟨g', hfg', hg', hgg', hj'⟩ := hget j (by omega)
        rw [Nat.add_assoc, Nat.add_comm 1 j] at hgg' hj'
        exact ⟨g', hfg', hg', hgg', by rw [List.getElem?_cons_succ, hj']⟩

end Walk

end Lib
