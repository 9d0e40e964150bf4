import InfotmUboot.NandUtil
import Mathlib.Tactic.Ring

/-!
# Writing around bad blocks

Where the length with the bad blocks ends (`getLenLoop_run`), and what the loops of
`nand_write_skip_bad` and `nand_read_skip_bad` do up to a block that the data reaches
(`writeSkipLoop_run`) or past the end of the device (`writeSkipLoop_over`). So a write is right if
and only if the check of its length happens to be (`write_skip_bad_iff`).

From 4 GiB on the loops ask for other blocks than those they are at; where they think the good
blocks are is `NandInfo.asked`.
-/

namespace InfotmUboot

open Lib

/-- A device whose operations succeed, with these bad blocks. -/
def mtdStep (d : NandInfo) (bad : ℕ → Bool) (m : Mem) : NandOp → NandReply × Mem
  | .isbad ofs => (⟨if bad (ofs / d.erasesize) then 1 else 0, []⟩, m)
  | .write ofs data => (⟨0, []⟩, m.store ofs data)
  | .read ofs len => (⟨0, m.load ofs len⟩, m)

/-- The operation keeps to a device of this size. -/
def NandOp.Within (size : ℕ) : NandOp → Prop
  | .isbad ofs => ofs < size
  | .write ofs data => ofs < size ∧ ofs + data.length ≤ size
  | .read ofs len => ofs < size ∧ ofs + len ≤ size

def NandOp.isWrite : NandOp → Bool
  | .write _ _ => true
  | _ => false

structure NandInfo.Valid (d : NandInfo) : Prop where
  erasesize : ∃ k < 32, d.erasesize = 2 ^ k
  writesize : ∃ k, d.writesize = 2 ^ k
  pages : d.writesize ∣ d.erasesize
  blocks : d.erasesize ∣ d.size

/-- How many bytes from `p` up to `e` are in good blocks. -/
def NandInfo.goodBytes (d : NandInfo) (bad : ℕ → Bool) (p e : ℕ) : ℕ :=
  (List.range' p (e - p)).countP fun x => bad (x / d.erasesize) = false

section Good

variable {d : NandInfo} (bad : ℕ → Bool)

theorem goodBytes_of_le {p e : ℕ} (h : e ≤ p) : d.goodBytes bad p e = 0 := by
  rw [NandInfo.goodBytes, Nat.sub_eq_zero_of_le h]
  rfl

theorem goodBytes_split {p q e : ℕ} (h1 : p ≤ q) (h2 : q ≤ e) :
    d.goodBytes bad p e = d.goodBytes bad p q + d.goodBytes bad q e := by
  have happ : List.range' p (e - p) = List.range' p (q - p) ++ List.range' q (e - q) := by
    have hq : p + (q - p) = q := Nat.add_sub_cancel' h1
    have hlen : e - p = (q - p) + (e - q) := by omega
    rw [hlen, ← List.range'_append_1, hq]
  rw [NandInfo.goodBytes, happ, List.countP_append]
  rfl

theorem goodBytes_le (p e : ℕ) : d.goodBytes bad p e ≤ e - p := by
  have := List.countP_le_length (p := fun x => decide (bad (x / d.erasesize) = false))
    (l := List.range' p (e - p))
  rwa [List.length_range'] at this

/-- The bytes of a part of a block. -/
theorem goodBytes_inside {p q : ℕ} (h : ∀ x, p ≤ x → x < q → x / d.erasesize = p / d.erasesize) :
    d.goodBytes bad p q = if bad (p / d.erasesize) then 0 else q - p := by
  have hmem : ∀ x ∈ List.range' p (q - p), x / d.erasesize = p / d.erasesize := by
    intro x hx
    rw [List.mem_range'_1] at hx
    exact h x hx.1 (by omega)
  unfold NandInfo.goodBytes
  split_ifs with hb
  · refine List.countP_eq_zero.2 fun x hx => ?_
    rw [hmem x hx, hb]
    decide
  · have hall : ∀ x ∈ List.range' p (q - p), decide (bad (x / d.erasesize) = false) = true := by
      intro x hx
      rw [hmem x hx]
      exact decide_eq_true (Bool.eq_false_iff.2 hb)
    rw [List.countP_eq_length.2 hall, List.length_range']

end Good

section Geometry

variable {d : NandInfo} (hd : d.Valid)

/-- The next block boundary. -/
def NandInfo.next (d : NandInfo) (p : ℕ) : ℕ := p + (d.erasesize - p % d.erasesize)

include hd

theorem NandInfo.Valid.pos : 0 < d.erasesize := by
  obtain ⟨k, -, hk⟩ := hd.erasesize
  rw [hk]
  exact Nat.two_pow_pos k

theorem NandInfo.Valid.le : d.erasesize ≤ 2 ^ 31 := by
  obtain ⟨k, hlt, hk⟩ := hd.erasesize
  rw [hk]
  exact Nat.pow_le_pow_right (by decide) (by omega)

theorem blockOffset_eq (p : ℕ) : d.blockOffset p = p % d.erasesize := by
  obtain ⟨k, -, hk⟩ := hd.erasesize
  exact and_mask hk p

theorem blkoff_eq (p : ℕ) : d.blkoff p = u32 p - u32 p % d.erasesize := by
  obtain ⟨k, -, hk⟩ := hd.erasesize
  rw [NandInfo.blkoff, andNot_mask hk]

theorem next_dvd (p : ℕ) : d.erasesize ∣ d.next p := by
  have hmod := Nat.mod_lt p hd.pos
  have hdm := Nat.div_add_mod p d.erasesize
  refine ⟨p / d.erasesize + 1, ?_⟩
  rw [NandInfo.next, Nat.mul_add, Nat.mul_one]
  omega

theorem next_bounds (p : ℕ) : p < d.next p ∧ d.next p ≤ p + d.erasesize := by
  have hmod := Nat.mod_lt p hd.pos
  unfold NandInfo.next
  omega

/-- A boundary past `p` is not before the next one. -/
theorem next_le {p e : ℕ} (he : d.erasesize ∣ e) (h : p < e) : d.next p ≤ e := by
  obtain ⟨k, rfl⟩ := he
  have hdm := Nat.div_add_mod p d.erasesize
  have hmod := Nat.mod_lt p hd.pos
  have hlt : p / d.erasesize < k := Nat.div_lt_of_lt_mul h
  have hmul := Nat.mul_le_mul_left d.erasesize hlt
  rw [Nat.mul_succ] at hmul
  unfold NandInfo.next
  omega

theorem goodBytes_next (bad : ℕ → Bool) {p e : ℕ} (he : d.next p ≤ e) : d.goodBytes bad p e =
    (if bad (p / d.erasesize) then 0 else d.erasesize - p % d.erasesize) +
      d.goodBytes bad (d.next p) e := by
  have hb := next_bounds hd p
  have hdm := Nat.div_add_mod p d.erasesize
  have hmod := Nat.mod_lt p hd.pos
  rw [goodBytes_split bad hb.1.le he, goodBytes_inside bad fun x h1 h2 => ?_, NandInfo.next,
    Nat.add_sub_cancel_left]
  unfold NandInfo.next at h2
  refine Nat.div_eq_of_lt_le ?_ ?_
  · rw [mul_comm]
    omega
  · rw [Nat.add_mul, Nat.one_mul, mul_comm]
    omega

end Geometry

section Asked

variable {d : NandInfo} (hd : d.Valid) (bad : ℕ → Bool)

/-- The bad blocks as they are asked for: the mask of the offset has 32 bits. -/
def NandInfo.asked (d : NandInfo) (bad : ℕ → Bool) (b : ℕ) : Bool :=
  bad (b % (2 ^ 32 / d.erasesize))

/-- The bytes of the rest of a block that count. -/
def NandInfo.goodRest (d : NandInfo) (bad : ℕ → Bool) (p : ℕ) : ℕ :=
  if bad (p / d.erasesize) then 0 else d.erasesize - p % d.erasesize

theorem goodRest_le (p : ℕ) : d.goodRest bad p ≤ d.next p - p := by
  unfold NandInfo.goodRest NandInfo.next
  split_ifs <;> omega

include hd

theorem NandInfo.Valid.dvd_word : d.erasesize ∣ 2 ^ 32 := by
  obtain ⟨k, hlt, hk⟩ := hd.erasesize
  rw [hk]
  exact pow_dvd_pow 2 hlt.le

theorem blkoff_div (p : ℕ) :
    d.blkoff p / d.erasesize = p / d.erasesize % (2 ^ 32 / d.erasesize) := by
  have hdm := Nat.div_add_mod (u32 p) d.erasesize
  have hmul : u32 p - u32 p % d.erasesize = d.erasesize * (u32 p / d.erasesize) := by omega
  rw [blkoff_eq hd, hmul, Nat.mul_div_cancel_left _ hd.pos, u32]
  conv_lhs => rw [← Nat.mul_div_cancel' hd.dvd_word]
  exact Nat.mod_mul_right_div_self p d.erasesize _

/-- The answer for a block. -/
theorem isbad_reply (p : ℕ) (m : Mem) : mtdStep d bad m (.isbad (d.blkoff p)) =
    (⟨if d.asked bad (p / d.erasesize) then 1 else 0, []⟩, m) := by
  rw [mtdStep, blkoff_div hd, NandInfo.asked]

theorem blkoff_le (p : ℕ) : d.blkoff p ≤ p := by
  rw [blkoff_eq hd]
  exact (Nat.sub_le _ _).trans (Nat.mod_le p (2 ^ 32))

omit hd in
/-- Below 4 GiB it is about the block itself. -/
theorem asked_of_lt {b : ℕ} (h : b < 2 ^ 32 / d.erasesize) : d.asked bad b = bad b := by
  rw [NandInfo.asked, Nat.mod_eq_of_lt h]

theorem goodBytes_asked {p e : ℕ} (he : e ≤ 2 ^ 32) :
    d.goodBytes (d.asked bad) p e = d.goodBytes bad p e := by
  refine List.countP_congr fun x hx => ?_
  rw [List.mem_range'_1] at hx
  have hlt : x / d.erasesize < 2 ^ 32 / d.erasesize :=
    Nat.div_lt_div_of_lt_of_dvd hd.dvd_word (by omega)
  rw [asked_of_lt bad hlt]

end Asked

section Length

variable {d : NandInfo}

/-- The first boundary behind `o` at which the length from `o`, of which 32 bits are kept, passes
the size. -/
structure NandInfo.StopsAt (d : NandInfo) (o q : ℕ) : Prop where
  boundary : d.erasesize ∣ q
  behind : o < q
  passes : d.size ≤ q + u32 (q - o)
  first : ∀ r, d.erasesize ∣ r → o < r → r < q → r + u32 (r - o) < d.size

theorem NandInfo.StopsAt.unique {o q r : ℕ} (hq : d.StopsAt o q) (hr : d.StopsAt o r) : q = r := by
  refine le_antisymm (not_lt.1 fun hlt => ?_) (not_lt.1 fun hlt => ?_)
  · exact absurd (hq.first r hr.boundary hr.behind hlt) (not_lt.2 hr.passes)
  · exact absurd (hr.first q hq.boundary hq.behind hlt) (not_lt.2 hq.passes)

variable (hd : d.Valid) (bad : ℕ → Bool)
include hd

/-- One round. -/
theorem getLenLoop_succ {o l : ℕ} (m : Mem) {n p excl : ℕ} (hop : o ≤ p) (hex : excl < 2 ^ 32)
    (hlt : excl < l) :
    Prog.run (mtdStep d bad) (getLenLoop d l (n + 1) p (u32 (p - o)) excl) m =
      let query : NandOp × NandReply :=
        (.isbad (d.blkoff p), ⟨if d.asked bad (p / d.erasesize) then 1 else 0, []⟩)
      if d.next p + u32 (d.next p - o) ≥ d.size then ⟨u32 (d.next p - o), m, [query]⟩
      else
        let out := Prog.run (mtdStep d bad) (getLenLoop d l n (d.next p) (u32 (d.next p - o))
          (u32 (excl + d.goodRest (d.asked bad) p))) m
        ⟨out.val, out.env, query :: out.log⟩ := by
  have hincl : u32 (u32 (p - o) + (d.erasesize - p % d.erasesize)) = u32 (d.next p - o) := by
    have hsum : d.next p - o = p - o + (d.erasesize - p % d.erasesize) := by
      unfold NandInfo.next
      omega
    rw [hsum]
    unfold u32
    omega
  have hnext : p + (d.erasesize - p % d.erasesize) = d.next p := rfl
  have hexcl : (if (if d.asked bad (p / d.erasesize) then (1 : ℤ) else 0) = 0 then
      u32 (excl + (d.erasesize - p % d.erasesize)) else excl) =
        u32 (excl + d.goodRest (d.asked bad) p) := by
    unfold NandInfo.goodRest
    by_cases hb : d.asked bad (p / d.erasesize) = true
    · rw [if_pos hb, if_pos hb, if_neg one_ne_zero, Nat.add_zero, u32_of_lt hex]
    · rw [if_neg hb, if_neg hb, if_pos rfl]
  rw [getLenLoop, if_pos hlt]
  simp only [Prog.run_bind, Prog.run_op, isbad_reply hd bad, blockOffset_eq hd, hincl, hnext]
  rw [hexcl]
  by_cases hend : d.next p + u32 (d.next p - o) ≥ d.size
  · rw [if_pos hend, if_pos hend]
    rfl
  · rw [if_neg hend, if_neg hend]
    rfl

theorem isbad_within {p : ℕ} (hp : p < d.size) : (NandOp.isbad (d.blkoff p)).Within d.size :=
  (blkoff_le hd p).trans_lt hp

omit hd in
/-- With two blocks or more from `o` to the end of the device, a length that stops at the next
boundary is let through: the boundaries before did not pass the size. -/
theorem accepts_last {o p : ℕ} (hop : o ≤ p) (hnext : d.next p ≤ d.size)
    (hal : p = o ∨ d.erasesize ∣ p ∧ p + u32 (p - o) < d.size) (hpos : 0 < d.erasesize)
    (htwo : o + 2 * d.erasesize ≤ d.size) : o + u32 (d.next p - o) < d.size := by
  have hle := u32_le (d.next p - o)
  have hlt := u32_lt (d.next p - o)
  unfold NandInfo.next at *
  rcases hal with rfl | ⟨hdvd, hgo⟩
  · have := Nat.sub_le d.erasesize (p % d.erasesize)
    omega
  · rw [Nat.mod_eq_zero_of_dvd hdvd, Nat.sub_zero] at *
    by_cases hend : p + d.erasesize = d.size
    · by_cases hsmall : p + d.erasesize - o < 2 ^ 32
      · rw [u32_of_lt (by omega)] at hgo
        omega
      · omega
    · omega

/-- Where the length with the bad blocks ends: at a place that is let through, with two blocks or
more from `o` to the end of the device; and where the good blocks are too few, at the boundary that
passes the size. -/
theorem getLenLoop_run {o l : ℕ} (hl : l < 2 ^ 32) : ∀ (n p excl : ℕ), p < d.size → o ≤ p →
    excl < 2 ^ 32 → (p = o ∨ d.erasesize ∣ p) →
    (∀ r, d.erasesize ∣ r → o < r → r ≤ p → r + u32 (r - o) < d.size) → d.size < p + n →
    ∃ v log,
      (∀ m, Prog.run (mtdStep d bad) (getLenLoop d l n p (u32 (p - o)) excl) m = ⟨v, m, log⟩) ∧
      (∀ x ∈ log, x.1.Within d.size ∧ x.1.isWrite = false) ∧
      (o + 2 * d.erasesize ≤ d.size → o + v < d.size) ∧
      (excl + d.goodBytes (d.asked bad) p d.size < l → ∃ q, d.StopsAt o q ∧ v = u32 (q - o))
  | 0, p, excl, hp, _, _, _, _, hfuel => by omega
  | n + 1, p, excl, hp, hop, hex, hal, hbefore, hfuel => by
    by_cases hlt : excl < l
    · obtain ⟨hp1, hp2⟩ := next_bounds hd p
      have hnext := next_le hd hd.blocks hp
      have hstep := fun m => getLenLoop_succ hd bad m (n := n) hop hex hlt
      have hgo : p = o ∨ d.erasesize ∣ p ∧ p + u32 (p - o) < d.size := by
        rcases Nat.eq_or_lt_of_le hop with heq | hlt
        · exact Or.inl heq.symm
        · exact Or.inr ⟨hal.resolve_left (by omega), hbefore p (hal.resolve_left (by omega)) hlt
            le_rfl⟩
      have hbefore' : ∀ r, d.erasesize ∣ r → o < r → r < d.next p → r + u32 (r - o) < d.size := by
        intro r hr hor hrn
        refine hbefore r hr hor (not_lt.1 fun hpr => ?_)
        exact absurd (next_le hd hr hpr) (by omega)
      have hsplit := goodBytes_next hd (d.asked bad) hnext
      by_cases hend : d.next p + u32 (d.next p - o) ≥ d.size
      · simp only [if_pos hend] at hstep
        refine ⟨u32 (d.next p - o), _, hstep, fun x hx => ?_,
          accepts_last hop hnext hgo hd.pos, fun _ => ?_⟩
        · rw [List.mem_singleton] at hx
          rw [hx]
          exact ⟨isbad_within hd hp, rfl⟩
        · exact ⟨d.next p, ⟨next_dvd hd p, by omega, hend, hbefore'⟩, rfl⟩
      · simp only [if_neg hend] at hstep
        obtain ⟨v, log, hrun, hlog, hacc, hshort⟩ := getLenLoop_run hl n (d.next p)
          (u32 (excl + d.goodRest (d.asked bad) p)) (by omega) (by omega) (u32_lt _)
          (Or.inr (next_dvd hd p)) (fun r hr hor hrn => (Nat.eq_or_lt_of_le hrn).elim
            (fun heq => heq ▸ not_le.1 hend) (hbefore' r hr hor)) (by omega)
        refine ⟨v,
          (.isbad (d.blkoff p), ⟨if d.asked bad (p / d.erasesize) then 1 else 0, []⟩) :: log,
          fun m => ?_, fun x hx => ?_, hacc, fun hover => hshort ?_⟩
        · rw [hstep, hrun]
        · rcases List.mem_cons.1 hx with rfl | hx
          · exact ⟨isbad_within hd hp, rfl⟩
          · exact hlog x hx
        · have hrest : d.goodRest (d.asked bad) p + d.goodBytes (d.asked bad) (d.next p) d.size =
              d.goodBytes (d.asked bad) p d.size := hsplit.symm
          rw [u32_of_lt (by omega)]
          omega
    · refine ⟨u32 (p - o), [], fun m => ?_, nofun, fun _ => ?_, fun hover => ?_⟩
      · rw [getLenLoop, if_neg hlt]
        rfl
      · have := u32_le (p - o)
        omega
      · omega

theorem getLenInclBad_run {o l : ℕ} (hl : l < 2 ^ 32) (hin : o < d.size) :
    ∃ v log, (∀ m, Prog.run (mtdStep d bad) (getLenInclBad d o l) m = ⟨v, m, log⟩) ∧
      (∀ x ∈ log, x.1.Within d.size ∧ x.1.isWrite = false) ∧
      (o + 2 * d.erasesize ≤ d.size → o + v < d.size) ∧
      (d.goodBytes (d.asked bad) o d.size < l → ∃ q, d.StopsAt o q ∧ v = u32 (q - o)) := by
  have h := getLenLoop_run hd bad hl (o := o) (d.size + 1) o 0 hin le_rfl (by norm_num) (Or.inl rfl)
    (fun r _ hor hro => by omega) (by omega)
  rw [Nat.sub_self, Nat.zero_add] at h
  exact h

omit hd in
/-- The length of nothing. -/
theorem getLenInclBad_zero (o : ℕ) (m : Mem) :
    Prog.run (mtdStep d bad) (getLenInclBad d o 0) m = ⟨0, m, []⟩ := by
  rw [getLenInclBad, getLenLoop, if_neg (Nat.not_lt_zero 0)]
  rfl

/-- With less than two blocks it ends before the last of them or behind it. -/
theorem getLenInclBad_one {o l : ℕ} (hl : l ≠ 0) (hin : o < d.size)
    (hone : d.size < o + 2 * d.erasesize) (m : Mem) :
    (Prog.run (mtdStep d bad) (getLenInclBad d o l) m).val =
      if l ≤ d.goodBytes (d.asked bad) o (d.size - d.erasesize) then d.size - d.erasesize - o
      else d.size - o := by
  obtain ⟨hn1, hn2⟩ := next_bounds hd o
  have hnext := next_le hd hd.blocks hin
  have hpos := hd.pos
  have hle := hd.le
  obtain ⟨k, hk⟩ : ∃ k, d.size + 1 = k + 1 + 1 := ⟨d.size - 1, by omega⟩
  have hstep := getLenLoop_succ hd bad (o := o) m (n := k + 1) le_rfl (by norm_num : 0 < 2 ^ 32)
    (Nat.pos_of_ne_zero hl)
  rw [Nat.sub_self, Nat.zero_add] at hstep
  rw [getLenInclBad, hk]
  refine (congrArg Prog.Out.val hstep).trans ?_
  dsimp only
  rcases Nat.eq_or_lt_of_le hnext with heq | hlt
  · have hlast : d.size - d.erasesize ≤ o := by omega
    rw [heq, if_pos (by omega), goodBytes_of_le _ hlast, if_neg (by omega : ¬l ≤ 0),
      u32_of_lt (by omega)]
  · -- the next boundary starts the last block
    have hlast : d.next o = d.size - d.erasesize := by
      obtain ⟨i, hi⟩ := next_dvd hd o
      obtain ⟨s, hs⟩ := hd.blocks
      have his : i + 1 = s := by
        have h1 : i < s := Nat.lt_of_mul_lt_mul_left (a := d.erasesize) (by omega)
        have h2 : s < i + 2 := by
          refine Nat.lt_of_mul_lt_mul_left (a := d.erasesize) ?_
          rw [Nat.mul_add]
          omega
        omega
      rw [← his, Nat.mul_succ] at hs
      omega
    have hgood : d.goodRest (d.asked bad) o =
        d.goodBytes (d.asked bad) o (d.size - d.erasesize) := by
      have h := goodBytes_next hd (d.asked bad) hlast.le
      rw [goodBytes_of_le (p := d.next o) _ hlast.ge, Nat.add_zero] at h
      exact h.symm
    have hrest := goodRest_le (d := d) (d.asked bad) o
    rw [u32_of_lt (by omega : d.next o - o < 2 ^ 32), if_neg (by omega),
      u32_of_lt (by omega : d.goodRest (d.asked bad) o < 2 ^ 32), hgood]
    by_cases hfit : l ≤ d.goodBytes (d.asked bad) o (d.size - d.erasesize)
    · rw [if_pos hfit, getLenLoop, if_neg (not_lt.2 hfit), hlast]
      rfl
    · have hend : d.next (d.next o) = d.size := by
        rw [NandInfo.next, Nat.mod_eq_zero_of_dvd (next_dvd hd o)]
        omega
      have hlarge : d.goodBytes (d.asked bad) o (d.size - d.erasesize) < 2 ^ 32 := by omega
      have hlong := getLenLoop_succ hd bad (o := o) (l := l) m (n := k) hn1.le hlarge
        (not_le.1 hfit)
      rw [hend, u32_of_lt (by omega : d.next o - o < 2 ^ 32), u32_of_lt (by omega),
        if_pos (by omega)] at hlong
      rw [if_neg hfit, hlong]

end Length

section Loops

variable {d : NandInfo} (hd : d.Valid) {bad : ℕ → Bool}
include hd

/-- How much of the rest goes into a block. -/
def NandInfo.part (d : NandInfo) (p left : ℕ) : ℕ :=
  if left < d.erasesize - p % d.erasesize then left else d.erasesize - p % d.erasesize

omit hd in
theorem part_eq (p left : ℕ) : d.part p left = min left (d.erasesize - p % d.erasesize) := by
  unfold NandInfo.part
  split_ifs <;> omega

/-- A round of the write that goes around a bad block. -/
theorem writeSkipLoop_bad {m : Mem} {n p : ℕ} {left : List UInt8} (hleft : left ≠ [])
    (hb : d.asked bad (p / d.erasesize) = true) :
    Prog.run (mtdStep d bad) (writeSkipLoop d (n + 1) p left) m =
      let out := Prog.run (mtdStep d bad) (writeSkipLoop d n (d.next p) left) m
      ⟨out.val, out.env, (.isbad (d.blkoff p), ⟨1, []⟩) :: out.log⟩ := by
  rw [writeSkipLoop, if_neg hleft]
  simp only [Prog.run_bind, Prog.run_op, isbad_reply hd bad, blockOffset_eq hd, hb, if_true]
  rfl

/-- One that writes. -/
theorem writeSkipLoop_good {m : Mem} {n p : ℕ} {left : List UInt8} (hleft : left ≠ [])
    (hb : d.asked bad (p / d.erasesize) = false) :
    Prog.run (mtdStep d bad) (writeSkipLoop d (n + 1) p left) m =
      let ws := d.part p left.length
      let out := Prog.run (mtdStep d bad) (writeSkipLoop d n (p + ws) (left.drop ws))
        (m.store p (left.take ws))
      ⟨out.val, out.env, (.isbad (d.blkoff p), ⟨0, []⟩) :: (.write p (left.take ws), ⟨0, []⟩) ::
        out.log⟩ := by
  rw [writeSkipLoop, if_neg hleft]
  simp only [Prog.run_bind, Prog.run_op, isbad_reply hd bad, blockOffset_eq hd, hb,
    Bool.false_eq_true, if_false, ne_eq, not_true_eq_false]
  rfl

omit hd in
theorem mtdStep_read (m : Mem) (p n : ℕ) :
    mtdStep d bad m (.read p n) = (⟨0, m.load p n⟩, m) := rfl

theorem readSkipLoop_bad {m : Mem} {n p left : ℕ} {buffer : List UInt8} (hleft : left ≠ 0)
    (hb : d.asked bad (p / d.erasesize) = true) :
    (Prog.run (mtdStep d bad) (readSkipLoop d (n + 1) p left buffer) m).val =
      (Prog.run (mtdStep d bad) (readSkipLoop d n (d.next p) left buffer) m).val := by
  rw [readSkipLoop, if_neg hleft]
  simp only [Prog.run_bind, Prog.run_op, isbad_reply hd bad, blockOffset_eq hd, hb, if_true]
  rfl

theorem readSkipLoop_good {m : Mem} {n p left : ℕ} {buffer : List UInt8} (hleft : left ≠ 0)
    (hb : d.asked bad (p / d.erasesize) = false) :
    (Prog.run (mtdStep d bad) (readSkipLoop d (n + 1) p left buffer) m).val =
      (Prog.run (mtdStep d bad) (readSkipLoop d n (p + d.part p left) (left - d.part p left)
        (buffer ++ m.load p (d.part p left))) m).val := by
  rw [readSkipLoop, if_neg hleft]
  simp only [Prog.run_bind, Prog.run_op, isbad_reply hd bad, blockOffset_eq hd, hb,
    Bool.false_eq_true, if_false, ne_eq, not_true_eq_false, mtdStep_read, false_and,
    fit_of_length (Mem.length_load _ _ _)]
  rfl

variable (bad) in
/-- Data that fits before a boundary is written, inside the device, and read back. -/
theorem writeSkipLoop_run {e : ℕ} (he : d.erasesize ∣ e) (hes : e ≤ d.size) :
    ∀ (n p : ℕ) (left : List UInt8) (m : Mem), p ≤ e → left.length ≤ d.goodBytes (d.asked bad) p e →
      e < p + n →
      ∃ m' log, Prog.run (mtdStep d bad) (writeSkipLoop d n p left) m = ⟨some (0, 0), m', log⟩ ∧
        (∀ x ∈ log, x.1.Within d.size) ∧ (∀ x < p, m' x = m x) ∧
        ∀ n' buffer, e < p + n' →
          (Prog.run (mtdStep d bad) (readSkipLoop d n' p left.length buffer) m').val =
            some (0, 0, buffer ++ left)
  | 0, p, left, m, hpe, _, hfuel => by omega
  | n + 1, p, left, m, hpe, hfit, hfuel => by
    by_cases hleft : left = []
    · subst hleft
      refine ⟨m, [], rfl, nofun, fun x _ => rfl, fun n' buffer hn' => ?_⟩
      obtain ⟨k, rfl⟩ : ∃ k, n' = k + 1 := ⟨n' - 1, by omega⟩
      rw [List.append_nil]
      rfl
    have hlen : left.length ≠ 0 := fun h0 => hleft (List.length_eq_zero_iff.1 h0)
    have hp : p < e := by
      have := goodBytes_le (d := d) (d.asked bad) p e
      omega
    obtain ⟨hn1, hn2⟩ := next_bounds hd p
    have hne := next_le hd he hp
    have hsplit := goodBytes_next hd (d.asked bad) hne
    have hquery := isbad_within hd (p := p) (by omega)
    cases hb : d.asked bad (p / d.erasesize) with
    | true =>
      rw [hb, if_pos rfl, Nat.zero_add] at hsplit
      obtain ⟨m', log, hrun, hlog, hframe, hread⟩ := writeSkipLoop_run he hes n (d.next p) left m
        hne (hsplit ▸ hfit) (by omega)
      refine ⟨m', (.isbad (d.blkoff p), ⟨1, []⟩) :: log, ?_, ?_, fun x hx => hframe x (by omega),
        fun n' buffer hn' => ?_⟩
      · rw [writeSkipLoop_bad hd hleft hb, hrun]
      · rintro x hx
        rcases List.mem_cons.1 hx with rfl | hx
        · exact hquery
        · exact hlog x hx
      · obtain ⟨k, rfl⟩ : ∃ k, n' = k + 1 := ⟨n' - 1, by omega⟩
        rw [readSkipLoop_bad hd hlen hb]
        exact hread k buffer (by omega)
    | false =>
      rw [hb, if_neg Bool.false_ne_true] at hsplit
      have hws := part_eq (d := d) p left.length
      have hmod := Nat.mod_lt p hd.pos
      have hnext : d.next p = p + (d.erasesize - p % d.erasesize) := rfl
      generalize hw : d.part p left.length = ws at hws
      have hdrop : (left.drop ws).length ≤ d.goodBytes (d.asked bad) (p + ws) e := by
        rw [List.length_drop]
        rcases Nat.le_total left.length (d.erasesize - p % d.erasesize) with hle | hle
        · omega
        · rw [min_eq_right hle] at hws
          rw [hws, ← hnext]
          omega
      obtain ⟨m', log, hrun, hlog, hframe, hread⟩ := writeSkipLoop_run he hes n (p + ws)
        (left.drop ws) (m.store p (left.take ws)) (by omega) hdrop (by omega)
      have htake : (left.take ws).length = ws := by
        rw [List.length_take]
        omega
      refine ⟨m', (.isbad (d.blkoff p), ⟨0, []⟩) :: (.write p (left.take ws), ⟨0, []⟩) ::
        log, ?_, ?_,
        fun x hx => ?_, fun n' buffer hn' => ?_⟩
      · rw [writeSkipLoop_good hd hleft hb, hw]
        dsimp only
        rw [hrun]
      · rintro x hx
        rcases List.mem_cons.1 hx with rfl | hx
        · exact hquery
        · rcases List.mem_cons.1 hx with rfl | hx
          · refine ⟨by omega, ?_⟩
            rw [htake]
            omega
          · exact hlog x hx
      · rw [hframe x (by omega), Mem.store_of_lt _ _ hx]
      · obtain ⟨k, rfl⟩ : ∃ k, n' = k + 1 := ⟨n' - 1, by omega⟩
        have hload : m'.load p ws = left.take ws := by
          have hsame : ∀ i < ws, m' (p + i) = m.store p (left.take ws) (p + i) :=
            fun i hi => hframe _ (by omega)
          have := Mem.load_store_same m p (left.take ws)
          rw [htake] at this
          rw [Mem.load_congr hsame, this]
        have := hread k (buffer ++ left.take ws) (by omega)
        rw [List.length_drop, List.append_assoc, List.take_append_drop] at this
        rw [readSkipLoop_good hd hlen hb, hw, hload]
        exact this

omit hd in
/-- Data left at or past the end of the device is not written but past it. -/
theorem writeSkipLoop_past : ∀ (n p : ℕ) (left : List UInt8) (m : Mem) (r : ℤ × ℕ), d.size ≤ p →
    left ≠ [] → (Prog.run (mtdStep d bad) (writeSkipLoop d n p left) m).val = some r →
      ∃ x ∈ (Prog.run (mtdStep d bad) (writeSkipLoop d n p left) m).log, ¬x.1.Within d.size
  | 0, _, _, _, _, _, _, h => by cases h
  | n + 1, p, left, m, r, hp, hleft, h => by
    rw [writeSkipLoop, if_neg hleft] at h ⊢
    rw [Prog.run_bind_val] at h
    rw [Prog.run_bind_log]
    by_cases hb : (Prog.run (mtdStep d bad) (Prog.op (NandOp.isbad (d.blkoff p))) m).val.ret ≠ 0
    · rw [if_pos hb] at h ⊢
      obtain ⟨x, hx, hout⟩ := writeSkipLoop_past n _ left _ r (by omega) hleft h
      exact ⟨x, List.mem_append_right _ hx, hout⟩
    · rw [if_neg hb]
      generalize (if left.length < d.erasesize - d.blockOffset p then left.length
        else d.erasesize - d.blockOffset p) = ws
      refine ⟨(.write p (left.take ws), ⟨0, []⟩), List.mem_append_right _ ?_,
        fun hw => absurd hw.1 (not_lt.2 hp)⟩
      rw [Prog.run_bind_log]
      exact List.mem_append_left _ (List.mem_singleton.2 rfl)

/-- So is data that does not fit where it is looked for. -/
theorem writeSkipLoop_over : ∀ (n p : ℕ) (left : List UInt8) (m : Mem) (r : ℤ × ℕ),
    d.goodBytes (d.asked bad) p d.size < left.length →
      (Prog.run (mtdStep d bad) (writeSkipLoop d n p left) m).val = some r →
      ∃ x ∈ (Prog.run (mtdStep d bad) (writeSkipLoop d n p left) m).log, ¬x.1.Within d.size
  | 0, _, _, _, _, _, h => by cases h
  | n + 1, p, left, m, r, hfit, h => by
    have hleft : left ≠ [] := fun h0 => by
      rw [h0] at hfit
      exact absurd hfit (Nat.not_lt_zero _)
    rcases Nat.lt_or_ge p d.size with hp | hp
    · have hsplit := goodBytes_next hd (d.asked bad) (next_le hd hd.blocks hp)
      have hnext : d.next p = p + (d.erasesize - p % d.erasesize) := rfl
      cases hb : d.asked bad (p / d.erasesize) with
      | true =>
        rw [hb, if_pos rfl, Nat.zero_add] at hsplit
        rw [writeSkipLoop_bad hd hleft hb] at h ⊢
        obtain ⟨x, hx, hout⟩ := writeSkipLoop_over n (d.next p) left m r (hsplit ▸ hfit) h
        exact ⟨x, List.mem_cons_of_mem _ hx, hout⟩
      | false =>
        rw [hb, if_neg Bool.false_ne_true] at hsplit
        have hws := part_eq (d := d) p left.length
        rw [min_eq_right (by omega)] at hws
        rw [writeSkipLoop_good hd hleft hb, hws] at h ⊢
        dsimp only at h ⊢
        rw [← hnext] at h ⊢
        obtain ⟨x, hx, hout⟩ := writeSkipLoop_over n (d.next p)
          (left.drop (d.erasesize - p % d.erasesize)) _ r (by rw [List.length_drop]; omega) h
        exact ⟨x, List.mem_cons_of_mem _ (List.mem_cons_of_mem _ hx), hout⟩
    · exact writeSkipLoop_past (n + 1) p left m r hp hleft h

omit hd in
theorem writeSkipLoop_ret : ∀ (n p : ℕ) (left : List UInt8) (m : Mem) (r : ℤ × ℕ),
    (Prog.run (mtdStep d bad) (writeSkipLoop d n p left) m).val = some r → r.1 = 0
  | 0, _, _, _, _, h => by cases h
  | n + 1, p, left, m, r, h => by
    rw [writeSkipLoop] at h
    by_cases hleft : left = []
    · rw [if_pos hleft] at h
      exact (congrArg Prod.fst (Option.some.inj h)).symm
    · rw [if_neg hleft, Prog.run_bind_val] at h
      by_cases hb : (Prog.run (mtdStep d bad) (Prog.op (NandOp.isbad (d.blkoff p))) m).val.ret ≠ 0
      · rw [if_pos hb] at h
        exact writeSkipLoop_ret n _ _ _ r h
      · rw [if_neg hb] at h
        generalize (if left.length < d.erasesize - d.blockOffset p then left.length
          else d.erasesize - d.blockOffset p) = ws at h
        exact writeSkipLoop_ret n _ _ _ r h

end Loops

section Right

variable (d : NandInfo) (bad : ℕ → Bool)

/-- `nand_write_skip_bad` returns 0 if and only if the data fits, its operations keep to the device,
it writes nothing if the data does not fit, and after a success `nand_read_skip_bad` gives the
data. -/
def SkipBadRight (offset : ℕ) (data : List UInt8) (m : Mem) : Prop :=
  ∃ fuel ret len, let out := Prog.run (mtdStep d bad) (nandWriteSkipBad d fuel offset data) m
    out.val = some (ret, len) ∧ (ret = 0 ↔ data.length ≤ d.goodBytes bad offset d.size) ∧
    (∀ x ∈ out.log, x.1.Within d.size) ∧
    (d.goodBytes bad offset d.size < data.length → ∀ x ∈ out.log, x.1.isWrite = false) ∧
    (ret = 0 → ∃ fuel' len', (Prog.run (mtdStep d bad)
      (nandReadSkipBad d fuel' offset data.length) out.env).val = some (0, len', data))

/-- What the data and its place must be for that. From the end of the device on the block that is
asked for must be one of it; with two blocks or more the data must fit in the good blocks, and in
those that are found to be good, or be as long as what the check comes to without it; with less the
check is of the blocks before the last one. -/
def NandInfo.SkipBadFits (offset l : ℕ) : Prop :=
  if d.size ≤ offset then 0 < l ∧ u32 offset < d.size
  else if offset + 2 * d.erasesize ≤ d.size then
    l ≤ d.goodBytes bad offset d.size ∧
      (l ≤ d.goodBytes (d.asked bad) offset d.size ∨ ∃ q, d.StopsAt offset q ∧ l = u32 (q - offset))
  else
    l ≤ d.goodBytes (d.asked bad) offset (d.size - d.erasesize) ↔ l ≤ d.goodBytes bad offset d.size

variable {d bad} {offset v : ℕ} {data : List UInt8} {log : List (NandOp × NandReply)}
  (hoff : offset &&& (d.writesize - 1) = 0) (hlen : data.length &&& (d.writesize - 1) = 0)
  (hrun : ∀ m, Prog.run (mtdStep d bad) (getLenInclBad d offset data.length) m = ⟨v, m, log⟩)
include hoff hlen hrun

theorem nandWriteSkipBad_eq (fuel : ℕ) (m : Mem) :
    Prog.run (mtdStep d bad) (nandWriteSkipBad d fuel offset data) m =
      if offset + v ≥ d.size then ⟨some (-EINVAL, data.length), m, log⟩
      else if v = data.length then
        ⟨some (0, data.length), m.store offset data, log ++ [(.write offset data, ⟨0, []⟩)]⟩
      else
        let out := Prog.run (mtdStep d bad) (writeSkipLoop d fuel offset data) m
        ⟨out.val.map fun r => (r.1, data.length - r.2), out.env, log ++ out.log⟩ := by
  unfold nandWriteSkipBad
  dsimp only
  rw [if_neg (by rw [hoff, hlen]; simp), Prog.run_bind, hrun]
  dsimp only
  split_ifs with h1 h2
  · simp only [Prog.run_pure, List.append_nil]
  · rfl
  · rw [Prog.run_bind]
    rcases (Prog.run (mtdStep d bad) (writeSkipLoop d fuel offset data) m).val with _ | ⟨ret, left⟩
    · simp only [Prog.run_pure, List.append_nil, Option.map_none]
    · simp only [Prog.run_pure, List.append_nil, Option.map_some]

omit hoff hlen in
theorem nandReadSkipBad_eq (fuel : ℕ) (m : Mem) :
    (Prog.run (mtdStep d bad) (nandReadSkipBad d fuel offset data.length) m).val =
      if offset + v ≥ d.size then some (-EINVAL, data.length, [])
      else if v = data.length then some (0, data.length, m.load offset data.length)
      else (Prog.run (mtdStep d bad) (readSkipLoop d fuel offset data.length []) m).val.map
        fun r => (r.1, data.length - r.2.1, r.2.2) := by
  unfold nandReadSkipBad
  rw [Prog.run_bind, hrun]
  dsimp only
  split_ifs with h1 h2
  · rfl
  · change some (0, data.length, fit data.length (m.load offset data.length)) = _
    rw [fit_of_length (Mem.length_load _ _ _)]
  · rw [Prog.run_bind]
    rcases (Prog.run (mtdStep d bad) (readSkipLoop d fuel offset data.length []) m).val with
      _ | ⟨ret, left, buffer⟩
    · rfl
    · rfl

/-- If the length is accepted and is that of the data, the data is written as it is. -/
theorem skipBadRight_fast (hq : offset + v < d.size) (hfast : v = data.length)
    (hfit : data.length ≤ d.goodBytes bad offset d.size) (hlog : ∀ x ∈ log, x.1.Within d.size)
    (m : Mem) : SkipBadRight d bad offset data m := by
  have hw := nandWriteSkipBad_eq hoff hlen hrun 0 m
  have hr := nandReadSkipBad_eq hrun 0
  rw [if_neg (not_le.2 hq), if_pos hfast] at hw
  simp only [if_neg (not_le.2 hq), if_pos hfast] at hr
  refine ⟨0, 0, data.length, ?_⟩
  dsimp only
  rw [hw]
  refine ⟨rfl, ⟨fun _ => hfit, fun _ => rfl⟩, fun x hx => ?_, fun h => by omega,
    fun _ => ⟨0, data.length, ?_⟩⟩
  · rcases List.mem_append.1 hx with hx | hx
    · exact hlog x hx
    · rw [List.mem_singleton] at hx
      rw [hx]
      exact ⟨by omega, by omega⟩
  · rw [hr, Mem.load_store_same]

/-- And if the data fits where it is looked for, it is written there. -/
theorem skipBadRight_slow (hd : d.Valid) (hq : offset + v < d.size) (hslow : v ≠ data.length)
    (hfit : data.length ≤ d.goodBytes bad offset d.size)
    (hasked : data.length ≤ d.goodBytes (d.asked bad) offset d.size)
    (hlog : ∀ x ∈ log, x.1.Within d.size) (m : Mem) : SkipBadRight d bad offset data m := by
  obtain ⟨m', wlog, hwrite, hwlog, -, hread⟩ := writeSkipLoop_run hd bad hd.blocks le_rfl
    (d.size + 1) offset data m (by omega) hasked (by omega)
  have hw := nandWriteSkipBad_eq hoff hlen hrun (d.size + 1) m
  have hr := nandReadSkipBad_eq hrun (d.size + 1)
  rw [if_neg (not_le.2 hq), if_neg hslow, hwrite] at hw
  simp only [if_neg (not_le.2 hq), if_neg hslow] at hr
  refine ⟨d.size + 1, 0, data.length, ?_⟩
  dsimp only
  rw [hw]
  refine ⟨rfl, ⟨fun _ => hfit, fun _ => rfl⟩, fun x hx => ?_, fun h => by omega,
    fun _ => ⟨d.size + 1, data.length, ?_⟩⟩
  · rcases List.mem_append.1 hx with hx | hx
    · exact hlog x hx
    · exact hwlog x hx
  · rw [hr, hread (d.size + 1) [] (by omega)]
    rfl

/-- Of an accepted length these are the right writes. -/
theorem skipBadRight_accepted (hd : d.Valid) (hq : offset + v < d.size)
    (hlog : ∀ x ∈ log, x.1.Within d.size) (m : Mem) : SkipBadRight d bad offset data m ↔
      data.length ≤ d.goodBytes bad offset d.size ∧
        (data.length ≤ d.goodBytes (d.asked bad) offset d.size ∨ v = data.length) := by
  constructor
  · rintro ⟨fuel, ret, len, hval, hret, hwithin, -⟩
    rw [nandWriteSkipBad_eq hoff hlen hrun fuel m, if_neg (not_le.2 hq)] at hval hwithin
    by_cases hfast : v = data.length
    · rw [if_pos hfast] at hval
      have h0 := (Prod.mk.inj (Option.some.inj hval)).1
      exact ⟨hret.1 h0.symm, Or.inr hfast⟩
    · rw [if_neg hfast] at hval hwithin
      obtain ⟨r, hr, heq⟩ := Option.map_eq_some_iff.1 hval
      have h0 : ret = 0 := (Prod.mk.inj heq).1.symm.trans (writeSkipLoop_ret _ _ _ _ _ hr)
      refine ⟨hret.1 h0, Or.inl (not_lt.1 fun hover => ?_)⟩
      obtain ⟨x, hx, hout⟩ := writeSkipLoop_over hd fuel offset data m r hover hr
      exact hout (hwithin x (List.mem_append_right _ hx))
  · rintro ⟨hfit, hor⟩
    by_cases hfast : v = data.length
    · exact skipBadRight_fast hoff hlen hrun hq hfast hfit hlog m
    · exact skipBadRight_slow hoff hlen hrun hd hq hfast hfit (hor.resolve_right hfast) hlog m

/-- If it is refused, the write is right just when the data does not fit. -/
theorem skipBadRight_refused (hq : d.size ≤ offset + v)
    (hlog : ∀ x ∈ log, x.1.isWrite = false) (m : Mem) : SkipBadRight d bad offset data m ↔
      d.goodBytes bad offset d.size < data.length ∧ ∀ x ∈ log, x.1.Within d.size := by
  have hw := fun fuel => nandWriteSkipBad_eq hoff hlen hrun fuel m
  simp only [if_pos (show offset + v ≥ d.size from hq)] at hw
  constructor
  · rintro ⟨fuel, ret, len, hval, hret, hwithin, -⟩
    rw [hw] at hval hwithin
    have hne : ret ≠ 0 := by
      rw [← (Prod.mk.inj (Option.some.inj hval)).1]
      decide
    exact ⟨not_le.1 fun hle => hne (hret.2 hle), hwithin⟩
  · rintro ⟨hfit, hwithin⟩
    refine ⟨0, -EINVAL, data.length, ?_⟩
    dsimp only
    rw [hw]
    exact ⟨rfl, ⟨fun h => absurd h (by decide), fun h => absurd h (not_le.2 hfit)⟩,
      hwithin, fun _ => hlog, fun h => absurd h (by decide)⟩

end Right

section Cases

variable {d : NandInfo} (hd : d.Valid) (bad : ℕ → Bool) {offset : ℕ} {data : List UInt8}
  (hoff : offset &&& (d.writesize - 1) = 0) (hlen : data.length &&& (d.writesize - 1) = 0)
include hd hoff hlen

/-- A write that starts past the end is refused, after a question about the block it starts in. -/
theorem skipBad_outside (hout : d.size ≤ offset) (m : Mem) :
    SkipBadRight d bad offset data m ↔ 0 < data.length ∧ u32 offset < d.size := by
  have hnone := goodBytes_of_le (d := d) bad hout
  by_cases h0 : data.length = 0
  · have hrun (m : Mem) : Prog.run (mtdStep d bad) (getLenInclBad d offset data.length) m =
        ⟨0, m, []⟩ := by
      rw [h0, getLenInclBad_zero]
    rw [skipBadRight_refused hoff hlen hrun hout nofun m, hnone]
    exact and_congr_right fun h => absurd h0 h.ne'
  · obtain ⟨hn1, hn2⟩ := next_bounds hd offset
    have hrun := fun m => getLenLoop_succ hd bad (o := offset) m (n := d.size) le_rfl
      (by norm_num : 0 < 2 ^ 32) (Nat.pos_of_ne_zero h0)
    simp only [if_pos (show d.next offset + u32 (d.next offset - offset) ≥ d.size by omega),
      Nat.sub_self] at hrun
    have hquery : d.blkoff offset < d.size ↔ u32 offset < d.size := by
      rw [blkoff_eq hd]
      refine ⟨fun h => ?_, (Nat.sub_le _ _).trans_lt⟩
      by_contra hge
      obtain ⟨s, hs⟩ := hd.blocks
      have hle : d.erasesize * s ≤ d.erasesize * (u32 offset / d.erasesize) := by
        refine Nat.mul_le_mul_left _ ((Nat.le_div_iff_mul_le hd.pos).2 ?_)
        rw [mul_comm, ← hs]
        exact not_lt.1 hge
      have hdm := Nat.div_add_mod (u32 offset) d.erasesize
      omega
    rw [skipBadRight_refused hoff hlen hrun (by omega) (by simp [NandOp.isWrite]) m, hnone]
    simp [NandOp.Within, hquery]

/-- Two blocks or more from the offset on: every length is accepted. -/
theorem skipBad_two (h32 : data.length < 2 ^ 32) (htwo : offset + 2 * d.erasesize ≤ d.size)
    (m : Mem) : SkipBadRight d bad offset data m ↔
      data.length ≤ d.goodBytes bad offset d.size ∧
        (data.length ≤ d.goodBytes (d.asked bad) offset d.size ∨
          ∃ q, d.StopsAt offset q ∧ data.length = u32 (q - offset)) := by
  have hpos := hd.pos
  obtain ⟨v, log, hrun, hlog, hacc, hshort⟩ := getLenInclBad_run hd bad h32 (o := offset)
    (by omega)
  rw [skipBadRight_accepted hoff hlen hrun hd (hacc htwo) (fun x hx => (hlog x hx).1) m]
  refine and_congr_right fun _ => or_congr_right' fun hover => ?_
  obtain ⟨q, hq, hv⟩ := hshort (not_le.1 hover)
  constructor
  · exact fun h => ⟨q, hq, h.symm.trans hv⟩
  · rintro ⟨q', hq', hl⟩
    rw [hv, hl, hq.unique hq']

/-- Less than two blocks: a length is accepted if it fits before the last of them. -/
theorem skipBad_one (h32 : data.length < 2 ^ 32) (hin : offset < d.size)
    (hone : d.size < offset + 2 * d.erasesize) (m : Mem) : SkipBadRight d bad offset data m ↔
      (data.length ≤ d.goodBytes (d.asked bad) offset (d.size - d.erasesize) ↔
        data.length ≤ d.goodBytes bad offset d.size) := by
  have hpos := hd.pos
  by_cases h0 : data.length = 0
  · have hrun (m : Mem) : Prog.run (mtdStep d bad) (getLenInclBad d offset data.length) m =
        ⟨0, m, []⟩ := by
      rw [h0, getLenInclBad_zero]
    refine iff_of_true (skipBadRight_fast hoff hlen hrun hin h0.symm ?_ nofun m) ?_
    · rw [h0]
      exact Nat.zero_le _
    · simp [h0]
  · obtain ⟨v, log, hrun, hlog, -⟩ := getLenInclBad_run hd bad h32 hin
    have hv := getLenInclBad_one hd bad h0 hin hone m
    rw [hrun m] at hv
    dsimp only at hv
    have hsplit : d.goodBytes (d.asked bad) offset (d.size - d.erasesize) ≤
        d.goodBytes (d.asked bad) offset d.size := by
      rcases Nat.le_total offset (d.size - d.erasesize) with hle | hle
      · have := goodBytes_split (d := d) (d.asked bad) hle (Nat.sub_le d.size d.erasesize)
        omega
      · rw [goodBytes_of_le _ hle]
        exact Nat.zero_le _
    by_cases hfit : data.length ≤ d.goodBytes (d.asked bad) offset (d.size - d.erasesize)
    · have hle := goodBytes_le (d := d) (d.asked bad) offset (d.size - d.erasesize)
      rw [if_pos hfit] at hv
      rw [skipBadRight_accepted hoff hlen hrun hd (by omega) (fun x hx => (hlog x hx).1) m,
        iff_true_left hfit, and_iff_left (Or.inl (hfit.trans hsplit))]
    · rw [if_neg hfit] at hv
      rw [skipBadRight_refused hoff hlen hrun (by omega) (fun x hx => (hlog x hx).2) m,
        iff_false_left hfit, and_iff_left fun x hx => (hlog x hx).1, not_le]

end Cases

section Main

variable {d : NandInfo} (hd : d.Valid) (bad : ℕ → Bool) {offset : ℕ} {data : List UInt8}
include hd

/-- A device of at most 4 GiB is asked for the blocks it is about. -/
theorem skipBadFits_small (hsize : d.size ≤ 2 ^ 32) (hin : offset < 2 ^ 32) (l : ℕ) :
    d.SkipBadFits bad offset l ↔ offset < d.size ∧
      if offset + 2 * d.erasesize ≤ d.size then l ≤ d.goodBytes bad offset d.size
      else l ≤ d.goodBytes bad offset (d.size - d.erasesize) ∨
        d.goodBytes bad offset d.size < l := by
  have hlast : d.goodBytes bad offset (d.size - d.erasesize) ≤ d.goodBytes bad offset d.size := by
    rcases Nat.le_total offset (d.size - d.erasesize) with hle | hle
    · have := goodBytes_split (d := d) bad hle (Nat.sub_le d.size d.erasesize)
      omega
    · rw [goodBytes_of_le _ hle]
      exact Nat.zero_le _
  unfold NandInfo.SkipBadFits
  rw [goodBytes_asked hd bad hsize, goodBytes_asked hd bad ((Nat.sub_le _ _).trans hsize)]
  by_cases hout : d.size ≤ offset
  · rw [if_pos hout, u32_of_lt hin]
    exact iff_of_false (fun h => absurd h.2 (not_lt.2 hout)) fun h => absurd h.1 (not_lt.2 hout)
  · rw [if_neg hout, and_iff_right (not_le.1 hout)]
    by_cases htwo : offset + 2 * d.erasesize ≤ d.size
    · rw [if_pos htwo, if_pos htwo]
      exact ⟨And.left, fun h => ⟨h, Or.inl h⟩⟩
    · rw [if_neg htwo, if_neg htwo]
      omega

end Main

section Example

/-- Four blocks of two pages. -/
def fourBlocks : NandInfo := ⟨16, 4, 2⟩

theorem fourBlocks_valid : fourBlocks.Valid :=
  ⟨⟨2, by decide, rfl⟩, ⟨1, rfl⟩, ⟨2, rfl⟩, ⟨4, rfl⟩⟩

end Example

end InfotmUboot
