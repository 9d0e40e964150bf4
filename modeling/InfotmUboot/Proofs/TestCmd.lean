import InfotmUboot.TestCmd
import Mathlib.Data.Nat.Digits.Lemmas

/-!
# The conditions of the shell

A condition as the command has it, its words and its value from left to right: of texts by their
order, of numbers by the integers. The loop takes the words of one condition at a time and keeps
the value so far (`testLoop_rest`), of each condition as the code takes it.

It takes one amiss where a difference does not fit in a signed character or an integer in a long.
Whether that counts depends on the conditions before and behind it (`doTest_right_iff`).
-/

namespace InfotmUboot

open Lib

section Strcmp

theorem charDiff_eq (c t : UInt8) : charDiff c t = if (c.toNat : ℤ) - t.toNat < -128 then
    (c.toNat : ℤ) - t.toNat + 256 else if (c.toNat : ℤ) - t.toNat < 128 then
    (c.toNat : ℤ) - t.toNat else (c.toNat : ℤ) - t.toNat - 256 := by
  have hc := c.toNat_lt
  have ht := t.toNat_lt
  rw [charDiff, Int.bmod_def]
  split_ifs <;> omega

theorem charDiff_eq_zero (c t : UInt8) : charDiff c t = 0 ↔ c = t := by
  have hc := c.toNat_lt
  have ht := t.toNat_lt
  rw [charDiff_eq, ← UInt8.toNat_inj]
  split_ifs <;> omega

/-- Texts have no terminator inside. -/
theorem strcmp_eq_zero : ∀ {a b : List UInt8}, 0 ∉ a → 0 ∉ b → (strcmp a b = 0 ↔ a = b)
  | [], [], _, _ => iff_of_true ((charDiff_eq_zero 0 0).2 rfl) rfl
  | [], t :: b, _, hb => by
    have hne : (0 : UInt8) ≠ t := fun h => hb (h ▸ List.mem_cons_self)
    exact iff_of_false ((charDiff_eq_zero 0 t).not.2 hne) (List.cons_ne_nil t b).symm
  | c :: a, [], ha, _ => by
    have hne : c ≠ (0 : UInt8) := fun h => ha (h ▸ List.mem_cons_self)
    exact iff_of_false ((charDiff_eq_zero c 0).not.2 hne) (List.cons_ne_nil c a)
  | c :: a, t :: b, ha, hb => by
    rw [List.mem_cons, not_or] at ha hb
    rw [strcmp]
    by_cases hct : c = t
    · rw [if_neg (not_not.2 ((charDiff_eq_zero c t).2 hct)), strcmp_eq_zero ha.2 hb.2, hct,
        List.cons_inj_right]
    · have hdiff := (charDiff_eq_zero c t).not.2 hct
      rw [if_pos hdiff]
      exact iff_of_false hdiff fun h => hct (List.cons.inj h).1

/-- By how much two texts differ in the first byte that does, the end of one being 0. -/
def firstDiff : List UInt8 → List UInt8 → ℤ
  | [], [] => 0
  | [], t :: _ => -(t.toNat : ℤ)
  | c :: _, [] => c.toNat
  | c :: cs, t :: ct => if c = t then firstDiff cs ct else c.toNat - t.toNat

theorem firstDiff_range : ∀ a b : List UInt8, -256 < firstDiff a b ∧ firstDiff a b < 256
  | [], [] => by simp [firstDiff]
  | [], t :: _ => by
    have := t.toNat_lt
    rw [firstDiff]
    omega
  | c :: _, [] => by
    have := c.toNat_lt
    rw [firstDiff]
    omega
  | c :: a, t :: b => by
    have hc := c.toNat_lt
    have ht := t.toNat_lt
    have ih := firstDiff_range a b
    rw [firstDiff]
    split_ifs <;> omega

/-- `strcmp` gives that difference as far as a signed character goes. -/
theorem strcmp_eq : ∀ a b : List UInt8, strcmp a b = (firstDiff a b).bmod 256
  | [], [] => rfl
  | [], t :: _ => by rw [strcmp, firstDiff, charDiff, UInt8.toNat_zero, Nat.cast_zero, zero_sub]
  | c :: _, [] => by rw [strcmp, firstDiff, charDiff, UInt8.toNat_zero, Nat.cast_zero, sub_zero]
  | c :: a, t :: b => by
    rw [strcmp, firstDiff]
    by_cases hct : c = t
    · rw [if_neg (not_not.2 ((charDiff_eq_zero c t).2 hct)), if_pos hct, strcmp_eq a b]
    · rw [if_pos ((charDiff_eq_zero c t).not.2 hct), if_neg hct, charDiff]

theorem firstDiff_neg : ∀ {a b : List UInt8}, 0 ∉ b → (firstDiff a b < 0 ↔ a < b)
  | [], [], _ => by simp [firstDiff]
  | [], t :: b, hb => by
    have hne : t.toNat ≠ 0 := fun h =>
      hb (UInt8.toNat_inj.1 (h.trans UInt8.toNat_zero.symm) ▸ List.mem_cons_self)
    rw [firstDiff]
    refine iff_of_true (by omega) (List.nil_lt_cons t b)
  | c :: a, [], _ => by
    rw [firstDiff]
    exact iff_of_false (by omega) (List.not_lt_nil (c :: a))
  | c :: a, t :: b, hb => by
    rw [List.mem_cons, not_or] at hb
    rw [firstDiff, List.cons_lt_cons_iff]
    by_cases hct : c = t
    · rw [if_pos hct, firstDiff_neg hb.2, hct]
      simp
    · rw [if_neg hct, UInt8.lt_iff_toNat_lt]
      have hor : c.toNat < t.toNat ↔ (c.toNat < t.toNat ∨ c = t ∧ a < b) := by simp [hct]
      rw [← hor]
      omega

theorem firstDiff_swap : ∀ a b : List UInt8, firstDiff a b = -firstDiff b a
  | [], [] => rfl
  | [], _ :: _ => rfl
  | _ :: _, [] => (neg_neg _).symm
  | c :: a, t :: b => by
    rw [firstDiff, firstDiff]
    by_cases hct : c = t
    · rw [if_pos hct, if_pos hct.symm, firstDiff_swap a b]
    · rw [if_neg hct, if_neg (Ne.symm hct), neg_sub]

/-- The sign is right where the difference fits. -/
theorem strcmp_neg {a b : List UInt8} (hb : 0 ∉ b) :
    (strcmp a b < 0 ↔ a < b) ↔ -128 ≤ firstDiff a b ∧ firstDiff a b < 128 := by
  have hr := firstDiff_range a b
  rw [strcmp_eq, ← firstDiff_neg hb, Int.bmod_def]
  split_ifs <;> omega

theorem strcmp_pos {a b : List UInt8} (ha : 0 ∉ a) :
    (strcmp a b > 0 ↔ b < a) ↔ -128 ≤ firstDiff a b ∧ firstDiff a b < 128 := by
  have hr := firstDiff_range a b
  rw [strcmp_eq, ← firstDiff_neg ha, firstDiff_swap b a, Int.bmod_def]
  split_ifs <;> omega

end Strcmp

section Numbers

/-- The digits that a text begins with. -/
def digits (base : ℕ) : List UInt8 → List ℕ
  | [] => []
  | c :: cs =>
    match digitValue c with
    | some v => if v < base then v :: digits base cs else []
    | none => []

/-- The number that a text begins with: hexadecimal after `0x`, decimal else. -/
def naturalOf : List UInt8 → ℕ
  | 0x30 :: 0x78 :: c :: cs =>
    if (digitValue c).isSome then Nat.ofDigits 16 (digits 16 (c :: cs)).reverse else 0
  | cs => Nat.ofDigits 10 (digits 10 cs).reverse

def integerOf : List UInt8 → ℤ
  | 0x2d :: cs => -naturalOf cs
  | cs => naturalOf cs

/-- The loop has the number so far, as far as it fits. -/
theorem strtoulLoop_eq (base : ℕ) : ∀ (cs : List UInt8) (r : ℕ), strtoulLoop base cs (u32 r) =
    u32 (Nat.ofDigits base (digits base cs).reverse + base ^ (digits base cs).length * r)
  | [], r => by simp [strtoulLoop, digits]
  | c :: cs, r => by
    rw [strtoulLoop, digits]
    cases digitValue c with
    | none => simp
    | some v =>
      by_cases hv : v < base
      · have hr : u32 (u32 r * base + v) = u32 (r * base + v) := by
          simp [u32, Nat.add_mod, Nat.mul_mod]
        simp only [if_pos hv]
        rw [hr, strtoulLoop_eq base cs, List.reverse_cons, Nat.ofDigits_append,
          Nat.ofDigits_singleton, List.length_reverse, List.length_cons, pow_succ]
        congr 1
        ring
      · simp [if_neg hv]

theorem simpleStrtoul_eq (s : List UInt8) : simpleStrtoul s = u32 (naturalOf s) := by
  have hloop : ∀ (base : ℕ) (cs : List UInt8), strtoulLoop base cs 0 =
      u32 (Nat.ofDigits base (digits base cs).reverse) := fun base cs => by
    have h := strtoulLoop_eq base cs 0
    rwa [Nat.mul_zero, Nat.add_zero] at h
  fun_cases simpleStrtoul s with
  | case1 c cs h =>
    rw [naturalOf, if_pos h]
    exact hloop 16 (c :: cs)
  | case2 c cs h =>
    rw [naturalOf, if_neg h]
    rfl
  | case3 _ h =>
    rw [naturalOf]
    · exact hloop 10 s
    · exact h

theorem s32_eq_iff (a b : ℤ) : s32 a = s32 b ↔ 2 ^ 32 ∣ a - b := by
  rw [s32, s32, Int.bmod_eq_bmod_iff_bmod_sub_eq_zero, ← Int.dvd_iff_bmod_eq_zero]
  norm_num

/-- A long keeps the integer up to a multiple of `2 ^ 32`. -/
theorem simpleStrtol_eq (s : List UInt8) : simpleStrtol s = s32 (integerOf s) := by
  have hmod : ∀ n : ℕ, ((u32 n : ℕ) : ℤ) % 2 ^ 32 = n % 2 ^ 32 := fun n => by
    rw [u32]
    omega
  fun_cases simpleStrtol s with
  | case1 cs =>
    have h := hmod (naturalOf cs)
    rw [integerOf, simpleStrtoul_eq, s32_eq_iff]
    omega
  | case2 _ hs =>
    have h := hmod (naturalOf s)
    rw [integerOf, simpleStrtoul_eq, s32_eq_iff]
    · omega
    · exact hs

end Numbers

section Syntax

/-- The words that `do_test` knows. -/
def operatorWords : List (List UInt8) :=
  ["!", "-a", "-o", "-z", "-n", "=", "!=", ">", "<", "-eq", "-ne", "-lt", "-le", "-gt", "-ge"].map
    ascii

/-- A text that is no operator. -/
structure Operand where
  text : List UInt8
  clean : 0 ∉ text
  free : text ∉ operatorWords

inductive TestOp where
  | eq | ne | gt | lt | numEq | numNe | numLt | numLe | numGt | numGe

def TestOp.word : TestOp → List UInt8
  | .eq => ascii "="
  | .ne => ascii "!="
  | .gt => ascii ">"
  | .lt => ascii "<"
  | .numEq => ascii "-eq"
  | .numNe => ascii "-ne"
  | .numLt => ascii "-lt"
  | .numLe => ascii "-le"
  | .numGt => ascii "-gt"
  | .numGe => ascii "-ge"

/-- What an operator says of two texts: of their order or of the integers they begin with. -/
def TestOp.value (s t : List UInt8) : TestOp → Bool
  | .eq => s = t
  | .ne => s ≠ t
  | .gt => t < s
  | .lt => s < t
  | .numEq => integerOf s = integerOf t
  | .numNe => integerOf s ≠ integerOf t
  | .numLt => integerOf s < integerOf t
  | .numLe => integerOf s ≤ integerOf t
  | .numGt => integerOf t < integerOf s
  | .numGe => integerOf t ≤ integerOf s

/-- The operands that an operator takes right: for an order of texts the difference fits in a
signed character, for one of integers it is left as it is by what a long keeps. -/
def TestOp.Fits (s t : List UInt8) : TestOp → Prop
  | .eq | .ne => True
  | .gt | .lt => -128 ≤ firstDiff s t ∧ firstDiff s t < 128
  | .numEq | .numNe => 2 ^ 32 ∣ integerOf s - integerOf t → integerOf s = integerOf t
  | .numLt | .numGe => s32 (integerOf s) < s32 (integerOf t) ↔ integerOf s < integerOf t
  | .numLe | .numGt => s32 (integerOf s) ≤ s32 (integerOf t) ↔ integerOf s ≤ integerOf t

inductive Primary where
  | empty (s : Operand)
  | nonempty (s : Operand)
  | compare (s : Operand) (op : TestOp) (t : Operand)

def Primary.words : Primary → List (List UInt8)
  | .empty s => [ascii "-z", s.text]
  | .nonempty s => [ascii "-n", s.text]
  | .compare s op t => [s.text, op.word, t.text]

def Primary.value : Primary → Bool
  | .empty s => s.text = []
  | .nonempty s => s.text ≠ []
  | .compare s op t => op.value s.text t.text

def Primary.Fits : Primary → Prop
  | .empty _ | .nonempty _ => True
  | .compare s op t => op.Fits s.text t.text

inductive Connective where
  | and | or

def Connective.word : Connective → List UInt8
  | .and => ascii "-a"
  | .or => ascii "-o"

def Connective.apply : Connective → Bool → Bool → Bool
  | .and => fun v w => v && w
  | .or => fun v w => v || w

/-- The value that settles a connective. -/
def Connective.settled : Connective → Bool
  | .and => false
  | .or => true

/-- Whether the value behind a condition is right, where the one before it is `v`, and `r` if the
code has that right. -/
def rightBehind (c : Connective) (p : Primary) (v : Bool) (r : Prop) : Prop :=
  (p.Fits → p.value = c.settled ∨ r) ∧
    (¬p.Fits → if p.value = c.settled then r ↔ v = c.settled else v = c.settled)

def rightRest : List (Connective × Primary) → Bool → Prop → Prop
  | [], _, r => r
  | (c, p) :: rest, v, r => rightRest rest (c.apply v p.value) (rightBehind c p v r)

/-- `[!] P { (-a | -o) P }` -/
structure Condition where
  neg : Bool
  first : Primary
  rest : List (Connective × Primary)

def Condition.words (c : Condition) : List (List UInt8) :=
  (if c.neg then [ascii "!"] else []) ++
    (c.first.words ++ c.rest.flatMap fun r => r.1.word :: r.2.words)

/-- The value from left to right. -/
def Condition.value (c : Condition) : Bool :=
  c.neg ^^ c.rest.foldl (fun v r => r.1.apply v r.2.value) c.first.value

/-- The conditions that the code gets wrong are without effect. -/
def Condition.Fits (c : Condition) : Prop := rightRest c.rest c.first.value c.first.Fits

end Syntax

section Loop

theorem Operand.ne_word (s : Operand) {w : List UInt8} (hw : w ∈ operatorWords) :
    strcmp s.text w ≠ 0 := by
  have hclean : ∀ w ∈ operatorWords, 0 ∉ w := by decide
  rw [Ne, strcmp_eq_zero s.clean (hclean w hw)]
  rintro rfl
  exact s.free hw

/-- Of the words of the operators each is found first at its own place. -/
theorem testOp_word (s t : List UInt8) (op : TestOp) : testOp op.word s t = some (match op with
    | .eq => flag (strcmp s t = 0)
    | .ne => flag (strcmp s t ≠ 0)
    | .gt => flag (strcmp s t > 0)
    | .lt => flag (strcmp s t < 0)
    | .numEq => flag (simpleStrtol s = simpleStrtol t)
    | .numNe => flag (simpleStrtol s ≠ simpleStrtol t)
    | .numLt => flag (simpleStrtol s < simpleStrtol t)
    | .numLe => flag (simpleStrtol s ≤ simpleStrtol t)
    | .numGt => flag (simpleStrtol s > simpleStrtol t)
    | .numGe => flag (simpleStrtol s ≥ simpleStrtol t)) := by
  cases op <;> rfl

theorem flag_congr {p q : Prop} [Decidable p] [Decidable q] (h : p ↔ q) : flag p = flag q := by
  unfold flag
  simp only [h]

/-- What the code takes a comparison for. -/
def TestOp.taken (s t : List UInt8) : TestOp → Bool
  | .eq => strcmp s t = 0
  | .ne => strcmp s t ≠ 0
  | .gt => strcmp s t > 0
  | .lt => strcmp s t < 0
  | .numEq => simpleStrtol s = simpleStrtol t
  | .numNe => simpleStrtol s ≠ simpleStrtol t
  | .numLt => simpleStrtol s < simpleStrtol t
  | .numLe => simpleStrtol s ≤ simpleStrtol t
  | .numGt => simpleStrtol s > simpleStrtol t
  | .numGe => simpleStrtol s ≥ simpleStrtol t

def Primary.taken : Primary → Bool
  | .empty s => s.text = []
  | .nonempty s => s.text ≠ []
  | .compare s op t => op.taken s.text t.text

theorem TestOp.taken_iff (s t : Operand) (op : TestOp) :
    op.taken s.text t.text = op.value s.text t.text ↔ op.Fits s.text t.text := by
  have heq := strcmp_eq_zero s.clean t.clean
  cases op with
  | eq => exact iff_of_true (decide_eq_decide.2 heq) trivial
  | ne => exact iff_of_true (decide_eq_decide.2 heq.not) trivial
  | gt => exact decide_eq_decide.trans (strcmp_pos s.clean)
  | lt => exact decide_eq_decide.trans (strcmp_neg t.clean)
  | numEq =>
    rw [TestOp.taken, TestOp.value, decide_eq_decide, simpleStrtol_eq, simpleStrtol_eq, s32_eq_iff]
    exact ⟨Iff.mp, fun h => ⟨h, fun he => by simp [he]⟩⟩
  | numNe =>
    rw [TestOp.taken, TestOp.value, decide_eq_decide, simpleStrtol_eq, simpleStrtol_eq, not_iff_not,
      s32_eq_iff]
    exact ⟨Iff.mp, fun h => ⟨h, fun he => by simp [he]⟩⟩
  | numLt =>
    rw [TestOp.taken, TestOp.value, decide_eq_decide, simpleStrtol_eq, simpleStrtol_eq]
    rfl
  | numLe =>
    rw [TestOp.taken, TestOp.value, decide_eq_decide, simpleStrtol_eq, simpleStrtol_eq]
    rfl
  | numGt =>
    rw [TestOp.taken, TestOp.value, decide_eq_decide, simpleStrtol_eq, simpleStrtol_eq, gt_iff_lt,
      ← not_le, ← not_le, not_iff_not]
    rfl
  | numGe =>
    rw [TestOp.taken, TestOp.value, decide_eq_decide, simpleStrtol_eq, simpleStrtol_eq, ge_iff_le,
      ← not_lt, ← not_lt, not_iff_not]
    rfl

theorem Primary.taken_iff (p : Primary) : p.taken = p.value ↔ p.Fits := by
  cases p with
  | compare s op t => exact op.taken_iff s t
  | _ => exact iff_of_true rfl trivial

theorem testOp_eq (s t : Operand) (op : TestOp) :
    testOp op.word s.text t.text = some (flag (op.taken s.text t.text = true)) := by
  rw [testOp_word]
  refine congrArg some ?_
  cases op with
  | _ => exact flag_congr decide_eq_true_iff.symm

/-- The words of a condition are taken at once. -/
theorem testLoop_primary (p : Primary) (left : List (List UInt8)) (s : TestState) :
    testLoop (p.words ++ left) s = testLoop left (s.join (flag (p.taken = true))) := by
  cases p with
  | empty o =>
    have hlen : flag (o.text.length = 0) = flag (Primary.taken (.empty o) = true) :=
      flag_congr (List.length_eq_zero_iff.trans decide_eq_true_iff.symm)
    change testLoop (ascii "-z" :: o.text :: left) s = _
    rw [testLoop, if_neg (by decide), if_neg (by decide), if_pos (by decide), hlen]
  | nonempty o =>
    have hlen : flag (o.text.length ≠ 0) = flag (Primary.taken (.nonempty o) = true) :=
      flag_congr (List.length_eq_zero_iff.not.trans decide_eq_true_iff.symm)
    change testLoop (ascii "-n" :: o.text :: left) s = _
    rw [testLoop, if_neg (by decide), if_neg (by decide), if_neg (by decide), if_pos (by decide),
      hlen]
  | compare o op t =>
    change testLoop (o.text :: op.word :: t.text :: left) s = _
    rw [testLoop, if_neg (o.ne_word (by decide)), if_neg (o.ne_word (by decide)),
      if_neg (o.ne_word (by decide)), if_neg (o.ne_word (by decide))]
    dsimp only
    rw [testOp_eq]
    rfl

def Connective.code : Connective → ℤ
  | .and => 1
  | .or => 0

theorem testLoop_connective (c : Connective) (left : List (List UInt8)) (s : TestState) :
    testLoop (c.word :: left) s =
      testLoop left { s with lastExpr := s.expr, lastCmp := c.code } := by
  cases c with
  | and =>
    change testLoop (ascii "-a" :: left) s = _
    rw [testLoop.eq_def]
    dsimp only
    rw [if_neg (by decide), if_pos (by decide)]
    rfl
  | or =>
    change testLoop (ascii "-o" :: left) s = _
    rw [testLoop.eq_def]
    dsimp only
    rw [if_pos (by decide)]
    rfl

theorem flag_ne_zero {p : Prop} [Decidable p] : flag p ≠ 0 ↔ p := by
  unfold flag
  split_ifs with h <;> simp [h]

/-- A connective joins the value before it and the one behind it. -/
theorem join_connective (c : Connective) (v w : Bool) {s : TestState}
    (hexpr : s.lastExpr = flag (v = true)) (hcmp : s.lastCmp = c.code) :
    (s.join (flag (w = true))).expr = flag (c.apply v w = true) := by
  rw [TestState.join, hexpr, hcmp]
  cases c with
  | and =>
    exact flag_congr (by rw [flag_ne_zero, flag_ne_zero]; exact (Bool.and_eq_true_iff).symm)
  | or => exact flag_congr (by rw [flag_ne_zero, flag_ne_zero]; exact (Bool.or_eq_true_iff).symm)

/-- The loop keeps the value of what it has passed. -/
theorem testLoop_rest : ∀ (rest : List (Connective × Primary)) (v : Bool) {s : TestState},
    s.expr = flag (v = true) → testLoop (rest.flatMap fun r => r.1.word :: r.2.words) s =
      flag (rest.foldl (fun v r => r.1.apply v r.2.taken) v = true)
  | [], _, _, hs => hs
  | r :: rest, v, s, hs => by
    rw [List.flatMap_cons, List.cons_append, testLoop_connective, testLoop_primary, List.foldl_cons]
    exact testLoop_rest rest _ (join_connective r.1 v r.2.taken hs rfl)

end Loop

section Right

theorem apply_right (c : Connective) (p : Primary) {u v : Bool} {r : Prop} (h : u = v ↔ r) :
    c.apply u p.taken = c.apply v p.value ↔ rightBehind c p v r := by
  have hp := p.taken_iff
  by_cases hfits : p.Fits
  · rw [rightBehind, hp.2 hfits, ← h]
    cases c <;> cases u <;> cases v <;> cases p.value <;>
      simp [Connective.apply, Connective.settled, hfits]
  · have hne : p.taken = !p.value := Bool.eq_not_of_ne (hp.not.2 hfits)
    rw [rightBehind, hne, ← h]
    cases c <;> cases u <;> cases v <;> cases p.value <;>
      simp [Connective.apply, Connective.settled, hfits]

theorem rest_right : ∀ (rest : List (Connective × Primary)) (u v : Bool) (r : Prop), (u = v ↔ r) →
    (rest.foldl (fun v r => r.1.apply v r.2.taken) u =
      rest.foldl (fun v r => r.1.apply v r.2.value) v ↔ rightRest rest v r)
  | [], _, _, _, h => h
  | (c, p) :: rest, _, _, _, h => rest_right rest _ _ _ (apply_right c p h)

theorem first_ne_bang (p : Primary) (left : List (List UInt8)) :
    strcmp ((p.words ++ left).headD []) (ascii "!") ≠ 0 := by
  cases p with
  | empty _ => exact (by decide : strcmp (ascii "-z") (ascii "!") ≠ 0)
  | nonempty _ => exact (by decide : strcmp (ascii "-n") (ascii "!") ≠ 0)
  | compare o _ _ => exact o.ne_word (by decide)

theorem length_words (p : Primary) : 2 ≤ p.words.length := by
  cases p with
  | empty _ => exact le_rfl
  | nonempty _ => exact le_rfl
  | compare _ _ _ => exact Nat.le_succ 2

/-- `do_test` gives 0 just for the conditions that it takes for true. -/
theorem doTest_taken (name : List UInt8) (c : Condition) : doTest (name :: c.words) = 0 ↔
    (c.neg ^^ c.rest.foldl (fun v r => r.1.apply v r.2.taken) c.first.taken) = true := by
  have hlen := length_words c.first
  have hloop : testLoop (c.first.words ++ c.rest.flatMap fun r => r.1.word :: r.2.words)
      ⟨-1, -1, -1⟩ =
        flag (c.rest.foldl (fun v r => r.1.apply v r.2.taken) c.first.taken = true) := by
    rw [testLoop_primary]
    exact testLoop_rest c.rest c.first.taken rfl
  have hargs : ¬(name :: c.words).length < 3 := by
    rw [Condition.words, List.length_cons, List.length_append, List.length_append]
    omega
  rw [doTest, if_neg hargs, List.drop_one, List.tail_cons, Condition.words]
  rcases c.neg with _ | _
  · have hfirst := first_ne_bang c.first (c.rest.flatMap fun r => r.1.word :: r.2.words)
    rw [if_neg Bool.false_ne_true, List.nil_append]
    dsimp only
    rw [if_neg hfirst, if_neg hfirst, hloop, Bool.false_xor]
    unfold flag
    split_ifs <;> simp_all
  · have hfirst : strcmp (ascii "!") (ascii "!") = 0 := by decide
    rw [if_pos rfl, List.singleton_append]
    dsimp only
    rw [List.headD_cons, if_pos hfirst, if_pos hfirst, List.drop_one, List.tail_cons, hloop,
      Bool.true_xor]
    unfold flag
    split_ifs <;> simp_all

/-- `do_test` gives 0 just for the conditions that are true, where those it takes amiss have no
effect. -/
theorem doTest_right_iff (name : List UInt8) (c : Condition) :
    (doTest (name :: c.words) = 0 ↔ c.value = true) ↔ c.Fits := by
  rw [doTest_taken, Condition.value, Condition.Fits, ← rest_right c.rest _ _ _ c.first.taken_iff,
    ← Bool.eq_iff_iff]
  exact Bool.xor_right_inj

/-- `test 3000000000 -gt 5` -/
theorem doTest_large : ¬∀ (name : List UInt8) (c : Condition),
    doTest (name :: c.words) = 0 ↔ c.value = true := by
  intro h
  have hlarge := h (ascii "test")
    ⟨false, .compare ⟨ascii "3000000000", by decide, by decide⟩ .numGt
      ⟨ascii "5", by decide, by decide⟩, []⟩
  revert hlarge
  decide

end Right

end InfotmUboot
