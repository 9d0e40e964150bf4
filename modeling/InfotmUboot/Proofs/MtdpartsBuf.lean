import InfotmUboot.Proofs.Mtdparts

/-!
# The buffer of `generate_mtdparts`

What is left of the buffer is counted from behind the nine bytes that the text begins with, so a
text that is up to nine bytes too long is written behind the buffer (`generate_mtdparts_right_iff`).
-/

namespace InfotmUboot

open Lib

section Copies

/-- The length of the pieces before the first that does not fit. -/
def fitting : ℕ → List (List UInt8) → ℕ
  | _, [] => 0
  | maxlen, s :: pieces =>
    if maxlen < s.length then 0 else s.length + fitting (maxlen - s.length) pieces

theorem fitting_le : ∀ (maxlen : ℕ) (pieces : List (List UInt8)),
    fitting maxlen pieces ≤ maxlen ∧ fitting maxlen pieces ≤ pieces.flatten.length
  | _, [] => ⟨Nat.zero_le _, Nat.zero_le _⟩
  | maxlen, s :: pieces => by
    obtain ⟨h1, h2⟩ := fitting_le (maxlen - s.length) pieces
    rw [fitting, List.flatten_cons, List.length_append]
    split_ifs <;> omega

theorem fitting_all : ∀ {maxlen : ℕ} {pieces : List (List UInt8)}, pieces.flatten.length ≤ maxlen →
    fitting maxlen pieces = pieces.flatten.length
  | _, [], _ => rfl
  | maxlen, s :: pieces, h => by
    rw [List.flatten_cons, List.length_append] at h ⊢
    rw [fitting, if_neg (by omega), fitting_all (by omega)]

theorem copyInto_eq : ∀ (maxlen : ℕ) (pieces : List (List UInt8)) (p : ℕ) (m : Mem),
    copyInto maxlen pieces p m = (decide (pieces.flatten.length ≤ maxlen),
      p + fitting maxlen pieces,
      m.store p (pieces.flatten.take (fitting maxlen pieces)))
  | maxlen, [], p, m => by simp [copyInto, fitting]
  | maxlen, s :: pieces, p, m => by
    rw [copyInto, fitting, List.flatten_cons, List.length_append]
    split_ifs with h
    · rw [decide_eq_false (by omega), Nat.add_zero, List.take_zero, Mem.store_nil]
    · rw [copyInto_eq, ← Mem.store_append, List.take_length_add_append, Nat.add_assoc]
      congr 1
      exact decide_eq_decide.2 (by omega)

end Copies

section Text

/-- The text of the devices. -/
def mtdpartsText (devices : List MtdDevice) : List UInt8 :=
  if devices = [] then [] else ascii "mtdparts=" ++ (devicesPieces devices).flatten

/-- No byte outside the buffer changes, and either the text is in it with its NUL or an error is
returned because it does not fit. -/
def GenerateRight (buflen : ℕ) (devices : List MtdDevice) : Prop :=
  ∀ buf m,
    let r := generateMtdpartsTo buf buflen devices m
    (∀ x, x < buf ∨ buf + buflen ≤ x → r.2 x = m x) ∧
      (r.1 ≠ 0 ↔ buflen < (mtdpartsText devices).length + 1) ∧
      (r.1 = 0 → Holds r.2 buf (mtdpartsText devices ++ [0]))

/-- The text fits; or it is too long by more than the nine bytes that it begins with, and so are not
the pieces of it that are copied before the first that does not fit. -/
def GenerateFits (buflen : ℕ) (devices : List MtdDevice) : Prop :=
  if devices = [] then 0 < buflen
  else
    let pieces := devicesPieces devices
    10 + pieces.flatten.length ≤ buflen ∨
      buflen ≤ pieces.flatten.length ∧ 10 ≤ buflen ∧ 9 + fitting (buflen - 1) pieces ≤ buflen

/-- Bytes over the last of those stored, and a last one. -/
theorem store_over_last (m : Mem) (a : ℕ) (bs cs : List UInt8) (b c : UInt8) :
    ((m.store a (bs ++ [b])).store (a + bs.length) cs).store (a + bs.length + cs.length) [c] =
      m.store a (bs ++ cs ++ [c]) := by
  rw [← Mem.store_append, List.append_assoc]
  rcases h : cs ++ [c] with _ | ⟨d, ds⟩
  · exact absurd h (List.append_ne_nil_of_right_ne_nil _ (List.cons_ne_nil c []))
  · exact Mem.store_over m a bs ds b d

/-- What the call does is to store a text and return. -/
theorem generate_cases (buflen : ℕ) (devices : List MtdDevice) :
    ∃ ret bs, (∀ buf m, generateMtdpartsTo buf buflen devices m = (ret, m.store buf bs)) ∧
      if devices = [] then ret = 0 ∧ bs = [0]
      else
        let pieces := devicesPieces devices
        let maxlen := toU32 (buflen - 1)
        if pieces.flatten.length ≤ maxlen then ret = 0 ∧ bs = mtdpartsText devices ++ [0]
        else ret = 1 ∧ bs.length = max 10 (9 + fitting maxlen pieces) := by
  by_cases hnil : devices = []
  · exact ⟨0, [0], fun buf m => by rw [generateMtdpartsTo, if_pos hnil], by
      rw [if_pos hnil]
      exact ⟨rfl, rfl⟩⟩
  simp only [if_neg hnil, generateMtdpartsTo, copyInto_eq, mtdpartsText]
  generalize devicesPieces devices = pieces
  generalize toU32 (buflen - 1) = maxlen
  have hpre : (ascii "mtdparts=").length = 9 := rfl
  have hlen : (pieces.flatten.take (fitting maxlen pieces)).length = fitting maxlen pieces := by
    rw [List.length_take, Nat.min_eq_left (fitting_le maxlen pieces).2]
  by_cases hfit : pieces.flatten.length ≤ maxlen
  · simp only [hfit, decide_true, if_true, fitting_all hfit, List.take_length]
    exact ⟨0, _, fun buf m => congrArg (Prod.mk 0) (store_over_last m buf _ _ 0 0), rfl, rfl⟩
  · simp only [hfit, decide_false, Bool.false_eq_true, if_false]
    rcases ht : pieces.flatten.take (fitting maxlen pieces) with _ | ⟨c, cs⟩ <;> rw [ht] at hlen
    · refine ⟨1, ascii "mtdparts=" ++ [0], fun buf m => by rw [Mem.store_nil], rfl, ?_⟩
      rw [List.length_append, hpre, ← hlen]
      rfl
    · refine ⟨1, ascii "mtdparts=" ++ c :: cs, fun buf m =>
        congrArg (Prod.mk 1) (Mem.store_over m buf _ cs 0 c), rfl, ?_⟩
      rw [List.length_append, hpre, hlen]
      rw [List.length_cons] at hlen
      omega

/-- Stored bytes stay inside a buffer if they are no more than it has. -/
theorem store_inside_iff {n : ℕ} {bs : List UInt8} :
    (∀ (a : ℕ) (m : Mem), ∀ x, x < a ∨ a + n ≤ x → m.store a bs x = m x) ↔ bs.length ≤ n := by
  constructor
  · intro h
    by_contra hlt
    have h0 := h 0 (fun _ => 0) n (Or.inr (by omega))
    have h1 := h 0 (fun _ => 1) n (Or.inr (by omega))
    rw [Mem.store_congr _ (fun _ => 1) (Nat.zero_le n) (by omega), h1] at h0
    exact absurd h0 (by decide)
  · intro h a m x hx
    rcases hx with hx | hx
    · exact Mem.store_of_lt _ _ hx
    · exact Mem.store_of_ge _ _ (by omega)

theorem mtdpartsText_length {devices : List MtdDevice} (h : devices ≠ []) :
    (mtdpartsText devices).length = 9 + (devicesPieces devices).flatten.length := by
  rw [mtdpartsText, if_neg h, List.length_append]
  rfl

/-- In terms of the text that is stored. -/
theorem generateRight_iff_stored {buflen ret : ℕ} {bs : List UInt8} {devices : List MtdDevice}
    (h : ∀ buf m, generateMtdpartsTo buf buflen devices m = (ret, m.store buf bs))
    (hbs : ret = 0 → bs = mtdpartsText devices ++ [0]) : GenerateRight buflen devices ↔
      bs.length ≤ buflen ∧ (ret ≠ 0 ↔ buflen < (mtdpartsText devices).length + 1) := by
  unfold GenerateRight
  simp only [h]
  constructor
  · intro hr
    exact ⟨store_inside_iff.1 fun a m => (hr a m).1, (hr 0 fun _ => 0).2.1⟩
  · rintro ⟨hlen, hret⟩ buf m
    exact ⟨store_inside_iff.2 hlen buf m, hret, fun h0 => hbs h0 ▸ holds_store m buf bs⟩

/-- The buffer is kept to and an error tells that the text does not fit, just when it fits or is too
long in every count. -/
theorem generate_mtdparts_right_iff {buflen : ℕ} (hb : buflen < 2 ^ 32) (devices : List MtdDevice) :
    GenerateRight buflen devices ↔ GenerateFits buflen devices := by
  obtain ⟨ret, bs, hcall, hcases⟩ := generate_cases buflen devices
  unfold GenerateFits
  by_cases hnil : devices = []
  · rw [if_pos hnil] at hcases ⊢
    obtain ⟨rfl, rfl⟩ := hcases
    have htext : mtdpartsText devices = [] := if_pos hnil
    rw [generateRight_iff_stored hcall fun _ => by rw [htext]; rfl, htext]
    simp only [List.length_nil, List.length_singleton]
    omega
  rw [if_neg hnil] at hcases ⊢
  have hlen := mtdpartsText_length hnil
  dsimp only at hcases ⊢
  rcases Nat.eq_zero_or_pos buflen with rfl | hpos
  · have hpos : 0 < bs.length := by
      split_ifs at hcases
      · rw [hcases.2, List.length_append]
        exact Nat.succ_pos _
      · omega
    rw [generateRight_iff_stored hcall (by
      split_ifs at hcases
      · exact fun _ => hcases.2
      · exact fun h => absurd (h.symm.trans hcases.1) (by decide))]
    omega
  · have hmax : toU32 ((buflen : ℤ) - 1) = buflen - 1 := by
      rw [show (buflen : ℤ) - 1 = (buflen - 1 : ℕ) by omega, toU32_natCast (by omega)]
    rw [hmax] at hcases
    split_ifs at hcases with hfit
    · obtain ⟨rfl, rfl⟩ := hcases
      rw [generateRight_iff_stored hcall fun _ => rfl, List.length_append, List.length_singleton,
        hlen]
      omega
    · obtain ⟨rfl, hbs⟩ := hcases
      rw [generateRight_iff_stored hcall (fun h => by cases h), hlen, hbs]
      omega

/-- A device with a partition `p` of 64 KiB. -/
def norDevice : MtdDevice :=
  ⟨⟨MTD_DEV_TYPE_NOR, 0, 0x10000, ascii "a", by decide⟩, 1,
    [⟨0, ascii "p", false, 0x10000, 0, 0, 0x10000⟩]⟩

theorem generate_mtdparts_right_short : GenerateRight 18 [norDevice] := by
  refine (generate_mtdparts_right_iff (by decide) [norDevice]).2 ?_
  rw [GenerateFits, if_neg (List.cons_ne_nil norDevice [])]
  exact Or.inl (by decide)

/-- Its text, `mtdparts=a:64k(p)`, has seventeen bytes, and is written with success into a buffer of
sixteen. -/
theorem generate_mtdparts_not_right : ¬∀ (buflen : ℕ) (devices : List MtdDevice), buflen < 2 ^ 32 →
    GenerateRight buflen devices := by
  intro h
  obtain ⟨-, hret, -⟩ := h 16 [norDevice] (by decide) 0 fun _ => 0
  exact absurd (hret.2 (by decide)) (by decide)

end Text

end InfotmUboot
