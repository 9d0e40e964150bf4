import InfotmUboot.Command
import InfotmUboot.Lib.Words

/-!
# The arguments of a line

`parse_line` finds the blank-separated words of a line (`parseArgs_finds`). The null pointer behind
the last argument is missing when the table is full and something follows in the line
(`parse_line_right_iff`).
-/

namespace InfotmUboot

open Lib

section Scan

variable {m : Mem}

theorem skipBlanks_eq : ∀ {bs : List UInt8} {n line : ℕ} {c : UInt8} {rest : List UInt8},
    Holds m line (bs ++ c :: rest) → (∀ b ∈ bs, isBlank b) → ¬isBlank c → bs.length < n →
    skipBlanks m n line = line + bs.length
  | _, 0, _, _, _, _, _, _, hn => absurd hn (Nat.not_lt_zero _)
  | [], n + 1, line, c, rest, h, _, hc, _ => by
    have hline : m line = c := (holds_cons.1 h).1
    rw [skipBlanks, hline, if_neg hc]
    rfl
  | b :: bs, n + 1, line, c, rest, h, hbs, hc, hn => by
    obtain ⟨hb, hrest⟩ := holds_cons.1 h
    rw [List.length_cons] at hn ⊢
    rw [skipBlanks, hb, if_pos (hbs b List.mem_cons_self),
      skipBlanks_eq hrest (fun d hd => hbs d (List.mem_cons_of_mem b hd)) hc (by omega)]
    omega

theorem argEnd_eq : ∀ {w : List UInt8} {n line : ℕ} {c : UInt8} {rest : List UInt8},
    Holds m line (w ++ c :: rest) → (∀ b ∈ w, b ≠ 0 ∧ ¬isBlank b) → c = 0 ∨ isBlank c →
    w.length < n → argEnd m n line = line + w.length
  | _, 0, _, _, _, _, _, _, hn => absurd hn (Nat.not_lt_zero _)
  | [], n + 1, line, c, rest, h, _, hc, _ => by
    have hline : m line = c := (holds_cons.1 h).1
    rw [argEnd, hline, if_neg fun h => hc.elim h.1 h.2]
    rfl
  | b :: w, n + 1, line, c, rest, h, hw, hc, hn => by
    obtain ⟨hb, hrest⟩ := holds_cons.1 h
    rw [List.length_cons] at hn ⊢
    rw [argEnd, hb, if_pos (hw b List.mem_cons_self),
      argEnd_eq hrest (fun d hd => hw d (List.mem_cons_of_mem b hd)) hc (by omega)]
    omega

end Scan

section Args

/-- The pointers and the terminated texts of arguments, from the slot `nargs` on. -/
def ArgsAt (base nargs : ℕ) (e : ParseEnd) (ts : List (ℕ × List UInt8)) : Prop :=
  ∀ j t, ts[j]? = some t →
    e.argv (nargs + j) = some (base + t.1) ∧ Holds e.mem (base + t.1) (t.2 ++ [0])

/-- There is room for more arguments than the text has, or the last one that there is room for ends
the text. -/
def LineFits (off room : ℕ) (text : List UInt8) : Prop :=
  (words isBlank off text).length < room ∨
    (words isBlank off text).length = room ∧ ∃ c, text.getLast? = some c ∧ ¬isBlank c

/-- What the rounds do with a text at `base + off` when they have `room` slots left. -/
structure ParseFinds (base off nargs room : ℕ) (text : List UInt8) (argv : Argv) (m : Mem)
    (e : ParseEnd) : Prop where
  nargs_eq : e.nargs = nargs + min room (words isBlank off text).length
  args : ArgsAt base nargs e ((words isBlank off text).take room)
  below : ∀ i < nargs, e.argv i = argv i
  above : ∀ i, nargs + room < i → e.argv i = argv i
  frame : ∀ a, a < base + off ∨ base + off + text.length ≤ a → e.mem a = m a
  null : LineFits off room text → e.argv e.nargs = none
  unset : ¬LineFits off room text → e.argv (nargs + room) = argv (nargs + room)

@[simp]
theorem Argv.set_self (argv : Argv) (i : ℕ) (p : Option ℕ) : argv.set i p i = p := if_pos rfl

theorem Argv.set_ne (argv : Argv) {i j : ℕ} (p : Option ℕ) (h : j ≠ i) : argv.set i p j = argv j :=
  if_neg h

theorem argsAt_nil (base nargs : ℕ) (e : ParseEnd) : ArgsAt base nargs e [] := by
  intro j t h
  rw [List.getElem?_nil] at h
  cases h

theorem argsAt_cons {base nargs : ℕ} {e : ParseEnd} {t : ℕ × List UInt8}
    {ts : List (ℕ × List UInt8)}
    (hptr : e.argv nargs = some (base + t.1)) (ht : Holds e.mem (base + t.1) (t.2 ++ [0]))
    (h : ArgsAt base (nargs + 1) e ts) : ArgsAt base nargs e (t :: ts) := by
  rintro (_ | j) t' hj
  · rw [List.getElem?_cons_zero, Option.some.injEq] at hj
    exact hj ▸ ⟨hptr, ht⟩
  · rw [List.getElem?_cons_succ] at hj
    have := h j t' hj
    rwa [Nat.add_assoc, Nat.add_comm 1] at this

/-- A text whose last byte is no blank has a word. -/
theorem words_ne_nil {text : List UInt8} {c : UInt8} (off : ℕ) (h : text.getLast? = some c)
    (hc : ¬isBlank c) : words isBlank off text ≠ [] := by
  obtain ⟨bs, rest, rfl, hbs, rfl | ⟨w, rest', hw, hword, rfl, rfl | ⟨b, rest'', rfl, hb⟩⟩⟩ :=
    words_split isBlank text
  · rw [List.append_nil] at h
    exact absurd (hbs c (List.mem_of_getLast? h)) hc
  · rw [words_sep off _ hbs, List.append_nil, words_last _ hw hword]
    exact List.cons_ne_nil _ _
  · rw [words_sep off _ hbs, words_cons _ _ hw hword hb]
    exact List.cons_ne_nil _ _

/-- Behind a word and its separator one slot less is left. -/
theorem lineFits_cons {bs w : List UInt8} {b : UInt8} (off room : ℕ) (rest : List UInt8)
    (hbs : ∀ c ∈ bs, isBlank c) (hw : w ≠ []) (hword : ∀ c ∈ w, ¬isBlank c) (hb : isBlank b) :
    LineFits off (room + 1) (bs ++ (w ++ b :: rest)) ↔
      LineFits (off + bs.length + w.length + 1) room rest := by
  unfold LineFits
  rw [words_sep off _ hbs, words_cons _ _ hw hword hb, List.length_cons, Nat.add_lt_add_iff_right,
    Nat.add_right_cancel_iff]
  refine or_congr Iff.rfl (and_congr_right fun _ => exists_congr fun c => and_congr_left fun hc =>
    ?_)
  rcases List.eq_nil_or_concat rest with rfl | ⟨rest, d, rfl⟩
  · have hlast : (bs ++ (w ++ [b])).getLast? = some b := by
      rw [← List.append_assoc, List.getLast?_concat]
    rw [hlast]
    refine iff_of_false (fun h => hc (Option.some.inj h ▸ hb)) fun h => ?_
    cases h
  · have hlast : (bs ++ (w ++ b :: (rest ++ [d]))).getLast? = some d := by
      rw [show bs ++ (w ++ b :: (rest ++ [d])) = (bs ++ (w ++ b :: rest)) ++ [d] by simp,
        List.getLast?_concat]
    rw [List.concat_eq_append, hlast, List.getLast?_concat]

variable {n : ℕ}

theorem parseArgs_finds (base : ℕ) : ∀ (room off nargs : ℕ) {text : List UInt8} (argv : Argv)
    {m : Mem}, Holds m (base + off) (text ++ [0]) → (∀ c ∈ text, c ≠ 0) → text.length < n →
    ParseFinds base off nargs room text argv m (parseArgs n room nargs (base + off) argv m)
  | 0, off, nargs, text, argv, m, h, h0, hn => by
    rw [parseArgs]
    refine ⟨?_, argsAt_nil _ _ _, fun _ _ => rfl, fun _ _ => rfl, fun _ _ => rfl, ?_, fun _ => rfl⟩
    · rw [Nat.zero_min]
      rfl
    · rintro (hlt | ⟨hlen, c, hlast, hc⟩)
      · exact absurd hlt (Nat.not_lt_zero _)
      · exact absurd (List.eq_nil_of_length_eq_zero hlen) (words_ne_nil off hlast hc)
  | room + 1, off, nargs, text, argv, m, h, h0, hn => by
    have hnul : ¬isBlank 0 := by decide
    rw [parseArgs]
    obtain ⟨bs, rest, rfl, hbs, rfl | ⟨w, rest', hw, hword, rfl, hrest'⟩⟩ :=
      words_split isBlank text
    · -- only blanks are left
      rw [List.append_nil] at h h0 hn ⊢
      have hskip := skipBlanks_eq h hbs hnul hn
      have hend : m (base + off + bs.length) = 0 := (holds_cons.1 (holds_append.1 h).2).1
      have hwords : words isBlank off bs = [] := by
        have := words_sep off [] hbs
        rwa [List.append_nil] at this
      dsimp only
      rw [hskip, if_pos hend]
      refine ⟨?_, ?_, fun i hi => Argv.set_ne _ _ (by omega), fun i hi =>
        Argv.set_ne _ _ (by omega),
        fun _ _ => rfl, fun _ => Argv.set_self _ _ _, fun hfit => absurd (Or.inl ?_) hfit⟩
      · rw [hwords, List.length_nil, Nat.min_zero]
        rfl
      · rw [hwords, List.take_nil]
        exact argsAt_nil _ _ _
      · rw [hwords, List.length_nil]
        exact Nat.succ_pos room
    have hassoc := List.append_assoc bs (w ++ rest') [0]
    rw [hassoc, List.append_assoc] at h
    obtain ⟨c, w, rfl⟩ := List.exists_cons_of_ne_nil hw
    have hlen : (bs ++ (c :: w ++ rest')).length = bs.length + (c :: w).length + rest'.length := by
      rw [List.length_append, List.length_append, Nat.add_assoc]
    have hskip : skipBlanks m n (base + off) = base + off + bs.length := by
      rw [List.cons_append] at h
      exact skipBlanks_eq h hbs (hword c List.mem_cons_self) (by omega)
    have hline : m (base + off + bs.length) ≠ 0 := by
      rw [(holds_cons.1 (holds_append.1 h).2).1]
      exact h0 c (by simp)
    have hchars : ∀ b ∈ c :: w, b ≠ 0 ∧ ¬isBlank b := fun b hb =>
      ⟨h0 b (List.mem_append_right _ (List.mem_append_left _ hb)), hword b hb⟩
    have htext := (holds_append.1 h).2
    generalize c :: w = w at hw hword hchars htext hlen h0 hn ⊢
    dsimp only
    rw [hskip, if_neg hline]
    rcases hrest' with rfl | ⟨b, rest, rfl, hb⟩
    · -- the word ends the text
      have hend : argEnd m n (base + off + bs.length) = base + off + bs.length + w.length :=
        argEnd_eq htext hchars (Or.inl rfl) (by omega)
      have hnul : m (base + off + bs.length + w.length) = 0 :=
        (holds_cons.1 (holds_append.1 htext).2).1
      have hwords : words isBlank off (bs ++ (w ++ [])) = [(off + bs.length, w)] := by
        rw [words_sep off _ hbs, List.append_nil, words_last _ hw hword]
      rw [hend, if_pos hnul]
      refine ⟨?_, ?_, fun i hi => ?_, fun i hi => ?_, fun _ _ => rfl, fun _ => Argv.set_self _ _ _,
        fun hfit => absurd ?_ hfit⟩
      · rw [hwords, List.length_singleton, Nat.min_eq_right (by omega)]
      · rw [hwords, List.take_succ_cons, List.take_nil]
        refine argsAt_cons ?_ ?_ (argsAt_nil _ _ _)
        · dsimp only
          rw [Argv.set_ne _ _ (by omega), Argv.set_self, Nat.add_assoc]
        · rw [List.nil_append] at htext
          rw [← Nat.add_assoc]
          exact htext
      · dsimp only
        rw [Argv.set_ne _ _ (by omega), Argv.set_ne _ _ (by omega)]
      · dsimp only
        rw [Argv.set_ne _ _ (by omega), Argv.set_ne _ _ (by omega)]
      · rcases Nat.eq_zero_or_pos room with rfl | hroom
        · refine Or.inr ⟨by rw [hwords]; rfl, w.getLast hw, ?_, hword _ (List.getLast_mem hw)⟩
          rw [List.append_nil, List.getLast?_append_of_ne_nil _ hw,
            List.getLast?_eq_getLast_of_ne_nil hw]
        · exact Or.inl (by rw [hwords, List.length_singleton]; omega)
    · -- a word and the blank that is overwritten
      have hend : argEnd m n (base + off + bs.length) = base + off + bs.length + w.length :=
        argEnd_eq htext hchars (Or.inr hb) (by omega)
      have hsep : m (base + off + bs.length + w.length) = b :=
        (holds_cons.1 (holds_append.1 htext).2).1
      have hbne : m (base + off + bs.length + w.length) ≠ 0 := hsep ▸ h0 b (by simp)
      rw [hend, if_neg hbne]
      have hnext : base + off + bs.length + w.length + 1 =
          base + (off + bs.length + w.length + 1) := by omega
      have hlen' : (b :: rest).length = rest.length + 1 := List.length_cons
      have hrest : Holds (m.store (base + off + bs.length + w.length) [0])
          (base + (off + bs.length + w.length + 1)) (rest ++ [0]) := by
        rw [← hnext]
        exact ((holds_cons.1 (holds_append.1 htext).2).2).store (Or.inr (by simp))
      have ih := parseArgs_finds base room (off + bs.length + w.length + 1) (nargs + 1)
        (argv.set nargs (some (base + off + bs.length))) hrest
        (fun c hc => h0 c (by simp [hc])) (by omega)
      have hwords : words isBlank off (bs ++ (w ++ b :: rest)) =
          (off + bs.length, w) :: words isBlank (off + bs.length + w.length + 1) rest := by
        rw [words_sep off _ hbs, words_cons _ _ hw hword hb]
      have hfits := lineFits_cons off room rest hbs hw hword hb
      rw [hnext]
      refine ⟨?_, ?_, fun i hi => ?_, fun i hi => ?_, fun a ha => ?_,
        fun hfit => ih.null (hfits.1 hfit), fun hfit => ?_⟩
      · rw [ih.nargs_eq, hwords, List.length_cons]
        omega
      · rw [hwords, List.take_succ_cons]
        refine argsAt_cons ?_ ?_ ih.args
        · rw [ih.below nargs (Nat.lt_succ_self _), Argv.set_self, Nat.add_assoc]
        · refine Holds.congr (m := m.store (base + off + bs.length + w.length) [0]) ?_
            fun a h1 h2 =>
            ih.frame a (Or.inl (by simp at h2; omega))
          refine holds_append.2 ⟨?_, ?_⟩
          · rw [← Nat.add_assoc]
            exact (holds_append.1 htext).1.store (Or.inl (by omega))
          · rw [← Nat.add_assoc]
            exact holds_store _ _ _
      · rw [ih.below i (by omega), Argv.set_ne _ _ (by omega)]
      · rw [ih.above i (by omega), Argv.set_ne _ _ (by omega)]
      · rw [ih.frame a (by omega)]
        exact if_neg (by simp; omega)
      · have := ih.unset (fun h => hfit (hfits.2 h))
        rw [Argv.set_ne _ _ (by omega)] at this
        rwa [show nargs + (room + 1) = nargs + 1 + room by omega]

end Args

section Right

variable (maxargs : ℕ) (text : List UInt8)

/-- On a line that holds the text, the pointers to the first `maxargs` words are stored, each word
is ended by a NUL, their number is returned and a null pointer follows the last of them; no slot
behind `argv[maxargs]` and no byte outside the line is written. -/
def ParseRight : Prop :=
  ∀ (m : Mem) (line : ℕ) (argv : Argv), Holds m line (text ++ [0]) →
    let e := Command.parseLine m maxargs (text.length + 1) line argv
    e.nargs = min maxargs (words isBlank 0 text).length ∧
      ArgsAt line 0 e ((words isBlank 0 text).take maxargs) ∧ e.argv e.nargs = none ∧
      (∀ i > maxargs, e.argv i = argv i) ∧
      ∀ a, a < line ∨ line + text.length ≤ a → e.mem a = m a

variable {text} (h0 : ∀ c ∈ text, c ≠ 0)
include h0

theorem parseLine_finds {m : Mem} {line : ℕ} (argv : Argv) (h : Holds m line (text ++ [0])) :
    ParseFinds line 0 0 maxargs text argv m
      (Command.parseLine m maxargs (text.length + 1) line argv) :=
  parseArgs_finds line maxargs 0 0 argv h h0 (Nat.lt_succ_self _)

/-- The table of arguments is right unless it is full before the line ends. -/
theorem parse_line_right_iff : ParseRight maxargs text ↔ LineFits 0 maxargs text := by
  constructor
  · intro h
    have hholds := holds_store (fun _ => 0) 0 (text ++ [0])
    have hfinds := parseLine_finds maxargs h0 (fun _ => some 0) hholds
    obtain ⟨hnargs, -, hnull, -⟩ := h _ 0 (fun _ => some 0) hholds
    by_contra hfit
    have hlen : maxargs ≤ (words isBlank 0 text).length := Nat.not_lt.1 fun h => hfit (Or.inl h)
    have hunset := hfinds.unset hfit
    rw [Nat.zero_add] at hunset
    rw [hnargs, Nat.min_eq_left hlen, hunset] at hnull
    cases hnull
  · intro hfit m line argv h
    have hfinds := parseLine_finds maxargs h0 argv h
    refine ⟨?_, hfinds.args, hfinds.null hfit, fun i hi => hfinds.above i (by omega), hfinds.frame⟩
    rw [hfinds.nargs_eq, Nat.zero_add]

omit h0

/-- `a b`, with room for three arguments -/
theorem parse_line_right_two :
    ParseRight 3 [0x61, 0x20, 0x62] ↔ LineFits 0 3 [0x61, 0x20, 0x62] :=
  parse_line_right_iff 3 (by simp)

/-- With room for one, the blank behind `a` ends the argument and the null pointer is missing. -/
theorem parse_line_not_right : ¬∀ (maxargs : ℕ) (text : List UInt8), (∀ c ∈ text, c ≠ 0) →
    ParseRight maxargs text := by
  intro h
  obtain ⟨-, -, hnull, -⟩ := h 1 [0x61, 0x20] (by simp) (Mem.store (fun _ => 0) 0 [0x61, 0x20, 0]) 0
    (fun _ => some 0) (holds_store _ _ _)
  exact absurd hnull (by decide)

end Right

end InfotmUboot
