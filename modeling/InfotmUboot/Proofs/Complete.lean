import InfotmUboot.Complete
import Mathlib.Data.List.TakeWhile

/-!
# What a completion makes of a line

The candidates stand for the last word of the line, but what is appended is what is behind as many
characters as the last argument has. `autoRight_iff` says when that is the same, or nothing is
appended.
-/

namespace InfotmUboot

open Lib

section Words

/-- What is behind the last blank. -/
def lastWord (line : List UInt8) : List UInt8 :=
  (line.reverse.takeWhile fun c => ¬isBlank c).reverse

/-- The line up to its last word. -/
def beforeWord (line : List UInt8) : List UInt8 :=
  (line.reverse.dropWhile fun c => ¬isBlank c).reverse

theorem beforeWord_append (line : List UInt8) : beforeWord line ++ lastWord line = line := by
  rw [beforeWord, lastWord, ← List.reverse_append, List.takeWhile_append_dropWhile,
    List.reverse_reverse]

/-- The text ends with a blank or is empty. -/
def EndsBlank (s : List UInt8) : Prop := isSpace s.getLast? = true

theorem endsBlank_append {s t : List UInt8} (ht : t ≠ []) : EndsBlank (s ++ t) ↔ EndsBlank t := by
  rw [EndsBlank, EndsBlank, List.getLast?_append_of_ne_nil _ ht]

theorem endsBlank_of_blank {s : List UInt8} (h : ∀ c ∈ s, isBlank c = true) : EndsBlank s := by
  rw [EndsBlank]
  rcases hs : s.getLast? with _ | c
  · rfl
  · exact h c (List.mem_of_getLast? hs)

theorem lastWord_eq {f w : List UInt8} (hf : EndsBlank f) (hw : ∀ c ∈ w, ¬isBlank c) :
    lastWord (f ++ w) = w := by
  have hnil : (f.reverse.takeWhile fun c => ¬isBlank c) = [] := by
    rw [EndsBlank, ← List.head?_reverse] at hf
    rcases hr : f.reverse with _ | ⟨c, cs⟩
    · rfl
    · rw [hr] at hf
      exact List.takeWhile_cons_of_neg (by simpa [isSpace] using hf)
  rw [lastWord, List.reverse_append, List.takeWhile_append_of_pos (by simpa using hw), hnil,
    List.append_nil, List.reverse_reverse]

/-- A line is blanks, or blanks, a word, and a blank and a line, or nothing. -/
theorem makeArgv_cases (room : ℕ) (s : List UInt8) :
    makeArgv (room + 1) s = [] ∧ (∀ c ∈ s, isBlank c = true) ∨
    ∃ bl arg rest, s = bl ++ (arg ++ rest) ∧ (∀ c ∈ bl, isBlank c = true) ∧ arg ≠ []
      ∧ (∀ c ∈ arg, ¬isBlank c) ∧ (rest = [] ∧ makeArgv (room + 1) s = [arg]
        ∨ ∃ b t, rest = b :: t ∧ isBlank b = true
          ∧ makeArgv (room + 1) s = arg :: makeArgv room t) := by
  rw [makeArgv]
  by_cases hs : s.dropWhile isBlank = []
  · exact .inl ⟨if_pos hs, List.dropWhile_eq_nil_iff.1 hs⟩
  · rw [if_neg hs]
    have hword := List.takeWhile_append_dropWhile (p := fun c => ¬isBlank c)
      (l := s.dropWhile isBlank)
    refine .inr ⟨s.takeWhile isBlank, (s.dropWhile isBlank).takeWhile fun c => ¬isBlank c,
      (s.dropWhile isBlank).dropWhile fun c => ¬isBlank c, ?_, fun c hc =>
        List.mem_takeWhile_imp hc,
      ?_, fun c hc => by simpa using List.mem_takeWhile_imp hc, ?_⟩
    · rw [hword, List.takeWhile_append_dropWhile]
    · have hhead := List.head_dropWhile_not isBlank hs
      obtain ⟨c, cs, hcs⟩ := List.exists_cons_of_ne_nil hs
      simp only [hcs, List.head_cons] at hhead
      rw [hcs, List.takeWhile_cons_of_pos (by simpa using hhead)]
      simp
    · rcases hrest : (s.dropWhile isBlank).dropWhile fun c => ¬isBlank c with _ | ⟨b, t⟩
      · exact .inl ⟨rfl, rfl⟩
      · refine .inr ⟨b, t, rfl, ?_, rfl⟩
        have hb := List.head_dropWhile_not (fun c => decide ¬isBlank c)
          (show (s.dropWhile isBlank).dropWhile _ ≠ [] by rw [hrest]; simp)
        simp only [hrest, List.head_cons] at hb
        simpa using hb

/-- The arguments are not empty. -/
theorem makeArgv_ne_nil : ∀ {room : ℕ} {s a : List UInt8}, a ∈ makeArgv room s → a ≠ []
  | 0, _, a, ha => by simp [makeArgv] at ha
  | room + 1, s, a, ha => by
    obtain ⟨h, -⟩ | ⟨bl, arg, rest, -, -, hne, -, ⟨-, h⟩ | ⟨b, t, -, -, h⟩⟩ := makeArgv_cases room s
    · simp [h] at ha
    · rw [h, List.mem_singleton] at ha
      exact ha ▸ hne
    · rw [h, List.mem_cons] at ha
      rcases ha with rfl | ha
      · exact hne
      · exact makeArgv_ne_nil ha

/-- Where there is room for all arguments, the last of a line that ends in one is its last word. -/
theorem makeArgv_last : ∀ {room : ℕ} {s : List UInt8}, ¬EndsBlank s →
    (makeArgv room s).length < room →
    ∃ f w, s = f ++ w ∧ EndsBlank f ∧ (∀ c ∈ w, ¬isBlank c) ∧ (makeArgv room s).getLast? = some w
  | 0, _, _, hroom => absurd hroom (Nat.not_lt_zero _)
  | room + 1, s, hend, hroom => by
    obtain ⟨-, h⟩ | ⟨bl, arg, rest, rfl, hbl, hne, harg, ⟨rfl, h⟩ | ⟨b, t, rfl, hb, h⟩⟩ :=
      makeArgv_cases room s
    · exact absurd (endsBlank_of_blank h) hend
    · refine ⟨bl, arg, by rw [List.append_nil], endsBlank_of_blank hbl, harg, ?_⟩
      rw [h]
      rfl
    · have ht : ¬EndsBlank t := fun ht => hend (by
        rw [← List.append_assoc, endsBlank_append (List.cons_ne_nil b t)]
        rcases t with _ | ⟨c, t⟩
        · exact hb
        · rw [← List.singleton_append, endsBlank_append (List.cons_ne_nil c t)]
          exact ht)
      rw [h, List.length_cons] at hroom
      obtain ⟨f, w, rfl, hf, hw, hlast⟩ := makeArgv_last ht
        (show (makeArgv room t).length < room by omega)
      refine ⟨bl ++ (arg ++ b :: f), w, by simp, ?_, hw, ?_⟩
      · rw [← List.append_assoc, endsBlank_append (List.cons_ne_nil b f)]
        rcases f with _ | ⟨c, f⟩
        · exact hb
        · rw [← List.singleton_append, endsBlank_append (List.cons_ne_nil c f)]
          exact hf
      · rw [h, List.getLast?_cons, hlast]
        rfl

theorem makeArgv_lastWord {room : ℕ} {s : List UInt8} (hend : ¬EndsBlank s)
    (hroom : (makeArgv room s).length < room) :
    (makeArgv room s).getLast? = some (lastWord s) := by
  obtain ⟨f, w, rfl, hf, hw, hlast⟩ := makeArgv_last hend hroom
  rw [hlast, lastWord_eq hf hw]

theorem lastWord_of_endsBlank {s : List UInt8} (h : EndsBlank s) : lastWord s = [] := by
  simpa using lastWord_eq (w := []) h (by simp)

end Words

section Prefixes

theorem sameLen_eq : ∀ (len : ℕ) (s t : List UInt8), sameLen len s t =
    (pairPrefix (s.take len) t).length
  | 0, s, t => by simp [sameLen, pairPrefix]
  | len + 1, [], t => by simp [sameLen, pairPrefix]
  | len + 1, a :: s, [] => by simp [sameLen, pairPrefix]
  | len + 1, a :: s, b :: t => by
    have ih := sameLen_eq len s t
    rw [sameLen, List.take_succ_cons, pairPrefix]
    by_cases h : a = b
    · rw [if_neg (not_not.2 h.symm), if_pos h, ih, List.length_cons]
    · rw [if_pos (Ne.symm h), if_neg h, List.length_nil]

theorem foldl_sameLen {anchor : List UInt8} : ∀ (ts : List (List UInt8)) {p : List UInt8},
    p <+: anchor → ts.foldl (fun len t => sameLen len anchor t) p.length =
      (ts.foldl pairPrefix p).length
  | [], _, _ => rfl
  | t :: ts, p, hp => by
    have hstep : sameLen p.length anchor t = (pairPrefix p t).length := by
      rw [sameLen_eq, ← List.prefix_iff_eq_take.1 hp]
    rw [List.foldl_cons, List.foldl_cons, hstep]
    exact foldl_sameLen ts ((pairPrefix_left p t).trans hp)

theorem findCommonPrefix_eq (ts : List (List UInt8)) :
    findCommonPrefix ts = (commonPrefix ts).length := by
  rcases ts with _ | ⟨t, ts⟩
  · rfl
  · exact foldl_sameLen ts (List.prefix_refl t)

end Prefixes

section Line

variable (C : Console) (prompt : List UInt8)

/-- A line of the console. -/
structure ConsoleLine where
  text : List UInt8
  short : text.length < CBSIZE

variable (line : ConsoleLine)

def ConsoleLine.argv : List (List UInt8) := makeArgv 16 line.text

/-- What `complete_cmdv` gives for the line. -/
def candidates : List (List UInt8) := completeCmdv C line.argv line.text.getLast? 20

/-- The blank behind the only candidate. -/
def blankBehind : List UInt8 := if (candidates C line).length = 1 then [0x20] else []

/-- The line is completed without a read elsewhere, it stays short, and what is appended makes its
last word what all candidates begin with. -/
def AutoRight : Prop :=
  ∀ col, ∃ e, cmdAutoComplete C prompt line.text line.text.length col = some e
    ∧ e.buf.length < CBSIZE ∧ (e.buf = line.text
      ∨ e.buf = beforeWord line.text ++ (commonPrefix (candidates C line) ++ blankBehind C line))

/-- Nothing is appended where several candidates have no more in common than the last argument has
characters, or where it would not fit. -/
def Unextended (last : List UInt8) : Prop :=
  1 < (candidates C line).length ∧ (commonPrefix (candidates C line)).length ≤ last.length ∨
    CBSIZE - 2 ≤ line.text.length + ((commonPrefix (candidates C line)).length - last.length
      + (blankBehind C line).length)

/-- Where there are candidates: of a line without an argument there are several, with nothing in
common; or an only candidate is not shorter than the last argument, and nothing is appended or the
line ends with an argument that the candidates begin with. -/
def AutoClear : Prop :=
  prompt = C.prompt → candidates C line ≠ [] →
    match line.argv.getLast? with
    | none => 1 < (candidates C line).length ∧ commonPrefix (candidates C line) = []
    | some last =>
      ((candidates C line).length = 1 → last.length ≤ (commonPrefix (candidates C line)).length) ∧
        (Unextended C line last ∨
          ¬EndsBlank line.text ∧ last <+: commonPrefix (candidates C line))

variable {C prompt line}

/-- Where there are candidates there are at most two arguments. -/
theorem argv_short (h : candidates C line ≠ []) : line.argv.length ≤ 2 := by
  unfold candidates completeCmdv at h
  rcases hargv : line.argv with _ | ⟨cmd, args⟩
  · simp
  · rw [hargv] at h
    dsimp only at h
    by_cases hmany : 2 < (cmd :: args).length
    · have hvar : varComplete C.env (cmd :: args) line.text.getLast? 20 = [] := by
        rw [varComplete, if_neg (fun h1 => by omega), if_neg (fun h2 => by omega)]
      rw [if_pos (.inl (by omega)), hvar] at h
      rcases hfind : findCmdTbl CmdTbl.name cmd C.table with _ | c <;> simp [hfind] at h
    · omega

/-- What is behind as many characters as the last argument has completes the last word if and only
if the line ends with the argument, and it is what they begin with. -/
theorem completes_iff {p last : List UInt8} (hlast : line.argv.getLast? = some last)
    (hshort : line.argv.length ≤ 2) (hle : last.length ≤ p.length) (sep : List UInt8) :
    line.text ++ p.drop last.length ++ sep = beforeWord line.text ++ (p ++ sep) ↔
      ¬EndsBlank line.text ∧ last <+: p := by
  have hword : line.text ++ p.drop last.length ++ sep = beforeWord line.text ++ (p ++ sep) ↔
      lastWord line.text ++ p.drop last.length = p := by
    have hsplit := beforeWord_append line.text
    generalize beforeWord line.text = f at hsplit ⊢
    generalize lastWord line.text = w at hsplit ⊢
    rw [← hsplit, List.append_assoc, List.append_assoc, List.append_cancel_left_eq,
      ← List.append_assoc, List.append_cancel_right_eq]
  rw [hword]
  have hne : last ≠ [] := makeArgv_ne_nil (List.mem_of_getLast? hlast)
  by_cases hend : EndsBlank line.text
  · rw [lastWord_of_endsBlank hend, List.nil_append]
    refine iff_of_false (fun h => hne (List.length_eq_zero_iff.1 ?_)) fun h => h.1 hend
    have hlen := congrArg List.length h
    rw [List.length_drop] at hlen
    omega
  · have hroom : (makeArgv 16 line.text).length < 16 := Nat.lt_of_le_of_lt hshort (by omega)
    have hw := makeArgv_lastWord hend hroom
    have heq : lastWord line.text = last := Option.some.inj (hw.symm.trans hlast)
    rw [heq, and_iff_right hend, List.prefix_iff_eq_append]

/-- What is appended is right if and only if it does not fit or completes the last word. -/
theorem autoAppend_iff {s sep want : List UInt8} (hne : s ++ sep ≠ []) (col : ℕ) :
    (∃ e, some (autoAppend line.text line.text.length col s sep) = some e ∧ e.buf.length < CBSIZE
      ∧ (e.buf = line.text ∨ e.buf = want)) ↔
    CBSIZE - 2 ≤ line.text.length + (s.length + sep.length) ∨ line.text ++ s ++ sep = want := by
  have hshort := line.short
  unfold autoAppend
  by_cases hfit : CBSIZE - 2 ≤ line.text.length + (s.length + sep.length)
  · rw [if_pos hfit]
    exact iff_of_true ⟨_, rfl, hshort, .inl rfl⟩ (.inl hfit)
  · rw [if_neg hfit]
    have hlong : line.text ++ s ++ sep ≠ line.text := fun h => hne (by
      rw [List.append_assoc] at h
      exact List.append_right_eq_self.1 h)
    simp only [Option.some.injEq, exists_eq_left', hlong, false_or, hfit, and_iff_right_iff_imp]
    intro
    simp only [List.length_append]
    omega

section Calls

variable (hp : prompt = C.prompt) (col : ℕ)

include hp

theorem auto_nil (hc : candidates C line = []) :
    ∃ e, cmdAutoComplete C prompt line.text line.text.length col = some e ∧ e.buf = line.text := by
  have hcmd : completeCmdv C (makeArgv 16 line.text) line.text.getLast? 20 = [] := hc
  rw [cmdAutoComplete, if_neg (not_not.2 hp)]
  dsimp only
  rw [hcmd]
  refine ⟨_, rfl, ?_⟩
  split_ifs <;> rfl

theorem auto_one {cand : List UInt8} (hc : candidates C line = [cand]) :
    cmdAutoComplete C prompt line.text line.text.length col = line.argv.getLast?.bind fun last =>
      if cand.length < last.length then none
      else some (autoAppend line.text line.text.length col (cand.drop last.length) [0x20]) := by
  have hcmd : completeCmdv C (makeArgv 16 line.text) line.text.getLast? 20 = [cand] := hc
  rw [cmdAutoComplete, if_neg (not_not.2 hp)]
  dsimp only
  rw [hcmd]
  rfl

/-- What is appended of the first of several candidates is what they have in common. -/
theorem auto_many {a b : List UInt8} {cs : List (List UInt8)}
    (hc : candidates C line = a :: b :: cs) :
    ∃ e : AutoEnd, e.buf = line.text ∧
    cmdAutoComplete C prompt line.text line.text.length col =
      if commonPrefix (candidates C line) = [] then some e
      else line.argv.getLast?.bind fun last =>
        if (commonPrefix (candidates C line)).length ≤ last.length then some e
        else some (autoAppend line.text line.text.length col
          ((commonPrefix (candidates C line)).drop last.length) []) := by
  have hcmd : completeCmdv C (makeArgv 16 line.text) line.text.getLast? 20 = a :: b :: cs := hc
  have hj : findCommonPrefix (a :: b :: cs) = (commonPrefix (candidates C line)).length := by
    rw [findCommonPrefix_eq, hc]
  have hpre : commonPrefix (candidates C line) <+: a :=
    commonPrefix_prefix (by rw [hc]; exact List.mem_cons_self)
  obtain ⟨r, hr⟩ := hpre
  refine ⟨⟨1, line.text, line.text.length, col, [.argv (a :: b :: cs), .puts prompt,
    .puts line.text]⟩,
    rfl, ?_⟩
  rw [cmdAutoComplete, if_neg (not_not.2 hp)]
  dsimp only
  rw [hcmd]
  dsimp only
  rw [hj]
  by_cases hnil : commonPrefix (candidates C line) = []
  · rw [if_pos hnil, if_pos (List.length_eq_zero_iff.2 hnil)]
  · rw [if_neg hnil, if_neg (mt List.length_eq_zero_iff.1 hnil)]
    have hargv : (makeArgv 16 line.text).getLast? = line.argv.getLast? := rfl
    rw [hargv]
    rcases line.argv.getLast? with _ | last
    · rfl
    · by_cases hle : (commonPrefix (candidates C line)).length ≤ last.length
      · simp [hle]
      · have htake : (a.drop last.length).take ((commonPrefix (candidates C line)).length
            - last.length) = (commonPrefix (candidates C line)).drop last.length := by
          rw [← hr, List.drop_append_of_le_length (by omega), List.take_left' (by simp)]
        simp [hle, htake]

end Calls

/-- The line is left as it is. -/
theorem kept_right {e : AutoEnd} (he : e.buf = line.text) :
    ∃ e', some e = some e' ∧ e'.buf.length < CBSIZE ∧ (e'.buf = line.text ∨
      e'.buf = beforeWord line.text ++ (commonPrefix (candidates C line) ++ blankBehind C line)) :=
  ⟨e, rfl, he ▸ line.short, .inl he⟩

/-- What is right of an only candidate. -/
theorem autoRight_one (hp : prompt = C.prompt) {cand : List UInt8}
    (hc : candidates C line = [cand]) : AutoRight C prompt line ↔ AutoClear C prompt line := by
  have hone : (candidates C line).length = 1 := by rw [hc]; rfl
  have hcommon : commonPrefix (candidates C line) = cand := by rw [hc]; rfl
  have hblank : blankBehind C line = [0x20] := if_pos hone
  have hne : candidates C line ≠ [] := by rw [hc]; exact List.cons_ne_nil _ _
  rw [AutoClear, forall_prop_of_true hp, forall_prop_of_true hne, AutoRight]
  simp only [auto_one hp _ hc, hone, hcommon, hblank, Unextended]
  rcases hlast : line.argv.getLast? with _ | last
  · simp
  · simp only [Option.bind_some]
    by_cases hle : cand.length < last.length
    · simp [hle, Nat.not_le.2 hle]
    · have hlong : last.length ≤ cand.length := Nat.not_lt.1 hle
      simp only [if_neg hle, autoAppend_iff (show cand.drop last.length ++
        [(0x20 : UInt8)] ≠ [] by simp),
        forall_const, completes_iff hlast (argv_short hne) hlong]
      simp [hlong]

/-- What is right of several candidates. -/
theorem autoRight_many (hp : prompt = C.prompt) {a b : List UInt8} {cs : List (List UInt8)}
    (hc : candidates C line = a :: b :: cs) :
    AutoRight C prompt line ↔ AutoClear C prompt line := by
  have hmany : 1 < (candidates C line).length := by rw [hc]; simp
  have hne : candidates C line ≠ [] := by rw [hc]; exact List.cons_ne_nil _ _
  have hblank : blankBehind C line = [] := if_neg (by omega)
  rw [AutoClear, forall_prop_of_true hp, forall_prop_of_true hne]
  by_cases hnil : commonPrefix (candidates C line) = []
  · refine iff_of_true (fun col => ?_) ?_
    · obtain ⟨e, he, heq⟩ := auto_many hp col hc
      rw [heq, if_pos hnil]
      exact kept_right he
    · rcases line.argv.getLast? with _ | last
      · exact ⟨hmany, hnil⟩
      · exact ⟨fun h => by omega, .inl (.inl ⟨hmany, by rw [hnil]; exact Nat.zero_le _⟩)⟩
  · rcases hlast : line.argv.getLast? with _ | last
    · refine iff_of_false (fun h => ?_) fun h => hnil h.2
      obtain ⟨e, -, heq⟩ := auto_many hp 0 hc
      obtain ⟨e', he', -⟩ := h 0
      rw [heq, if_neg hnil, hlast] at he'
      simp at he'
    · by_cases hle : (commonPrefix (candidates C line)).length ≤ last.length
      · refine iff_of_true (fun col => ?_) ⟨fun h => by omega, .inl (.inl ⟨hmany, hle⟩)⟩
        obtain ⟨e, he, heq⟩ := auto_many hp col hc
        rw [heq, if_neg hnil, hlast, Option.bind_some, if_pos hle]
        exact kept_right he
      · have hlong : last.length ≤ (commonPrefix (candidates C line)).length := by omega
        have hcall : ∀ col, cmdAutoComplete C prompt line.text line.text.length col =
            some (autoAppend line.text line.text.length col
              ((commonPrefix (candidates C line)).drop last.length) []) := fun col => by
          obtain ⟨e, -, heq⟩ := auto_many hp col hc
          rw [heq, if_neg hnil, hlast, Option.bind_some, if_neg hle]
        have happ : (commonPrefix (candidates C line)).drop last.length ++ [] ≠ [] := by
          simpa using hle
        rw [AutoRight, hblank]
        simp only [hcall, autoAppend_iff happ, forall_const,
          completes_iff hlast (argv_short hne) hlong, Unextended, hblank, List.length_drop]
        simp [hmany, hle, hlong]

/-- A completion is right if and only if nothing is appended, or what completes the last word. -/
theorem autoRight_iff (C : Console) (prompt : List UInt8) (line : ConsoleLine) :
    AutoRight C prompt line ↔ AutoClear C prompt line := by
  by_cases hp : prompt = C.prompt
  · rcases hc : candidates C line with _ | ⟨a, _ | ⟨b, cs⟩⟩
    · refine iff_of_true (fun col => ?_) fun _ hne => absurd hc hne
      obtain ⟨e, he, hbuf⟩ := auto_nil hp col hc
      rw [he]
      exact kept_right hbuf
    · exact autoRight_one hp hc
    · exact autoRight_many hp hc
  · refine iff_of_true (fun col => ?_) fun h => absurd h hp
    rw [cmdAutoComplete, if_pos hp]
    exact kept_right rfl

/-- A command, `run`, and a variable, `a`. -/
def runConsole : Console where
  prompt := []
  table := [⟨ascii "run", true⟩]
  env := [ascii "a=1"]

/-- Behind a blank the variable is read from where its name has as many characters as the command,
which it has not. -/
theorem autoRight_blank : ¬AutoRight runConsole [] ⟨ascii "run ", by simp [ascii, CBSIZE]⟩ :=
    fun h => by
  have hnone : cmdAutoComplete runConsole [] (ascii "run ") (ascii "run ").length 0 = none := rfl
  obtain ⟨e, he, -⟩ := h 0
  rw [hnone] at he
  simp at he

end Line

end InfotmUboot
