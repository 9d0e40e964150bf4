import InfotmUboot.Command
import Mathlib.Tactic.SplitIfs

/-!
# Macros are expanded

What a line stands for is a list of pieces, bytes and variables (`expand`). `process_macros` writes
the values of its own pieces as far as there is room (`processMacros_eq`), and they are those of the
line exactly if no dollar sign, escaped backslash or bracket stands where it takes it for something
else (`process_macros_right_iff`): two readings that part once stay apart (`lag_ne`).
-/

namespace InfotmUboot

inductive Piece where
  | byte (c : UInt8)
  | var (name : List UInt8)
  deriving DecidableEq, Repr

def Piece.value (getenv : List UInt8 → Option (List UInt8)) : Piece → List UInt8
  | .byte c => [c]
  | .var name => ((getenv name).getD []).takeWhile (· ≠ 0)

/-- A bracket that is closed. -/
def opens : List UInt8 → Bool
  | [] => false
  | b :: line => isOpen b && line.any isClose

inductive ExpandMode where
  | text
  /-- behind a backslash -/
  | esc
  | quote (prev : UInt8)
  | bracket
  | name (read : List UInt8)
  deriving DecidableEq, Repr

/-- The pieces of a line. Text is copied; a backslash escapes what follows it; between quotes
nothing is special but a quote that no backslash stands before; a dollar sign that begins no name is
text. -/
def expand : ExpandMode → List UInt8 → List Piece
  | _, [] => []
  | .text, c :: line =>
    if c = BACKSLASH then expand .esc line
    else if c = QUOTE then expand (.quote c) line
    else if c = DOLLAR ∧ opens line then expand .bracket line
    else .byte c :: expand .text line
  | .esc, c :: line => .byte c :: expand .text line
  | .quote prev, c :: line =>
    if c = QUOTE ∧ prev ≠ BACKSLASH then expand .text line else .byte c :: expand (.quote c) line
  | .bracket, _ :: line => expand (.name []) line
  | .name read, c :: line =>
    if isClose c then .var read :: expand .text line else expand (.name (read ++ [c])) line

def expansion (getenv : List UInt8 → Option (List UInt8)) (line : List UInt8) : List UInt8 :=
  (expand .text line).flatMap (Piece.value getenv)

/-- Whatever the environment, the output has room and is the expansion of the line as far as it
goes. -/
structure MacrosRight (cbsize : ℕ) (line : List UInt8) : Prop where
  room : ∀ getenv, (processMacros getenv cbsize line).length ≤ cbsize
  eq : ∀ getenv,
    processMacros getenv cbsize line = (expansion getenv line).take (cbsize - 1) ++ [0]

inductive PlainMode where
  | text
  | esc
  /-- behind an escaped backslash -/
  | slash
  | dollar
  | dollarEsc
  | name
  | quote (prev : UInt8)
  deriving DecidableEq, Repr

/-- No dollar sign ends the line, is behind another one or before a quote or an escaped bracket
where that matters, and no bracket is left open; what follows an escaped backslash is no backslash,
no quote and no variable. -/
def plain : PlainMode → List UInt8 → Bool
  | .dollar, [] => false
  | .dollarEsc, [] => false
  | _, [] => true
  | .text, c :: line =>
    if c = BACKSLASH then plain .esc line
    else if c = QUOTE then plain (.quote c) line
    else if c = DOLLAR then plain .dollar line
    else plain .text line
  | .esc, c :: line => if c = BACKSLASH then plain .slash line else plain .text line
  | .slash, c :: line =>
    if c = BACKSLASH ∨ c = QUOTE ∨ c = DOLLAR ∧ opens line then false else plain .text line
  | .dollar, c :: line =>
    if c = BACKSLASH then plain .dollarEsc line
    else if isOpen c then line.any isClose && plain .name line
    else if c = QUOTE ∨ c = DOLLAR ∧ opens line then false
    else plain .text line
  | .dollarEsc, c :: line =>
    if isOpen c then false else if c = BACKSLASH then plain .slash line else plain .text line
  | .name, c :: line => if isClose c then plain .text line else plain .name line
  | .quote prev, c :: line =>
    if c = QUOTE ∧ prev ≠ BACKSLASH then plain .text line else plain (.quote c) line

section Pieces

/-- What a state writes at `c`, without a bound. -/
def switchPieces (c prev : UInt8) (input : List UInt8) : MacroState → MacroState × List Piece
  | .text =>
    if c = QUOTE ∧ prev ≠ BACKSLASH then (.quote, [])
    else if c = DOLLAR ∧ prev ≠ BACKSLASH then (.dollar, [])
    else (.text, [.byte c])
  | .dollar => if isOpen c then (.name input, []) else (.text, [.byte DOLLAR, .byte c])
  | .name start =>
    if isClose c then (.text, [.var (start.take (start.length - input.length - 1))])
    else (.name start, [])
  | .quote => if c = QUOTE ∧ prev ≠ BACKSLASH then (.text, []) else (.quote, [.byte c])

/-- What `process_macros` writes, without a bound. -/
def macroPieces : MacroState → UInt8 → List UInt8 → List Piece
  | _, _, [] => []
  | state, prev, c :: input =>
    if state ≠ .quote ∧ c = BACKSLASH ∧ prev ≠ BACKSLASH then macroPieces state c input
    else (switchPieces c prev input state).2 ++ macroPieces (switchPieces c prev input state).1 c
      input

end Pieces

attribute [local simp] expand macroPieces plain

section Room

variable (getenv : List UInt8 → Option (List UInt8)) {cbsize : ℕ} {o : MacroOut} {bs : List UInt8}

/-- Of the bytes `bs`, what there is room for has been written. -/
structure MacroOut.Wrote (cbsize : ℕ) (o : MacroOut) (bs : List UInt8) : Prop where
  out_eq : o.out = bs.take cbsize
  cnt_eq : o.outputcnt = cbsize - bs.length

theorem MacroOut.Wrote.put (h : o.Wrote cbsize bs) (hcnt : o.outputcnt ≠ 0) (c : UInt8) :
    (o.put c).Wrote cbsize (bs ++ [c]) := by
  have hc := h.cnt_eq
  refine ⟨?_, ?_⟩
  · rw [MacroOut.put, h.out_eq, List.take_of_length_le (by omega),
      List.take_of_length_le (by rw [List.length_append, List.length_singleton]; omega)]
  · rw [MacroOut.put, List.length_append, List.length_singleton]
    dsimp only
    omega

/-- Once there is no room, nothing more is missed. -/
theorem MacroOut.Wrote.full (h : o.Wrote cbsize bs) (hcnt : o.outputcnt = 0) (cs : List UInt8) :
    o.Wrote cbsize (bs ++ cs) := by
  have hc := h.cnt_eq
  refine ⟨?_, ?_⟩
  · rw [h.out_eq, List.take_append_of_le_length (by omega)]
  · rw [List.length_append]
    omega

theorem copyValue_wrote : ∀ (envval : List UInt8) {o : MacroOut} {bs : List UInt8},
    o.Wrote cbsize bs → (copyValue envval o).Wrote cbsize (bs ++ envval.takeWhile (· ≠ 0))
  | [], o, bs, h => by
    rw [List.takeWhile_nil, List.append_nil]
    exact h
  | c :: envval, o, bs, h => by
    rw [copyValue]
    by_cases hz : c = 0
    · rw [if_neg fun hn => hn.1 hz, hz, List.takeWhile_cons_of_neg (by simp), List.append_nil]
      exact h
    · rw [List.takeWhile_cons_of_pos (by simpa using hz)]
      by_cases hcnt : o.outputcnt = 0
      · rw [if_neg fun hn => hn.2 hcnt]
        exact h.full hcnt _
      · rw [if_pos ⟨hz, hcnt⟩, List.append_cons]
        exact copyValue_wrote envval (h.put hcnt c)

theorem macroSwitch_wrote (h : o.Wrote cbsize bs) (hcnt : o.outputcnt ≠ 0) (c prev : UInt8)
    (input : List UInt8) (state : MacroState) :
    (macroSwitch getenv c prev input state o).1 = (switchPieces c prev input state).1 ∧
      (macroSwitch getenv c prev input state o).2.Wrote cbsize
        (bs ++ (switchPieces c prev input state).2.flatMap (Piece.value getenv)) := by
  have hnone : o.Wrote cbsize (bs ++ []) := by
    rw [List.append_nil]
    exact h
  rcases state with _ | _ | start | _
  · simp only [macroSwitch, switchPieces]
    split_ifs
    · exact ⟨rfl, hnone⟩
    · exact ⟨rfl, hnone⟩
    · exact ⟨rfl, h.put hcnt c⟩
  · simp only [macroSwitch, switchPieces]
    by_cases hopen : isOpen c = true
    · rw [if_pos hopen, if_pos hopen]
      exact ⟨rfl, hnone⟩
    · rw [if_neg hopen, if_neg hopen]
      refine ⟨rfl, ?_⟩
      have hput := h.put hcnt DOLLAR
      change (if (o.put DOLLAR).outputcnt ≠ 0 then (o.put DOLLAR).put c else o.put DOLLAR).Wrote
        cbsize
        (bs ++ ([DOLLAR] ++ [c]))
      rw [← List.append_assoc]
      by_cases hz : (o.put DOLLAR).outputcnt = 0
      · rw [if_neg (not_not.2 hz)]
        exact hput.full hz _
      · rw [if_pos hz]
        exact hput.put hz c
  · simp only [macroSwitch, switchPieces]
    by_cases hclose : isClose c = true
    · rw [if_pos hclose, if_pos hclose]
      simp only [List.flatMap_cons, List.flatMap_nil, List.append_nil, Piece.value]
      rcases getenv (start.take (start.length - input.length - 1)) with _ | envval
      · exact ⟨rfl, hnone⟩
      · exact ⟨rfl, copyValue_wrote envval h⟩
    · rw [if_neg hclose, if_neg hclose]
      exact ⟨rfl, hnone⟩
  · simp only [macroSwitch, switchPieces]
    split_ifs
    · exact ⟨rfl, hnone⟩
    · exact ⟨rfl, h.put hcnt c⟩

theorem macroLoop_wrote : ∀ (input : List UInt8) {state : MacroState} {prev : UInt8} {o : MacroOut}
    {bs : List UInt8}, o.Wrote cbsize bs → (macroLoop getenv state prev input o).Wrote cbsize
      (bs ++ (macroPieces state prev input).flatMap (Piece.value getenv))
  | [], state, prev, o, bs, h => by
    simpa [macroLoop, macroPieces] using h
  | [c], state, prev, o, bs, h => by
    rw [macroLoop]
    by_cases hcnt : o.outputcnt = 0
    · rw [if_pos hcnt]
      exact h.full hcnt _
    · rw [if_neg hcnt, macroPieces]
      by_cases hesc : state ≠ .quote ∧ c = BACKSLASH ∧ prev ≠ BACKSLASH
      · rw [if_pos hesc, if_pos hesc]
        simpa [macroPieces] using h
      · rw [if_neg hesc, if_neg hesc]
        simpa [macroPieces, macroLoop] using (macroSwitch_wrote getenv h hcnt c prev [] state).2
  | c :: c' :: input, state, prev, o, bs, h => by
    rw [macroLoop]
    by_cases hcnt : o.outputcnt = 0
    · rw [if_pos hcnt]
      exact h.full hcnt _
    · rw [if_neg hcnt, macroPieces]
      by_cases hesc : state ≠ .quote ∧ c = BACKSLASH ∧ prev ≠ BACKSLASH
      · obtain ⟨hstate, hwrote⟩ :=
          macroSwitch_wrote getenv h hcnt c' c input state
        rw [if_pos hesc, if_pos hesc, macroPieces, if_neg fun hn => hn.2.2 hesc.2.1,
          List.flatMap_append, ← List.append_assoc, ← hstate]
        exact macroLoop_wrote input hwrote
      · obtain ⟨hstate, hwrote⟩ :=
          macroSwitch_wrote getenv h hcnt c prev (c' :: input) state
        rw [if_neg hesc, if_neg hesc, List.flatMap_append, ← List.append_assoc, ← hstate]
        exact macroLoop_wrote (c' :: input) hwrote

/-- `process_macros` writes the values of its pieces, as far as there is room. -/
theorem processMacros_eq (getenv : List UInt8 → Option (List UInt8)) {cbsize : ℕ} (h : 0 < cbsize)
    (line : List UInt8) : processMacros getenv cbsize line =
      ((macroPieces .text 0 line).flatMap (Piece.value getenv)).take (cbsize - 1) ++ [0] := by
  have hstart : MacroOut.Wrote cbsize ⟨[], cbsize⟩ [] := ⟨List.take_nil.symm, rfl⟩
  have hend : (macroLoop getenv .text 0 line ⟨[], cbsize⟩).Wrote cbsize
      ((macroPieces .text 0 line).flatMap (Piece.value getenv)) :=
    macroLoop_wrote getenv line hstart
  have hout := hend.out_eq
  have hcnt := hend.cnt_eq
  unfold processMacros
  dsimp only
  by_cases hz : (macroLoop getenv .text 0 line ⟨[], cbsize⟩).outputcnt = 0
  · rw [if_neg (not_not.2 hz), hout, List.dropLast_eq_take, List.take_take, List.length_take]
    congr 2
    omega
  · rw [if_pos hz, hout, List.take_of_length_le (by omega), List.take_of_length_le (by omega)]

end Room

section Readings

/-- A piece where every variable has the same value of one letter. -/
def Piece.probe : Piece → UInt8
  | .byte c => c
  | .var _ => 0x41

@[simp]
theorem quote_ne_backslash : QUOTE ≠ BACKSLASH := by decide

@[simp]
theorem backslash_ne_quote : BACKSLASH ≠ QUOTE := by decide

@[simp]
theorem dollar_ne_backslash : DOLLAR ≠ BACKSLASH := by decide

@[simp]
theorem dollar_ne_quote : DOLLAR ≠ QUOTE := by decide

section Steps

variable {prev c : UInt8} {line start : List UInt8} {state : MacroState}

/-- The backslash that escapes is passed over. -/
theorem macroPieces_esc (hstate : state ≠ .quote) (hprev : prev ≠ BACKSLASH) :
    macroPieces state prev (BACKSLASH :: line) = macroPieces state BACKSLASH line := by
  rw [macroPieces, if_pos ⟨hstate, rfl, hprev⟩]

theorem macroPieces_escaped :
    macroPieces .text BACKSLASH (c :: line) = .byte c :: macroPieces .text c line := by
  rw [macroPieces, if_neg fun hn => hn.2.2 rfl]
  simp [switchPieces]

theorem macroPieces_byte (hc : c ≠ BACKSLASH) (hq : c ≠ QUOTE) (hd : c ≠ DOLLAR) :
    macroPieces .text prev (c :: line) = .byte c :: macroPieces .text c line := by
  rw [macroPieces, if_neg fun hn => hc hn.2.1]
  simp [switchPieces, hq, hd]

theorem macroPieces_open_quote (hprev : prev ≠ BACKSLASH) :
    macroPieces .text prev (QUOTE :: line) = macroPieces .quote QUOTE line := by
  rw [macroPieces, if_neg (by simp)]
  simp [switchPieces, hprev]

theorem macroPieces_dollar (hprev : prev ≠ BACKSLASH) :
    macroPieces .text prev (DOLLAR :: line) = macroPieces .dollar DOLLAR line := by
  rw [macroPieces, if_neg (by simp)]
  simp [switchPieces, hprev]

theorem macroPieces_close_quote (hprev : prev ≠ BACKSLASH) :
    macroPieces .quote prev (QUOTE :: line) = macroPieces .text QUOTE line := by
  rw [macroPieces, if_neg (by simp)]
  simp [switchPieces, hprev]

theorem macroPieces_quoted (h : ¬(c = QUOTE ∧ prev ≠ BACKSLASH)) :
    macroPieces .quote prev (c :: line) = .byte c :: macroPieces .quote c line := by
  rw [macroPieces, if_neg (by simp)]
  simp only [switchPieces, if_neg h, List.singleton_append]

theorem macroPieces_bracket (hc : isOpen c = true) (h : c ≠ BACKSLASH ∨ prev = BACKSLASH) :
    macroPieces .dollar prev (c :: line) = macroPieces (.name line) c line := by
  rw [macroPieces, if_neg fun hn => h.elim (fun h => h hn.2.1) fun h => hn.2.2 h]
  simp [switchPieces, hc]

theorem macroPieces_lone (hc : ¬isOpen c = true) (h : c ≠ BACKSLASH ∨ prev = BACKSLASH) :
    macroPieces .dollar prev (c :: line) =
      .byte DOLLAR :: .byte c :: macroPieces .text c line := by
  rw [macroPieces, if_neg fun hn => h.elim (fun h => h hn.2.1) fun h => hn.2.2 h]
  simp [switchPieces, hc]

theorem isClose_ne (hc : isClose c = true) : c ≠ BACKSLASH := by
  have hor : c = 0x29 ∨ c = 0x7d := by simpa [isClose] using hc
  rcases hor with rfl | rfl <;> decide

end Steps

section Apart

/-- Bytes written by one reading and not yet by the other: backslashes and quotes, with the quotes
even or odd in number. -/
structure Stray (w : List UInt8) (k : ℕ) : Prop where
  ne : w ≠ []
  letters : ∀ x ∈ w, x = BACKSLASH ∨ x = QUOTE
  count : w.count QUOTE % 2 = k

variable {w A B : List UInt8} {k : ℕ}

theorem Stray.slash (h : Stray w k) : Stray (w ++ [BACKSLASH]) k where
  ne := by simp
  letters x hx := (List.mem_append.1 hx).elim (h.letters x) fun hx => .inl (List.mem_singleton.1 hx)
  count := by
    rw [List.count_append, List.count_singleton, if_neg (by simp), Nat.add_zero]
    exact h.count

theorem Stray.quote (h : Stray w k) : Stray (w ++ [QUOTE]) ((k + 1) % 2) where
  ne := by simp
  letters x hx := (List.mem_append.1 hx).elim (h.letters x) fun hx => .inr (List.mem_singleton.1 hx)
  count := by
    rw [List.count_append, List.count_singleton, if_pos (by simp), ← h.count]
    omega

/-- Both write the same byte. -/
theorem Stray.rotate (h : Stray w k) {y : UInt8} (heq : w ++ y :: A = y :: B) :
    ∃ w', Stray w' k ∧ w' ++ A = B := by
  rcases w with _ | ⟨x, w⟩
  · exact absurd rfl h.ne
  · rw [List.cons_append] at heq
    obtain ⟨rfl, hrest⟩ := List.cons.inj heq
    refine ⟨w ++ [x], ⟨by simp, fun z hz => h.letters z ?_, ?_⟩, ?_⟩
    · simpa [or_comm] using hz
    · rw [← h.count, List.count_append, List.count_singleton, List.count_cons]
    · rw [List.append_assoc]
      exact hrest

/-- The other writes one of the bytes. -/
theorem Stray.behind (h : Stray w 1) (heq : w ++ A = BACKSLASH :: B) :
    ∃ w', Stray w' 1 ∧ w' ++ A = B := by
  rcases w with _ | ⟨x, w⟩
  · exact absurd rfl h.ne
  · rw [List.cons_append] at heq
    obtain ⟨rfl, hrest⟩ := List.cons.inj heq
    have hcount := h.count
    rw [List.count_cons, if_neg (by simp), Nat.add_zero] at hcount
    refine ⟨w, ⟨fun hw => ?_, fun z hz => h.letters z (List.mem_cons_of_mem _ hz), hcount⟩, hrest⟩
    rw [hw] at hcount
    simp at hcount

/-- No other byte comes next. -/
theorem Stray.other (h : Stray w k) {y : UInt8} (hb : y ≠ BACKSLASH) (hq : y ≠ QUOTE) :
    w ++ A ≠ y :: B := by
  rcases w with _ | ⟨x, w⟩
  · exact absurd rfl h.ne
  · intro heq
    rw [List.cons_append] at heq
    obtain ⟨rfl, -⟩ := List.cons.inj heq
    exact (h.letters x List.mem_cons_self).elim hb hq

/-- The states of the two readings: in quotes or not, and what is ahead. -/
inductive Apart (w : List UInt8) : MacroState → UInt8 → ExpandMode → Prop
  | quotes (prev : UInt8) (h : Stray w 0) : Apart w .quote prev (.quote prev)
  | within (prev : UInt8) (h : Stray w 1) : Apart w .quote prev .text
  | withinEsc (h : Stray w 1) : Apart w .quote BACKSLASH .esc
  | outside (prev : UInt8) (h : Stray w 1) : Apart w .text prev (.quote prev)
  | texts (prev : UInt8) (h : Stray w 0) : Apart w .text prev .text
  | textsEsc (h : Stray w 0) : Apart w .text BACKSLASH .esc

/-- The two readings have written the same, but for the bytes `w` that one of them is ahead by. -/
def Ahead (w : List UInt8) (state : MacroState) (prev : UInt8) (mode : ExpandMode)
    (line : List UInt8) : Prop :=
  w ++ (macroPieces state prev line).map Piece.probe = (expand mode line).map Piece.probe

section Steps

variable {state : MacroState} {prev c : UInt8} {mode : ExpandMode} {line : List UInt8}

theorem Apart.backslash (h : Apart w state prev mode) (heq : Ahead w state prev mode
    (BACKSLASH :: line)) :
    ∃ w' state' mode', Apart w' state' BACKSLASH mode' ∧ Ahead w' state' BACKSLASH mode' line := by
  unfold Ahead at heq
  cases h with
  | quotes prev h =>
    rw [macroPieces_quoted (by simp), expand, if_neg (by simp)] at heq
    obtain ⟨w', hw, hrest⟩ := h.rotate heq
    exact ⟨w', _, _, .quotes _ hw, hrest⟩
  | within prev h =>
    rw [macroPieces_quoted (by simp), expand, if_pos rfl, List.map_cons, List.append_cons] at heq
    exact ⟨_, _, _, .withinEsc h.slash, heq⟩
  | withinEsc h =>
    rw [macroPieces_quoted (by simp), expand] at heq
    obtain ⟨w', hw, hrest⟩ := h.rotate heq
    exact ⟨w', _, _, .within _ hw, hrest⟩
  | outside prev h =>
    rw [expand, if_neg (by simp)] at heq
    by_cases hprev : prev = BACKSLASH
    · rw [hprev, macroPieces_escaped] at heq
      obtain ⟨w', hw, hrest⟩ := h.rotate heq
      exact ⟨w', _, _, .outside _ hw, hrest⟩
    · rw [macroPieces_esc (by simp) hprev] at heq
      obtain ⟨w', hw, hrest⟩ := h.behind heq
      exact ⟨w', _, _, .outside _ hw, hrest⟩
  | texts prev h =>
    rw [expand, if_pos rfl] at heq
    by_cases hprev : prev = BACKSLASH
    · rw [hprev, macroPieces_escaped, List.map_cons, List.append_cons] at heq
      exact ⟨_, _, _, .textsEsc h.slash, heq⟩
    · rw [macroPieces_esc (by simp) hprev] at heq
      exact ⟨_, _, _, .textsEsc h, heq⟩
  | textsEsc h =>
    rw [macroPieces_escaped, expand] at heq
    obtain ⟨w', hw, hrest⟩ := h.rotate heq
    exact ⟨w', _, _, .texts _ hw, hrest⟩

theorem Apart.quote (h : Apart w state prev mode) (heq : Ahead w state prev mode (QUOTE :: line)) :
    ∃ w' state' mode', Apart w' state' QUOTE mode' ∧ Ahead w' state' QUOTE mode' line := by
  unfold Ahead at heq
  cases h with
  | quotes prev h =>
    by_cases hprev : prev = BACKSLASH
    · rw [macroPieces_quoted (by simp [hprev]), expand, if_neg (by simp [hprev])] at heq
      obtain ⟨w', hw, hrest⟩ := h.rotate heq
      exact ⟨w', _, _, .quotes _ hw, hrest⟩
    · rw [macroPieces_close_quote hprev, expand, if_pos ⟨rfl, hprev⟩] at heq
      exact ⟨w, _, _, .texts _ h, heq⟩
  | within prev h =>
    rw [expand, if_neg (by simp), if_pos rfl] at heq
    by_cases hprev : prev = BACKSLASH
    · rw [macroPieces_quoted (by simp [hprev]), List.map_cons, List.append_cons] at heq
      exact ⟨_, _, _, .quotes _ h.quote, heq⟩
    · rw [macroPieces_close_quote hprev] at heq
      exact ⟨w, _, _, .outside _ h, heq⟩
  | withinEsc h =>
    rw [macroPieces_quoted (by simp), expand] at heq
    obtain ⟨w', hw, hrest⟩ := h.rotate heq
    exact ⟨w', _, _, .within _ hw, hrest⟩
  | outside prev h =>
    by_cases hprev : prev = BACKSLASH
    · rw [hprev, macroPieces_escaped, expand, if_neg (by simp)] at heq
      obtain ⟨w', hw, hrest⟩ := h.rotate heq
      exact ⟨w', _, _, .outside _ hw, hrest⟩
    · rw [macroPieces_open_quote hprev, expand, if_pos ⟨rfl, hprev⟩] at heq
      exact ⟨w, _, _, .within _ h, heq⟩
  | texts prev h =>
    rw [expand, if_neg (by simp), if_pos rfl] at heq
    by_cases hprev : prev = BACKSLASH
    · rw [hprev, macroPieces_escaped, List.map_cons, List.append_cons] at heq
      exact ⟨_, _, _, .outside _ h.quote, heq⟩
    · rw [macroPieces_open_quote hprev] at heq
      exact ⟨w, _, _, .quotes _ h, heq⟩
  | textsEsc h =>
    rw [macroPieces_escaped, expand] at heq
    obtain ⟨w', hw, hrest⟩ := h.rotate heq
    exact ⟨w', _, _, .texts _ hw, hrest⟩

theorem name_probe : ∀ (line : List UInt8) (read : List UInt8), line.any isClose = true →
    ∃ B, (expand (.name read) line).map Piece.probe = 0x41 :: B
  | c :: line, read, h => by
    rw [expand]
    by_cases hc : isClose c = true
    · rw [if_pos hc]
      exact ⟨_, rfl⟩
    · rw [if_neg hc]
      exact name_probe line _ (by simpa [hc] using h)

theorem bracket_probe (h : opens line = true) :
    ∃ B, (expand .bracket line).map Piece.probe = 0x41 :: B := by
  rcases line with _ | ⟨b, line⟩
  · simp [opens] at h
  · rw [opens, Bool.and_eq_true] at h
    rw [expand]
    exact name_probe line [] h.2

/-- What is no backslash and no quote is written by the other reading at once. -/
theorem Apart.other (h : Apart w state prev mode) (hb : c ≠ BACKSLASH) (hq : c ≠ QUOTE)
    (line : List UInt8) :
    ∃ y B, y ≠ BACKSLASH ∧ y ≠ QUOTE ∧ (expand mode (c :: line)).map Piece.probe = y :: B := by
  cases h with
  | quotes prev h | outside prev h =>
    rw [expand, if_neg fun hn => hq hn.1]
    exact ⟨c, _, hb, hq, rfl⟩
  | within prev h | texts prev h =>
    rw [expand, if_neg hb, if_neg hq]
    split_ifs with hd
    · obtain ⟨B, hB⟩ := bracket_probe hd.2
      exact ⟨_, B, by decide, by decide, hB⟩
    · exact ⟨c, _, hb, hq, rfl⟩
  | withinEsc h | textsEsc h => exact ⟨c, _, hb, hq, by rw [expand]; rfl⟩

end Steps

/-- Two readings that have parted stay apart. -/
theorem lag_ne : ∀ (line : List UInt8) {w : List UInt8} {state : MacroState} {prev : UInt8}
    {mode : ExpandMode}, Apart w state prev mode → ¬Ahead w state prev mode line
  | [], w, state, prev, mode, h => by
    have hne : w ≠ [] := by
      cases h <;> exact Stray.ne ‹_›
    simp [Ahead, macroPieces, expand, hne]
  | c :: line, w, state, prev, mode, h => fun heq => by
    by_cases hb : c = BACKSLASH
    · rw [hb] at heq
      obtain ⟨w', state', mode', hnext, hrest⟩ := h.backslash heq
      exact lag_ne line hnext hrest
    by_cases hq : c = QUOTE
    · rw [hq] at heq
      obtain ⟨w', state', mode', hnext, hrest⟩ := h.quote heq
      exact lag_ne line hnext hrest
    obtain ⟨y, B, hyb, hyq, hexp⟩ := h.other hb hq line
    rw [Ahead, hexp] at heq
    cases h <;> exact Stray.other ‹_› hyb hyq heq

end Apart

section Agreeing

/-- The readings are the same if `p`, and can be told apart if not. -/
structure Reading (p : Bool) (X Y : List Piece) : Prop where
  same : p = true → X = Y
  told : X.map Piece.probe = Y.map Piece.probe → p = true

variable {p : Bool} {X Y : List Piece}

theorem Reading.cons (h : Reading p X Y) (a : Piece) : Reading p (a :: X) (a :: Y) where
  same hp := by rw [h.same hp]
  told heq := h.told (List.cons.inj heq).2

theorem reading_nil : Reading true [] [] := ⟨fun _ => rfl, fun _ => rfl⟩

theorem reading_false (h : X.map Piece.probe ≠ Y.map Piece.probe) : Reading false X Y :=
  ⟨fun hp => absurd hp Bool.false_ne_true, fun heq => absurd heq h⟩

/-- Behind a dollar sign. -/
def dollarPieces (line : List UInt8) : List Piece :=
  if opens line then expand .bracket line else .byte DOLLAR :: expand .text line

theorem expand_dollar (line : List UInt8) : expand .text (DOLLAR :: line) = dollarPieces line := by
  rw [expand, if_neg (by simp), if_neg (by simp), dollarPieces]
  simp only [true_and]

theorem dollarPieces_lone {line : List UInt8} (h : ¬opens line = true) :
    dollarPieces line = .byte DOLLAR :: expand .text line := if_neg h

theorem not_opens {c : UInt8} {line : List UInt8} (hc : ¬isOpen c = true) : ¬opens (c :: line) =
    true := by
  simp [opens, hc]

theorem bracket_ne {line : List UInt8} (h : opens line = true) :
    (Piece.byte DOLLAR :: X).map Piece.probe ≠ (expand .bracket line).map Piece.probe := by
  obtain ⟨B, hB⟩ := bracket_probe h
  rw [hB]
  exact fun heq => absurd (List.cons.inj heq).1 (by decide)

/-- A name that no bracket closes comes to nothing. -/
theorem macroPieces_unclosed : ∀ (line : List UInt8) {start : List UInt8} {prev : UInt8},
    ¬line.any isClose = true → macroPieces (.name start) prev line = []
  | [], _, _, _ => rfl
  | c :: line, start, prev, h => by
    obtain ⟨hc, hline⟩ : ¬isClose c = true ∧ ¬line.any isClose = true := by
      simpa [not_or] using h
    rw [macroPieces]
    split_ifs
    · exact macroPieces_unclosed line hline
    · simp only [switchPieces, if_neg hc, List.nil_append]
      exact macroPieces_unclosed line hline

/-- One that is closed comes to a variable. -/
theorem macroPieces_closed : ∀ (line start : List UInt8) (prev : UInt8), line.any isClose = true →
    ∃ X, (macroPieces (.name start) prev line).map Piece.probe = 0x41 :: X
  | c :: line, start, prev, h => by
    rw [macroPieces]
    by_cases hc : isClose c = true
    · rw [if_neg fun hn => isClose_ne hc hn.2.1]
      simp only [switchPieces, if_pos hc]
      exact ⟨_, rfl⟩
    · have hline : line.any isClose = true := by simpa [hc] using h
      split_ifs
      · exact macroPieces_closed line start c hline
      · simp only [switchPieces, if_neg hc, List.nil_append]
        exact macroPieces_closed line start c hline

/-- The readings of a line from each state on. -/
structure Agrees (line : List UInt8) : Prop where
  text : ∀ prev, prev ≠ BACKSLASH →
    Reading (plain .text line) (macroPieces .text prev line) (expand .text line)
  slash : Reading (plain .slash line) (macroPieces .text BACKSLASH line) (expand .text line)
  esc : Reading (plain .esc line) (macroPieces .text BACKSLASH line) (expand .esc line)
  dollar : Reading (plain .dollar line) (macroPieces .dollar DOLLAR line) (dollarPieces line)
  dollarEsc : Reading (plain .dollarEsc line) (macroPieces .dollar BACKSLASH line)
    (.byte DOLLAR :: expand .esc line)
  name : ∀ read prev, line.any isClose = true → Reading (plain .name line)
    (macroPieces (.name (read ++ line)) prev line) (expand (.name read) line)
  quote : ∀ prev, Reading (plain (.quote prev) line) (macroPieces .quote prev line)
    (expand (.quote prev) line)

theorem agrees_nil : Agrees [] where
  text _ _ := reading_nil
  slash := reading_nil
  esc := reading_nil
  dollar := reading_false (by simp [macroPieces, dollarPieces, opens])
  dollarEsc := reading_false (by simp [macroPieces])
  name _ _ h := absurd h (by simp)
  quote _ := reading_nil

section Cons

variable {line : List UInt8} (h : Agrees line) (c : UInt8)

include h

theorem Agrees.text_cons {prev : UInt8} (hprev : prev ≠ BACKSLASH) :
    Reading (plain .text (c :: line)) (macroPieces .text prev (c :: line))
      (expand .text (c :: line)) := by
  rw [plain]
  by_cases hb : c = BACKSLASH
  · rw [hb, if_pos rfl, macroPieces_esc (by simp) hprev, expand, if_pos rfl]
    exact h.esc
  by_cases hq : c = QUOTE
  · rw [if_neg hb, if_pos hq, hq, macroPieces_open_quote hprev, expand, if_neg (by simp),
      if_pos rfl]
    exact h.quote _
  rw [if_neg hb, if_neg hq]
  by_cases hd : c = DOLLAR
  · rw [if_pos hd, hd, macroPieces_dollar hprev, expand_dollar]
    exact h.dollar
  · rw [if_neg hd, macroPieces_byte hb hq hd, expand, if_neg hb, if_neg hq, if_neg fun hn =>
      hd hn.1]
    exact (h.text c hb).cons _

theorem Agrees.slash_cons : Reading (plain .slash (c :: line)) (macroPieces .text BACKSLASH
    (c :: line))
    (expand .text (c :: line)) := by
  rw [plain, macroPieces_escaped]
  by_cases hb : c = BACKSLASH
  · have hw : Stray [BACKSLASH] 0 := ⟨by simp, by simp, by simp⟩
    rw [if_pos (.inl hb), hb, expand, if_pos rfl]
    exact reading_false (lag_ne line (.textsEsc hw))
  by_cases hq : c = QUOTE
  · have hw : Stray [QUOTE] 1 := ⟨by simp, by simp, by simp⟩
    rw [if_pos (.inr (.inl hq)), hq, expand, if_neg (by simp), if_pos rfl]
    exact reading_false (lag_ne line (.outside _ hw))
  by_cases hd : c = DOLLAR ∧ opens line = true
  · rw [if_pos (.inr (.inr hd)), hd.1, expand_dollar, dollarPieces, if_pos hd.2]
    exact reading_false (bracket_ne hd.2)
  · rw [if_neg (by simp [hb, hq, hd]), expand, if_neg hb, if_neg hq, if_neg hd]
    exact (h.text c hb).cons _

theorem Agrees.esc_cons : Reading (plain .esc (c :: line)) (macroPieces .text BACKSLASH (c :: line))
    (expand .esc (c :: line)) := by
  rw [plain, macroPieces_escaped, expand]
  split_ifs with hb
  · rw [hb]
    exact h.slash.cons _
  · exact (h.text c hb).cons _

theorem Agrees.dollar_cons : Reading (plain .dollar (c :: line)) (macroPieces .dollar DOLLAR
    (c :: line))
    (dollarPieces (c :: line)) := by
  rw [plain]
  by_cases hb : c = BACKSLASH
  · have hlone : ¬opens (BACKSLASH :: line) = true := not_opens (by decide)
    rw [if_pos hb, hb, macroPieces_esc (by simp) (by simp), dollarPieces_lone hlone, expand,
      if_pos rfl]
    exact h.dollarEsc
  rw [if_neg hb]
  by_cases hopen : isOpen c = true
  · rw [if_pos hopen, macroPieces_bracket hopen (.inl hb)]
    by_cases hclose : line.any isClose = true
    · have hline : opens (c :: line) = true := by simp [opens, hopen, hclose]
      rw [dollarPieces, if_pos hline, expand, hclose, Bool.true_and]
      exact h.name [] c hclose
    · have hlone : ¬opens (c :: line) = true := by simp [opens, hclose]
      rw [macroPieces_unclosed line hclose, dollarPieces_lone hlone,
        Bool.eq_false_of_not_eq_true hclose,
        Bool.false_and]
      exact reading_false (by simp)
  · rw [if_neg hopen, macroPieces_lone hopen (.inl hb), dollarPieces_lone (not_opens hopen)]
    by_cases hq : c = QUOTE
    · have hw : Stray [QUOTE] 1 := ⟨by simp, by simp, by simp⟩
      rw [if_pos (.inl hq), hq, expand, if_neg (by simp), if_pos rfl]
      exact reading_false fun heq => lag_ne line (.outside _ hw) (List.cons.inj heq).2
    by_cases hd : c = DOLLAR ∧ opens line = true
    · rw [if_pos (.inr hd), hd.1, expand_dollar, dollarPieces, if_pos hd.2]
      exact reading_false fun heq => bracket_ne hd.2 (List.cons.inj heq).2
    · rw [if_neg (by simp [hq, hd]), expand, if_neg hb, if_neg hq, if_neg hd]
      exact ((h.text c hb).cons _).cons _

theorem Agrees.dollarEsc_cons : Reading (plain .dollarEsc (c :: line))
    (macroPieces .dollar BACKSLASH (c :: line)) (.byte DOLLAR :: expand .esc (c :: line)) := by
  rw [plain]
  by_cases hopen : isOpen c = true
  · rw [if_pos hopen, macroPieces_bracket hopen (.inr rfl)]
    refine reading_false ?_
    by_cases hclose : line.any isClose = true
    · obtain ⟨X, hX⟩ := macroPieces_closed line line c hclose
      rw [hX]
      exact fun heq => absurd (List.cons.inj heq).1 (by decide)
    · rw [macroPieces_unclosed line hclose]
      simp
  · rw [if_neg hopen, macroPieces_lone hopen (.inr rfl), expand]
    split_ifs with hb
    · rw [hb]
      exact (h.slash.cons _).cons _
    · exact ((h.text c hb).cons _).cons _

theorem Agrees.name_cons (read : List UInt8) (prev : UInt8) (hclose : (c :: line).any isClose =
    true) :
    Reading (plain .name (c :: line)) (macroPieces (.name (read ++ c :: line)) prev (c :: line))
      (expand (.name read) (c :: line)) := by
  have hshift : read ++ c :: line = read ++ [c] ++ line := List.append_cons ..
  rw [plain, expand, macroPieces]
  by_cases hc : isClose c = true
  · have hname : (read ++ c :: line).take ((read ++ c :: line).length - line.length - 1) =
      read := by
      rw [List.length_append, List.length_cons, show read.length + (line.length + 1) - line.length -
        1 =
        read.length by omega, List.take_left]
    rw [if_pos hc, if_pos hc, if_neg fun hn => isClose_ne hc hn.2.1]
    simp only [switchPieces, if_pos hc, hname, List.singleton_append]
    exact (h.text c (isClose_ne hc)).cons _
  · have hrest : line.any isClose = true := by simpa [hc] using hclose
    rw [if_neg hc, if_neg hc, hshift]
    split_ifs
    · exact h.name _ c hrest
    · simp only [switchPieces, if_neg hc, List.nil_append]
      exact h.name _ c hrest

theorem Agrees.quote_cons (prev : UInt8) : Reading (plain (.quote prev) (c :: line))
    (macroPieces .quote prev (c :: line)) (expand (.quote prev) (c :: line)) := by
  rw [plain, expand]
  by_cases hq : c = QUOTE ∧ prev ≠ BACKSLASH
  · rw [if_pos hq, if_pos hq, hq.1, macroPieces_close_quote hq.2]
    exact h.text _ (by simp)
  · rw [if_neg hq, if_neg hq, macroPieces_quoted hq]
    exact (h.quote c).cons _

end Cons

theorem agrees : ∀ line : List UInt8, Agrees line
  | [] => agrees_nil
  | c :: line =>
    have h := agrees line
    { text := fun _ hprev => h.text_cons c hprev
      slash := h.slash_cons c
      esc := h.esc_cons c
      dollar := h.dollar_cons c
      dollarEsc := h.dollarEsc_cons c
      name := fun read prev => h.name_cons c read prev
      quote := fun prev => h.quote_cons c prev }

end Agreeing

end Readings

section Lengths

theorem macroPieces_length : ∀ (line : List UInt8) (state : MacroState) (prev : UInt8),
    (macroPieces state prev line).length ≤ line.length + if state = .dollar then 1 else 0
  | [], _, _ => Nat.zero_le _
  | c :: line, state, prev => by
    rw [macroPieces, List.length_cons]
    by_cases hesc : state ≠ .quote ∧ c = BACKSLASH ∧ prev ≠ BACKSLASH
    · rw [if_pos hesc]
      exact (macroPieces_length line state c).trans (by omega)
    · have hrest := macroPieces_length line (switchPieces c prev line state).1 c
      have hhere : (switchPieces c prev line state).2.length +
          (if (switchPieces c prev line state).1 = .dollar then 1 else 0) ≤
            1 + if state = .dollar then 1 else 0 := by
        rcases state with _ | _ | start | _ <;> simp only [switchPieces] <;> split_ifs <;> simp_all
      rw [if_neg hesc, List.length_append]
      omega

theorem expand_length : ∀ (line : List UInt8) (mode : ExpandMode), (expand mode line).length ≤
    line.length
  | [], mode => by cases mode <;> exact le_rfl
  | c :: line, mode => by
    have hrest := expand_length line
    rw [List.length_cons]
    rcases mode with _ | _ | prev | _ | read <;> rw [expand]
    · split_ifs
      · exact (hrest _).trans (Nat.le_succ _)
      · exact (hrest _).trans (Nat.le_succ _)
      · exact (hrest _).trans (Nat.le_succ _)
      · exact Nat.succ_le_succ (hrest _)
    · exact Nat.succ_le_succ (hrest _)
    · split_ifs
      · exact (hrest _).trans (Nat.le_succ _)
      · exact Nat.succ_le_succ (hrest _)
    · exact (hrest _).trans (Nat.le_succ _)
    · split_ifs
      · exact Nat.succ_le_succ (hrest _)
      · exact (hrest _).trans (Nat.le_succ _)

/-- Where every variable is the same letter, the values are what tells the readings apart. -/
theorem flatMap_probe (ps : List Piece) :
    ps.flatMap (Piece.value fun _ => some [0x41]) = ps.map Piece.probe := by
  induction ps with
  | nil => rfl
  | cons a ps ih =>
    rw [List.flatMap_cons, List.map_cons, ih]
    cases a <;> simp [Piece.value, Piece.probe]

end Lengths

section Main

variable {cbsize : ℕ} {line : List UInt8}

theorem macros_right_of_plain (h : 0 < cbsize) (hplain : plain .text line = true) :
    MacrosRight cbsize line := by
  have hsame := ((agrees line).text 0 (by decide)).same hplain
  refine ⟨fun getenv => ?_, fun getenv => ?_⟩
  · rw [processMacros_eq getenv h, List.length_append, List.length_take, List.length_singleton]
    omega
  · rw [processMacros_eq getenv h, hsame]
    rfl

theorem plain_of_macros_right (h : line.length < cbsize) (hright : MacrosRight cbsize line) :
    plain .text line = true := by
  have heq := hright.eq fun _ => some [0x41]
  have hlen := macroPieces_length line .text 0
  have hlen' := expand_length line .text
  rw [if_neg (by simp)] at hlen
  rw [processMacros_eq _ (Nat.zero_lt_of_lt h), expansion, flatMap_probe, flatMap_probe,
    List.take_of_length_le (by rw [List.length_map]; omega),
    List.take_of_length_le (by rw [List.length_map]; omega)] at heq
  exact ((agrees line).text 0 (by decide)).told (List.append_cancel_right heq)

/-- A line that `run_command` takes is expanded as it reads, in every environment, if and only if it
is plain. -/
theorem process_macros_right_iff (h : line.length < cbsize) :
    MacrosRight cbsize line ↔ plain .text line = true :=
  ⟨plain_of_macros_right h, macros_right_of_plain (Nat.zero_lt_of_lt h)⟩

/-- `a$(b)` -/
theorem process_macros_right_iff_variable :
    MacrosRight 256 [0x61, 0x24, 0x28, 0x62, 0x29] ↔
      plain .text [0x61, 0x24, 0x28, 0x62, 0x29] = true :=
  process_macros_right_iff (by decide)

/-- `a$` -/
theorem process_macros_lone_dollar : ¬MacrosRight 256 [0x61, 0x24] := fun h =>
  absurd (plain_of_macros_right (by decide) h) (by decide)

end Main

end InfotmUboot
