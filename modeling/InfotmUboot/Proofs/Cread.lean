import InfotmUboot.Cread
import InfotmUboot.Lib.Splice
import Mathlib.Data.List.Infix

/-!
# The command line editor is a line editor

A line editor is a text with a cursor and the lines entered before. `cread_line` follows it key by
key as long as nothing is put into a line that is full (`readlineKey_follows`); it has room for one
byte less than it takes, and the first byte too many is where it goes wrong
(`cread_line_right_iff`).
-/

namespace InfotmUboot

open Lib

/-- The longest line there is room for with its zero. -/
def lineMax : ℕ := maxCmdbufSize - 1

/-- The lines that can be had back: a slot is left for the line being entered. -/
def pastMax : ℕ := histSlots - 1

structure Editor where
  text : List UInt8
  cursor : ℕ
  insert : Bool
  /-- the keys of a sequence that has not ended -/
  esc : List UInt8
  /-- the lines entered before, the last one first -/
  past : List (List UInt8)
  /-- how many lines back the last one shown is -/
  back : ℕ

inductive Edit where
  | home
  | left
  | right
  | toEnd
  | eraseHere
  | eraseBack
  | kill
  | clear
  | mode
  | older
  | newer
  | put (c : UInt8)
  deriving DecidableEq, Repr

namespace Editor

/-- A byte that is put makes the line longer. -/
def Grows (ed : Editor) : Prop := ed.insert = true ∨ ed.cursor = ed.text.length

instance (ed : Editor) : Decidable ed.Grows := inferInstanceAs (Decidable (_ ∨ _))

/-- There is no room for a byte that is put. -/
def Refuses (ed : Editor) : Prop := ed.Grows ∧ lineMax ≤ ed.text.length

instance (ed : Editor) : Decidable ed.Refuses := inferInstanceAs (Decidable (_ ∧ _))

def put (c : UInt8) (ed : Editor) : Editor :=
  if ed.Refuses then ed
  else
    { ed with
      text := ed.text.take ed.cursor ++ c :: ed.text.drop (if ed.Grows then ed.cursor
        else ed.cursor + 1)
      cursor := ed.cursor + 1 }

def type : List UInt8 → Editor → Editor
  | [], ed => ed
  | c :: cs, ed => type cs (ed.put c)

/-- One of the bytes typed is refused. -/
def RefusesAny : List UInt8 → Editor → Prop
  | [], _ => False
  | c :: cs, ed => ed.Refuses ∨ RefusesAny cs (ed.put c)

instance decidableRefusesAny : ∀ cs (ed : Editor), Decidable (RefusesAny cs ed)
  | [], _ => inferInstanceAs (Decidable False)
  | _ :: cs, _ => @instDecidableOr _ _ _ (decidableRefusesAny cs _)

def older (ed : Editor) : Editor :=
  match ed.past[ed.back]? with
  | none => ed
  | some text => { ed with text := text, cursor := text.length, back := ed.back + 1 }

def newer (ed : Editor) : Editor :=
  match ed.back with
  | 0 => ed
  | n + 1 =>
    let text := if n = 0 then [] else ed.past.getD (n - 1) []
    { ed with text := text, cursor := text.length, back := n }

def edit : Edit → Editor → Editor
  | .home, ed => { ed with cursor := 0 }
  | .left, ed => { ed with cursor := ed.cursor - 1 }
  | .right, ed => { ed with cursor := min (ed.cursor + 1) ed.text.length }
  | .toEnd, ed => { ed with cursor := ed.text.length }
  | .eraseHere, ed => { ed with text := ed.text.eraseIdx ed.cursor }
  | .eraseBack, ed =>
    if ed.cursor = 0 then ed
    else { ed with text := ed.text.eraseIdx (ed.cursor - 1), cursor := ed.cursor - 1 }
  | .kill, ed => { ed with text := ed.text.take ed.cursor }
  | .clear, ed => { ed with text := [], cursor := 0 }
  | .mode, ed => { ed with insert := !ed.insert }
  | .older, ed => ed.older
  | .newer, ed => ed.newer
  | .put c, ed => ed.put c

/-- The line is over, and the next one starts; a line begun by `!` is not kept. -/
def enter (ed : Editor) : Editor :=
  let line := ed.text.takeWhile (· ≠ 0)
  let past := if line = [] ∨ line.head? = some '!'.toUInt8 then ed.past
    else (line :: ed.past).take pastMax
  ⟨[], 0, true, [], past, 0⟩

def cancel (ed : Editor) : Editor := ⟨[], 0, true, [], ed.past, ed.back⟩

end Editor

/-- What a key does to the line. -/
def editOf (key : UInt8) : Edit :=
  if key = ctlCh 'a' then .home
  else if key = ctlCh 'f' then .right
  else if key = ctlCh 'b' then .left
  else if key = ctlCh 'd' then .eraseHere
  else if key = ctlCh 'k' then .kill
  else if key = ctlCh 'e' then .toEnd
  else if key = ctlCh 'o' then .mode
  else if key = ctlCh 'x' ∨ key = ctlCh 'u' then .clear
  else if key = 255 ∨ key = 127 ∨ key = 8 then .eraseBack
  else if key = ctlCh 'p' then .older
  else if key = ctlCh 'n' then .newer
  else .put key

/-- What a sequence that ends with the key does. -/
def arrow (key : UInt8) : Option Edit :=
  if key = 'D'.toUInt8 then some .left
  else if key = 'C'.toUInt8 then some .right
  else if key = 'H'.toUInt8 then some .home
  else if key = 'A'.toUInt8 then some .older
  else if key = 'B'.toUInt8 then some .newer
  else none

/-- What a key leads to. -/
inductive KeyAct where
  | enter
  | cancel
  | hold (esc : List UInt8)
  | edit (e : Edit)
  | type (cs : List UInt8)
  deriving DecidableEq, Repr

/-- A sequence that is none is typed: all of it, or an escape that no bracket follows. -/
def keyAct (esc : List UInt8) (key : UInt8) : KeyAct :=
  if key = '\n'.toUInt8 ∨ key = '\r'.toUInt8 then .enter
  else
    match esc with
    | [] => if key = 0x1b then .hold [key] else if key = ctlCh 'c' then .cancel
        else .edit (editOf key)
    | [e] => if key = '['.toUInt8 then .hold [e, key] else .type [e]
    | esc =>
      match arrow key with
      | some e => .edit e
      | none => .type (esc ++ [key])

namespace Editor

def act (ed : Editor) : KeyAct → Editor × Option Entered
  | .enter => (ed.enter, some (ed.text.length, ed.text ++ [0]))
  | .cancel => (ed.cancel, some (-1, [0]))
  | .hold esc => ({ ed with esc := esc }, none)
  | .edit e => (({ ed with esc := [] }).edit e, none)
  | .type cs => ({ ed.type cs with esc := [] }, none)

def key (ed : Editor) (key : UInt8) : Editor × Option Entered := ed.act (keyAct ed.esc key)

def keys : Editor → List UInt8 → Editor × List Entered
  | ed, [] => (ed, [])
  | ed, k :: ks =>
    let r := ed.key k
    let rest := keys r.1 ks
    (rest.1, r.2.toList ++ rest.2)

/-- A key puts something for which there is no room. -/
def RefusesKey (ed : Editor) (key : UInt8) : Prop :=
  match keyAct ed.esc key with
  | .edit (.put _) => ed.Refuses
  | .type cs => RefusesAny cs ed
  | _ => False

/-- Nothing is put into a full line. -/
def Fits : Editor → List UInt8 → Prop
  | _, [] => True
  | ed, k :: ks => ¬ed.RefusesKey k ∧ Fits (ed.key k).1 ks

end Editor

def editorStart : Editor := ⟨[], 0, true, [], [], 0⟩

section Following

variable (cm : ConsoleMem)

/-- A run of bytes in the buffer or in a slot of the history. -/
def ConsoleMem.Inside (w : ℕ × ℕ) : Prop :=
  cm.buf ≤ w.1 ∧ w.1 + w.2 ≤ cm.buf + consoleBufferSize ∨
    ∃ i < histSlots, cm.slot i ≤ w.1 ∧ w.1 + w.2 ≤ cm.slot i + histSize

/-- All through the keys the positions are inside the buffer, what is written is inside it or a
slot, and the lines are those of a line editor. -/
structure CreadRight (s : Cread) (ed : Editor) (keys : List UInt8) : Prop where
  bounds : ∀ pre, pre <+: keys → (readlineKeys cm s pre).1.num ≤ (readlineKeys cm s pre).1.eolNum ∧
    (readlineKeys cm s pre).1.eolNum < consoleBufferSize
  writes : ∀ w ∈ (readlineKeys cm s keys).1.writes, cm.Inside w
  lines : (readlineKeys cm s keys).2 = (ed.keys keys).2

/-- Where the line `b` lines back is, as the positions are counted. -/
def slotBack (h : Hist) (b : ℕ) : ℕ := if b ≤ h.addIdx then h.addIdx - b
    else h.addIdx + h.max + 1 - b

/-- The history holds the lines entered before. -/
structure Kept (m : Mem) (h : Hist) (past : List (List UInt8)) (back : ℕ) : Prop where
  max_eq : h.max = past.length
  addIdx_le : h.addIdx ≤ h.max
  max_lt : h.max < histSlots
  addIdx_eq : h.max + 1 < histSlots → h.addIdx = h.max
  slot : ∀ i (hi : i < past.length), Holds m (cm.slot (slotBack h (i + 1))) (past[i] ++ [0])
  clean : ∀ l ∈ past, 0 ∉ l ∧ l.length < histSize
  back_le : back ≤ past.length
  cur_eq : h.cur = slotBack h back ∨ h.cur = -1 ∧ past = []

/-- What is written is inside, and the history is there. -/
structure Sound (m : Mem) (ws : List (ℕ × ℕ)) (h : Hist) (past : List (List UInt8)) (back : ℕ) :
    Prop where
  writes : ∀ w ∈ ws, cm.Inside w
  kept : Kept cm m h past back

/-- The state of `cread_line` is that of the editor. -/
structure Follows (s : Cread) (ed : Editor) : Prop where
  sound : Sound cm s.mem s.writes s.hist ed.past ed.back
  num : s.num = ed.cursor
  eolNum : s.eolNum = ed.text.length
  cursor_le : ed.cursor ≤ ed.text.length
  length_lt : ed.text.length < maxCmdbufSize
  buf : Holds s.mem cm.buf ed.text
  insert : s.insert = ed.insert
  esc : s.esc = ed.esc

variable {cm} {s : Cread} {ed : Editor} {past : List (List UInt8)} {back : ℕ}

section Memory

theorem slotBack_lt {h : Hist} (hadd : h.addIdx ≤ h.max) {b : ℕ} (hb : b ≤ h.max) :
    slotBack h b ≤ h.max := by
  unfold slotBack
  split_ifs <;> omega

/-- What is stored in the buffer leaves the history. -/
theorem Kept.store {m : Mem} {h : Hist} (k : Kept cm m h past back) {a : ℕ} {bs : List UInt8}
    (ha : cm.buf ≤ a) (hb : a + bs.length ≤ cm.buf + consoleBufferSize) :
    Kept cm (m.store a bs) h past back := by
  refine { k with slot := fun i hi => (k.slot i hi).store ?_ }
  have hslot := slotBack_lt k.addIdx_le (b := i + 1) (by have := k.max_eq; omega)
  have hlen := (k.clean _ (List.getElem_mem hi)).2
  have hlt := k.max_lt
  have hapart := cm.apart
  simp only [ConsoleMem.slot, histSize, maxCmdbufSize, histSlots, consoleBufferSize,
    List.length_append, List.length_singleton] at *
  omega

theorem Sound.write {m : Mem} {ws : List (ℕ × ℕ)} {h : Hist} (hs : Sound cm m ws h past back)
    {a : ℕ}
    {bs : List UInt8} (ha : cm.buf ≤ a) (hb : a + bs.length ≤ cm.buf + consoleBufferSize) :
    Sound cm (m.store a bs) (ws ++ [(a, bs.length)]) h past back := by
  refine ⟨fun w hw => ?_, hs.kept.store ha hb⟩
  rcases List.mem_append.1 hw with hw | hw
  · exact hs.writes w hw
  · rw [List.mem_singleton.1 hw]
    exact .inl ⟨ha, hb⟩

end Memory

section Keys

/-- Moving the end of the line up leaves all but memory. -/
theorem moveUp_fields (cm : ConsoleMem) (s : Cread) (wlen : ℕ) : (s.moveUp cm wlen).num = s.num ∧
    (s.moveUp cm wlen).eolNum = s.eolNum ∧ (s.moveUp cm wlen).insert = s.insert ∧
    (s.moveUp cm wlen).esc = s.esc ∧ (s.moveUp cm wlen).hist = s.hist := by
  unfold Cread.moveUp
  split_ifs <;> exact ⟨rfl, rfl, rfl, rfl, rfl⟩

theorem moveUp_sound (h : Follows cm s ed) {t : Cread} (ht : t =
    ({ s with eolNum := s.eolNum + 1 } : Cread).moveUp cm (s.eolNum + 1 - s.num)) :
    Sound cm t.mem t.writes t.hist ed.past ed.back ∧
      t.mem = s.mem.store (cm.buf + ed.cursor + 1) (ed.text.drop ed.cursor) := by
  have hcur := h.cursor_le
  have hlen := h.length_lt
  have hnum := h.num
  have heol := h.eolNum
  have hsize : consoleBufferSize = maxCmdbufSize := rfl
  unfold Cread.moveUp at ht
  split_ifs at ht with hw
  · have hload : s.mem.load (cm.buf + s.num) (s.eolNum + 1 - s.num - 1) =
        ed.text.drop ed.cursor := by
      rw [hnum, heol, show ed.text.length + 1 - ed.cursor - 1 = ed.text.length - ed.cursor by omega,
        h.buf.load_drop hcur]
    subst ht
    refine ⟨h.sound.write (by omega) ?_, ?_⟩
    · rw [Mem.length_load]
      change cm.buf + s.num + 1 + (s.eolNum + 1 - s.num - 1) ≤ _
      omega
    · change s.mem.store (cm.buf + s.num + 1) (s.mem.load (cm.buf + s.num) _) = _
      rw [hload, hnum]
  · subst ht
    refine ⟨h.sound, ?_⟩
    rw [List.drop_of_length_le (by omega), Mem.store_nil]

theorem addChar_follows (h : Follows cm s ed) (hroom : ¬ed.Refuses) (c : UInt8) :
    Follows cm (creadAddChar cm c maxCmdbufSize s) (ed.put c) := by
  have hgrow : (s.insert = true ∨ s.num = s.eolNum) ↔ ed.Grows := by
    rw [Editor.Grows, h.insert, h.num, h.eolNum]
  have hmax : lineMax = 255 := rfl
  have hlen := h.length_lt
  have hcur := h.cursor_le
  have hsize : consoleBufferSize = maxCmdbufSize := rfl
  have hcmd : maxCmdbufSize = 256 := rfl
  have hfull : ¬((s.insert = true ∨ s.num = s.eolNum) ∧ s.eolNum > maxCmdbufSize - 1) := by
    rw [hgrow, h.eolNum]
    intro hf
    omega
  rw [creadAddChar, if_neg hfull, Editor.put, if_neg hroom]
  by_cases hg : ed.Grows
  · have hshort : ed.text.length < lineMax := Nat.not_le.1 fun hle => hroom ⟨hg, hle⟩
    have hlength : (ed.text.take ed.cursor ++ c :: ed.text.drop ed.cursor).length =
        ed.text.length + 1 := by
      simp
      omega
    rw [if_pos (hgrow.2 hg), if_pos hg]
    dsimp only
    by_cases hi : s.insert = true
    · rw [if_pos hi]
      obtain ⟨tnum, teol, tins, tesc, -⟩ := moveUp_fields cm
        { s with eolNum := s.eolNum + 1 } (s.eolNum + 1 - s.num)
      obtain ⟨hs, hmem⟩ := moveUp_sound h rfl
      generalize ({ s with eolNum := s.eolNum + 1 } : Cread).moveUp cm (s.eolNum + 1 - s.num) =
        t at *
      dsimp only at tnum teol tins tesc
      refine ⟨hs.write (by omega) ?_, congrArg (· + 1) (tnum.trans h.num), ?_, ?_, ?_, ?_,
        tins.trans h.insert, tesc.trans h.esc⟩
      · rw [List.length_singleton, tnum, h.num]
        omega
      · exact (teol.trans (congrArg (· + 1) h.eolNum)).trans hlength.symm
      · rw [hlength]
        exact Nat.succ_le_succ hcur
      · rw [hlength]
        omega
      · change Holds (t.mem.store (cm.buf + t.num) [c]) cm.buf _
        rw [hmem, tnum, h.num]
        exact h.buf.insert hcur c
    · have hend : ed.cursor = ed.text.length := by
        refine hg.resolve_left fun h' => hi (h.insert.trans h')
      rw [if_neg hi]
      refine ⟨h.sound.write (by omega) ?_, congrArg (· + 1) h.num, ?_, ?_, ?_, ?_,
        h.insert, h.esc⟩
      · rw [List.length_singleton, h.num]
        omega
      · exact (congrArg (· + 1) h.eolNum).trans hlength.symm
      · rw [hlength]
        exact Nat.succ_le_succ hcur
      · rw [hlength]
        omega
      · change Holds (s.mem.store (cm.buf + s.num) [c]) cm.buf _
        rw [h.num, List.drop_of_length_le hend.ge]
        exact h.buf.splice hcur [c]
  · have hins : ed.insert = false := by
      simpa using fun hi => hg (.inl hi)
    have hlt : ed.cursor < ed.text.length := by
      have hne : ed.cursor ≠ ed.text.length := fun he => hg (.inr he)
      omega
    rw [if_neg (fun hs => hg (hgrow.1 hs)), if_neg hg]
    dsimp only
    rw [if_neg (by rw [h.insert, hins]; exact Bool.false_ne_true)]
    have hlength : (ed.text.take ed.cursor ++ c :: ed.text.drop (ed.cursor + 1)).length =
        ed.text.length := by
      simp
      omega
    refine ⟨h.sound.write (by omega) ?_, congrArg (· + 1) h.num, ?_, ?_, ?_, ?_,
      h.insert, h.esc⟩
    · rw [List.length_singleton, h.num]
      omega
    · exact h.eolNum.trans hlength.symm
    · rw [hlength]
      exact hlt
    · rw [hlength]
      exact hlen
    · change Holds (s.mem.store (cm.buf + s.num) [c]) cm.buf _
      rw [h.num]
      exact h.buf.overwrite hlt c

theorem addStr_follows : ∀ (cs : List UInt8) {s : Cread} {ed : Editor}, Follows cm s ed →
    ¬Editor.RefusesAny cs ed → Follows cm (creadAddStr cm maxCmdbufSize cs s) (ed.type cs)
  | [], _, _, h, _ => h
  | c :: cs, _, _, h, hroom =>
    addStr_follows cs (addChar_follows h (fun hr => hroom (.inl hr)) c) fun hr => hroom (.inr hr)

theorem home_follows (h : Follows cm s ed) : Follows cm s.beginningOfLine (ed.edit .home) :=
  { h with
    num := rfl
    cursor_le := Nat.zero_le _ }

theorem eraseToEol_eq (s : Cread) : s.eraseToEol = { s with eolNum := min s.eolNum s.num } := by
  unfold Cread.eraseToEol
  split_ifs with h
  · rw [Nat.min_eq_right h.le]
  · rw [Nat.min_eq_left (Nat.le_of_not_lt h)]

theorem refreshToEol_eq (s : Cread) : s.refreshToEol = { s with num := max s.num s.eolNum } := by
  unfold Cread.refreshToEol
  split_ifs with h
  · rw [Nat.max_eq_right h.le]
  · rw [Nat.max_eq_left (Nat.le_of_not_lt h)]

theorem kill_follows (h : Follows cm s ed) : Follows cm s.eraseToEol (ed.edit .kill) := by
  have hcur := h.cursor_le
  have hnum := h.num
  have heol := h.eolNum
  have hlen := h.length_lt
  have hlength : (ed.text.take ed.cursor).length = ed.cursor := List.length_take_of_le hcur
  rw [eraseToEol_eq]
  exact { h with
    eolNum := by change min _ _ = (ed.text.take ed.cursor).length; omega
    cursor_le := hlength.ge
    length_lt := by change (ed.text.take ed.cursor).length < _; omega
    buf := h.buf.take ed.cursor }

theorem toEnd_follows (h : Follows cm s ed) : Follows cm s.refreshToEol (ed.edit .toEnd) := by
  have hcur := h.cursor_le
  have hnum := h.num
  have heol := h.eolNum
  rw [refreshToEol_eq]
  exact { h with
    num := by change max _ _ = ed.text.length; omega
    cursor_le := le_rfl }

theorem right_follows (h : Follows cm s ed) :
    Follows cm (if s.num < s.eolNum then { s with num := s.num + 1 } else s) (ed.edit .right) := by
  have hcur := h.cursor_le
  have hnum := h.num
  have heol := h.eolNum
  split_ifs with hlt
  · exact { h with
      num := by change s.num + 1 = min _ _; omega
      cursor_le := min_le_right _ _ }
  · exact { h with
      num := by change s.num = min _ _; omega
      cursor_le := min_le_right _ _ }

theorem left_follows (h : Follows cm s ed) :
    Follows cm (if s.num ≠ 0 then { s with num := s.num - 1 } else s) (ed.edit .left) := by
  have hcur := h.cursor_le
  have hnum := h.num
  have hle : ed.cursor - 1 ≤ ed.text.length := by omega
  by_cases hz : s.num = 0
  · rw [if_neg (not_not.2 hz)]
    exact { h with
      num := by change s.num = ed.cursor - 1; omega
      cursor_le := hle }
  · rw [if_pos hz]
    exact { h with
      num := congrArg (· - 1) hnum
      cursor_le := hle }

theorem mode_follows (h : Follows cm s ed) :
    Follows cm { s with insert := !s.insert } (ed.edit .mode) :=
  { h with insert := congrArg (!·) h.insert }

/-- Moving the end of the line down over the byte at `p`. -/
theorem moveDown_follows (h : Follows cm s ed) {p : ℕ} (hp : p < ed.text.length) :
    Follows cm { s.memmove (cm.buf + p) (cm.buf + p + 1) (s.eolNum - p - 1) with
        num := p
        eolNum := s.eolNum - 1 }
      { ed with text := ed.text.eraseIdx p, cursor := p } := by
  have heol := h.eolNum
  have hlen := h.length_lt
  have hsize : consoleBufferSize = maxCmdbufSize := rfl
  have hlength : (ed.text.eraseIdx p).length = ed.text.length - 1 := List.length_eraseIdx_of_lt hp
  have hload : s.mem.load (cm.buf + p + 1) (s.eolNum - p - 1) = ed.text.drop (p + 1) := by
    rw [heol, Nat.sub_sub, Nat.add_assoc, h.buf.load_drop hp]
  refine ⟨h.sound.write (by omega) ?_, rfl, ?_, ?_, ?_, ?_, h.insert, h.esc⟩
  · rw [Mem.length_load]
    omega
  · exact (congrArg (· - 1) heol).trans hlength.symm
  · change p ≤ (ed.text.eraseIdx p).length
    omega
  · change (ed.text.eraseIdx p).length < _
    omega
  · change Holds (s.mem.store (cm.buf + p) (s.mem.load _ _)) cm.buf (ed.text.eraseIdx p)
    rw [hload, List.eraseIdx_eq_take_drop_succ]
    exact h.buf.splice hp.le _

theorem eraseHere_follows (h : Follows cm s ed) : Follows cm (s.eraseHere cm)
    (ed.edit .eraseHere) := by
  have hcur := h.cursor_le
  have hnum := h.num
  have heol := h.eolNum
  have hlen := h.length_lt
  unfold Cread.eraseHere
  by_cases hlt : s.num < s.eolNum
  · rw [if_pos hlt]
    dsimp only
    by_cases hw : s.eolNum - s.num - 1 ≠ 0
    · rw [if_pos hw]
      have hmove := moveDown_follows h (p := ed.cursor) (by omega)
      rw [← hnum] at hmove
      have hedit : ed.edit .eraseHere =
          { ed with text := ed.text.eraseIdx s.num, cursor := s.num } := by
        rw [hnum]
        rfl
      rw [hedit]
      exact hmove
    · have hlast : ed.text.eraseIdx ed.cursor = ed.text.take ed.cursor := by
        rw [List.eraseIdx_eq_take_drop_succ, List.drop_of_length_le (by omega), List.append_nil]
      have hlength : (ed.text.take ed.cursor).length = ed.cursor := List.length_take_of_le hcur
      rw [if_neg hw, Editor.edit, hlast]
      exact { h with
        eolNum := by change s.eolNum - 1 = (ed.text.take ed.cursor).length; omega
        cursor_le := hlength.ge
        length_lt := by change (ed.text.take ed.cursor).length < _; omega
        buf := h.buf.take ed.cursor }
  · rw [if_neg hlt, Editor.edit, List.eraseIdx_of_length_le (by omega)]
    exact h

theorem eraseBack_follows (h : Follows cm s ed) : Follows cm (s.eraseBack cm)
    (ed.edit .eraseBack) := by
  have hcur := h.cursor_le
  have hnum := h.num
  have heol := h.eolNum
  unfold Cread.eraseBack
  rw [Editor.edit]
  by_cases hz : s.num = 0
  · rw [if_neg (not_not.2 hz), if_pos (by omega)]
    exact h
  · rw [if_pos hz, if_neg (by omega)]
    have hmove := moveDown_follows h (p := ed.cursor - 1) (by omega)
    have hcount : s.eolNum - (ed.cursor - 1) - 1 = s.eolNum - ed.cursor := by omega
    rw [hcount, ← hnum] at hmove
    rw [← hnum]
    exact hmove

theorem clear_follows (h : Follows cm s ed) :
    Follows cm s.beginningOfLine.eraseToEol (ed.edit .clear) := by
  have hkill := kill_follows (home_follows h)
  have hedit : (ed.edit .home).edit .kill = ed.edit .clear := by
    simp [Editor.edit]
  rw [hedit] at hkill
  exact hkill

/-- However long the line was, the one that comes in its place is all there is. -/
theorem recall_eq (s : Cread) (line : List UInt8) (hist : Hist) :
    s.recall cm (some line, hist) =
      { s.write cm.buf (line ++ [0]) with
        hist := hist
        num := strlen (s.mem.store cm.buf (line ++ [0])) cm.buf
        eolNum := strlen (s.mem.store cm.buf (line ++ [0])) cm.buf } := by
  rw [Cread.recall]
  dsimp only
  rw [eraseToEol_eq, refreshToEol_eq]
  simp [Cread.write, Cread.beginningOfLine]

/-- A line of the history in place of the one there. -/
theorem recall_follows (h : Follows cm s ed) {hist : Hist} {line : List UInt8} {back : ℕ}
    (hk : Kept cm s.mem hist ed.past back) (hclean : 0 ∉ line) (hlen : line.length <
      maxCmdbufSize) :
    Follows cm (s.recall cm (some line, hist))
      { ed with text := line, cursor := line.length, back := back } := by
  have hsize : consoleBufferSize = maxCmdbufSize := rfl
  have hcmd : maxCmdbufSize = 256 := rfl
  have hholds := holds_store s.mem cm.buf (line ++ [0])
  have hstrlen : strlen (s.mem.store cm.buf (line ++ [0])) cm.buf = line.length := by
    rw [strlen_eq hholds (by omega), takeWhile_clean hclean]
  rw [recall_eq, hstrlen]
  have hs : Sound cm s.mem s.writes hist ed.past back := ⟨h.sound.writes, hk⟩
  refine ⟨hs.write le_rfl ?_, rfl, rfl, le_rfl, hlen, (holds_append.1 hholds).1, h.insert, h.esc⟩
  rw [List.length_append, List.length_singleton]
  omega

section Recall

variable {m : Mem} {hist : Hist}

/-- The string in the slot of a line is the line. -/
theorem Kept.cstr_slot (k : Kept cm m hist past back) {i : ℕ} (hi : i < past.length) :
    cstr m (cm.slot (slotBack hist (i + 1))) = past[i] := by
  have hclean := k.clean _ (List.getElem_mem hi)
  have hsize : histSize = 256 := rfl
  rw [cstr_eq (k.slot i hi) (by omega), takeWhile_clean hclean.1]

theorem histPrev_none (k : Kept cm m hist past back) (hb : past.length ≤ back) :
    histPrev cm m hist = (none, hist) := by
  have hback := k.back_le
  have hmax := k.max_eq
  have hadd := k.addIdx_le
  unfold histPrev
  by_cases hneg : hist.cur < 0
  · rw [if_pos hneg]
  · have hcur := k.cur_eq.resolve_right fun hc => hneg (by omega)
    rw [if_neg hneg]
    dsimp only
    rw [if_pos]
    unfold slotBack at hcur
    split_ifs at hcur ⊢ <;> omega

theorem histPrev_some (k : Kept cm m hist past back) (hb : back < past.length) :
    histPrev cm m hist =
      (some past[back], { hist with cur := (slotBack hist (back + 1) : ℕ) }) := by
  have hmax := k.max_eq
  have hadd := k.addIdx_le
  have hcur := k.cur_eq.resolve_right fun hc => by simp [hc.2] at hb
  have hneg : ¬hist.cur < 0 := by omega
  have hprev : (if hist.cur - 1 < 0 then (hist.max : ℤ) else hist.cur - 1) =
      (slotBack hist (back + 1) : ℕ) := by
    rw [hcur]
    unfold slotBack
    split_ifs <;> omega
  have hne : ((slotBack hist (back + 1) : ℕ) : ℤ) ≠ hist.addIdx := by
    unfold slotBack
    split_ifs <;> omega
  rw [histPrev, if_neg hneg]
  dsimp only
  rw [hprev, if_neg hne, Int.toNat_natCast, k.cstr_slot hb]

theorem histNext_zero (k : Kept cm m hist past 0) : histNext cm m hist = (none, hist) := by
  unfold histNext
  by_cases hneg : hist.cur < 0
  · rw [if_pos hneg]
  · have hcur := k.cur_eq.resolve_right fun hc => hneg (by omega)
    rw [if_neg hneg, if_pos]
    rw [hcur, slotBack, if_pos (Nat.zero_le _), Nat.sub_zero]

/-- One line on towards the last one. -/
theorem histNext_succ {n : ℕ} (k : Kept cm m hist past (n + 1)) :
    histNext cm m hist =
      (some (if n = 0 then [] else past.getD (n - 1) []),
        { hist with cur := (slotBack hist n : ℕ) }) := by
  have hmax := k.max_eq
  have hadd := k.addIdx_le
  have hback := k.back_le
  have hcur := k.cur_eq.resolve_right fun hc => by simp [hc.2] at hback
  have hneg : ¬hist.cur < 0 := by omega
  have hne : ¬hist.cur = hist.addIdx := by
    rw [hcur]
    unfold slotBack
    split_ifs <;> omega
  have hnext : (if hist.cur + 1 > hist.max then (0 : ℤ) else hist.cur + 1) =
      (slotBack hist n : ℕ) := by
    rw [hcur]
    unfold slotBack
    split_ifs <;> omega
  rw [histNext, if_neg hneg, if_neg hne]
  dsimp only
  rw [hnext]
  rcases n with _ | n
  · rw [slotBack, if_pos (Nat.zero_le _), Nat.sub_zero, if_pos rfl, if_pos rfl]
  · have hne' : ((slotBack hist (n + 1) : ℕ) : ℤ) ≠ hist.addIdx := by
      unfold slotBack
      split_ifs <;> omega
    rw [if_neg hne', if_neg (Nat.succ_ne_zero n), Int.toNat_natCast, Nat.add_sub_cancel,
      k.cstr_slot (by omega), List.getD_eq_getElem _ _ (by omega)]

/-- The position of a line once another has been entered. -/
theorem slotBack_add (k : Kept cm m hist past back) {h' : Hist}
    (hadd : h'.addIdx = if hist.addIdx + 1 ≥ histSlots then 0 else hist.addIdx + 1)
    (hmax : h'.max = if h'.addIdx > hist.max then h'.addIdx else hist.max) {b : ℕ}
    (hb : b + 1 ≤ h'.max) : slotBack h' (b + 1) = slotBack hist b := by
  have haddle := k.addIdx_le
  have hlt := k.max_lt
  have heq := k.addIdx_eq
  unfold slotBack
  rcases Nat.lt_or_ge (hist.max + 1) histSlots with h | h
  · have := heq h
    rw [if_neg (by omega)] at hadd
    rw [if_pos (by omega)] at hmax
    split_ifs <;> omega
  · split_ifs at hadd
    · rw [if_neg (by omega)] at hmax
      split_ifs <;> omega
    · rw [if_neg (by omega)] at hmax
      split_ifs <;> omega

/-- The history with a line that has been entered. -/
theorem Kept.add (k : Kept cm m hist past back) {line : List UInt8} (hclean : 0 ∉ line)
    (hlen : line.length < histSize) (h' : Hist)
    (hadd : h'.addIdx = if hist.addIdx + 1 ≥ histSlots then 0 else hist.addIdx + 1)
    (hmax : h'.max = if h'.addIdx > hist.max then h'.addIdx else hist.max)
    (hcur : h'.cur = h'.addIdx) :
    Kept cm (m.store (cm.slot hist.addIdx) (line ++ [0])) h' ((line :: past).take pastMax) 0 := by
  have hback (b : ℕ) (hb : b + 1 ≤ h'.max) := slotBack_add k hadd hmax hb
  have haddle := k.addIdx_le
  have hlt := k.max_lt
  have heq := k.addIdx_eq
  have hpast := k.max_eq
  have hslots : histSlots = 20 := rfl
  have hlines : ((line :: past).take pastMax).length = h'.max := by
    rw [List.length_take, List.length_cons, pastMax, ← hpast]
    split_ifs at hadd hmax <;> omega
  have hmaxlt : h'.max < histSlots := by
    split_ifs at hadd hmax <;> omega
  have haddle' : h'.addIdx ≤ h'.max := by
    split_ifs at hmax <;> omega
  refine ⟨hlines.symm, haddle', hmaxlt, fun hfew => ?_, fun i hi => ?_, fun l hl => ?_,
    Nat.zero_le _, .inl ?_⟩
  · split_ifs at hadd hmax <;> omega
  · rw [hback i (by omega), List.getElem_take]
    rcases i with _ | i
    · rw [slotBack, if_pos (Nat.zero_le _), Nat.sub_zero]
      exact holds_store m _ _
    · rw [List.length_take, List.length_cons] at hi
      have hi' : i < past.length := by omega
      refine (k.slot i hi').store ?_
      have hne : slotBack hist (i + 1) ≠ hist.addIdx := by
        unfold slotBack
        split_ifs <;> omega
      have hsmall := (k.clean _ (List.getElem_mem hi')).2
      simp only [ConsoleMem.slot, histSize, maxCmdbufSize, List.length_append,
        List.length_singleton] at *
      omega
  · rcases List.mem_cons.1 (List.mem_of_mem_take hl) with rfl | hl
    · exact ⟨hclean, hlen⟩
    · exact k.clean l hl
  · rw [hcur, slotBack, if_pos (Nat.zero_le _), Nat.sub_zero]

end Recall

theorem older_follows (h : Follows cm s ed) :
    Follows cm (s.recall cm (histPrev cm s.mem s.hist)) ed.older := by
  have k := h.sound.kept
  unfold Editor.older
  rcases hp : ed.past[ed.back]? with _ | text
  · rw [histPrev_none k (List.getElem?_eq_none_iff.1 hp)]
    exact h
  · obtain ⟨hlt, rfl⟩ := List.getElem?_eq_some_iff.1 hp
    rw [histPrev_some k hlt]
    have hclean := k.clean _ (List.getElem_mem hlt)
    exact recall_follows h { k with
      back_le := hlt
      cur_eq := .inl rfl } hclean.1 hclean.2

theorem newer_follows (h : Follows cm s ed) :
    Follows cm (s.recall cm (histNext cm s.mem s.hist)) ed.newer := by
  have k := h.sound.kept
  have hback := k.back_le
  unfold Editor.newer
  rcases hb : ed.back with _ | n
  · rw [hb] at k
    rw [histNext_zero k]
    exact h
  · rw [hb] at k hback
    have hnew : Kept cm s.mem { s.hist with cur := (slotBack s.hist n : ℕ) } ed.past n := { k with
      back_le := by omega
      cur_eq := .inl rfl }
    rw [histNext_succ k]
    refine recall_follows h hnew ?_ ?_
    · split_ifs with hn
      · exact List.not_mem_nil
      · rw [List.getD_eq_getElem _ _ (by omega)]
        exact (k.clean _ (List.getElem_mem _)).1
    · split_ifs with hn
      · exact Nat.zero_lt_of_lt h.length_lt
      · rw [List.getD_eq_getElem _ _ (by omega)]
        exact (k.clean _ (List.getElem_mem _)).2

/-- What the switch does to carry out an edit. -/
def creadEdit (cm : ConsoleMem) (len : ℕ) : Edit → Cread → Cread
  | .home, s => s.beginningOfLine
  | .left, s => if s.num ≠ 0 then { s with num := s.num - 1 } else s
  | .right, s => if s.num < s.eolNum then { s with num := s.num + 1 } else s
  | .toEnd, s => s.refreshToEol
  | .eraseHere, s => s.eraseHere cm
  | .eraseBack, s => s.eraseBack cm
  | .kill, s => s.eraseToEol
  | .clear, s => s.beginningOfLine.eraseToEol
  | .mode, s => { s with insert := !s.insert }
  | .older, s => ({ s with esc := [] } : Cread).recall cm (histPrev cm s.mem s.hist)
  | .newer, s => ({ s with esc := [] } : Cread).recall cm (histNext cm s.mem s.hist)
  | .put c, s => creadAddChar cm c len s

theorem creadSwitch_eq (cm : ConsoleMem) (len : ℕ) (s : Cread) {key : UInt8} (hkey : key ≠ 0x1b)
    (hbreak : key ≠ ctlCh 'c') : creadSwitch cm len key s = (creadEdit cm len (editOf key) s,
      none) := by
  by_cases h1 : key = ctlCh 'a'
  · rw [h1]
    rfl
  by_cases h2 : key = ctlCh 'f'
  · rw [h2]
    rfl
  by_cases h3 : key = ctlCh 'b'
  · rw [h3]
    rfl
  by_cases h4 : key = ctlCh 'd'
  · rw [h4]
    rfl
  by_cases h5 : key = ctlCh 'k'
  · rw [h5]
    rfl
  by_cases h6 : key = ctlCh 'e'
  · rw [h6]
    rfl
  by_cases h7 : key = ctlCh 'o'
  · rw [h7]
    rfl
  by_cases h8 : key = ctlCh 'x' ∨ key = ctlCh 'u'
  · rcases h8 with h8 | h8 <;> rw [h8] <;> rfl
  by_cases h9 : key = 255 ∨ key = 127 ∨ key = 8
  · rcases h9 with h9 | h9 | h9 <;> rw [h9] <;> rfl
  by_cases h10 : key = ctlCh 'p'
  · rw [h10]
    rfl
  by_cases h11 : key = ctlCh 'n'
  · rw [h11]
    rfl
  have he : editOf key = .put key := by
    simp only [editOf, if_neg h1, if_neg h2, if_neg h3, if_neg h4, if_neg h5, if_neg h6, if_neg h7,
      if_neg h8, if_neg h9, if_neg h10, if_neg h11]
  rw [he]
  simp only [creadSwitch, creadEdit, if_neg hkey, if_neg hbreak, if_neg h1, if_neg h2, if_neg h3,
    if_neg h4, if_neg h5, if_neg h6, if_neg h7, if_neg h8, if_neg h9, if_neg h10, if_neg h11]

theorem release_held (h : Follows cm s ed) (hesc : s.esc = []) : Follows cm { s with esc :=
    [] } ed := by
  rw [← hesc]
  exact h

/-- An edit for which there is room. -/
theorem edit_follows (h : Follows cm s ed) (hesc : s.esc = []) :
    ∀ (e : Edit), (∀ c, e = .put c → ¬ed.Refuses) →
      Follows cm (creadEdit cm maxCmdbufSize e s) (ed.edit e)
  | .home, _ => home_follows h
  | .left, _ => left_follows h
  | .right, _ => right_follows h
  | .toEnd, _ => toEnd_follows h
  | .eraseHere, _ => eraseHere_follows h
  | .eraseBack, _ => eraseBack_follows h
  | .kill, _ => kill_follows h
  | .clear, _ => clear_follows h
  | .mode, _ => mode_follows h
  | .older, _ => older_follows (release_held h hesc)
  | .newer, _ => newer_follows (release_held h hesc)
  | .put c, hroom => addChar_follows h (hroom c rfl) c

theorem arrow_eq (key : UInt8) : arrow key = (escKey key).map editOf := by
  unfold arrow escKey
  split_ifs <;> rfl

/-- The lines that the history takes. -/
theorem kept_line_iff {m : Mem} {a : ℕ} {text : List UInt8} (h : Holds m a (text ++ [0])) :
    (m a ≠ 0 ∧ m a ≠ '!'.toUInt8) ↔ ¬(text.takeWhile (· ≠ 0) = [] ∨
      (text.takeWhile (· ≠ 0)).head? = some '!'.toUInt8) := by
  rcases text with _ | ⟨b, text⟩
  · rw [List.nil_append, holds_cons] at h
    simp [h.1]
  · rw [List.cons_append, holds_cons] at h
    rw [h.1]
    by_cases hb : b = 0
    · simp [hb]
    · simp [hb]

/-- The new line comes after all the others. -/
theorem Kept.latest {m : Mem} {h : Hist} (k : Kept cm m h past back) :
    Kept cm m { h with cur := h.addIdx } past 0 :=
  { k with
    back_le := Nat.zero_le _
    cur_eq := .inl (by rw [slotBack, if_pos (Nat.zero_le _), Nat.sub_zero]) }

/-- Nothing of the line is there yet. -/
theorem creadLine_follows {m : Mem} {ws : List (ℕ × ℕ)} {h : Hist} (hs : Sound cm m ws h past back)
    (num eolNum : ℕ) (ins : Bool) (esc : List UInt8) :
    Follows cm (creadLine ⟨m, ws, h, num, eolNum, ins, esc⟩) ⟨[], 0, true, [], past, back⟩ where
  sound := hs
  num := rfl
  eolNum := rfl
  cursor_le := le_rfl
  length_lt := by change 0 < 256; omega
  buf := holds_nil _
  insert := rfl
  esc := rfl

/-- The slot after the last line takes a line. -/
theorem Sound.add {m : Mem} {ws : List (ℕ × ℕ)} {h h' : Hist} (hs : Sound cm m ws h past back)
    {line : List UInt8} (hlen : line.length < histSize)
    (hk : Kept cm (m.store (cm.slot h.addIdx) (line ++ [0])) h' ((line :: past).take pastMax) 0) :
    Sound cm (m.store (cm.slot h.addIdx) (line ++ [0]))
      (ws ++ [(cm.slot h.addIdx, (line ++ [0]).length)]) h' ((line :: past).take pastMax) 0 := by
  refine ⟨fun w hw => ?_, hk⟩
  rcases List.mem_append.1 hw with hw | hw
  · exact hs.writes w hw
  · rw [List.mem_singleton.1 hw]
    refine .inr ⟨h.addIdx, Nat.lt_of_le_of_lt hs.kept.addIdx_le hs.kept.max_lt, le_rfl, ?_⟩
    rw [List.length_append, List.length_singleton]
    dsimp only
    omega

/-- The end of a line. -/
theorem enter_follows (h : Follows cm s ed) : ∃ s', creadEnd cm s =
    (s', some ((ed.text.length : ℤ), ed.text ++ [0])) ∧ Follows cm (creadLine s') ed.enter := by
  have heol := h.eolNum
  have hlen := h.length_lt
  have hsize : consoleBufferSize = maxCmdbufSize := rfl
  have hcmd : maxCmdbufSize = 256 := rfl
  have hs : Sound cm (s.write (cm.buf + s.eolNum) [0]).mem (s.write (cm.buf + s.eolNum) [0]).writes
      (s.write (cm.buf + s.eolNum) [0]).hist ed.past ed.back :=
    h.sound.write (by omega) (by rw [List.length_singleton]; omega)
  have hbuf : Holds (s.write (cm.buf + s.eolNum) [0]).mem cm.buf (ed.text ++ [0]) := by
    have hsplice := h.buf.splice le_rfl [0]
    rwa [List.take_length, ← heol] at hsplice
  have hcount : (ed.text ++ [0]).length = s.eolNum + 1 := by
    rw [List.length_append, List.length_singleton, heol]
  unfold creadEnd
  dsimp only
  generalize s.write (cm.buf + s.eolNum) [0] = t at *
  have hline : cstr t.mem cm.buf = ed.text.takeWhile (· ≠ 0) := cstr_eq hbuf (by omega)
  have hclean := zero_notMem_takeWhile ed.text
  have hshort : (ed.text.takeWhile (· ≠ 0)).length < histSize :=
    (List.takeWhile_prefix _).length_le.trans_lt hlen
  have hiff := kept_line_iff hbuf
  unfold Editor.enter
  dsimp only
  by_cases hkeep : t.mem cm.buf ≠ 0 ∧ t.mem cm.buf ≠ '!'.toUInt8
  · rw [if_pos hkeep, if_neg (hiff.1 hkeep)]
    simp only [creadAddToHist, Cread.write, hline]
    have hk := hs.kept.add hclean hshort { t.hist.advance with cur := t.hist.advance.addIdx }
      rfl rfl rfl
    have hrest : Holds (t.mem.store (cm.slot t.hist.addIdx) (ed.text.takeWhile (· ≠ 0) ++ [0]))
      cm.buf
        (ed.text ++ [0]) := by
      refine hbuf.store ?_
      have hadd := hs.kept.addIdx_le
      have hmax := hs.kept.max_lt
      have hapart := cm.apart
      simp only [ConsoleMem.slot, histSize, maxCmdbufSize, histSlots, List.length_append,
        List.length_singleton] at *
      omega
    refine ⟨_, ?_, creadLine_follows (hs.add hshort hk) t.num t.eolNum t.insert t.esc⟩
    rw [Holds, hcount] at hrest
    rw [hrest, heol]
  · rw [if_neg hkeep, if_pos (not_not.1 fun hn => hkeep (hiff.2 hn))]
    have hk : Sound cm t.mem t.writes { t.hist with cur := t.hist.addIdx } ed.past 0 :=
      ⟨hs.writes, hs.kept.latest⟩
    refine ⟨_, ?_, creadLine_follows hk t.num t.eolNum t.insert t.esc⟩
    rw [Holds, hcount] at hbuf
    rw [hbuf, heol]

/-- `^C` -/
theorem cancel_follows (h : Follows cm s ed) : ∃ s', creadBreak cm s = (s', some (-1, [0])) ∧
    Follows cm (creadLine s') ed.cancel := by
  have hs : Sound cm (s.mem.store cm.buf [0]) _ s.hist ed.past ed.back :=
    h.sound.write le_rfl (by rw [List.length_singleton]; change cm.buf + 1 ≤ cm.buf + 256; omega)
  refine ⟨_, ?_, creadLine_follows hs s.num s.eolNum s.insert s.esc⟩
  have hzero := holds_store s.mem cm.buf [0]
  rw [Holds, List.length_singleton] at hzero
  rw [creadBreak]
  dsimp only [Cread.write]
  rw [hzero]

/-- What follows once the keys of a sequence are no longer held. -/
theorem Follows.release (h : Follows cm s ed) : Follows cm { s with esc := [] }
    { ed with esc := [] } :=
  { h with esc := rfl }

/-- The keys that the sequences stand for edit the line as it is. -/
theorem escKey_some {c key : UInt8} (h : escKey c = some key) :
    key ≠ 0x1b ∧ key ≠ ctlCh 'c' ∧ ∀ b, editOf key ≠ .put b := by
  unfold escKey at h
  split_ifs at h <;> cases h <;> refine ⟨by decide, by decide, ?_⟩ <;> rintro b ⟨⟩

/-- A key for which there is room. -/
theorem creadKey_follows (h : Follows cm s ed) {key : UInt8} (hroom : ¬ed.RefusesKey key) :
    (∃ s', creadKey cm maxCmdbufSize s key = (s', none) ∧ (ed.key key).2 = none ∧
      Follows cm s' (ed.key key).1) ∨
    ∃ s' line, creadKey cm maxCmdbufSize s key = (s', some line) ∧ (ed.key key).2 = some line ∧
      Follows cm (creadLine s') (ed.key key).1 := by
  unfold Editor.RefusesKey at hroom
  rw [creadKey, Editor.key]
  unfold keyAct at *
  by_cases hend : key = '\n'.toUInt8 ∨ key = '\r'.toUInt8
  · rw [if_pos hend, if_pos hend]
    obtain ⟨s', heq, hs'⟩ := enter_follows h
    exact .inr ⟨s', _, heq, rfl, hs'⟩
  · rw [if_neg hend] at hroom
    rw [if_neg hend, if_neg hend, h.esc]
    rcases hesc : ed.esc with _ | ⟨e, _ | ⟨e', esc⟩⟩
    · have hplain : Follows cm s { ed with esc := [] } := { h with esc := h.esc.trans hesc }
      rw [hesc] at hroom
      rw [if_neg (by simp)]
      by_cases hkey : key = 0x1b
      · refine .inl ⟨{ s with esc := [key] }, ?_, ?_, ?_⟩
        · rw [creadSwitch, if_pos hkey, h.esc, hesc, List.length_nil, if_pos rfl]
        · simp only [if_pos hkey, Editor.act]
        · simp only [if_pos hkey, Editor.act]
          exact { h with esc := rfl }
      by_cases hbreak : key = ctlCh 'c'
      · obtain ⟨s', heq, hs'⟩ := cancel_follows h
        rw [hbreak]
        exact .inr ⟨s', _, heq, rfl, hs'⟩
      · simp only [if_neg hkey, if_neg hbreak] at hroom ⊢
        refine .inl ⟨_, creadSwitch_eq cm _ s hkey hbreak, rfl, ?_⟩
        refine edit_follows hplain (h.esc.trans hesc) _ fun c he => ?_
        rw [he] at hroom
        exact hroom
    · rw [hesc] at hroom
      rw [if_pos (by simp), if_pos (by simp)]
      by_cases hkey : key = '['.toUInt8
      · simp only [if_pos hkey]
        exact .inl ⟨_, rfl, rfl, { h with esc := rfl }⟩
      · simp only [if_neg hkey] at hroom ⊢
        exact .inl ⟨_, rfl, rfl, { addStr_follows [e] h hroom with esc := rfl }⟩
    · rw [hesc] at hroom
      rw [if_pos (by simp), if_neg (by simp)]
      simp only [arrow_eq] at hroom ⊢
      rcases hk : escKey key with _ | k
      · simp only [hk, Option.map_none] at hroom ⊢
        exact .inl ⟨_, rfl, rfl, { addStr_follows _ h hroom with esc := rfl }⟩
      · simp only [Option.map_some]
        obtain ⟨hne, hbreak, hput⟩ := escKey_some hk
        exact .inl ⟨_, creadSwitch_eq cm _ _ hne hbreak, rfl,
          edit_follows h.release rfl _ fun c he => absurd he (hput c)⟩

end Keys

section Refusing

theorem addChar_eolNum (cm : ConsoleMem) (c : UInt8) (len : ℕ) (s : Cread) :
    (creadAddChar cm c len s).eolNum =
      if (s.insert = true ∨ s.num = s.eolNum) ∧ ¬s.eolNum > len - 1 then s.eolNum + 1
        else s.eolNum := by
  have hmove (s : Cread) (wlen : ℕ) := (moveUp_fields cm s wlen).2.1
  unfold creadAddChar
  by_cases hgrow : s.insert = true ∨ s.num = s.eolNum
  · by_cases hfull : s.eolNum > len - 1
    · simp only [hgrow, hfull, not_true_eq_false, and_false, and_true, if_true, if_false]
    · simp only [hgrow, hfull, not_false_eq_true, and_false, and_true, if_true, if_false,
        Cread.write]
      split_ifs
      · exact hmove _ _
      · rfl
  · obtain ⟨hins, hne⟩ := not_or.1 hgrow
    simp [hins, hne, Cread.write]

theorem addChar_mono (cm : ConsoleMem) (c : UInt8) (len : ℕ) (s : Cread) :
    s.eolNum ≤ (creadAddChar cm c len s).eolNum := by
  rw [addChar_eolNum]
  split_ifs
  · exact Nat.le_succ _
  · exact le_rfl

theorem addStr_mono (cm : ConsoleMem) (len : ℕ) : ∀ (cs : List UInt8) (s : Cread),
    s.eolNum ≤ (creadAddStr cm len cs s).eolNum
  | [], _ => le_rfl
  | c :: cs, s => (addChar_mono cm c len s).trans (addStr_mono cm len cs _)

/-- The byte too many for which there is no room is taken. -/
theorem addChar_refused (h : Follows cm s ed) (hr : ed.Refuses) (c : UInt8) :
    consoleBufferSize ≤ (creadAddChar cm c maxCmdbufSize s).eolNum := by
  obtain ⟨hgrow, hfull⟩ := hr
  have hlen := h.length_lt
  have heol := h.eolNum
  have hmax : lineMax = maxCmdbufSize - 1 := rfl
  have hsize : consoleBufferSize = maxCmdbufSize := rfl
  rw [Editor.Grows, ← h.insert, ← h.num, ← heol] at hgrow
  rw [addChar_eolNum, if_pos ⟨hgrow, by omega⟩]
  omega

theorem addStr_refused : ∀ (cs : List UInt8) {s : Cread} {ed : Editor}, Follows cm s ed →
    Editor.RefusesAny cs ed → consoleBufferSize ≤ (creadAddStr cm maxCmdbufSize cs s).eolNum
  | c :: cs, s, ed, h, hr => by
    by_cases hnow : ed.Refuses
    · exact (addChar_refused h hnow c).trans (addStr_mono cm _ cs _)
    · exact addStr_refused cs (addChar_follows h hnow c) (hr.resolve_left hnow)

/-- A key for which there is no room leaves a line that goes past the buffer. -/
theorem readlineKey_refused (h : Follows cm s ed) {key : UInt8} (hr : ed.RefusesKey key) :
    consoleBufferSize ≤ (readlineKey cm s key).1.eolNum := by
  unfold Editor.RefusesKey keyAct at hr
  unfold readlineKey
  rw [creadKey]
  by_cases hend : key = '\n'.toUInt8 ∨ key = '\r'.toUInt8
  · rw [if_pos hend] at hr
    exact hr.elim
  · rw [if_neg hend] at hr
    rw [if_neg hend, h.esc]
    rcases hesc : ed.esc with _ | ⟨e, _ | ⟨e', esc⟩⟩
    · rw [hesc] at hr
      rw [if_neg (by simp)]
      by_cases hkey : key = 0x1b
      · simp only [if_pos hkey] at hr
      by_cases hbreak : key = ctlCh 'c'
      · simp only [if_neg hkey, if_pos hbreak] at hr
      · simp only [if_neg hkey, if_neg hbreak] at hr
        rw [creadSwitch_eq cm _ s hkey hbreak]
        rcases he : editOf key <;> rw [he] at hr <;> try exact hr.elim
        exact addChar_refused h hr _
    · rw [hesc] at hr
      rw [if_pos (by simp), if_pos (by simp)]
      by_cases hkey : key = '['.toUInt8
      · simp only [if_pos hkey] at hr
      · simp only [if_neg hkey] at hr ⊢
        exact addStr_refused [e] h hr
    · rw [hesc] at hr
      rw [if_pos (by simp), if_neg (by simp)]
      simp only [arrow_eq] at hr
      rcases hk : escKey key with _ | k
      · simp only [hk, Option.map_none] at hr ⊢
        exact addStr_refused _ h hr
      · simp only [hk, Option.map_some] at hr
        obtain ⟨-, -, hput⟩ := escKey_some hk
        rcases he : editOf k <;> rw [he] at hr <;> try exact hr.elim
        exact absurd he (hput _)

end Refusing

section Sessions

/-- A key, and the next line where it ends one. -/
theorem readlineKey_follows (h : Follows cm s ed) {key : UInt8} (hroom : ¬ed.RefusesKey key) :
    (readlineKey cm s key).2 = (ed.key key).2 ∧ Follows cm (readlineKey cm s key).1
      (ed.key key).1 := by
  unfold readlineKey
  rcases creadKey_follows h hroom with ⟨s', heq, hout, hs'⟩ | ⟨s', line, heq, hout, hs'⟩
  · rw [heq, hout]
    exact ⟨rfl, hs'⟩
  · rw [heq, hout]
    exact ⟨rfl, hs'⟩

theorem histInitLoop_spec (cm : ConsoleMem) (s : Cread) (hw : ∀ w ∈ s.writes, cm.Inside w) :
    ∀ n ≤ histSlots,
    (∀ w ∈ (histInitLoop cm n s).writes, cm.Inside w) ∧ (histInitLoop cm n s).hist = s.hist
  | 0, _ => ⟨hw, rfl⟩
  | n + 1, hn => by
    obtain ⟨hwrites, hhist⟩ := histInitLoop_spec cm s hw n (by omega)
    refine ⟨fun w hw => ?_, hhist⟩
    rcases List.mem_append.1 hw with hw | hw
    · exact hwrites w hw
    · rw [List.mem_singleton.1 hw]
      refine .inr ⟨n, hn, le_rfl, ?_⟩
      change cm.slot n + 1 ≤ cm.slot n + 256
      omega

theorem histInit_spec (cm : ConsoleMem) (s : Cread) (hw : ∀ w ∈ s.writes, cm.Inside w) :
    (∀ w ∈ (histInit cm s).writes, cm.Inside w) ∧ (histInit cm s).hist = ⟨0, 0, -1⟩ := by
  unfold histInit
  exact histInitLoop_spec cm { s with hist := ⟨0, 0, -1⟩ } hw histSlots le_rfl

/-- A line after `hist_init`. -/
theorem creadLine_start (cm : ConsoleMem) (s : Cread) (hwrites : ∀ w ∈ s.writes, cm.Inside w)
    (hhist : s.hist = ⟨0, 0, -1⟩) : Follows cm (creadLine s) editorStart := by
  have hk : Kept cm s.mem s.hist [] 0 := by
    rw [hhist]
    refine ⟨rfl, le_rfl, ?_, fun _ => rfl, fun i hi => absurd hi (Nat.not_lt_zero i),
      fun l hl => absurd hl List.not_mem_nil, le_rfl, .inr ⟨rfl, rfl⟩⟩
    change 0 < 20
    omega
  exact creadLine_follows ⟨hwrites, hk⟩ s.num s.eolNum s.insert s.esc

theorem readlineStart_follows (cm : ConsoleMem) (m : Mem) :
    Follows cm (readlineStart cm m) editorStart := by
  obtain ⟨hwrites, hhist⟩ := histInit_spec cm ⟨m, [], ⟨0, 0, -1⟩, 0, 0, true, []⟩
    fun w hw => absurd hw List.not_mem_nil
  exact creadLine_start cm _ hwrites hhist

/-- The rest of the keys from the state that the first one leads to. -/
theorem CreadRight.tail {key : UInt8} {keys : List UInt8} (h : CreadRight cm s ed (key :: keys))
    (hout : (readlineKey cm s key).2 = (ed.key key).2) :
    CreadRight cm (readlineKey cm s key).1 (ed.key key).1 keys where
  bounds pre hpre := h.bounds (key :: pre) (List.cons_prefix_cons.2 ⟨rfl, hpre⟩)
  writes := h.writes
  lines := by
    have hlines := h.lines
    simp only [readlineKeys, Editor.keys, hout] at hlines
    exact List.append_cancel_left hlines

theorem cread_right_of_fits : ∀ {keys : List UInt8} {s : Cread} {ed : Editor}, Follows cm s ed →
    ed.Fits keys → CreadRight cm s ed keys
  | [], s, ed, h, _ => by
    have hnum := h.num
    have heol := h.eolNum
    have hcur := h.cursor_le
    have hlen := h.length_lt
    have hsize : consoleBufferSize = maxCmdbufSize := rfl
    refine ⟨fun pre hpre => ?_, h.sound.writes, rfl⟩
    rw [List.prefix_nil.1 hpre]
    change s.num ≤ s.eolNum ∧ s.eolNum < _
    omega
  | key :: keys, s, ed, h, hfit => by
    obtain ⟨hout, hnext⟩ := readlineKey_follows h hfit.1
    have hrest := cread_right_of_fits hnext hfit.2
    have hnow : CreadRight cm s ed [] := cread_right_of_fits h trivial
    refine ⟨fun pre hpre => ?_, hrest.writes, ?_⟩
    · rcases pre with _ | ⟨k, pre⟩
      · exact hnow.bounds [] List.nil_prefix
      · obtain ⟨rfl, hpre'⟩ := List.cons_prefix_cons.1 hpre
        exact hrest.bounds pre hpre'
    · simp only [readlineKeys, Editor.keys, hout, hrest.lines]

theorem cread_fits_of_right : ∀ {keys : List UInt8} {s : Cread} {ed : Editor}, Follows cm s ed →
    CreadRight cm s ed keys → ed.Fits keys
  | [], _, _, _, _ => trivial
  | key :: keys, s, ed, h, hright => by
    have hroom : ¬ed.RefusesKey key := fun hr => by
      have hover := readlineKey_refused h hr
      have hin := (hright.bounds [key] (List.cons_prefix_cons.2 ⟨rfl, List.nil_prefix⟩)).2
      change (readlineKey cm s key).1.eolNum < _ at hin
      omega
    obtain ⟨hout, hnext⟩ := readlineKey_follows h hroom
    exact ⟨hroom, cread_fits_of_right hnext (hright.tail hout)⟩

/-- From the first call of `readline` on, whatever is typed: the positions and what is written stay
inside, and the lines are those of a line editor, as long as nothing is put into a full line. -/
theorem cread_line_right_iff (cm : ConsoleMem) (m : Mem) (keys : List UInt8) :
    CreadRight cm (readlineStart cm m) editorStart keys ↔ editorStart.Fits keys :=
  ⟨cread_fits_of_right (readlineStart_follows cm m), cread_right_of_fits
    (readlineStart_follows cm m)⟩

theorem not_fits_typing {past : List (List UInt8)} {back : ℕ} : ∀ (n : ℕ) (text : List UInt8),
    text.length + n = lineMax →
      ¬Editor.Fits ⟨text, text.length, true, [], past, back⟩ (List.replicate (n + 1) 0x61)
  | 0, text, hn => fun h => h.1 ⟨.inl rfl, hn.ge⟩
  | n + 1, text, hn => fun h => by
    have hshort : ¬Editor.Refuses ⟨text, text.length, true, [], past, back⟩ := fun hr => by
      have hfull : lineMax ≤ text.length := hr.2
      omega
    have hgrows : Editor.Grows ⟨text, text.length, true, [], past, back⟩ := .inl rfl
    have hnext : (Editor.key ⟨text, text.length, true, [], past, back⟩ 0x61).1 =
        ⟨text ++ [0x61], (text ++ [0x61]).length, true, [], past, back⟩ := by
      change Editor.put 0x61 ⟨text, text.length, true, [], past, back⟩ = _
      rw [Editor.put, if_neg hshort, if_pos hgrows]
      simp
    have hrest := h.2
    rw [hnext] at hrest
    refine not_fits_typing n (text ++ [0x61]) ?_ hrest
    rw [List.length_append, List.length_singleton]
    omega

/-- The buffer right before the slots. -/
def lowConsole : ConsoleMem := ⟨0, 256, .inl le_rfl⟩

/-- As many letters as the buffer has bytes. -/
theorem cread_line_full_line : ¬CreadRight lowConsole (readlineStart lowConsole fun _ => 0)
    editorStart
    (List.replicate 256 0x61) :=
  fun h => not_fits_typing 255 [] rfl (cread_fits_of_right (readlineStart_follows _ _) h)

end Sessions

end Following

end InfotmUboot
