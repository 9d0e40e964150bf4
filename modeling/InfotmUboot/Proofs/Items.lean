import InfotmUboot.Items

/-!
# Parsing the items

A text of items, comments and blank lines that keeps to the limits of the scanner is parsed line by
line into the table, and `item_string` finds the first value of every key (`item_init_finds`).
-/

namespace InfotmUboot

open Lib

section Text

variable {text : Mem}

/-- A loop goes over a run of its bytes that something else follows. -/
theorem scan_run {p : UInt8 → Bool} :
    ∀ {bs : List UInt8} {n s : ℕ}, Holds text s bs → (∀ b ∈ bs, p b = true) → bs.length < n →
      p (text (s + bs.length)) = false → scan text p n s = bs.length
  | [], n, s, _, _, hn, hstop => by
    rw [List.length_nil, Nat.add_zero] at hstop
    cases n with
    | zero => rfl
    | succ n => rw [scan, hstop]; rfl
  | b :: bs, 0, s, _, _, hn, _ => absurd hn (Nat.not_lt_zero _)
  | b :: bs, n + 1, s, hs, hp, hn, hstop => by
    rw [holds_cons] at hs
    rw [List.length_cons] at hn hstop ⊢
    have hstop' : p (text (s + 1 + bs.length)) = false := by
      rwa [Nat.add_right_comm, Nat.add_assoc]
    rw [scan, hs.1, hp b List.mem_cons_self, if_pos rfl,
      scan_run hs.2 (fun c hc => hp c (List.mem_cons_of_mem b hc)) (by omega) hstop']

/-- A loop goes over a run of its bytes at least. -/
theorem scan_ge {p : UInt8 → Bool} :
    ∀ {bs : List UInt8} {n s : ℕ}, Holds text s bs → (∀ b ∈ bs, p b = true) → bs.length ≤ n →
      bs.length ≤ scan text p n s
  | [], _, _, _, _, _ => Nat.zero_le _
  | b :: bs, 0, s, _, _, hn => absurd hn (by simp)
  | b :: bs, n + 1, s, hs, hp, hn => by
    rw [holds_cons] at hs
    rw [List.length_cons] at hn ⊢
    rw [scan, hs.1, hp b List.mem_cons_self, if_pos rfl]
    exact Nat.succ_le_succ
      (scan_ge hs.2 (fun c hc => hp c (List.mem_cons_of_mem b hc)) (by omega))

theorem Scan.tab_read (a : Scan) (s n : ℕ) : (a.read s n).tab = a.tab := rfl

theorem skip_run {p : UInt8 → Bool} {bs : List UInt8} {s : ℕ} (a : Scan) (hs : Holds text s bs)
    (hp : ∀ b ∈ bs, p b = true) (hn : bs.length < PARSE_LIMIT)
    (hstop : p (text (s + bs.length)) = false) :
    (skip text p s a).1 = some (s + bs.length) ∧ (skip text p s a).2.tab = a.tab := by
  simp only [skip, scan_run hs hp hn hstop, if_neg hn.ne]
  exact ⟨trivial, rfl⟩

/-- The end of a line: the scan gets to the next line, or past the breaks it knows of. -/
theorem skipLine_run {body br : List UInt8} {s : ℕ} (a : Scan) (hs : Holds text s (body ++ br))
    (hbody : ∀ b ∈ body, isLinef b = false) (hn : body.length < PARSE_LIMIT) (hbr : br ≠ [])
    (hlinef : ∀ b ∈ br, isLinef b = true) (hm : br.length < PARSE_LIMIT) :
    let out := skipLine text s a
    out.2.tab = a.tab ∧
      (isLinef (text (s + body.length + br.length)) = false →
        out.1 = .next (s + body.length + br.length)) ∧
      (out.1 = .stop ∨ ∃ s' ≥ s + body.length + br.length, out.1 = .next s') := by
  obtain ⟨hs1, hs2⟩ := holds_append.1 hs
  obtain ⟨b, br', rfl⟩ := List.exists_cons_of_ne_nil hbr
  have hfirst : isLinef (text (s + body.length)) = true := by
    rw [(holds_cons.1 hs2).1]
    exact hlinef b List.mem_cons_self
  obtain ⟨h1, h2⟩ := skip_run (p := fun b => ¬isLinef b) a hs1 (fun c hc => by simp [hbody c hc]) hn
    (by simp [hfirst])
  rcases hsk : skip text (fun b => ¬isLinef b) s a with ⟨r, a'⟩
  rw [hsk] at h1 h2
  dsimp only at h1 h2
  simp only [skipLine, hsk, h1, skipLinef]
  have hge := scan_ge hs2 hlinef hm.le
  refine ⟨?_, fun hstop => ?_, ?_⟩
  · rcases h : skip text isLinef (s + body.length) a' with ⟨_ | s', a''⟩
    · rw [← h2]
      exact congrArg (fun x : Option ℕ × Scan => x.2.tab) h.symm
    · rw [← h2]
      exact congrArg (fun x : Option ℕ × Scan => x.2.tab) h.symm
  · obtain ⟨h3, _⟩ := skip_run a' hs2 hlinef hm hstop
    rcases h : skip text isLinef (s + body.length) a' with ⟨r', a''⟩
    rw [h] at h3
    dsimp only at h3
    rw [h3]
  · simp only [skip]
    split_ifs with hlim
    · exact Or.inl rfl
    · exact Or.inr ⟨_, Nat.add_le_add_left hge _, rfl⟩

/-- A field that fits is copied with its NUL. -/
theorem copy_run {bs : List UInt8} {s : ℕ} (a : Scan) (buf : ℕ) (hs : Holds text s bs)
    (hp : ∀ b ∈ bs, isField b = true) (hn : bs.length < PARSE_LIMIT)
    (hstop : isField (text (s + bs.length)) = false) :
    (copy text buf s a).1 = s + bs.length ∧
      (copy text buf s a).2.tab = a.tab.store buf (bs ++ [0]) := by
  have hload : text.load s bs.length = bs := hs
  simp only [copy, scan_run hs hp hn hstop, hload]
  exact ⟨trivial, trivial⟩

/-- The bytes a string agrees with are its bytes. -/
theorem holds_of_agree :
    ∀ {cs : List UInt8} {s : ℕ}, agree text cs s = cs.length → Holds text s cs
  | [], _, _ => rfl
  | c :: cs, s, h => by
    rw [agree] at h
    split_ifs at h with hc
    rw [List.length_cons] at h
    exact holds_cons.2 ⟨hc, holds_of_agree (by omega)⟩

end Text

section Lines

/-- A run of bytes in `p` that the scanner gets over. -/
abbrev Run (p : UInt8 → Bool) : Type :=
  {bs : List UInt8 // bs ≠ [] ∧ bs.length < PARSE_LIMIT ∧ ∀ b ∈ bs, p b = true}

/-- A key and its value, as the scanner takes them: the key is no comment and no end mark, and the
value has a first section. -/
structure Item where
  key : List UInt8
  value : List UInt8
  key_ne : key ≠ []
  key_short : key.length < ITEM_MAX_LEN
  key_field : ∀ b ∈ key, isField b = true ∧ b ≠ 0
  key_start : key.head? ≠ some 0x23
  key_end : ¬itemsEnd <+: key
  value_ne : value ≠ []
  value_short : value.length < ITEM_MAX_LEN
  value_field : ∀ b ∈ value, isField b = true ∧ b ≠ 0
  value_dot : value.head? ≠ some 0x2e

/-- A line with its breaks: those after the first one are blank lines. -/
inductive Line where
  | item (it : Item) (ws : Run isWhite) (br : Run isLinef)
  | comment (body : {bs : List UInt8 // bs.length + 1 < PARSE_LIMIT ∧ ∀ b ∈ bs, isLinef b = false})
    (br : Run isLinef)
  | white (ws : Run isWhite) (br : Run isLinef)

namespace Line

def render : Line → List UInt8
  | item it ws br => it.key ++ ws.1 ++ it.value ++ br.1
  | comment body br => 0x23 :: body.1 ++ br.1
  | white ws br => ws.1 ++ br.1

def items : Line → List Item
  | item it _ _ => [it]
  | comment _ _ => []
  | white _ _ => []

def isBlank : Line → Bool
  | item _ _ _ => false
  | comment _ _ => false
  | white _ _ => true

end Line

def renderLines (ls : List Line) : List UInt8 := ls.flatMap Line.render

def itemsOf (ls : List Line) : List Item := ls.flatMap Line.items

theorem isField_white {b : UInt8} (h : isWhite b = true) : isField b = false := by
  simp [isField, h]

theorem isField_linef {b : UInt8} (h : isLinef b = true) : isField b = false := by
  simp [isField, h]

theorem not_white_of_field {b : UInt8} (h : isField b = true) : isWhite b = false := by
  simp only [isField, decide_eq_true_eq] at h
  exact eq_false_of_ne_true h.1

theorem not_linef_of_field {b : UInt8} (h : isField b = true) : isLinef b = false := by
  simp only [isField, decide_eq_true_eq] at h
  exact eq_false_of_ne_true h.2

theorem not_linef_of_white {b : UInt8} (h : isWhite b = true) : isLinef b = false := by
  simp only [isWhite, decide_eq_true_eq] at h
  rcases h with rfl | rfl <;> rfl

theorem not_white_of_linef {b : UInt8} (h : isLinef b = true) : isWhite b = false := by
  simp only [isLinef, decide_eq_true_eq] at h
  rcases h with h | h
  · rw [h]
    rfl
  · rw [h]
    rfl

end Lines

section Parse

variable {text : Mem}

/-- What a round leaves: the table, and the scan at `e` or, when nothing but breaks may follow,
past it. -/
def Ends (text : Mem) (out : LineEnd × Scan) (tab : Mem) (e : ℕ) : Prop :=
  out.2.tab = tab ∧ (isLinef (text e) = false → out.1 = .next e) ∧
    (out.1 = .stop ∨ ∃ e' ≥ e, out.1 = .next e')

theorem ends_skipLine (body : List UInt8) {br : List UInt8} {s e : ℕ} (a : Scan)
    (hs : Holds text s (body ++ br))
    (hbody : ∀ b ∈ body, isLinef b = false) (hn : body.length < PARSE_LIMIT) (hbr : br ≠ [])
    (hlinef : ∀ b ∈ br, isLinef b = true) (hm : br.length < PARSE_LIMIT)
    (he : e = s + body.length + br.length) : Ends text (skipLine text s a) a.tab e := by
  subst he
  exact skipLine_run a hs hbody hn hbr hlinef hm

theorem Run.first {p : UInt8 → Bool} (r : Run p) {s : ℕ} {t : List UInt8}
    (hs : Holds text s (r.1 ++ t)) : p (text s) = true := by
  obtain ⟨b, bs', hb⟩ := List.exists_cons_of_ne_nil r.2.1
  rw [hb, List.cons_append, holds_cons] at hs
  rw [hs.1]
  exact r.2.2.2 b (by rw [hb]; exact List.mem_cons_self)

/-- A key and its value go to their slot. -/
theorem parseItem_run (it : Item) (ws : Run isWhite) (br : Run isLinef) (t s : ℕ) (a : Scan)
    (hs : Holds text s (Line.item it ws br).render) :
    Ends text (parseItem text t s a)
      ((a.tab.store (keyAt t) (it.key ++ [0])).store (stringAt t) (it.value ++ [0]))
      (s + (Line.item it ws br).render.length) := by
  have hlim : ITEM_MAX_LEN < PARSE_LIMIT := by decide
  simp only [Line.render, List.append_assoc] at hs ⊢
  obtain ⟨hkey, hs1⟩ := holds_append.1 hs
  obtain ⟨hws, hs2⟩ := holds_append.1 hs1
  obtain ⟨hvalue, hbr⟩ := holds_append.1 hs2
  have hfirst : isField (text (s + it.key.length + ws.1.length)) = true := by
    obtain ⟨b, bs', hb⟩ := List.exists_cons_of_ne_nil it.value_ne
    rw [hb, holds_cons] at hvalue
    rw [hvalue.1]
    exact (it.value_field b (by rw [hb]; exact List.mem_cons_self)).1
  obtain ⟨hk1, hk2⟩ := copy_run a (keyAt t) hkey (fun b hb => (it.key_field b hb).1)
    (it.key_short.trans hlim) (isField_white (ws.first hs1))
  rcases hc : copy text (keyAt t) s a with ⟨s1, a1⟩
  rw [hc] at hk1 hk2
  dsimp only at hk1 hk2
  subst hk1
  obtain ⟨hw1, hw2⟩ := skip_run a1 hws ws.2.2.2 ws.2.2.1 (not_white_of_field hfirst)
  rcases hw : skipWhite text (s + it.key.length) a1 with ⟨s2, a2⟩
  rw [skipWhite] at hw
  rw [hw] at hw1 hw2
  dsimp only at hw1 hw2
  subst hw1
  obtain ⟨hl1, hl2⟩ := skip_run (p := isLinef)
    (a2.read (s + it.key.length + ws.1.length) 1) (holds_nil (s + it.key.length + ws.1.length))
    (fun b hb => absurd hb List.not_mem_nil) (by decide) (not_linef_of_field hfirst)
  rcases hl : skip text isLinef (s + it.key.length + ws.1.length)
    (a2.read (s + it.key.length + ws.1.length) 1) with ⟨s3, a3⟩
  rw [hl] at hl1 hl2
  dsimp only [List.length_nil, Nat.add_zero] at hl1 hl2
  subst hl1
  obtain ⟨hv1, hv2⟩ := copy_run a3 (stringAt t) hvalue (fun b hb => (it.value_field b hb).1)
    (it.value_short.trans hlim) (isField_linef (br.first (t := []) (by rwa [List.append_nil])))
  rcases hv : copy text (stringAt t) (s + it.key.length + ws.1.length) a3 with ⟨s4, a4⟩
  rw [hv] at hv1 hv2
  dsimp only at hv1 hv2
  subst hv1
  simp only [parseItem, hc, skipWhite, hw, not_linef_of_field hfirst, Bool.false_eq_true, if_false,
    skipLinef, hl, hv]
  have htab : a4.tab =
      (a.tab.store (keyAt t) (it.key ++ [0])).store (stringAt t) (it.value ++ [0]) := by
    rw [hv2, hl2, Scan.read, hw2, hk2]
  rw [← htab]
  refine ends_skipLine [] a4 hbr (fun b hb => absurd hb List.not_mem_nil) (by decide)
    br.2.1 br.2.2.2 br.2.2.1 ?_
  simp only [List.length_append, List.length_nil, Nat.add_zero, Nat.add_assoc]

/-- A line of blanks where a key should be leaves the slot without one. -/
theorem parseItem_white (ws : Run isWhite) (br : Run isLinef) (t s : ℕ) (a : Scan)
    (hs : Holds text s (Line.white ws br).render) :
    Ends text (parseItem text t s a) (a.tab.store (keyAt t) [0])
      (s + (Line.white ws br).render.length) := by
  simp only [Line.render] at hs ⊢
  obtain ⟨hws, hbr⟩ := holds_append.1 hs
  have hbr' : isLinef (text (s + ws.1.length)) = true :=
    br.first (t := []) (by rwa [List.append_nil])
  obtain ⟨hk1, hk2⟩ := copy_run a (keyAt t) (holds_nil s) (fun b hb => absurd hb List.not_mem_nil)
    (by decide) (isField_white (ws.first hs))
  rcases hc : copy text (keyAt t) s a with ⟨s1, a1⟩
  rw [hc] at hk1 hk2
  dsimp only [List.length_nil, Nat.add_zero, List.nil_append] at hk1 hk2
  subst hk1
  obtain ⟨hw1, hw2⟩ := skip_run a1 hws ws.2.2.2 ws.2.2.1 (not_white_of_linef hbr')
  rcases hw : skip text isWhite s1 a1 with ⟨s2, a2⟩
  rw [hw] at hw1 hw2
  dsimp only at hw1 hw2
  subst hw1
  simp only [parseItem, hc, skipWhite, hw, hbr', if_true]
  have htab : (a2.read (s1 + ws.1.length) 1).tab = a.tab.store (keyAt t) [0] := by
    rw [Scan.read, hw2, hk2]
  rw [← htab]
  refine ends_skipLine [] _ hbr (fun b hb => absurd hb List.not_mem_nil) (by decide)
    br.2.1 br.2.2.2 br.2.2.1 ?_
  simp only [List.length_append, List.length_nil, Nat.add_zero, Nat.add_assoc]

/-- Over blanks and breaks the scan opens at `s2`. -/
theorem parseLine_opens {ws br : List UInt8} {s : ℕ} (t : ℕ) (a : Scan)
    (hs : Holds text s (ws ++ br))
    (hws : ∀ b ∈ ws, isWhite b = true) (hn : ws.length < PARSE_LIMIT)
    (hbr : ∀ b ∈ br, isLinef b = true) (hm : br.length < PARSE_LIMIT)
    (hlinef : isLinef (text (s + ws.length + br.length)) = false)
    (hwhite : br = [] → isWhite (text (s + ws.length)) = false) :
    let s2 := s + ws.length + br.length
    ∃ a', a'.tab = a.tab ∧ parseLine text t s a =
      if text s2 ≠ 0x23 then
        let a' := a'.read s2 (min (agree text itemsEnd s2 + 1) 9)
        if agree text itemsEnd s2 = 9 then (.stop, a') else parseItem text t s2 a'
      else skipLine text s2 a' := by
  obtain ⟨hs1, hs2⟩ := holds_append.1 hs
  have hstop : isWhite (text (s + ws.length)) = false := by
    rcases br with _ | ⟨b, br⟩
    · exact hwhite rfl
    · rw [(holds_cons.1 hs2).1]
      exact not_white_of_linef (hbr b List.mem_cons_self)
  obtain ⟨hw1, hw2⟩ := skip_run a hs1 hws hn hstop
  rcases hw : skip text isWhite s a with ⟨r, a1⟩
  rw [hw] at hw1 hw2
  dsimp only at hw1 hw2
  subst hw1
  obtain ⟨hl1, hl2⟩ := skip_run a1 hs2 hbr hm hlinef
  rcases hl : skip text isLinef (s + ws.length) a1 with ⟨r, a2⟩
  rw [hl] at hl1 hl2
  dsimp only at hl1 hl2
  subst hl1
  refine ⟨a2.read (s + ws.length + br.length) 1, ?_, ?_⟩
  · rw [Scan.read, hl2, hw2]
  · simp only [parseLine, skipWhite, hw, skipLinef, hl]

end Parse

section Table

/-- Slot `j` of the table has the key and the value of an item. -/
def Slot (tab : Mem) (j : ℕ) (it : Item) : Prop :=
  Holds tab (keyAt j) (it.key ++ [0]) ∧ Holds tab (stringAt j) (it.value ++ [0])

/-- The table has these items, and nothing after them. -/
structure Tabulated (tab : Mem) (its : List Item) : Prop where
  slots : ∀ j it, its[j]? = some it → Slot tab j it
  rest : ∀ x, keyAt its.length ≤ x → x < ITEM_MAX_COUNT * ITEM_SIZE → tab x = 0

theorem keyAt_succ (i : ℕ) : keyAt (i + 1) = keyAt i + ITEM_SIZE := Nat.succ_mul i ITEM_SIZE

theorem keyAt_le {i j : ℕ} (h : i ≤ j) : keyAt i ≤ keyAt j := Nat.mul_le_mul_right _ h

theorem stringAt_eq (i : ℕ) : stringAt i = keyAt i + ITEM_MAX_LEN := rfl

/-- What is stored in a slot leaves those before it. -/
theorem Slot.store {tab : Mem} {j : ℕ} {it : Item} (hs : Slot tab j it) {a : ℕ} (bs : List UInt8)
    (ha : keyAt (j + 1) ≤ a) : Slot (tab.store a bs) j it := by
  have hkey := it.key_short
  have hvalue := it.value_short
  rw [keyAt_succ, ITEM_SIZE] at ha
  refine ⟨?_, ?_⟩
  · exact (Mem.load_store_after tab bs (by
      rw [List.length_append, List.length_singleton]
      omega)).trans hs.1
  · exact (Mem.load_store_after tab bs (by
      rw [List.length_append, List.length_singleton, stringAt_eq]
      omega)).trans hs.2

variable {tab : Mem} {its : List Item} (ht : Tabulated tab its)
include ht

/-- A round starts with a slot without a key. -/
theorem Tabulated.clear :
    Tabulated ((tab.store (keyAt its.length) [0]).store (stringAt its.length) [0]) its := by
  refine ⟨fun j it hj => ?_, fun x hx hlt => ?_⟩
  · obtain ⟨hlt, _⟩ := List.getElem?_eq_some_iff.1 hj
    have hle : keyAt (j + 1) ≤ keyAt its.length := keyAt_le hlt
    exact ((ht.slots j it hj).store [0] hle).store [0] (by rw [stringAt_eq]; omega)
  · have h0 := ht.rest x hx hlt
    simp only [Mem.store, List.length_singleton]
    split_ifs with h1 h2
    · rw [show x - stringAt its.length = 0 by omega]
      rfl
    · rw [show x - keyAt its.length = 0 by omega]
      rfl
    · exact h0

/-- An empty key leaves the slot empty. -/
theorem Tabulated.blank : Tabulated (tab.store (keyAt its.length) [0]) its := by
  refine ⟨fun j it hj => ?_, fun x hx hlt => ?_⟩
  · obtain ⟨hlt, _⟩ := List.getElem?_eq_some_iff.1 hj
    exact (ht.slots j it hj).store [0] (keyAt_le hlt)
  · have h0 := ht.rest x hx hlt
    simp only [Mem.store, List.length_singleton]
    split_ifs with h1
    · rw [show x - keyAt its.length = 0 by omega]
      rfl
    · exact h0

/-- An item goes to the first slot that is free. -/
theorem Tabulated.add (it : Item) :
    Tabulated ((tab.store (keyAt its.length) (it.key ++ [0])).store (stringAt its.length)
      (it.value ++ [0])) (its ++ [it]) := by
  have hkey := it.key_short
  have hvalue := it.value_short
  refine ⟨fun j it' hj => ?_, fun x hx hlt => ?_⟩
  · rcases Nat.lt_or_ge j its.length with hlt | hge
    · rw [List.getElem?_append_left hlt] at hj
      have hle : keyAt (j + 1) ≤ keyAt its.length := keyAt_le hlt
      exact ((ht.slots j it' hj).store _ hle).store _ (by rw [stringAt_eq]; omega)
    · obtain ⟨hlt, _⟩ := List.getElem?_eq_some_iff.1 hj
      rw [List.length_append, List.length_singleton] at hlt
      obtain rfl : j = its.length := by omega
      rw [List.getElem?_concat_length, Option.some.injEq] at hj
      subst hj
      refine ⟨?_, holds_store _ _ _⟩
      refine (Mem.load_store_after _ _ ?_).trans (holds_store _ _ _)
      rw [List.length_append, List.length_singleton, stringAt_eq]
      omega
  · rw [List.length_append, List.length_singleton, keyAt_succ, ITEM_SIZE] at hx
    rw [Mem.store_of_ge _ _ (by rw [List.length_append, List.length_singleton, stringAt_eq]; omega),
      Mem.store_of_ge _ _ (by rw [List.length_append, List.length_singleton]; omega)]
    exact ht.rest x (by omega) hlt

theorem Tabulated.key_zero (hn : its.length < ITEM_MAX_COUNT) : tab (keyAt its.length) = 0 := by
  have hle : keyAt (its.length + 1) ≤ ITEM_MAX_COUNT * ITEM_SIZE := keyAt_le hn
  rw [keyAt_succ] at hle
  have hsize : ITEM_SIZE = 128 := rfl
  exact ht.rest _ (le_refl _) (by omega)

omit ht in
theorem Slot.key_ne {j : ℕ} {it : Item} (hs : Slot tab j it) : tab (keyAt j) ≠ 0 := by
  obtain ⟨b, bs, hb⟩ := List.exists_cons_of_ne_nil it.key_ne
  have h := hs.1
  rw [hb, List.cons_append, holds_cons] at h
  rw [h.1]
  exact (it.key_field b (by rw [hb]; exact List.mem_cons_self)).2

end Table

section Init

variable {text : Mem} {len : ℕ}

theorem itemInitLoop_past (n i : ℕ) {s : ℕ} (a : Scan) (hs : len ≤ s) :
    itemInitLoop text len n i s a = (some i, a) := by
  cases n with
  | zero => rfl
  | succ n => rw [itemInitLoop, if_neg (by omega)]

/-- A round of `item_init` over lines that end at `e`, before the rest of the lines if there are
any: `i'` is the slot the next round writes. -/
theorem itemInitLoop_round {n i i' s e : ℕ} {a : Scan} {tab' : Mem} {P : Option ℕ × Scan → Prop}
    (more : Bool) (hi : i < ITEM_MAX_COUNT) (hs : s < len)
    (hends : Ends text (parseLine text i s
      { a with tab := (a.tab.store (keyAt i) [0]).store (stringAt i) [0] }) tab' e)
    (hnext : more = true → isLinef (text e) = false) (hlast : more = false → len ≤ e)
    (hkey : i' = if tab' (keyAt i) = 0 then i else i + 1)
    (hend : more = false → ∀ k a', a'.tab = tab' → P (some k, a'))
    (hgo : more = true → ∀ a', a'.tab = tab' → P (itemInitLoop text len n i' e a')) :
    P (itemInitLoop text len (n + 1) i s a) := by
  obtain ⟨htab, hnx, hany⟩ := hends
  rw [itemInitLoop, if_pos ⟨hi, hs⟩]
  dsimp only
  rcases hp : parseLine text i s
    { a with tab := (a.tab.store (keyAt i) [0]).store (stringAt i) [0] } with ⟨r, a'⟩
  rw [hp] at htab hnx hany
  dsimp only at htab hnx hany
  have hstep (e' : ℕ) : (if a'.tab (keyAt i) = 0 then itemInitLoop text len n i e' a'
      else itemInitLoop text len n (i + 1) e' a') = itemInitLoop text len n i' e' a' := by
    rw [htab, hkey]
    split_ifs <;> rfl
  cases more with
  | true =>
    rw [hnx (hnext rfl)]
    dsimp only
    rw [hstep]
    exact hgo rfl a' htab
  | false =>
    rcases hany with hr | ⟨e', he', hr⟩
    · rw [hr]
      exact hend rfl i a' htab
    · rw [hr]
      dsimp only
      rw [hstep, itemInitLoop_past n i' a' (le_trans (hlast rfl) he')]
      exact hend rfl i' a' htab

/-- A line with a key does not begin like the end mark. -/
theorem Item.agree_ne (it : Item) {s : ℕ} {bs : List UInt8} (hs : Holds text s (it.key ++ bs))
    (hw : isWhite (text (s + it.key.length)) = true) : agree text itemsEnd s ≠ 9 := by
  intro h9
  have hend : Holds text s itemsEnd := holds_of_agree h9
  have hkey : text.load s it.key.length = it.key := (holds_append.1 hs).1
  rcases Nat.lt_or_ge it.key.length 9 with hlt | hge
  · have hchar : isWhite (itemsEnd.getD it.key.length 0) = true := by
      have hget : text.load s 9 = itemsEnd := hend
      have hlt' : it.key.length < (text.load s 9).length := by rwa [Mem.length_load]
      rw [← hget, List.getD_eq_getElem _ _ hlt', Mem.getElem_load]
      exact hw
    generalize it.key.length = k at hchar hlt
    interval_cases k <;> exact absurd hchar (by decide)
  · refine it.key_end ⟨it.key.drop 9, ?_⟩
    have htake : it.key.take 9 = itemsEnd := by
      rw [← hkey, Mem.take_load text s hge]
      exact hend
    rw [← htake, List.take_append_drop]

/-- What a line leaves in the table. -/
def Line.store (tab : Mem) (i : ℕ) : Line → Mem
  | .item it _ _ => (tab.store (keyAt i) (it.key ++ [0])).store (stringAt i) (it.value ++ [0])
  | .comment _ _ => tab
  | .white _ _ => tab.store (keyAt i) [0]

/-- A line is parsed, past a line of blanks before it; a line of blanks is not parsed alone. -/
theorem parseLine_line {ws br : List UInt8} (l : Line) (i s : ℕ) (a : Scan)
    (hs : Holds text s (ws ++ br ++ l.render)) (hws : ∀ b ∈ ws, isWhite b = true)
    (hn : ws.length < PARSE_LIMIT) (hbr : ∀ b ∈ br, isLinef b = true)
    (hm : br.length < PARSE_LIMIT) (hblank : l.isBlank = true → br ≠ []) :
    Ends text (parseLine text i s a) (l.store a.tab i)
      (s + ws.length + br.length + l.render.length) := by
  obtain ⟨hpre, hl⟩ := holds_append.1 hs
  rw [List.length_append, ← Nat.add_assoc] at hl
  cases l with
  | item it ws' br' =>
    have hl' := hl
    simp only [Line.render, List.append_assoc] at hl'
    have hfirst : isField (text (s + ws.length + br.length)) = true := by
      obtain ⟨b, bs', hb⟩ := List.exists_cons_of_ne_nil it.key_ne
      rw [hb, List.cons_append, holds_cons] at hl'
      rw [hl'.1]
      exact (it.key_field b (by rw [hb]; exact List.mem_cons_self)).1
    have hhash : text (s + ws.length + br.length) ≠ 0x23 := by
      obtain ⟨b, bs', hb⟩ := List.exists_cons_of_ne_nil it.key_ne
      rw [hb, List.cons_append, holds_cons] at hl'
      rw [hl'.1]
      have h := it.key_start
      rw [hb, List.head?_cons] at h
      exact fun h' => h (congrArg some h')
    obtain ⟨a', htab, hp⟩ := parseLine_opens i a hpre hws hn hbr hm (not_linef_of_field hfirst)
      fun h0 => by
        rw [h0, List.length_nil, Nat.add_zero] at hfirst
        exact not_white_of_field hfirst
    have hwhite := ws'.first (holds_append.1 hl').2
    rw [hp, if_pos hhash]
    simp only [it.agree_ne hl' hwhite, if_false]
    have h := parseItem_run it ws' br' i _ (a'.read (s + ws.length + br.length)
      (min (agree text itemsEnd (s + ws.length + br.length) + 1) 9)) hl
    rw [Scan.tab_read, htab] at h
    exact h
  | comment body br' =>
    simp only [Line.render] at hl ⊢
    have hhash : text (s + ws.length + br.length) = 0x23 := by
      rw [List.cons_append] at hl
      exact (holds_cons.1 hl).1
    obtain ⟨a', htab, hp⟩ := parseLine_opens i a hpre hws hn hbr hm (by rw [hhash]; rfl)
      fun h0 => by
        rw [h0, List.length_nil, Nat.add_zero] at hhash
        rw [hhash]
        rfl
    rw [hp, if_neg (not_not.2 hhash)]
    have h := ends_skipLine (0x23 :: body.1) a' hl (fun b hb => by
        rcases List.mem_cons.1 hb with rfl | hb
        · rfl
        · exact body.2.2 b hb) body.2.1 br'.2.1 br'.2.2.2 br'.2.2.1 rfl
    rw [htab] at h
    rw [List.length_append, ← Nat.add_assoc]
    exact h
  | white ws' br' =>
    have hl' := hl
    simp only [Line.render] at hl'
    have hwhite := ws'.first hl'
    have hne : text (s + ws.length + br.length) ≠ 0x23 := fun h => by
      rw [h] at hwhite
      exact absurd hwhite (by decide)
    have hagree : agree text itemsEnd (s + ws.length + br.length) = 0 := by
      rw [itemsEnd, agree, if_neg]
      intro h
      rw [h] at hwhite
      exact absurd hwhite (by decide)
    obtain ⟨a', htab, hp⟩ := parseLine_opens i a hpre hws hn hbr hm (not_linef_of_white hwhite)
      fun h0 => absurd h0 (hblank rfl)
    rw [hp, if_pos hne]
    simp only [hagree]
    rw [if_neg (by decide)]
    have h := parseItem_white ws' br' i _ (a'.read (s + ws.length + br.length) (min (0 + 1) 9)) hl
    rw [Scan.tab_read, htab] at h
    exact h

/-- What a line stores keeps the table to the items it has. -/
theorem Tabulated.line {tab : Mem} {its : List Item} (ht : Tabulated tab its) (l : Line) :
    Tabulated (l.store tab its.length) (its ++ l.items) := by
  cases l with
  | item it ws br => exact ht.add it
  | comment body br =>
    rw [Line.items, List.append_nil]
    exact ht
  | white ws br =>
    rw [Line.items, List.append_nil]
    exact ht.blank

/-- Lines do not begin with a break. -/
theorem renderLines_first {ls : List Line} {s : ℕ} (hne : ls ≠ [])
    (hs : Holds text s (renderLines ls)) : isLinef (text s) = false := by
  obtain ⟨l, ls', rfl⟩ := List.exists_cons_of_ne_nil hne
  rw [renderLines, List.flatMap_cons] at hs
  have hl := (holds_append.1 hs).1
  cases l with
  | item it ws br =>
    obtain ⟨b, bs', hb⟩ := List.exists_cons_of_ne_nil it.key_ne
    simp only [Line.render, List.append_assoc, hb, List.cons_append] at hl
    rw [(holds_cons.1 hl).1]
    exact not_linef_of_field (it.key_field b (by rw [hb]; exact List.mem_cons_self)).1
  | comment body br =>
    simp only [Line.render, List.cons_append] at hl
    rw [(holds_cons.1 hl).1]
    rfl
  | white ws br =>
    simp only [Line.render] at hl
    exact not_linef_of_white (ws.first hl)

theorem render_ne (l : Line) : l.render ≠ [] := by
  cases l with
  | item it ws br => simp [Line.render, it.key_ne]
  | comment body br => simp [Line.render]
  | white ws br => simp [Line.render, ws.2.1]

/-- The items found so far and those of the lines are in the table. -/
def Parsed (its : List Item) (ls : List Line) (out : Option ℕ × Scan) : Prop :=
  out.1 ≠ none ∧ Tabulated out.2.tab (its ++ itemsOf ls)

/-- A line is taken, with the line of blanks before it if there is one, and then the others. -/
theorem itemInitLoop_line (ws br : List UInt8) (l : Line) {ls : List Line} {n s : ℕ} {a : Scan}
    {its : List Item} (hs : Holds text s (ws ++ br ++ l.render ++ renderLines ls))
    (hlen : s + (ws ++ br ++ l.render ++ renderLines ls).length = len)
    (hn : (ws ++ br ++ l.render ++ renderLines ls).length ≤ n)
    (hws : ∀ b ∈ ws, isWhite b = true) (hwn : ws.length < PARSE_LIMIT)
    (hbr : ∀ b ∈ br, isLinef b = true) (hbn : br.length < PARSE_LIMIT)
    (hblank : l.isBlank = true → br ≠ [])
    (hcount : its.length + (itemsOf (l :: ls)).length < ITEM_MAX_COUNT)
    (ht : Tabulated a.tab its)
    (ih : ∀ {n s : ℕ} {a : Scan} {its : List Item}, ls ≠ [] → Holds text s (renderLines ls) →
      s + (renderLines ls).length = len → (renderLines ls).length ≤ n →
      its.length + (itemsOf ls).length < ITEM_MAX_COUNT → Tabulated a.tab its →
      Parsed its ls (itemInitLoop text len n its.length s a)) :
    Parsed its (l :: ls) (itemInitLoop text len n its.length s a) := by
  obtain ⟨hl, hrest⟩ := holds_append.1 hs
  simp only [List.length_append] at hlen hn hrest
  rw [show s + (ws.length + br.length + l.render.length) =
    s + ws.length + br.length + l.render.length by omega] at hrest
  have hpos := List.length_pos_of_ne_nil (render_ne l)
  have hitems : itemsOf (l :: ls) = l.items ++ itemsOf ls := rfl
  rw [hitems, List.length_append] at hcount
  obtain ⟨n, rfl⟩ : ∃ k, n = k + 1 := ⟨n - 1, by omega⟩
  set tab' := l.store ((a.tab.store (keyAt its.length) [0]).store (stringAt its.length) [0])
    its.length with htab'
  have hline : Tabulated tab' (its ++ l.items) := ht.clear.line l
  have hends := parseLine_line l its.length s
    { a with tab := (a.tab.store (keyAt its.length) [0]).store (stringAt its.length) [0] } hl hws
    hwn hbr hbn hblank
  have hkey : (its ++ l.items).length =
      if tab' (keyAt its.length) = 0 then its.length else its.length + 1 := by
    cases hi : l.items with
    | nil =>
      rw [hi, List.append_nil] at hline
      rw [List.append_nil, if_pos (hline.key_zero (by omega))]
    | cons it its' =>
      have hone : its' = [] := by
        cases l with
        | item it ws br => exact (List.cons.inj hi).2.symm
        | comment body br => exact absurd hi (by simp [Line.items])
        | white ws br => exact absurd hi (by simp [Line.items])
      subst hone
      rw [hi] at hline
      have hslot := hline.slots its.length it (by rw [List.getElem?_concat_length])
      rw [if_neg hslot.key_ne, List.length_append, List.length_singleton]
  refine itemInitLoop_round (decide (ls ≠ [])) (by omega) (by omega) hends (fun hm => ?_)
    (fun hm => ?_) hkey (fun hm k a' ha' => ?_) fun hm a' ha' => ?_
  · exact renderLines_first (of_decide_eq_true hm) hrest
  · have hnil : ls = [] := not_not.1 (of_decide_eq_false hm)
    rw [hnil, renderLines, List.flatMap_nil, List.length_nil] at hlen
    omega
  · have hnil : ls = [] := not_not.1 (of_decide_eq_false hm)
    refine ⟨by simp, ?_⟩
    rw [ha', hitems, hnil, itemsOf, List.flatMap_nil, List.append_nil]
    exact hline
  · obtain ⟨h1, h2⟩ := @ih n _ a' (its ++ l.items) (of_decide_eq_true hm)
      hrest (by omega) (by omega)
      (by rw [List.length_append]; omega) (by rw [ha']; exact hline)
    exact ⟨h1, by rwa [hitems, ← List.append_assoc]⟩

theorem itemInitLoop_lines :
    ∀ {ls : List Line} {n s : ℕ} {a : Scan} {its : List Item}, ls ≠ [] →
      Holds text s (renderLines ls) → s + (renderLines ls).length = len →
      (renderLines ls).length ≤ n → (∀ l, ls.getLast? = some l → l.isBlank = false) →
      its.length + (itemsOf ls).length < ITEM_MAX_COUNT → Tabulated a.tab its →
      Parsed its ls (itemInitLoop text len n its.length s a)
  | [], _, _, _, _, hne, _, _, _, _, _, _ => absurd rfl hne
  | .item it ws br :: ls, n, s, a, its, _, hs, hlen, hn, hlast, hcount, ht => by
    refine itemInitLoop_line [] [] (.item it ws br) hs hlen hn (by simp) (by decide)
      (by simp) (by decide) (fun hb => absurd hb (by simp [Line.isBlank])) hcount ht ?_
    intro n s a its hne hs hlen hn hcount ht
    refine itemInitLoop_lines hne hs hlen hn (fun l hl => hlast l ?_) hcount ht
    rw [List.getLast?_cons_of_ne_nil hne]
    exact hl
  | .comment body br :: ls, n, s, a, its, _, hs, hlen, hn, hlast, hcount, ht => by
    refine itemInitLoop_line [] [] (.comment body br) hs hlen hn (by simp)
      (by decide) (by simp) (by decide) (fun hb => absurd hb (by simp [Line.isBlank])) hcount ht ?_
    intro n s a its hne hs hlen hn hcount ht
    refine itemInitLoop_lines hne hs hlen hn (fun l hl => hlast l ?_) hcount ht
    rw [List.getLast?_cons_of_ne_nil hne]
    exact hl
  | [.white ws br], _, _, _, _, _, _, _, _, hlast, _, _ =>
    absurd (hlast _ rfl) (by simp [Line.isBlank])
  | .white ws br :: l :: ls, n, s, a, its, _, hs, hlen, hn, hlast, hcount, ht => by
    have hrender : renderLines (.white ws br :: l :: ls) =
        ws.1 ++ br.1 ++ l.render ++ renderLines ls := by
      simp only [renderLines, List.flatMap_cons, Line.render, List.append_assoc]
    rw [hrender] at hs hlen hn
    refine itemInitLoop_line ws.1 br.1 l hs hlen hn ws.2.2.2 ws.2.2.1 br.2.2.2 br.2.2.1 (fun _ =>
      br.2.1) hcount
      ht ?_
    intro n s a its hne hs hlen hn hcount ht
    refine itemInitLoop_lines hne hs hlen hn (fun l' hl => hlast l' ?_) hcount ht
    rw [List.getLast?_cons_cons, List.getLast?_cons_of_ne_nil hne]
    exact hl

end Init

section Lookups

variable {tab : Mem}

theorem strncmpEq_iff :
    ∀ {k key : List UInt8} {a n : ℕ}, Holds tab a (k ++ [0]) → (∀ b ∈ k, b ≠ 0) →
      (∀ b ∈ key, b ≠ 0) → k.length < n → (strncmpEq tab a key n = true ↔ k = key)
  | _, _, _, 0, _, _, _, hn => absurd hn (Nat.not_lt_zero _)
  | [], [], a, n + 1, hs, _, _, _ => by
    rw [List.nil_append, holds_cons] at hs
    simp [strncmpEq, hs.1]
  | [], c :: cs, a, n + 1, hs, _, hc, _ => by
    rw [List.nil_append, holds_cons] at hs
    have h0 : ¬(0 : UInt8) = c := fun h => hc c List.mem_cons_self h.symm
    simp [strncmpEq, hs.1, h0]
  | b :: bs, [], a, n + 1, hs, hb, _, _ => by
    rw [List.cons_append, holds_cons] at hs
    simp [strncmpEq, hs.1, hb b List.mem_cons_self]
  | b :: bs, c :: cs, a, n + 1, hs, hb, hc, hn => by
    rw [List.cons_append, holds_cons] at hs
    have ih := strncmpEq_iff (n := n) hs.2 (fun x hx => hb x (List.mem_cons_of_mem b hx))
      (fun x hx => hc x (List.mem_cons_of_mem c hx)) (by rw [List.length_cons] at hn; omega)
    simp only [strncmpEq, hs.1, ih, decide_eq_true_eq, List.cons.injEq]

theorem strncpyOf_holds {bs : List UInt8} {a n : ℕ} (hs : Holds tab a (bs ++ [0]))
    (hb : ∀ b ∈ bs, b ≠ 0) (hn : bs.length < n) : strncpyOf tab a n = bs := by
  have hload : tab.load a (bs.length + 1) = bs ++ [0] := by
    have h : tab.load a (bs ++ [0]).length = bs ++ [0] := hs
    rwa [List.length_append, List.length_singleton] at h
  obtain ⟨r, rfl⟩ := Nat.exists_eq_add_of_le hn
  rw [strncpyOf, Mem.load_add, hload, List.append_assoc,
    List.takeWhile_append_of_pos (fun b hb' => decide_eq_true (hb b hb')), List.singleton_append,
    List.takeWhile_cons_of_neg (by simp), List.append_nil]

/-- The first section of a string that does not begin with a dot is the string. -/
theorem stringSec_first {a : ℕ} (h0 : tab a ≠ 0) (hdot : tab a ≠ 0x2e) :
    stringSec tab a 0 = some a := by
  change stringSecLoop tab 0 (25599 + 1) 0 a = some a
  simp [stringSecLoop, h0, hdot]

/-- A lookup goes through the slots that are taken; behind a full table it goes on. -/
theorem lookupLoop_slots {α β : Type} {f : ℕ → Option α} {g : β → Option α} {its : List β}
    (hslot : ∀ j it, its[j]? = some it → tab (keyAt j) ≠ 0 ∧ f j = g it)
    (hfew : its.length ≤ ITEM_MAX_COUNT)
    (hend : its.length < ITEM_MAX_COUNT → tab (keyAt its.length) = 0) :
    ∀ {l : List β} {n i : ℕ}, its.drop i = l → i + l.length = its.length →
      i + n = ITEM_MAX_COUNT → lookupLoop tab f n i =
        (l.findSome? g).elim (if its.length < ITEM_MAX_COUNT then .missing else .outside) .found
  | [], n, i, _, hi, hn => by
    rw [List.length_nil, Nat.add_zero] at hi
    rcases n with _ | n
    · rw [if_neg (by omega)]
      rfl
    · rw [lookupLoop, hi, if_pos (hend (by omega)), if_pos (by omega)]
      rfl
  | it :: l, n, i, hl, hi, hn => by
    rw [List.length_cons] at hi
    have hget : its[i]? = some it := by
      rw [← List.head?_drop, hl]
      rfl
    have hrest : its.drop (i + 1) = l := by
      rw [← List.drop_drop, hl]
      rfl
    obtain ⟨hkey, hf⟩ := hslot i it hget
    obtain ⟨n, rfl⟩ : ∃ k, n = k + 1 := ⟨n - 1, by omega⟩
    rw [lookupLoop, if_neg hkey, hf, List.findSome?_cons]
    rcases g it with _ | a
    · exact lookupLoop_slots hslot hfew hend hrest (by omega) (by omega)
    · rfl

variable {its : List Item} (ht : Tabulated tab its) (hlen : its.length < ITEM_MAX_COUNT)
include ht

/-- What a slot answers to `item_string`. -/
theorem Tabulated.answer {key : List UInt8} (hkey : ∀ b ∈ key, b ≠ 0) {j : ℕ} {it : Item}
    (hj : its[j]? = some it) :
    (if strncmpEq tab (keyAt j) key ITEM_MAX_LEN then
      (stringSec tab (stringAt j) 0).map fun s => strncpyOf tab s ITEM_MAX_LEN
    else none) = if it.key = key then some it.value else none := by
  obtain ⟨hs1, hs2⟩ := ht.slots j it hj
  have hcmp := strncmpEq_iff hs1 (fun b hb => (it.key_field b hb).2) hkey it.key_short
  by_cases hk : it.key = key
  · obtain ⟨b, bs', hb⟩ := List.exists_cons_of_ne_nil it.value_ne
    have hfirst : tab (stringAt j) = b := by
      rw [hb, List.cons_append] at hs2
      exact (holds_cons.1 hs2).1
    have hdot := it.value_dot
    rw [hb, List.head?_cons] at hdot
    have h0 : tab (stringAt j) ≠ 0 := by
      rw [hfirst]
      exact (it.value_field b (by rw [hb]; exact List.mem_cons_self)).2
    rw [if_pos (hcmp.2 hk), if_pos hk, stringSec_first h0 (by
      rw [hfirst]
      exact fun h => hdot (congrArg some h)), Option.map_some,
      strncpyOf_holds hs2 (fun b hb => (it.value_field b hb).2) it.value_short]
  · rw [if_neg fun h => hk (hcmp.1 h), if_neg hk]

include hlen

/-- The lookup goes through the items that are left. -/
theorem lookupLoop_run {α : Type} {f : ℕ → Option α} {g : Item → Option α}
    (hf : ∀ j it, its[j]? = some it → f j = g it) {l : List Item} {n i : ℕ} (hl : its.drop i = l)
    (hi : i + l.length = its.length) (hn : n = ITEM_MAX_COUNT - i) : lookupLoop tab f n i =
      match l.findSome? g with
      | some a => .found a
      | none => .missing := by
  rw [lookupLoop_slots (fun j it hj => ⟨(ht.slots j it hj).key_ne, hf j it hj⟩) hlen.le
    (fun _ => ht.key_zero hlen) hl hi (by omega), if_pos hlen]
  cases l.findSome? g <;> rfl

/-- The first value of a key is what `item_string` finds. -/
theorem itemString_run {key : List UInt8} (hkey : ∀ b ∈ key, b ≠ 0) :
    itemString tab key 0 =
      match its.find? fun it => it.key = key with
      | some it => .found it.value
      | none => .missing := by
  have h := lookupLoop_run ht hlen (fun j it hj => ht.answer hkey hj) (l := its) (i := 0)
    (List.drop_zero) (Nat.zero_add _) rfl
  refine h.trans ?_
  have hfind : its.findSome? (fun it => if it.key = key then some it.value else none) =
      (its.find? fun it => it.key = key).map Item.value := by
    clear h ht hlen
    induction its with
    | nil => rfl
    | cons it its ih =>
      rw [List.findSome?_cons, List.find?_cons]
      by_cases hk : it.key = key
      · simp [hk]
      · simp [hk, ih]
  rw [hfind]
  generalize its.find? _ = r
  cases r <;> rfl

end Lookups

section Init

variable {text : Mem}

/-- A text of lines, with blank lines before them, gives every key its first value. -/
theorem item_init_finds {lead : List UInt8} {ls : List Line}
    (hlead : lead.length < PARSE_LIMIT ∧ ∀ b ∈ lead, isLinef b = true) (hnone : ls = [] → lead = [])
    (hlast : ∀ l, ls.getLast? = some l → l.isBlank = false)
    (hcount : (itemsOf ls).length < ITEM_MAX_COUNT)
    (htext : Holds text 0 (lead ++ renderLines ls)) (tab : Mem) :
    let out := itemInit text (lead ++ renderLines ls).length tab
    out.1 ≠ none ∧ ∀ key, (∀ b ∈ key, b ≠ 0) → itemString out.2.tab key 0 =
      match (itemsOf ls).find? fun it => it.key = key with
      | some it => .found it.value
      | none => .missing := by
  have hclear : Tabulated (clearItems tab) [] :=
    ⟨fun j it hj => absurd hj (by simp), fun x _ hx => if_pos hx⟩
  have hparsed : Parsed [] ls (itemInit text (lead ++ renderLines ls).length tab) := by
    rcases ls with _ | ⟨l, ls⟩
    · rw [hnone rfl]
      exact ⟨by simp [itemInit, itemInitLoop, renderLines], hclear⟩
    · rcases lead with _ | ⟨b, lead⟩
      · exact itemInitLoop_lines (by simp) htext (Nat.zero_add _) (le_refl _) hlast
          (by simpa using hcount) hclear
      · have hrender : (b :: lead) ++ renderLines (l :: ls) =
            [] ++ (b :: lead) ++ l.render ++ renderLines ls := by
          simp [renderLines]
        rw [hrender] at htext ⊢
        refine itemInitLoop_line [] (b :: lead) l htext (Nat.zero_add _) (le_refl _) (by simp)
          (by decide) hlead.2 hlead.1 (fun _ => by simp) (by simpa using hcount) hclear ?_
        intro n s a its hne hs hlen hn hcount ht
        refine itemInitLoop_lines hne hs hlen hn (fun l' hl => hlast l' ?_) hcount ht
        rw [List.getLast?_cons_of_ne_nil hne]
        exact hl
  exact ⟨hparsed.1, fun key hkey => itemString_run hparsed.2 hcount hkey⟩

end Init

/-- A run of one byte. -/
def oneByte {p : UInt8 → Bool} (b : UInt8) (h : p b = true) : Run p :=
  ⟨[b], List.cons_ne_nil _ _, (by decide : 1 < PARSE_LIMIT), List.forall_mem_singleton.2 h⟩

/-- A text in memory, before zeros. -/
def textOf (bs : List UInt8) : Mem := fun i => bs.getD i 0

def newline : Run isLinef := oneByte 10 (by decide)

/-- `a b` -/
def itemAB : Item where
  key := [0x61]
  value := [0x62]
  key_ne := by decide
  key_short := by decide
  key_field := List.forall_mem_singleton.2 (by decide)
  key_start := by decide
  key_end := by decide
  value_ne := by decide
  value_short := by decide
  value_field := List.forall_mem_singleton.2 (by decide)
  value_dot := by decide

def linesAB : List Line := [.item itemAB (oneByte 0x20 (by decide)) newline]

theorem item_init_finds_ab :
    let out := itemInit (textOf [0x61, 0x20, 0x62, 10]) ([] ++ renderLines linesAB).length fun _ =>
      0
    out.1 ≠ none ∧ ∀ key, (∀ b ∈ key, b ≠ 0) → itemString out.2.tab key 0 =
      match (itemsOf linesAB).find? fun it => it.key = key with
      | some it => .found it.value
      | none => .missing :=
  @item_init_finds (textOf [0x61, 0x20, 0x62, 10]) [] linesAB ⟨by decide, by simp⟩ (fun _ => rfl)
    (fun l hl => by
      simp only [linesAB, List.getLast?_singleton, Option.some.injEq] at hl
      rw [← hl]
      rfl)
    (by decide) rfl fun _ => 0

/-- What `item_string` finds of a key in a text. -/
def itemIn (text key : List UInt8) : Lookup (List UInt8) :=
  itemString (itemInit (textOf text) text.length fun _ => 0).2.tab key 0

/-- The key `a` is not found when its value begins with a dot, nor past a comment of 256 bytes or
255 blank lines. -/
theorem item_init_loses :
    itemIn [0x61, 0x20, 0x2e, 0x62, 10] [0x61] = .missing ∧
      itemIn (0x23 :: List.replicate 255 0x78 ++ [10, 0x61, 0x20, 0x62, 10]) [0x61] = .missing ∧
        itemIn ([0x63, 0x20, 0x64] ++ List.replicate 256 10 ++ [0x61, 0x20, 0x62, 10]) [0x61] =
          .missing := by
  refine ⟨?_, ?_, ?_⟩ <;> decide +kernel

end InfotmUboot
