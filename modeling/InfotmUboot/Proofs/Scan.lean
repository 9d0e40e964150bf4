import InfotmUboot.Proofs.Items

/-!
# The footprint of the scanner

What the scanner reads and writes, for any text. Line by line it keeps to the text and to its slots
exactly if the line has the shape `lineOf` asks for, so `item_init` as a whole is safe exactly on
the texts that are `Tame` (`item_init_safe`).
-/

namespace InfotmUboot

open Lib

section Shape

variable (text : Mem) (len : ℕ)

/-- Where the next line begins after a tail that lies in the text, `none` inside if the scanner
gives up there. -/
def tailOf (s : ℕ) : Option (Option ℕ) :=
  let c := scan text (fun b => ¬isLinef b) PARSE_LIMIT s
  let d := scan text isLinef PARSE_LIMIT (s + c)
  if c = PARSE_LIMIT then if s + c < len then some none else none
  else if s + c + d < len then some (if d = PARSE_LIMIT then none else some (s + c + d)) else none

/-- A key that fits, its blanks, and a string that fits if there is one. -/
def itemOf (s : ℕ) : Option (Bool × Option ℕ) :=
  let k := scan text isField PARSE_LIMIT s
  let w := scan text isWhite PARSE_LIMIT (s + k)
  let v := scan text isField PARSE_LIMIT (s + k + w)
  if s + k < len ∧ k < ITEM_MAX_LEN ∧ w < PARSE_LIMIT ∧ s + k + w < len then
    if isLinef (text (s + k + w)) then
      (tailOf text len (s + k + w)).map fun e => (decide (k ≠ 0 ∧ text s ≠ 0), e)
    else if s + k + w + v < len ∧ v < ITEM_MAX_LEN then
      (tailOf text len (s + k + w + v)).map fun e => (decide (k ≠ 0 ∧ text s ≠ 0), e)
    else none
  else none

/-- A line that lies in the text and has fields that fit: whether it has a key, and where the next
one begins. -/
def lineOf (s : ℕ) : Option (Bool × Option ℕ) :=
  let w := scan text isWhite PARSE_LIMIT s
  let l := scan text isLinef PARSE_LIMIT (s + w)
  if w < PARSE_LIMIT ∧ l < PARSE_LIMIT ∧ s + w + l < len then
    if text (s + w + l) = 0x23 then (tailOf text len (s + w + l)).map fun e => (false, e)
    else if agree text itemsEnd (s + w + l) = 9 then
      if s + w + l + 9 ≤ len then some (false, none) else none
    else itemOf text len (s + w + l)
  else none

/-- The lines from `s` on have that shape up to one the scanner stops at, and `i` keys and theirs
leave a slot. -/
def Tame : ℕ → ℕ → ℕ → Prop
  | 0, i, _ => i < ITEM_MAX_COUNT
  | n + 1, i, s =>
    if i < ITEM_MAX_COUNT ∧ s < len then
      match lineOf text len s with
      | none => False
      | some (key, none) => (if key then i + 1 else i) < ITEM_MAX_COUNT
      | some (key, some s') => Tame n (if key then i + 1 else i) s'
    else i < ITEM_MAX_COUNT

instance decidableTame : ∀ n i s, Decidable (Tame text len n i s)
  | 0, i, _ => inferInstanceAs (Decidable (i < ITEM_MAX_COUNT))
  | n + 1, i, s =>
    if h : i < ITEM_MAX_COUNT ∧ s < len then
      match hl : lineOf text len s with
      | none => isFalse (by rw [Tame, if_pos h, hl]; exact id)
      | some (key, none) =>
        decidable_of_iff ((if key then i + 1 else i) < ITEM_MAX_COUNT) (by rw [Tame, if_pos h, hl])
      | some (key, some s') =>
        have := decidableTame n (if key then i + 1 else i) s'
        decidable_of_iff (Tame text len n (if key then i + 1 else i) s')
          (by rw [Tame, if_pos h, hl])
    else decidable_of_iff (i < ITEM_MAX_COUNT) (by rw [Tame, if_neg h])

end Shape

section Footprint

variable {text : Mem} {len : ℕ}

/-- All reads are in the text and all writes in their fields. -/
def Scan.Ok (len : ℕ) (a : Scan) : Prop :=
  (∀ x ∈ a.reads, x < len) ∧ ∀ w ∈ a.writes, w.2 < ITEM_MAX_LEN

theorem ok_read (len : ℕ) (a : Scan) (s n : ℕ) :
    (a.read s (n + 1)).Ok len ↔ a.Ok len ∧ s + n < len := by
  simp only [Scan.Ok, Scan.read, List.mem_append, List.mem_range'_1]
  constructor
  · rintro ⟨hr, hw⟩
    exact ⟨⟨fun x hx => hr x (Or.inl hx), hw⟩, hr (s + n) (Or.inr ⟨by omega, by omega⟩)⟩
  · rintro ⟨⟨hr, hw⟩, hn⟩
    refine ⟨fun x hx => ?_, hw⟩
    rcases hx with hx | hx
    · exact hr x hx
    · omega

theorem ok_copy (text : Mem) (len : ℕ) (buf s : ℕ) (a : Scan) :
    (copy text buf s a).2.Ok len ↔ a.Ok len ∧ s + scan text isField PARSE_LIMIT s < len ∧
      scan text isField PARSE_LIMIT s < ITEM_MAX_LEN := by
  obtain ⟨c, hc⟩ : ∃ c, scan text isField PARSE_LIMIT s = c := ⟨_, rfl⟩
  have hread := ok_read len a s c
  simp only [Scan.Ok, Scan.read] at hread
  have hwrites : (∀ w ∈ (List.range (c + 1)).map (fun j => (buf, j)), w.2 < ITEM_MAX_LEN) ↔
      c < ITEM_MAX_LEN := by
    constructor
    · intro h
      exact h (buf, c) (List.mem_map.2 ⟨c, List.mem_range.2 (Nat.lt_succ_self c), rfl⟩)
    · intro h w hw
      obtain ⟨j, hj, rfl⟩ := List.mem_map.1 hw
      have := List.mem_range.1 hj
      dsimp only
      omega
  simp only [copy, Scan.Ok, hc, List.forall_mem_append, hwrites] at hread ⊢
  tauto

/-- How a line ends that the next one begins after, or that the scanner stops at. -/
def LineEnd.ofNext : Option ℕ → LineEnd
  | none => .stop
  | some s => .next s

/-- Something the scanner does from `a` on keeps to the text and its fields if it has the shape `e`,
and then it ends like that. -/
def Shaped {α : Type} (len : ℕ) (a : Scan) (out : LineEnd × Scan) (f : α → Option ℕ) :
    Option α → Prop
  | none => out.1 = .fault ∨ ¬out.2.Ok len
  | some e => (out.2.Ok len ↔ a.Ok len) ∧ out.1 = .ofNext (f e)

theorem scan_le {p : UInt8 → Bool} : ∀ {n s : ℕ}, scan text p n s ≤ n
  | 0, _ => le_refl _
  | n + 1, s => by
    rw [scan]
    split_ifs
    · exact Nat.succ_le_succ scan_le
    · exact Nat.zero_le _

theorem skip_eq (p : UInt8 → Bool) (s : ℕ) (a : Scan) {c : ℕ}
    (hc : scan text p PARSE_LIMIT s = c) :
    skip text p s a = (if c = PARSE_LIMIT then none else some (s + c), a.read s (c + 1)) := by
  rw [skip, hc]

/-- The tail of a line in one piece. -/
theorem skipLine_eq (s : ℕ) (a : Scan) {c d : ℕ}
    (hc : scan text (fun b => ¬isLinef b) PARSE_LIMIT s = c)
    (hd : scan text isLinef PARSE_LIMIT (s + c) = d) :
    skipLine text s a =
      if c = PARSE_LIMIT then (.stop, a.read s (c + 1))
      else (if d = PARSE_LIMIT then .stop else .next (s + c + d),
        (a.read s (c + 1)).read (s + c) (d + 1)) := by
  rw [skipLine, skip_eq _ s a hc]
  by_cases hlim : c = PARSE_LIMIT
  · rw [if_pos hlim, if_pos hlim]
  · rw [if_neg hlim, if_neg hlim]
    dsimp only
    rw [skipLinef, skip_eq _ _ _ hd]
    by_cases hdl : d = PARSE_LIMIT
    · rw [if_pos hdl, if_pos hdl]
    · rw [if_neg hdl, if_neg hdl]

theorem skipLine_tab (s : ℕ) (a : Scan) : (skipLine text s a).2.tab = a.tab := by
  rw [skipLine_eq s a rfl rfl]
  split_ifs <;> rfl

theorem skipLine_shape (s : ℕ) (a : Scan) :
    Shaped len a (skipLine text s a) id (tailOf text len s) := by
  obtain ⟨c, hc⟩ : ∃ c, scan text (fun b => ¬isLinef b) PARSE_LIMIT s = c := ⟨_, rfl⟩
  obtain ⟨d, hd⟩ : ∃ d, scan text isLinef PARSE_LIMIT (s + c) = d := ⟨_, rfl⟩
  rw [skipLine_eq s a hc hd, tailOf]
  simp only [hc, hd]
  by_cases hlim : c = PARSE_LIMIT
  · rw [if_pos hlim, if_pos hlim]
    by_cases hin : s + c < len
    · rw [if_pos hin]
      exact ⟨(ok_read len a s c).trans (and_iff_left hin), rfl⟩
    · rw [if_neg hin]
      exact Or.inr fun h => hin ((ok_read len a s c).1 h).2
  · rw [if_neg hlim, if_neg hlim]
    by_cases hin : s + c + d < len
    · rw [if_pos hin]
      refine ⟨?_, by split_ifs <;> rfl⟩
      rw [ok_read, ok_read, and_assoc]
      exact and_iff_left ⟨by omega, hin⟩
    · rw [if_neg hin]
      exact Or.inr fun h => hin ((ok_read _ _ _ _).1 h).2

theorem Shaped.of_iff {α : Type} {a a' : Scan} {out : LineEnd × Scan} {f : α → Option ℕ}
    {o : Option α} (h : Shaped len a' out f o) (hok : a'.Ok len ↔ a.Ok len) :
    Shaped len a out f o := by
  cases o with
  | none => exact h
  | some e => exact ⟨h.1.trans hok, h.2⟩

theorem Shaped.map {α β : Type} {a : Scan} {out : LineEnd × Scan} {f : α → Option ℕ}
    {g : β → Option ℕ} {o : Option α} (h : Shaped len a out f o) (m : α → β)
    (hg : ∀ e, g (m e) = f e) : Shaped len a out g (o.map m) := by
  cases o with
  | none => exact h
  | some e => exact ⟨h.1, by rw [hg]; exact h.2⟩

/-- What starts outside does not get in. -/
theorem Shaped.fails {α : Type} {a : Scan} {out : LineEnd × Scan} {f : α → Option ℕ} {o : Option α}
    (h : Shaped len a out f o) (hok : ¬a.Ok len) : out.1 = .fault ∨ ¬out.2.Ok len := by
  cases o with
  | none => exact h
  | some e => exact Or.inr fun h' => hok (h.1.1 h')

/-- The key and the string of a line in one piece. -/
theorem parseItem_eq (t s : ℕ) (a : Scan) {k w : ℕ} (hk : scan text isField PARSE_LIMIT s = k)
    (hw : scan text isWhite PARSE_LIMIT (s + k) = w) :
    let a' := ((copy text (keyAt t) s a).2.read (s + k) (w + 1)).read (s + k + w) 1
    parseItem text t s a =
      if w = PARSE_LIMIT then (.fault, (copy text (keyAt t) s a).2.read (s + k) (w + 1))
      else if isLinef (text (s + k + w)) then skipLine text (s + k + w) a'
      else skipLine text (s + k + w + scan text isField PARSE_LIMIT (s + k + w))
        (copy text (stringAt t) (s + k + w) (a'.read (s + k + w) 1)).2 := by
  have hcopy : copy text (keyAt t) s a = (s + k, (copy text (keyAt t) s a).2) := by
    rw [← hk]
    rfl
  intro a'
  rw [parseItem, hcopy]
  dsimp only
  rw [skipWhite, skip_eq _ _ _ hw]
  by_cases hlim : w = PARSE_LIMIT
  · rw [if_pos hlim, if_pos hlim]
  · rw [if_neg hlim, if_neg hlim]
    dsimp only
    by_cases hl : isLinef (text (s + k + w)) = true
    · rw [if_pos hl, if_pos hl]
    · have h0 : scan text isLinef PARSE_LIMIT (s + k + w) = 0 := by
        change scan text isLinef (255 + 1) (s + k + w) = 0
        rw [scan, if_neg hl]
      rw [if_neg hl, if_neg hl, skipLinef, skip_eq _ _ _ h0]
      rfl

theorem parseItem_shape (t s : ℕ) (a : Scan) :
    Shaped len a (parseItem text t s a) Prod.snd (itemOf text len s) := by
  obtain ⟨k, hk⟩ : ∃ k, scan text isField PARSE_LIMIT s = k := ⟨_, rfl⟩
  obtain ⟨w, hw⟩ : ∃ w, scan text isWhite PARSE_LIMIT (s + k) = w := ⟨_, rfl⟩
  obtain ⟨v, hv⟩ : ∃ v, scan text isField PARSE_LIMIT (s + k + w) = v := ⟨_, rfl⟩
  have hkey := ok_copy text len (keyAt t) s a
  have hwhite := ok_read len (copy text (keyAt t) s a).2 (s + k) w
  have hpeek := ok_read len ((copy text (keyAt t) s a).2.read (s + k) (w + 1))
    (s + k + w) 0
  rw [parseItem_eq t s a hk hw, itemOf]
  simp only [hk, hw, hv] at hkey ⊢
  set a1 := (copy text (keyAt t) s a).2
  set a2 := a1.read (s + k) (w + 1)
  set a3 := a2.read (s + k + w) 1
  have hstring := ok_copy text len (stringAt t) (s + k + w)
    (a3.read (s + k + w) 1)
  have hskip := ok_read len a3 (s + k + w) 0
  rw [hv] at hstring
  set a4 := (copy text (stringAt t) (s + k + w) (a3.read (s + k + w) 1)).2
  by_cases hok : s + k < len ∧ k < ITEM_MAX_LEN ∧ w < PARSE_LIMIT ∧ s + k + w < len
  · rw [if_pos hok, if_neg hok.2.2.1.ne]
    have h3 : a3.Ok len ↔ a.Ok len := by
      rw [hpeek, hwhite, hkey]
      constructor
      · rintro ⟨⟨⟨h, _⟩, _⟩, _⟩
        exact h
      · intro h
        exact ⟨⟨⟨h, hok.1, hok.2.1⟩, hok.2.2.2⟩, hok.2.2.2⟩
    by_cases hl : isLinef (text (s + k + w)) = true
    · rw [if_pos hl, if_pos hl]
      exact ((skipLine_shape _ a3).of_iff h3).map _ fun e => rfl
    · rw [if_neg hl, if_neg hl]
      by_cases hfit : s + k + w + v < len ∧ v < ITEM_MAX_LEN
      · rw [if_pos hfit]
        refine ((skipLine_shape _ a4).of_iff ?_).map _ fun e => rfl
        rw [hstring, hskip, h3]
        exact ⟨fun h => h.1.1, fun h => ⟨⟨h, hok.2.2.2⟩, hfit⟩⟩
      · rw [if_neg hfit]
        exact (skipLine_shape _ a4).fails fun h => hfit (hstring.1 h).2
  · rw [if_neg hok]
    by_cases hlim : w = PARSE_LIMIT
    · rw [if_pos hlim]
      exact Or.inl rfl
    · have hw' : w < PARSE_LIMIT := lt_of_le_of_ne (hw ▸ scan_le) hlim
      have h3 : ¬a3.Ok len := fun h => by
        have h2 := hpeek.1 h
        have h1 := hkey.1 (hwhite.1 h2.1).1
        exact hok ⟨h1.2.1, h1.2.2, hw', h2.2⟩
      rw [if_neg hlim]
      by_cases hl : isLinef (text (s + k + w)) = true
      · rw [if_pos hl]
        exact (skipLine_shape _ a3).fails h3
      · rw [if_neg hl]
        exact (skipLine_shape _ a4).fails fun h => h3 (hskip.1 (hstring.1 h).1).1

/-- A string of field bytes that agrees is in the field. -/
theorem agree_le : ∀ {cs : List UInt8} {n s : ℕ}, (∀ c ∈ cs, isField c = true) → cs.length ≤ n →
    agree text cs s ≤ scan text isField n s
  | [], _, _, _, _ => Nat.zero_le _
  | c :: cs, 0, _, _, hn => absurd hn (Nat.not_succ_le_zero _)
  | c :: cs, n + 1, s, hcs, hn => by
    rw [agree, scan]
    by_cases hc : text s = c
    · rw [if_pos hc, if_pos (by rw [hc]; exact hcs c List.mem_cons_self)]
      exact Nat.succ_le_succ (agree_le (fun c hc => hcs c (List.mem_cons_of_mem _ hc))
        (Nat.le_of_succ_le_succ hn))
    · rw [if_neg hc]
      exact Nat.zero_le _

theorem agree_le_length : ∀ (cs : List UInt8) {s : ℕ}, agree text cs s ≤ cs.length
  | [], _ => le_refl _
  | _ :: cs, _ => by
    rw [agree]
    split_ifs
    · exact Nat.succ_le_succ (agree_le_length cs)
    · exact Nat.zero_le _

theorem itemOf_inside {s : ℕ} {e : Bool × Option ℕ} (h : itemOf text len s = some e) :
    s + agree text itemsEnd s < len := by
  have hagree : agree text itemsEnd s ≤ scan text isField PARSE_LIMIT s :=
    agree_le (List.all_eq_true.1 (by decide)) (by decide)
  rw [itemOf] at h
  split_ifs at h with hok
  all_goals exact lt_of_le_of_lt (Nat.add_le_add_left hagree s) hok.1

/-- A line in one piece. -/
theorem parseLine_eq (t s : ℕ) (a : Scan) {w l : ℕ} (hw : scan text isWhite PARSE_LIMIT s = w)
    (hl : scan text isLinef PARSE_LIMIT (s + w) = l) :
    let a1 := a.read s (w + 1)
    let a2 := a1.read (s + w) (l + 1)
    let a3 := a2.read (s + w + l) 1
    let a4 := a3.read (s + w + l) (min (agree text itemsEnd (s + w + l) + 1) 9)
    parseLine text t s a =
      if w = PARSE_LIMIT then (.fault, a1)
      else if l = PARSE_LIMIT then (.fault, a2)
      else if text (s + w + l) ≠ 0x23 then
        if agree text itemsEnd (s + w + l) = 9 then (.stop, a4)
        else parseItem text t (s + w + l) a4
      else skipLine text (s + w + l) a3 := by
  intro a1 a2 a3 a4
  rw [parseLine, skipWhite, skip_eq _ _ _ hw]
  by_cases hwlim : w = PARSE_LIMIT
  · rw [if_pos hwlim, if_pos hwlim]
  · rw [if_neg hwlim, if_neg hwlim]
    dsimp only
    rw [skipLinef, skip_eq _ _ _ hl]
    by_cases hllim : l = PARSE_LIMIT
    · rw [if_pos hllim, if_pos hllim]
    · rw [if_neg hllim, if_neg hllim]

theorem parseLine_shape (t s : ℕ) (a : Scan) :
    Shaped len a (parseLine text t s a) Prod.snd (lineOf text len s) := by
  obtain ⟨w, hw⟩ : ∃ w, scan text isWhite PARSE_LIMIT s = w := ⟨_, rfl⟩
  obtain ⟨l, hl⟩ : ∃ l, scan text isLinef PARSE_LIMIT (s + w) = l := ⟨_, rfl⟩
  rw [parseLine_eq t s a hw hl, lineOf]
  simp only [hw, hl]
  have h1 := ok_read len a s w
  set a1 := a.read s (w + 1)
  have h2 := ok_read len a1 (s + w) l
  set a2 := a1.read (s + w) (l + 1)
  have h3 := ok_read len a2 (s + w + l) 0
  set a3 := a2.read (s + w + l) 1
  obtain ⟨s2, hs2⟩ : ∃ s2, s + w + l = s2 := ⟨_, rfl⟩
  rw [hs2] at h2 h3 ⊢
  by_cases hok : w < PARSE_LIMIT ∧ l < PARSE_LIMIT ∧ s2 < len
  · have hstart : a3.Ok len ↔ a.Ok len := by
      rw [h3, h2, h1]
      constructor
      · rintro ⟨⟨⟨h, _⟩, _⟩, _⟩
        exact h
      · intro h
        exact ⟨⟨⟨h, by omega⟩, hok.2.2⟩, hok.2.2⟩
    rw [if_neg hok.1.ne, if_neg hok.2.1.ne, if_pos hok]
    by_cases hhash : text s2 = 0x23
    · rw [if_neg (not_not.2 hhash), if_pos hhash]
      exact ((skipLine_shape s2 a3).of_iff hstart).map _ fun e => rfl
    · rw [if_pos hhash, if_neg hhash]
      by_cases hend : agree text itemsEnd s2 = 9
      · have h4 := ok_read len a3 s2 8
        rw [if_pos hend, if_pos hend, hend]
        by_cases hin : s2 + 9 ≤ len
        · rw [if_pos hin]
          exact ⟨h4.trans ((and_iff_left (by omega)).trans hstart), rfl⟩
        · rw [if_neg hin]
          exact Or.inr fun h => hin (by have := (h4.1 h).2; omega)
      · have hlt : agree text itemsEnd s2 < 9 :=
          lt_of_le_of_ne (agree_le_length itemsEnd) hend
        have h4 := ok_read len a3 s2 (agree text itemsEnd s2)
        have hitem : Shaped len _ _ _ (itemOf text len s2) :=
          parseItem_shape t s2 (a3.read s2 (agree text itemsEnd s2 + 1))
        rw [if_neg hend, if_neg hend, min_eq_left (by omega)]
        rcases he : itemOf text len s2 with _ | e
        · rw [he] at hitem
          exact hitem
        · rw [he] at hitem
          exact hitem.of_iff (h4.trans ((and_iff_left (itemOf_inside he)).trans hstart))
  · rw [if_neg hok]
    by_cases hwlim : w = PARSE_LIMIT
    · rw [if_pos hwlim]
      exact Or.inl rfl
    · rw [if_neg hwlim]
      by_cases hllim : l = PARSE_LIMIT
      · rw [if_pos hllim]
        exact Or.inl rfl
      · have hw' : w < PARSE_LIMIT := lt_of_le_of_ne (hw ▸ scan_le) hwlim
        have hl' : l < PARSE_LIMIT := lt_of_le_of_ne (hl ▸ scan_le) hllim
        have hbad : ¬a3.Ok len := fun h => hok ⟨hw', hl', (h3.1 h).2⟩
        rw [if_neg hllim]
        by_cases hhash : text s2 = 0x23
        · rw [if_neg (not_not.2 hhash)]
          exact (skipLine_shape s2 a3).fails hbad
        · rw [if_pos hhash]
          by_cases hend : agree text itemsEnd s2 = 9
          · rw [if_pos hend, hend]
            exact Or.inr fun h => hbad ((ok_read len a3 s2 8).1 h).1
          · have hlt : agree text itemsEnd s2 < 9 :=
              lt_of_le_of_ne (agree_le_length itemsEnd) hend
            rw [if_neg hend, min_eq_left (by omega)]
            exact (parseItem_shape t s2 _).fails fun h =>
              hbad ((ok_read len a3 s2 (agree text itemsEnd s2)).1 h).1

end Footprint

section Slots

variable {text : Mem} {len : ℕ}

/-- A NUL ends the field at `buf`. -/
def Closed (tab : Mem) (buf : ℕ) : Prop := ∃ x < ITEM_MAX_LEN, tab (buf + x) = 0

/-- A round leaves slot `t` with a key or without, its fields closed, and the other slots alone. -/
structure SlotFilled (tab tab' : Mem) (t : ℕ) (key : Bool) : Prop where
  frame : ∀ x, x < keyAt t ∨ keyAt (t + 1) ≤ x → tab' x = tab x
  key_iff : tab' (keyAt t) ≠ 0 ↔ key = true
  key_closed : Closed tab' (keyAt t)
  string_closed : Closed tab' (stringAt t)

/-- Nothing is stored in an empty slot. -/
theorem SlotFilled.none {tab : Mem} {t : ℕ} (hkey : tab (keyAt t) = 0) (hstring : tab (stringAt t) =
    0) :
    SlotFilled tab tab t false := by
  refine ⟨fun _ _ => rfl, ?_, ⟨0, by decide, hkey⟩, ⟨0, by decide, hstring⟩⟩
  rw [hkey]
  decide

theorem closed_store (tab : Mem) (buf : ℕ) {bs : List UInt8} (h : bs.length < ITEM_MAX_LEN) :
    Closed (tab.store buf (bs ++ [0])) buf := by
  refine ⟨bs.length, h, ?_⟩
  rw [Mem.store_add _ _ _ (by rw [List.length_append, List.length_singleton]; omega),
    List.getElem_concat_length rfl]

/-- A key that fits goes to an empty slot. -/
theorem SlotFilled.key (text : Mem) {tab : Mem} {t : ℕ} (hstring : tab (stringAt t) = 0) {s k : ℕ}
    (hk : k < ITEM_MAX_LEN) :
    SlotFilled tab (tab.store (keyAt t) (text.load s k ++ [0])) t
      (decide (k ≠ 0 ∧ text s ≠ 0)) := by
  have hlen : (text.load s k ++ [0]).length = k + 1 := by
    rw [List.length_append, Mem.length_load, List.length_singleton]
  have hslot : keyAt (t + 1) = keyAt t + 128 := keyAt_succ t
  have hmax : ITEM_MAX_LEN = 64 := rfl
  refine ⟨fun x hx => ?_, ?_, closed_store _ _ (by rwa [Mem.length_load]), ⟨0, by decide, ?_⟩⟩
  · rcases hx with hx | hx
    · exact Mem.store_of_lt _ _ hx
    · exact Mem.store_of_ge _ _ (by omega)
  · rw [decide_eq_true_eq]
    cases k with
    | zero => simp [Mem.store]
    | succ k => simp [Mem.store, Mem.load, List.range_succ_eq_map]
  · rw [Nat.add_zero, Mem.store_of_ge _ _ (by rw [hlen, stringAt_eq]; omega)]
    exact hstring

/-- So does a string. -/
theorem SlotFilled.string {tab tab' : Mem} {t : ℕ} {key : Bool} (h : SlotFilled tab tab' t key)
    {s v : ℕ}
    (hv : v < ITEM_MAX_LEN) :
    SlotFilled tab (tab'.store (stringAt t) (text.load s v ++ [0])) t key := by
  have hlen : (text.load s v ++ [0]).length = v + 1 := by
    rw [List.length_append, Mem.length_load, List.length_singleton]
  have hslot : keyAt (t + 1) = keyAt t + 128 := keyAt_succ t
  have hmax : ITEM_MAX_LEN = 64 := rfl
  have hat := stringAt_eq t
  refine ⟨fun x hx => ?_, ?_, ?_, closed_store _ _ (by rwa [Mem.length_load])⟩
  · rcases hx with hx | hx
    · rw [Mem.store_of_lt _ _ (by omega)]
      exact h.frame x (Or.inl hx)
    · rw [Mem.store_of_ge _ _ (by omega)]
      exact h.frame x (Or.inr hx)
  · rw [Mem.store_of_lt _ _ (by omega)]
    exact h.key_iff
  · obtain ⟨x, hx, h0⟩ := h.key_closed
    exact ⟨x, hx, by rwa [Mem.store_of_lt _ _ (by omega)]⟩

theorem copy_tab (buf s : ℕ) (a : Scan) {c : ℕ} (hc : scan text isField PARSE_LIMIT s = c) :
    (copy text buf s a).2.tab = a.tab.store buf (text.load s c ++ [0]) := by
  rw [copy, hc]

theorem parseItem_fills (t s : ℕ) (a : Scan) {tab : Mem} {e : Bool × Option ℕ}
    (htab : a.tab = tab) (he : itemOf text len s = some e) (hstring : tab (stringAt t) = 0) :
    SlotFilled tab (parseItem text t s a).2.tab t e.1 := by
  subst htab
  obtain ⟨k, hk⟩ : ∃ k, scan text isField PARSE_LIMIT s = k := ⟨_, rfl⟩
  obtain ⟨w, hw⟩ : ∃ w, scan text isWhite PARSE_LIMIT (s + k) = w := ⟨_, rfl⟩
  obtain ⟨v, hv⟩ : ∃ v, scan text isField PARSE_LIMIT (s + k + w) = v := ⟨_, rfl⟩
  rw [itemOf] at he
  simp only [hk, hw, hv] at he
  rw [parseItem_eq t s a hk hw]
  have hkey := SlotFilled.key text hstring (s := s) (k := k)
  split_ifs at he with hok hl hfit
  · obtain ⟨_, _, rfl⟩ := Option.map_eq_some_iff.1 he
    rw [if_neg hok.2.2.1.ne, if_pos hl, skipLine_tab]
    simp only [Scan.read, copy_tab _ _ _ hk]
    exact hkey hok.2.1
  · obtain ⟨_, _, rfl⟩ := Option.map_eq_some_iff.1 he
    rw [if_neg hok.2.2.1.ne, if_neg hl, skipLine_tab, copy_tab _ _ _ hv]
    simp only [Scan.read, copy_tab _ _ _ hk]
    exact (hkey hok.2.1).string hfit.2

theorem parseLine_fills (t s : ℕ) (a : Scan) {e : Bool × Option ℕ} (he : lineOf text len s = some e)
    (hkey : a.tab (keyAt t) = 0) (hstring : a.tab (stringAt t) = 0) :
    SlotFilled a.tab (parseLine text t s a).2.tab t e.1 := by
  obtain ⟨w, hw⟩ : ∃ w, scan text isWhite PARSE_LIMIT s = w := ⟨_, rfl⟩
  obtain ⟨l, hl⟩ : ∃ l, scan text isLinef PARSE_LIMIT (s + w) = l := ⟨_, rfl⟩
  rw [lineOf] at he
  simp only [hw, hl] at he
  rw [parseLine_eq t s a hw hl]
  split_ifs at he with hok hhash hend hin
  · obtain ⟨_, _, rfl⟩ := Option.map_eq_some_iff.1 he
    rw [if_neg hok.1.ne, if_neg hok.2.1.ne, if_neg (not_not.2 hhash), skipLine_tab]
    exact SlotFilled.none hkey hstring
  · obtain rfl := Option.some.inj he
    rw [if_neg hok.1.ne, if_neg hok.2.1.ne, if_pos hhash, if_pos hend]
    exact SlotFilled.none hkey hstring
  · rw [if_neg hok.1.ne, if_neg hok.2.1.ne, if_pos hhash, if_neg hend]
    exact parseItem_fills t _ _ rfl he hstring

/-- The first `i` slots have keys, the slots after them have none, and all fields are closed. -/
structure Tidy (tab : Mem) (i : ℕ) : Prop where
  keys : ∀ j < i, tab (keyAt j) ≠ 0
  rest : ∀ j, i ≤ j → j < ITEM_MAX_COUNT → tab (keyAt j) = 0
  closed : ∀ j < ITEM_MAX_COUNT, Closed tab (keyAt j) ∧ Closed tab (stringAt j)

theorem tidy_clear (tab : Mem) : Tidy (clearItems tab) 0 := by
  have hzero : ∀ j < ITEM_MAX_COUNT, ∀ x < ITEM_SIZE, clearItems tab (keyAt j + x) = 0 := by
    intro j hj x hx
    have hle : keyAt (j + 1) ≤ ITEM_MAX_COUNT * ITEM_SIZE := keyAt_le hj
    rw [keyAt_succ] at hle
    exact if_pos (by omega)
  refine ⟨fun j hj => absurd hj (Nat.not_lt_zero j), fun j _ hj => ?_, fun j hj => ⟨?_, ?_⟩⟩
  · exact hzero j hj 0 (by decide)
  · exact ⟨0, by decide, hzero j hj 0 (by decide)⟩
  · exact ⟨0, by decide, hzero j hj ITEM_MAX_LEN (by decide)⟩

variable {tab tab' : Mem} {i : ℕ}

/-- A field outside slot `t` is as it was. -/
theorem SlotFilled.keeps {t j : ℕ} {key : Bool} (h : SlotFilled tab tab' t key) (hj : j ≠ t) (x : ℕ)
    (hx : x < ITEM_SIZE) : tab' (keyAt j + x) = tab (keyAt j + x) := by
  refine h.frame _ ?_
  rcases Nat.lt_or_gt_of_ne hj with hlt | hgt
  · have hle : keyAt (j + 1) ≤ keyAt t := keyAt_le hlt
    rw [keyAt_succ] at hle
    exact Or.inl (by omega)
  · have hle : keyAt (t + 1) ≤ keyAt j := keyAt_le hgt
    exact Or.inr (by omega)

theorem Tidy.fill (ht : Tidy tab i) (hi : i < ITEM_MAX_COUNT) {key : Bool}
    (h : SlotFilled tab tab' i key) : Tidy tab' (if key then i + 1 else i) := by
  have hkey : ∀ {j}, j ≠ i → tab' (keyAt j) = tab (keyAt j) := fun hj => h.keeps hj 0 (by decide)
  have hsize : ITEM_SIZE = 2 * ITEM_MAX_LEN := rfl
  refine ⟨fun j hj => ?_, fun j hj hlt => ?_, fun j hj => ?_⟩
  · by_cases heq : j = i
    · subst heq
      refine h.key_iff.2 (by_contra fun hfalse => ?_)
      rw [if_neg hfalse] at hj
      exact absurd hj (lt_irrefl j)
    · rw [hkey heq]
      refine ht.keys j ?_
      split_ifs at hj <;> omega
  · by_cases heq : j = i
    · subst heq
      refine not_not.1 fun hne => ?_
      rw [if_pos (h.key_iff.1 hne)] at hj
      omega
    · rw [hkey heq]
      refine ht.rest j ?_ hlt
      split_ifs at hj <;> omega
  · by_cases heq : j = i
    · subst heq
      exact ⟨h.key_closed, h.string_closed⟩
    · obtain ⟨⟨x, hx, hxz⟩, y, hy, hyz⟩ := ht.closed j hj
      refine ⟨⟨x, hx, ?_⟩, y, hy, ?_⟩
      · rwa [h.keeps heq x (by omega)]
      · rw [stringAt_eq, Nat.add_assoc] at hyz ⊢
        rwa [h.keeps heq _ (by omega)]

/-- A round starts by emptying its slot. -/
theorem Tidy.clear (ht : Tidy tab i) (hi : i < ITEM_MAX_COUNT) :
    Tidy ((tab.store (keyAt i) [0]).store (stringAt i) [0]) i := by
  have hslot : keyAt (i + 1) = keyAt i + 128 := keyAt_succ i
  have hmax : ITEM_MAX_LEN = 64 := rfl
  have hat := stringAt_eq i
  have hkey : ((tab.store (keyAt i) [0]).store (stringAt i) [0]) (keyAt i) = 0 := by
    rw [Mem.store_of_lt _ _ (by omega)]
    simp [Mem.store]
  have hstring : ((tab.store (keyAt i) [0]).store (stringAt i) [0]) (stringAt i) = 0 := by
    simp [Mem.store]
  have hempty : SlotFilled tab ((tab.store (keyAt i) [0]).store (stringAt i) [0]) i false := by
    refine ⟨fun x hx => ?_, by simp [hkey], ⟨0, by decide, hkey⟩, ⟨0, by decide, hstring⟩⟩
    rcases hx with hx | hx
    · rw [Mem.store_of_lt _ _ (by omega), Mem.store_of_lt _ _ hx]
    · rw [Mem.store_of_ge _ _ (by rw [List.length_singleton]; omega),
        Mem.store_of_ge _ _ (by rw [List.length_singleton]; omega)]
  exact ht.fill hi hempty

/-- A slot is left without a key exactly if not all of them have one. -/
theorem Tidy.sentinel_iff (ht : Tidy tab i) (hi : i ≤ ITEM_MAX_COUNT) :
    (∃ j < ITEM_MAX_COUNT, tab (keyAt j) = 0) ↔ i < ITEM_MAX_COUNT := by
  constructor
  · rintro ⟨j, hj, h0⟩
    by_contra hge
    exact ht.keys j (by omega) h0
  · intro hlt
    exact ⟨i, hlt, ht.rest i (le_refl i) hlt⟩

end Slots

section Lookups

variable {tab : Mem} {α : Type} {f : ℕ → Option α}

/-- Every lookup ends at a slot of the table. -/
def LookupsStop (tab : Mem) : Prop :=
  itemList tab ≠ .outside ∧ ∀ (key : List UInt8) (section' : ℕ), itemExist tab key ≠ .outside ∧
    itemString tab key section' ≠ .outside ∧ itemStringItem tab key section' ≠ .outside

theorem lookupLoop_stops {n i : ℕ} (h : ∃ j, i ≤ j ∧ j < i + n ∧ tab (keyAt j) = 0) :
    lookupLoop tab f n i ≠ .outside := by
  induction n generalizing i with
  | zero =>
    obtain ⟨j, hi, hj, -⟩ := h
    exact absurd hj (by omega)
  | succ n ih =>
    obtain ⟨j, hi, hj, h0⟩ := h
    rw [lookupLoop]
    split_ifs with hkey
    · simp
    · cases f i with
      | some a => simp
      | none =>
        have hne : j ≠ i := fun h => hkey (h ▸ h0)
        exact ih ⟨j, by omega, by omega, h0⟩

/-- A lookup that finds nothing runs through the table. -/
theorem lookupLoop_none : ∀ {n i : ℕ}, lookupLoop tab (fun _ => (none : Option α)) n i ≠ .outside →
    ∃ j, i ≤ j ∧ j < i + n ∧ tab (keyAt j) = 0
  | 0, _, h => absurd rfl h
  | n + 1, i, h => by
    by_cases h0 : tab (keyAt i) = 0
    · exact ⟨i, le_refl i, by omega, h0⟩
    · rw [lookupLoop, if_neg h0] at h
      obtain ⟨j, hi, hj, hz⟩ := lookupLoop_none h
      exact ⟨j, by omega, by omega, hz⟩

theorem lookupsStop_iff : LookupsStop tab ↔ ∃ j < ITEM_MAX_COUNT, tab (keyAt j) = 0 := by
  constructor
  · intro h
    obtain ⟨j, _, hj, h0⟩ := lookupLoop_none h.1
    exact ⟨j, by omega, h0⟩
  · rintro ⟨j, hj, h0⟩
    have hslot : ∃ j, 0 ≤ j ∧ j < 0 + ITEM_MAX_COUNT ∧ tab (keyAt j) = 0 :=
      ⟨j, Nat.zero_le j, by omega, h0⟩
    exact ⟨lookupLoop_stops hslot, fun key section' =>
      ⟨lookupLoop_stops hslot, lookupLoop_stops hslot, lookupLoop_stops hslot⟩⟩

end Lookups

section Rounds

variable {text : Mem} {len : ℕ}

theorem skipLine_moves {s e : ℕ} {a : Scan} (h : (skipLine text s a).1 = .next e) : s < e := by
  obtain ⟨c, hc⟩ : ∃ c, scan text (fun b => ¬isLinef b) PARSE_LIMIT s = c := ⟨_, rfl⟩
  obtain ⟨d, hd⟩ : ∃ d, scan text isLinef PARSE_LIMIT (s + c) = d := ⟨_, rfl⟩
  rw [skipLine_eq s a hc hd] at h
  split_ifs at h
  obtain rfl := LineEnd.next.inj h
  by_cases hl : isLinef (text s) = true
  · have hc0 : c = 0 := by
      rw [← hc]
      change scan text _ (255 + 1) s = 0
      rw [scan, if_neg (by simp [hl])]
    have hd1 : 0 < d := by
      rw [← hd, hc0]
      change 0 < scan text _ (255 + 1) s
      rw [scan, if_pos hl]
      exact Nat.succ_pos _
    omega
  · have hc1 : 0 < c := by
      rw [← hc]
      change 0 < scan text _ (255 + 1) s
      rw [scan, if_pos (by simp [hl])]
      exact Nat.succ_pos _
    omega

theorem parseItem_moves {t s e : ℕ} {a : Scan} (h : (parseItem text t s a).1 = .next e) :
    s < e := by
  rw [parseItem_eq t s a rfl rfl] at h
  split_ifs at h
  · have := skipLine_moves h
    omega
  · have := skipLine_moves h
    omega

theorem parseLine_moves {t s e : ℕ} {a : Scan} (h : (parseLine text t s a).1 = .next e) :
    s < e := by
  rw [parseLine_eq t s a rfl rfl] at h
  split_ifs at h
  · have := parseItem_moves h
    omega
  · have := skipLine_moves h
    omega

/-- The rounds are enough: at most one for each byte that is left. -/
theorem itemInitLoop_rounds : ∀ {n i s : ℕ} {a : Scan}, len ≤ n + s →
    itemInitLoop text len (n + 1) i s a = itemInitLoop text len n i s a
  | 0, i, s, a, h => by
    rw [itemInitLoop.eq_2, if_neg (by omega), itemInitLoop]
  | n + 1, i, s, a, h => by
    rw [itemInitLoop, itemInitLoop]
    split_ifs with hc
    · dsimp only
      rcases hp : parseLine text i s
        { a with tab := (a.tab.store (keyAt i) [0]).store (stringAt i) [0] } with ⟨_ | _ | s', a'⟩
      · rfl
      · rfl
      · have hlt : s < s' := parseLine_moves (congrArg Prod.fst hp)
        dsimp only
        rw [itemInitLoop_rounds (by omega), itemInitLoop_rounds (by omega)]
    · rfl

/-- What was read or written amiss stays so. -/
theorem itemInitLoop_amiss : ∀ {n i s : ℕ} {a : Scan}, ¬a.Ok len →
    (itemInitLoop text len n i s a).1 = none ∨ ¬(itemInitLoop text len n i s a).2.Ok len
  | 0, _, _, _, h => Or.inr h
  | n + 1, i, s, a, h => by
    rw [itemInitLoop]
    split_ifs with hc
    · set a0 : Scan := { a with tab := (a.tab.store (keyAt i) [0]).store (stringAt i) [0] }
      have hshape : Shaped len a0 _ _ (lineOf text len s) := parseLine_shape i s a0
      have hline := hshape.fails h
      dsimp only
      rcases hp : parseLine text i s a0 with ⟨_ | _ | s', a'⟩
      · exact Or.inl rfl
      · rw [hp] at hline
        exact Or.inr (hline.resolve_left LineEnd.noConfusion)
      · rw [hp] at hline
        have hbad := hline.resolve_left LineEnd.noConfusion
        dsimp only
        split_ifs
        · exact itemInitLoop_amiss hbad
        · exact itemInitLoop_amiss hbad
    · exact Or.inr h

/-- A run over the text went well, and left a table that lookups stop in. -/
structure ItemSafe (len : ℕ) (out : Option ℕ × Scan) : Prop where
  pointers : out.1 ≠ none
  reads : ∀ x ∈ out.2.reads, x < len
  writes : ∀ w ∈ out.2.writes, w.2 < ITEM_MAX_LEN
  closed : ∀ j < ITEM_MAX_COUNT, Closed out.2.tab (keyAt j) ∧ Closed out.2.tab (stringAt j)
  lookups : LookupsStop out.2.tab

theorem itemSafe_stop {i : ℕ} {a : Scan} {r : ℕ} (hok : a.Ok len) (ht : Tidy a.tab i)
    (hi : i ≤ ITEM_MAX_COUNT) : ItemSafe len (some r, a) ↔ i < ITEM_MAX_COUNT := by
  constructor
  · intro h
    exact (ht.sentinel_iff hi).1 (lookupsStop_iff.1 h.lookups)
  · intro hlt
    exact ⟨nofun, hok.1, hok.2, ht.closed,
      lookupsStop_iff.2 ((ht.sentinel_iff hi).2 hlt)⟩

theorem not_itemSafe {out : Option ℕ × Scan} (h : out.1 = none ∨ ¬out.2.Ok len) :
    ¬ItemSafe len out := by
  intro hs
  rcases h with h | h
  · exact hs.pointers h
  · exact h ⟨hs.reads, hs.writes⟩

theorem itemInitLoop_safe : ∀ {n i s : ℕ} {a : Scan}, a.Ok len → Tidy a.tab i → i ≤ ITEM_MAX_COUNT →
    (ItemSafe len (itemInitLoop text len n i s a) ↔ Tame text len n i s)
  | 0, i, s, a, hok, ht, hi => by
    rw [itemInitLoop, Tame]
    exact itemSafe_stop hok ht hi
  | n + 1, i, s, a, hok, ht, hi => by
    rw [itemInitLoop, Tame]
    by_cases hc : i < ITEM_MAX_COUNT ∧ s < len
    · rw [if_pos hc, if_pos hc]
      set a0 : Scan := { a with tab := (a.tab.store (keyAt i) [0]).store (stringAt i) [0] } with ha0
      have ht0 : Tidy a0.tab i := ht.clear hc.1
      have hok0 : a0.Ok len := hok
      have hshape : Shaped len a0 _ _ (lineOf text len s) := parseLine_shape i s a0
      have hkey : a0.tab (keyAt i) = 0 := ht0.rest i (le_refl i) hc.1
      have hstring : a0.tab (stringAt i) = 0 := by
        rw [ha0]
        simp [Mem.store]
      dsimp only
      rcases he : lineOf text len s with _ | ⟨key, e⟩
      · rw [he] at hshape
        simp only [iff_false]
        refine not_itemSafe ?_
        rcases hp : parseLine text i s a0 with ⟨_ | _ | s', a'⟩
        · exact Or.inl rfl
        · rw [hp] at hshape
          exact Or.inr (hshape.resolve_left LineEnd.noConfusion)
        · rw [hp] at hshape
          have hbad := hshape.resolve_left LineEnd.noConfusion
          dsimp only
          split_ifs
          · exact itemInitLoop_amiss hbad
          · exact itemInitLoop_amiss hbad
      · have hfill := parseLine_fills i s a0 he hkey hstring
        rw [he] at hshape
        rcases hp : parseLine text i s a0 with ⟨r, a'⟩
        rw [hp] at hshape hfill
        obtain ⟨hok', hr⟩ := hshape
        dsimp only at hr hok' hfill
        subst hr
        have ht' : Tidy a'.tab (if key then i + 1 else i) := ht0.fill hc.1 hfill
        have hi' : (if key then i + 1 else i) ≤ ITEM_MAX_COUNT := by split_ifs <;> omega
        cases e with
        | none => exact itemSafe_stop (hok'.2 hok0) ht' hi'
        | some s' =>
          have hzero : a'.tab (keyAt i) = 0 ↔ key = false := by
            rw [← Bool.not_eq_true, ← hfill.key_iff, not_not]
          dsimp only [LineEnd.ofNext]
          cases key with
          | true =>
            rw [if_neg (by rw [hzero]; decide)]
            exact itemInitLoop_safe (hok'.2 hok0) ht' hi'
          | false =>
            rw [if_pos (hzero.2 rfl)]
            exact itemInitLoop_safe (hok'.2 hok0) ht' hi'
    · rw [if_neg hc, if_neg hc]
      exact itemSafe_stop hok ht hi

end Rounds

section Safety

/-- A text is parsed safely exactly if it is tame: each line it is read up to lies in it with a
break or the end mark after it, has fewer than `PARSE_LIMIT` blanks and breaks in a row and fields
shorter than `ITEM_MAX_LEN`, and a slot stays free. -/
theorem item_init_safe (text : Mem) (len : ℕ) (tab : Mem) :
    ItemSafe len (itemInit text len tab) ↔ Tame text len len 0 0 :=
  itemInitLoop_safe ⟨fun _ h => absurd h List.not_mem_nil, fun _ h => absurd h List.not_mem_nil⟩
    (tidy_clear tab) (Nat.zero_le _)

/-- One item and its line break: the scanner looks for another break behind the text. -/
def itemAlone : Mem := fun a => ([0x61, 0x20, 0x62, 10] : List UInt8).getD a 0

theorem item_init_unsafe : ¬∀ (text : Mem) (len : ℕ) (tab : Mem),
    ItemSafe len (itemInit text len tab) := by
  intro h
  have hread : 4 ∈ (itemInit itemAlone 4 fun _ => 0).2.reads := by decide
  exact absurd ((h itemAlone 4 fun _ => 0).reads 4 hread) (lt_irrefl 4)

end Safety

end InfotmUboot
