import InfotmUboot.Lib.Occur

/-!
# Lists of keys and values

The text of a list of entries `key` or `key eq value`, with `stop` between two of them. A key is
listed at a position of the text where it stands with nothing else: behind `stop` or at the start,
and with `stop`, `eq` or the end behind it. That is where its entry begins (`listed_iff`).
-/

namespace Lib

structure Entry (α : Type*) where
  key : List α
  val : Option (List α)

section Keyed

variable {α : Type*} (stop eq : α)

namespace Entry

variable (x : Entry α)

/-- What is behind the key. -/
def tail : List α := x.val.elim [] (eq :: ·)

def text : List α := x.key ++ x.tail eq

/-- Neither mark is in the key, and the one between two entries is not in the value. -/
structure Ok : Prop where
  stop_key : stop ∉ x.key
  eq_key : eq ∉ x.key
  stop_val : ∀ v, x.val = some v → stop ∉ v

end Entry

def entriesText : List (Entry α) → List α
  | [] => []
  | [x] => x.text eq
  | x :: y :: xs => x.text eq ++ stop :: entriesText (y :: xs)

/-- What is in the text is a mark or in an entry. -/
theorem mem_entriesText {c : α} : ∀ {xs : List (Entry α)}, c ∈ entriesText stop eq xs →
    c = stop ∨ c = eq ∨ ∃ x ∈ xs, c ∈ x.key ∨ ∃ v, x.val = some v ∧ c ∈ v
  | [], h => by simp [entriesText] at h
  | x :: xs, h => by
    have htext : c ∈ x.text eq → c = stop ∨ c = eq ∨ ∃ y ∈ x :: xs, c ∈ y.key ∨
        ∃ v, y.val = some v ∧ c ∈ v := fun hc => by
      rcases List.mem_append.1 hc with hk | ht
      · exact .inr (.inr ⟨x, List.mem_cons_self, .inl hk⟩)
      · rcases hv : x.val with _ | v
        · simp [Entry.tail, hv] at ht
        · rw [Entry.tail, hv] at ht
          rcases List.mem_cons.1 ht with rfl | hm
          · exact .inr (.inl rfl)
          · exact .inr (.inr ⟨x, List.mem_cons_self, .inr ⟨v, hv, hm⟩⟩)
    rcases xs with _ | ⟨y, xs⟩
    · exact htext h
    · rw [entriesText] at h
      rcases List.mem_append.1 h with hc | hc
      · exact htext hc
      · rcases List.mem_cons.1 hc with rfl | hm
        · exact .inl rfl
        · obtain h1 | h2 | ⟨z, hz, hin⟩ := mem_entriesText hm
          · exact .inl h1
          · exact .inr (.inl h2)
          · exact .inr (.inr ⟨z, List.mem_cons_of_mem x hz, hin⟩)

variable [DecidableEq α]

/-- The first entry of the key, and where it begins in the text. -/
def locate (w : List α) : List (Entry α) → Option (ℕ × Entry α)
  | [] => none
  | x :: xs => if x.key = w then some (0, x) else
    (locate w xs).map fun found => ((x.text eq).length + 1 + found.1, found.2)

/-- Behind the position there is a mark or the end. -/
def EndsKey (t : List α) (p : ℕ) : Prop := ∀ c, t[p]? = some c → c = stop ∨ c = eq

def Listed (w t : List α) (p : ℕ) : Prop :=
  Occurs w t p ∧ (p = 0 ∨ t[p - 1]? = some stop) ∧ EndsKey stop eq t (p + w.length)

variable {stop eq}

omit [DecidableEq α] in
theorem Entry.Ok.stop_text (hne : stop ≠ eq) {x : Entry α} (hx : x.Ok stop eq) :
    stop ∉ x.text eq := by
  rcases hv : x.val with _ | v
  · simpa [text, tail, hv] using hx.stop_key
  · simpa [text, tail, hv, hne] using ⟨hx.stop_key, hx.stop_val v hv⟩

omit [DecidableEq α] in
/-- Before a mark or the end a key stands at the start if and only if it is all of the text up to
there. -/
theorem key_unique {w k u : List α} (hk : ∀ c ∈ k, c ≠ stop ∧ c ≠ eq)
    (hw : ∀ c ∈ w, c ≠ stop ∧ c ≠ eq) (hu : ∀ c, u.head? = some c → c = stop ∨ c = eq) :
    Occurs w (k ++ u) 0 ∧ EndsKey stop eq (k ++ u) w.length ↔ k = w := by
  constructor
  · rintro ⟨hocc, hend⟩
    rcases lt_trichotomy w.length k.length with hlt | heq | hgt
    · have hc : (k ++ u)[w.length]? = some k[w.length] := by
        rw [List.getElem?_append_left hlt, List.getElem?_eq_getElem hlt]
      have hne := hk _ (List.getElem_mem hlt)
      exact absurd (hend _ hc) (by simp [hne])
    · have hpre := occurs_iff.1 hocc
      rw [List.drop_zero] at hpre
      exact ((List.prefix_of_prefix_length_le hpre (List.prefix_append k u) heq.le).eq_of_length
        heq).symm
    · have hhead := hocc k.length hgt
      rw [Nat.zero_add, List.getElem?_append_right le_rfl, Nat.sub_self, ← List.head?_eq_getElem?,
        List.getElem?_eq_getElem hgt] at hhead
      have hne := hw _ (List.getElem_mem hgt)
      exact absurd (hu _ hhead) (by simp [hne])
  · rintro rfl
    refine ⟨occurs_iff.2 (List.prefix_append _ _), fun c hc => hu c ?_⟩
    rwa [List.getElem?_append_right le_rfl, Nat.sub_self, ← List.head?_eq_getElem?] at hc

omit [DecidableEq α] in
/-- At the start of an entry only its key is listed. -/
theorem listed_zero {w rest : List α} {x : Entry α} (hx : x.Ok stop eq) (hstop : stop ∉ w)
    (heq : eq ∉ w) (hrest : ∀ c, rest.head? = some c → c = stop) :
    Listed stop eq w (x.text eq ++ rest) 0 ↔ x.key = w := by
  have hk : ∀ c ∈ x.key, c ≠ stop ∧ c ≠ eq := fun c hc =>
    ⟨fun h => hx.stop_key (h ▸ hc), fun h => hx.eq_key (h ▸ hc)⟩
  have hw : ∀ c ∈ w, c ≠ stop ∧ c ≠ eq := fun c hc => ⟨fun h => hstop (h ▸ hc), fun h =>
    heq (h ▸ hc)⟩
  have hu : ∀ c, (x.tail eq ++ rest).head? = some c → c = stop ∨ c = eq := fun c hc => by
    rcases hv : x.val with _ | v
    · rw [Entry.tail, hv] at hc
      exact .inl (hrest c hc)
    · rw [Entry.tail, hv] at hc
      exact .inr (Option.some.inj hc).symm
  rw [Entry.text, List.append_assoc, ← key_unique hk hw hu]
  simp [Listed]

omit [DecidableEq α] in
/-- In a text behind an entry a key is listed as in the text alone. -/
theorem listed_behind {w e t : List α} {p : ℕ} (he : stop ∉ e) :
    Listed stop eq w (e ++ stop :: t) p ↔
      p = 0 ∧ Listed stop eq w (e ++ stop :: t) 0 ∨ ∃ p', p = e.length + 1 + p' ∧
        Listed stop eq w t p' := by
  have hshift : ∀ j, (e ++ stop :: t)[e.length + 1 + j]? = t[j]? := fun j => by
    rw [List.getElem?_append_right (by omega), show e.length + 1 + j - e.length = j + 1 by omega,
      List.getElem?_cons_succ]
  have hlisted : ∀ p', Listed stop eq w (e ++ stop :: t) (e.length + 1 + p') ↔
      Listed stop eq w t p' := fun p' => by
    refine and_congr (forall₂_congr fun i _ => by rw [Nat.add_assoc, hshift]) (and_congr ?_ ?_)
    · rcases Nat.eq_zero_or_pos p' with rfl | hpos
      · simp
      · rw [show e.length + 1 + p' - 1 = e.length + 1 + (p' - 1) by omega, hshift]
        simp [hpos.ne']
    · rw [Nat.add_assoc, EndsKey, hshift]
      rfl
  constructor
  · intro h
    rcases Nat.eq_zero_or_pos p with rfl | hpos
    · exact .inl ⟨rfl, h⟩
    rcases Nat.lt_or_ge e.length p with hlt | hge
    · refine .inr ⟨p - (e.length + 1), by omega, (hlisted _).1 ?_⟩
      rwa [show e.length + 1 + (p - (e.length + 1)) = p by omega]
    · have hbefore := h.2.1.resolve_left hpos.ne'
      rw [List.getElem?_append_left (by omega)] at hbefore
      exact absurd (List.mem_of_getElem? hbefore) he
  · rintro (⟨rfl, h⟩ | ⟨p', rfl, h⟩)
    · exact h
    · exact (hlisted p').2 h

/-- Where a list of entries has the first entry of a key. -/
structure Located (stop eq : α) (w : List α) (xs : List (Entry α)) (p : ℕ) (x : Entry α) :
    Prop where
  key : x.key = w
  mem : x ∈ xs
  first : ∀ q < p, ¬Listed stop eq w (entriesText stop eq xs) q
  split : ∃ pre post, entriesText stop eq xs = pre ++ x.text eq ++ post ∧ pre.length = p
    ∧ ∀ c, post.head? = some c → c = stop

omit [DecidableEq α] in
/-- In a text without the mark a key is listed at the start only. -/
theorem Listed.eq_zero {w e : List α} {p : ℕ} (he : stop ∉ e) (h : Listed stop eq w e p) : p = 0 :=
  h.2.1.resolve_right fun hbefore => he (List.mem_of_getElem? hbefore)

theorem locate_spec {w : List α} (hne : stop ≠ eq) (hw : w ≠ []) (hstop : stop ∉ w) (heq : eq ∉ w) :
    ∀ xs : List (Entry α), (∀ x ∈ xs, x.Ok stop eq) →
    match locate eq w xs with
    | none => ∀ p, ¬Listed stop eq w (entriesText stop eq xs) p
    | some (p, x) => Listed stop eq w (entriesText stop eq xs) p
      ∧ Located stop eq w xs p x
  | [], _ => fun p h => by
    have hle := h.1.le_length hw
    have hpos := List.length_pos_iff.2 hw
    rw [entriesText, List.length_nil] at hle
    omega
  | [x], hok => by
    have hx := hok x List.mem_cons_self
    have hzero : Listed stop eq w (x.text eq ++ []) 0 ↔ x.key = w :=
      listed_zero hx hstop heq (by simp)
    rw [List.append_nil] at hzero
    rw [locate, locate, Option.map_none, entriesText]
    split_ifs with hkey
    · exact ⟨hzero.2 hkey, hkey, List.mem_cons_self, by simp, [], [], by simp [entriesText], rfl,
        by simp⟩
    · intro p h
      obtain rfl := h.eq_zero (hx.stop_text hne)
      exact hkey (hzero.1 h)
  | x :: y :: xs, hok => by
    have hx := hok x List.mem_cons_self
    have ih := locate_spec hne hw hstop heq (y :: xs) fun z hz => hok z (List.mem_cons_of_mem x hz)
    have hzero : Listed stop eq w (x.text eq ++ stop :: entriesText stop eq (y :: xs)) 0 ↔
        x.key = w := listed_zero hx hstop heq fun c hc => (Option.some.inj hc).symm
    have he := hx.stop_text hne
    rw [locate, entriesText]
    split_ifs with hkey
    · exact ⟨hzero.2 hkey, hkey, List.mem_cons_self, by simp, [],
        stop :: entriesText stop eq (y :: xs), by simp [entriesText], rfl, by simp⟩
    · rcases hloc : locate eq w (y :: xs) with _ | ⟨p, z⟩
      · rw [hloc] at ih
        rintro p h
        rcases (listed_behind he).1 h with ⟨-, h0⟩ | ⟨p', -, h'⟩
        · exact hkey (hzero.1 h0)
        · exact ih p' h'
      · rw [hloc] at ih
        obtain ⟨hlisted, hloc⟩ := ih
        refine ⟨(listed_behind he).2 (.inr ⟨p, rfl, hlisted⟩), hloc.key, List.mem_cons_of_mem
          x hloc.mem,
          fun q hq h => ?_, ?_⟩
        · rcases (listed_behind he).1 h with ⟨-, h0⟩ | ⟨p', rfl, h'⟩
          · exact hkey (hzero.1 h0)
          · exact hloc.first p' (by omega) h'
        · obtain ⟨pre, post, hsplit, hlen, hpost⟩ := hloc.split
          refine ⟨x.text eq ++ stop :: pre, post, ?_, ?_, hpost⟩
          · rw [entriesText, hsplit]
            simp
          · simp only [List.length_append, List.length_cons]
            omega

section Locate

variable {w : List α} {xs : List (Entry α)} (hne : stop ≠ eq) (hw : w ≠ []) (hstop : stop ∉ w)
  (heq : eq ∉ w) (hok : ∀ x ∈ xs, x.Ok stop eq)

include hne hw hstop heq hok

theorem not_listed_of_locate (h : locate eq w xs = none) (p : ℕ) :
    ¬Listed stop eq w (entriesText stop eq xs) p := by
  have hspec := locate_spec hne hw hstop heq xs hok
  rw [h] at hspec
  exact hspec p

theorem located_of_locate {p : ℕ} {x : Entry α} (h : locate eq w xs = some (p, x)) :
    Listed stop eq w (entriesText stop eq xs) p ∧ Located stop eq w xs p x := by
  have hspec := locate_spec hne hw hstop heq xs hok
  rw [h] at hspec
  exact hspec

end Locate

/-- The first entry of the key among entries that stand for something is the first of these with
that key. -/
theorem locate_find {β : Type*} (f : β → Entry α) (w : List α) : ∀ ys : List β,
    (locate eq w (ys.map f)).map Prod.snd = (ys.find? fun y => (f y).key = w).map f
  | [] => rfl
  | y :: ys => by
    have ih := locate_find f w ys
    rw [List.map_cons, locate, List.find?_cons]
    split_ifs with hkey
    · simp [hkey]
    · rw [Option.map_map, decide_eq_false hkey]
      exact ih

end Keyed

end Lib
