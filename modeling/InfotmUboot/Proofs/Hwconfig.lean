import InfotmUboot.Hwconfig
import InfotmUboot.Text

/-!
# Options and sub-options

Both levels of a configuration are lists of entries, each in a text that may go on behind them. The
search goes on right behind an occurrence that it rejects, and takes a name there as if an entry
began; at the end of an option that others follow it sees no end. `levelRight_iff` is what becomes
of one level and `hwRight_iff` of both.
-/

namespace InfotmUboot

open Lib

/-- Entries in a text, and what is behind them: nothing or a mark of another kind. -/
structure HwLevel where
  stop : UInt8
  eq : UInt8
  entries : List (Entry UInt8)
  rest : List UInt8
  marks : stop ≠ eq ∧ stop ≠ 0 ∧ eq ≠ 0
  ok : ∀ x ∈ entries, x.Ok stop eq
  ends : ∀ c, rest.head? = some c → c ≠ stop ∧ c ≠ eq
  nul : 0 ∉ entriesText stop eq entries ++ rest
  short : (entriesText stop eq entries ++ rest).length < 2 ^ 32

namespace HwLevel

variable (L : HwLevel)

def text : List UInt8 := entriesText L.stop L.eq L.entries

def whole : List UInt8 := L.text ++ L.rest

/-- A name as it can be asked for. -/
structure Asked (w : List UInt8) : Prop where
  nonempty : w ≠ []
  stop_not : L.stop ∉ w
  eq_not : L.eq ∉ w
  end_not : ∀ c, L.rest.head? = some c → c ∉ w

variable (w : List UInt8)

/-- An occurrence with a mark or the end of the string behind it. -/
def Closed (q : ℕ) : Prop :=
  Occurs w L.whole q ∧ q + w.length ≤ L.text.length ∧
    EndsKey L.stop L.eq L.whole (q + w.length)

/-- It stands right behind another occurrence, in the search from left to right. -/
def Repeats (q : ℕ) : Prop := 0 < q ∧ Reached w L.whole q ∧ L.Closed w q

/-- The search takes it. -/
def Taken (q : ℕ) : Prop :=
  L.Closed w q ∧ (Reached w L.whole q ∨ L.whole[q - 1]? = some L.stop)

def FirstTaken (q : ℕ) : Prop := L.Taken w q ∧ ∀ p < q, ¬L.Taken w p

def find (arglen : Bool) : Option (ℕ × ℕ) :=
  hwconfigParse L.whole L.text.length w L.stop L.eq arglen

/-- Where the value of the name begins, and its length. -/
def value? : Option (ℕ × ℕ) :=
  (locate L.eq w L.entries).bind fun found =>
    found.2.val.map fun v => (found.1 + w.length + 1, v.length)

/-- A name is found if it is listed, and with its value. -/
structure Right : Prop where
  present : (L.find w false).isSome = (locate L.eq w L.entries).isSome
  value : L.find w true = L.value? w

/-- The end of the entry at `p` is seen: it is not the last, or nothing is behind the last, or it is
the only one, has a value, and the mark is not behind it. -/
def Heard (p : ℕ) (x : Entry UInt8) : Prop :=
  p + (x.text L.eq).length < L.text.length ∨ L.rest = [] ∨
    x.val.isSome ∧ p = 0 ∧ L.stop ∉ L.rest

/-- No repetition stands for a name that is not listed, or comes before its entry; but where neither
has a value it does no harm. -/
def Clear : Prop :=
  match locate L.eq w L.entries with
  | none => ∀ q, ¬L.Repeats w q
  | some (p, x) =>
    (∃ q < p, L.Repeats w q ∧ (∀ r < q, ¬L.Repeats w r) ∧ L.whole[q + w.length]? ≠ some L.eq
      ∧ x.val = none)
    ∨ (∀ q < p, ¬L.Repeats w q) ∧ L.Heard p x

section Search

variable {L w}

theorem getD_eq_iff {t : List UInt8} {c : UInt8} (hc : c ≠ 0) (i : ℕ) :
    t.getD i 0 = c ↔ t[i]? = some c := by
  rw [List.getD_eq_getElem?_getD]
  rcases t[i]? with _ | d
  · simp [hc.symm]
  · simp

theorem endsKey_iff (i : ℕ) : EndsKey L.stop L.eq L.whole i ↔
    L.whole.getD i 0 = L.stop ∨ L.whole.getD i 0 = L.eq ∨ L.whole.getD i 0 = 0 := by
  have hnul : ∀ c, L.whole[i]? = some c → c ≠ 0 := fun c hc h0 =>
    L.nul (h0 ▸ List.mem_of_getElem? hc)
  rw [EndsKey, List.getD_eq_getElem?_getD]
  rcases h : L.whole[i]? with _ | c
  · simp
  · simp [hnul c h]

/-- A position that is taken within or before an occurrence from which the search goes on is the
occurrence itself. -/
theorem Taken.eq_of_search {n opts str p : ℕ} (hw : L.Asked w)
    (hopts : Lib.reach w L.whole n = some opts) (hstr : search w L.whole opts = some str)
    (hp : L.Taken w p) (hlo : opts ≤ p) (hhi : p < str + w.length) : p = str := by
  obtain ⟨hle, hocc, hfirst⟩ := search_eq_some hstr
  rcases lt_trichotomy p str with hlt | heq | hgt
  · exact absurd hp.1.1 (hfirst p hlo hlt)
  · exact heq
  · rcases hp.2 with hreach | hbefore
    · rcases hreach.next hopts hstr with h | h <;> omega
    · exact absurd (hocc.mem (by omega) (by omega) hbefore) hw.stop_not

/-- The search from a position up to which nothing is taken finds what is taken first. -/
theorem next_spec (hw : L.Asked w) (arglen : Bool) : ∀ (fuel n opts : ℕ),
    Lib.reach w L.whole n = some opts → (∀ p < opts, ¬L.Taken w p) → L.whole.length < fuel + opts →
    (∃ q, L.FirstTaken w q ∧ hwconfigNext L.whole L.text.length w L.stop L.eq arglen fuel opts
        = hwconfigTaken L.whole L.text.length w L.stop L.eq arglen q)
      ∨ (∀ q, ¬L.Taken w q) ∧
        hwconfigNext L.whole L.text.length w L.stop L.eq arglen fuel opts = none
  | 0, n, opts, _, hno, hfuel => by
    refine .inr ⟨fun q hq => hno q ?_ hq, rfl⟩
    have := hq.1.1.le_length hw.nonempty
    omega
  | fuel + 1, n, opts, hopts, hno, hfuel => by
    rw [hwconfigNext]
    rcases hstr : search w L.whole opts with _ | str
    · refine .inr ⟨fun q hq => ?_, rfl⟩
      rcases Nat.lt_or_ge q opts with hlt | hge
      · exact hno q hlt hq
      · exact (search_eq_none hw.nonempty).1 hstr q hge hq.1.1
    · obtain ⟨hle, hocc, hfirst⟩ := search_eq_some hstr
      have hbefore : ∀ p < str, ¬L.Taken w p := fun p hlt hp => by
        rcases Nat.lt_or_ge p opts with hlt' | hge
        · exact hno p hlt' hp
        · exact hfirst p hge hlt hp.1.1
      dsimp only
      by_cases hend : L.text.length < str + w.length
      · rw [if_pos hend]
        refine .inr ⟨fun q hq => ?_, rfl⟩
        have := hq.1.2.1
        exact hbefore q (by omega) hq
      rw [if_neg hend]
      by_cases htake : (str = opts ∨ L.whole.getD (str - 1) 0 = L.stop) ∧
          (L.whole.getD (str + w.length) 0 = L.stop ∨ L.whole.getD (str + w.length) 0 = L.eq
            ∨ L.whole.getD (str + w.length) 0 = 0)
      · rw [if_pos htake]
        refine .inl ⟨str, ⟨⟨⟨hocc, by omega, (endsKey_iff _).2 htake.2⟩, ?_⟩, hbefore⟩, rfl⟩
        refine htake.1.imp (fun heq => ?_) (getD_eq_iff L.marks.2.1 _).1
        rw [heq]
        exact ⟨n, hopts⟩
      · rw [if_neg htake]
        have hpos := List.length_pos_iff.2 hw.nonempty
        have hnot : ¬L.Taken w str := fun hp => by
          refine htake ⟨hp.2.imp (fun hreach => ?_) (getD_eq_iff L.marks.2.1 _).2,
            (endsKey_iff _).1 hp.1.2.2⟩
          rcases hreach.next hopts hstr with h | h <;> omega
        refine next_spec hw arglen fuel (n + 1) _ (Lib.reach_succ hopts hstr) (fun p hlt hp => ?_)
          (by omega)
        rcases Nat.lt_or_ge p opts with hlt' | hge
        · exact hno p hlt' hp
        · exact hnot (hp.eq_of_search hw hopts hstr hge hlt ▸ hp)

theorem find_spec (hw : L.Asked w) (arglen : Bool) :
    (∃ q, L.FirstTaken w q ∧
        L.find w arglen = hwconfigTaken L.whole L.text.length w L.stop L.eq arglen q)
      ∨ (∀ q, ¬L.Taken w q) ∧ L.find w arglen = none :=
  next_spec hw arglen _ 0 0 rfl (fun p hp => absurd hp p.not_lt_zero) (by omega)

theorem FirstTaken.unique {p q : ℕ} (hp : L.FirstTaken w p) (hq : L.FirstTaken w q) : p = q := by
  rcases lt_trichotomy p q with hlt | heq | hgt
  · exact absurd hp.1 (hq.2 p hlt)
  · exact heq
  · exact absurd hq.1 (hp.2 q hgt)

theorem find_of_first (hw : L.Asked w) {q : ℕ} (hq : L.FirstTaken w q) (arglen : Bool) :
    L.find w arglen = hwconfigTaken L.whole L.text.length w L.stop L.eq arglen q := by
  rcases find_spec hw arglen with ⟨q', hq', heq⟩ | ⟨hnone, -⟩
  · rw [heq, hq.unique hq']
  · exact absurd hq.1 (hnone q)

theorem find_of_none (hw : L.Asked w) (hnone : ∀ q, ¬L.Taken w q) (arglen : Bool) :
    L.find w arglen = none := by
  rcases find_spec hw arglen with ⟨q, hq, -⟩ | ⟨-, heq⟩
  · exact absurd hq.1 (hnone q)
  · exact heq

end Search

section Level

variable {L w}

theorem whole_length : L.whole.length = L.text.length + L.rest.length := by
  rw [whole, List.length_append]

theorem whole_text {i : ℕ} (hi : i < L.text.length) : L.whole[i]? = L.text[i]? :=
  List.getElem?_append_left hi

theorem whole_end : L.whole[L.text.length]? = L.rest.head? := by
  rw [whole, List.getElem?_append_right le_rfl, Nat.sub_self, List.head?_eq_getElem?]

/-- Behind a name in the text alone a mark or the end is seen if it is seen in all of the string;
and only at the end of the text it can be missed. -/
theorem endsKey_text {i : ℕ} (hi : i ≤ L.text.length) :
    EndsKey L.stop L.eq L.whole i ↔
      EndsKey L.stop L.eq L.text i ∧ (i = L.text.length → L.rest = []) := by
  rcases Nat.lt_or_eq_of_le hi with hlt | rfl
  · rw [EndsKey, EndsKey, whole_text hlt]
    exact ⟨fun h => ⟨h, fun heq => absurd heq hlt.ne⟩, fun h => h.1⟩
  · rw [EndsKey, whole_end]
    constructor
    · intro h
      refine ⟨by simp [EndsKey], fun _ => List.head?_eq_none_iff.1 ?_⟩
      rcases hc : L.rest.head? with _ | c
      · rfl
      · have hne := L.ends c hc
        exact absurd (h c hc) (by simp [hne])
    · rintro ⟨-, h⟩ c hc
      rw [h rfl] at hc
      simp at hc

theorem occurs_text (hw : L.Asked w) {q : ℕ} :
    Occurs w L.text q ↔ Occurs w L.whole q ∧ q + w.length ≤ L.text.length := by
  constructor
  · intro h
    have hle := h.le_length hw.nonempty
    exact ⟨fun i hi => by rw [whole_text (by omega)]; exact h i hi, hle⟩
  · rintro ⟨h, hle⟩ i hi
    rw [← whole_text (by omega)]
    exact h i hi

/-- What is taken is a repetition, or listed where the end behind it is seen. -/
theorem taken_iff (hw : L.Asked w) {q : ℕ} : L.Taken w q ↔ L.Repeats w q ∨
    Listed L.stop L.eq w L.text q ∧ (q + w.length = L.text.length → L.rest = []) := by
  have hpos := List.length_pos_iff.2 hw.nonempty
  have hlisted : (q = 0 ∨ L.whole[q - 1]? = some L.stop) → L.Closed w q →
      Listed L.stop L.eq w L.text q ∧ (q + w.length = L.text.length → L.rest = []) := by
    rintro hb ⟨hocc, hle, hend⟩
    have hend' := (endsKey_text hle).1 hend
    refine ⟨⟨(occurs_text hw).2 ⟨hocc, hle⟩, hb.imp_right fun h => ?_, hend'.1⟩, hend'.2⟩
    rwa [← whole_text (by omega)]
  constructor
  · rintro ⟨hclosed, hreach⟩
    rcases Nat.eq_zero_or_pos q with rfl | hq
    · exact .inr (hlisted (.inl rfl) hclosed)
    · exact hreach.elim (fun h => .inl ⟨hq, h, hclosed⟩) fun h => .inr (hlisted (.inr h) hclosed)
  · rintro (⟨-, hreach, hclosed⟩ | ⟨⟨hocc, hb, hend⟩, hrest⟩)
    · exact ⟨hclosed, .inl hreach⟩
    · obtain ⟨hocc', hle⟩ := (occurs_text hw).1 hocc
      refine ⟨⟨hocc', hle, (endsKey_text hle).2 ⟨hend, hrest⟩⟩, hb.imp (fun h => ?_) fun h => ?_⟩
      · rw [h]
        exact ⟨0, rfl⟩
      · rwa [whole_text (by omega)]

/-- What is taken without a value behind it has none. -/
theorem taken_bare {p : ℕ} (h : L.whole[p + w.length]? ≠ some L.eq) :
    hwconfigTaken L.whole L.text.length w L.stop L.eq true p = none := by
  rw [hwconfigTaken, if_neg (by simp), if_pos]
  rwa [Ne, getD_eq_iff L.marks.2.2]

theorem strchrFrom_append {c : UInt8} {m : List UInt8} (pre u : List UInt8) (hm : c ∉ m) :
    strchrFrom (pre ++ (m ++ u)) c pre.length =
      (u.findIdx? (· = c)).map fun j => pre.length + (m.length + j) := by
  have hnone : m.findIdx? (· = c) = none := by
    rw [List.findIdx?_eq_none_iff]
    intro d hd
    simpa using fun h : d = c => hm (h ▸ hd)
  rw [strchrFrom, List.drop_left, List.findIdx?_append, hnone, Option.none_or, Option.map_map]
  congr 1
  funext j
  simp only [Function.comp_apply]
  omega

/-- The length that is given for the value of an entry. -/
theorem taken_value {pre v u : List UInt8} (hwhole : L.whole = pre ++ (w ++ L.eq :: v ++ u))
    (hstop : L.stop ∉ w ++ L.eq :: v) (hfit : pre.length + w.length < L.text.length) :
    hwconfigTaken L.whole L.text.length w L.stop L.eq true pre.length =
      some (pre.length + w.length + 1, match u.findIdx? (· = L.stop) with
        | none => min L.text.length (L.whole.length - pre.length) - w.length - 1
        | some j => v.length + j) := by
  have hlen : L.whole.length = pre.length + (w.length + (v.length + 1) + u.length) := by
    rw [hwhole]
    simp
    omega
  have hshort : L.whole.length < 2 ^ 32 := L.short
  have htext : L.text.length ≤ L.whole.length := by rw [whole_length]; omega
  have heq : L.whole[pre.length + w.length]? = some L.eq := by
    rw [hwhole, List.getElem?_append_right (by omega), Nat.add_sub_cancel_left, List.append_assoc,
      List.getElem?_append_right le_rfl, Nat.sub_self]
    rfl
  rw [hwconfigTaken, if_neg (by simp), if_neg (not_not.2 ((getD_eq_iff L.marks.2.2 _).2 heq))]
  have hchr := strchrFrom_append pre u hstop
  rw [← hwhole] at hchr
  rw [hchr]
  rcases hu : u.findIdx? (· = L.stop) with _ | j
  · simp only [Option.map_none]
    have hcast : ((min L.text.length (L.whole.length - pre.length) : ℕ) : ℤ) - w.length - 1 =
        ((min L.text.length (L.whole.length - pre.length) - w.length - 1 : ℕ) : ℤ) := by
      omega
    rw [hcast, toU32_natCast (by omega)]
  · have hj : j < u.length := by
      obtain ⟨hlt, -⟩ := List.findIdx?_eq_some_iff_getElem.1 hu
      exact hlt
    simp only [Option.map_some]
    have hcast : ((pre.length + ((w ++ L.eq :: v).length + j) : ℕ) : ℤ) -
        ((pre.length + w.length : ℕ) : ℤ) - 1 = ((v.length + j : ℕ) : ℤ) := by
      simp only [List.length_append, List.length_cons]
      omega
    rw [hcast, toU32_natCast (by omega)]

/-- The length is right where the end of the entry is seen, and only there. -/
theorem taken_value_iff {p : ℕ} {x : Entry UInt8} {v : List UInt8}
    (hx : Located L.stop L.eq w L.entries p x) (hv : x.val = some v) :
    hwconfigTaken L.whole L.text.length w L.stop L.eq true p = some (p + w.length + 1, v.length) ↔
      L.Heard p x := by
  obtain ⟨pre, post, hsplit, rfl, hpost⟩ := hx.split
  have htext : x.text L.eq = w ++ L.eq :: v := by
    rw [Entry.text, Entry.tail, hx.key, hv]
    rfl
  have hok := L.ok x hx.mem
  have hstop : L.stop ∉ w ++ L.eq :: v := htext ▸ hok.stop_text L.marks.1
  have hwhole : L.whole = pre ++ (w ++ L.eq :: v ++ (post ++ L.rest)) := by
    rw [whole, text, hsplit, htext]
    simp
  have hlen : L.text.length = pre.length + (w.length + (v.length + 1)) + post.length := by
    rw [text, hsplit, htext]
    simp only [List.length_append, List.length_cons]
  have hall := L.whole_length
  rw [taken_value hwhole hstop (by omega), Heard, htext, hv]
  simp only [Option.some.injEq, Prod.mk.injEq, true_and, List.length_append, List.length_cons,
    Option.isSome_some]
  rcases post with _ | ⟨c, post⟩
  · rw [List.nil_append]
    rw [List.length_nil] at hlen
    rcases hrest : L.rest.findIdx? (· = L.stop) with _ | j
    · have hnot : L.stop ∉ L.rest := fun hm => by
        have := List.findIdx?_eq_none_iff.1 hrest _ hm
        simp at this
      have hnil : L.rest = [] ↔ L.rest.length = 0 := List.length_eq_zero_iff.symm
      simp only [hnot, not_false_eq_true, and_true, hnil]
      omega
    · obtain ⟨hlt, hj, -⟩ := List.findIdx?_eq_some_iff_getElem.1 hrest
      have hmem : L.stop ∈ L.rest := by
        have := List.getElem_mem hlt
        rwa [of_decide_eq_true hj] at this
      have hne : L.rest ≠ [] := List.ne_nil_of_mem hmem
      have hj0 : j ≠ 0 := fun h0 => by
        subst h0
        have hhead : L.rest.head? = some L.rest[0] := by
          rw [List.head?_eq_getElem?, List.getElem?_eq_getElem hlt]
        exact (L.ends _ hhead).1 (of_decide_eq_true hj)
      simp only [hmem, hne, not_true_eq_false, and_false, or_false]
      omega
  · obtain rfl := hpost c rfl
    rw [List.length_cons] at hlen
    rw [List.cons_append, List.findIdx?_cons]
    simp
    omega

theorem taken_eq {q : ℕ} (h : L.whole[q + w.length]? = some L.eq) :
    ∃ n, hwconfigTaken L.whole L.text.length w L.stop L.eq true q = some (q + w.length + 1, n) := by
  rw [hwconfigTaken, if_neg (by simp), if_neg (not_not.2 ((getD_eq_iff L.marks.2.2 _).2 h))]
  rcases strchrFrom L.whole L.stop q with _ | j
  · exact ⟨_, rfl⟩
  · exact ⟨_, rfl⟩

section Entries

variable (hw : L.Asked w) {p : ℕ} {x : Entry UInt8} (hloc : locate L.eq w L.entries = some (p, x))

include hw hloc

theorem located : Listed L.stop L.eq w L.text p ∧ Located L.stop L.eq w L.entries p x :=
  located_of_locate L.marks.1 hw.nonempty hw.stop_not hw.eq_not L.ok hloc

/-- Before the entry only a repetition can be taken. -/
theorem not_taken_before {q : ℕ} (hq : q < p) (hrep : ¬L.Repeats w q) : ¬L.Taken w q := fun h =>
  ((taken_iff hw).1 h).elim hrep fun hl => (located hw hloc).2.first q hq hl.1

theorem firstTaken_repeat {q : ℕ} (hq : q < p) (hrep : L.Repeats w q)
    (hno : ∀ r < q, ¬L.Repeats w r) : L.FirstTaken w q :=
  ⟨(taken_iff hw).2 (.inl hrep), fun r hr => not_taken_before hw hloc (hr.trans hq) (hno r hr)⟩

theorem firstTaken_entry (hno : ∀ q < p, ¬L.Repeats w q)
    (hend : p + w.length = L.text.length → L.rest = []) : L.FirstTaken w p :=
  ⟨(taken_iff hw).2 (.inr ⟨(located hw hloc).1, hend⟩),
    fun q hq => not_taken_before hw hloc hq (hno q hq)⟩

theorem entry_length : (x.text L.eq).length = w.length + (x.tail L.eq).length ∧
    p + (x.text L.eq).length ≤ L.text.length := by
  obtain ⟨pre, post, hsplit, rfl, -⟩ := (located hw hloc).2.split
  refine ⟨by rw [Entry.text, (located hw hloc).2.key, List.length_append], ?_⟩
  rw [text, hsplit, List.length_append, List.length_append]
  omega

/-- At the end of the text a name without value is missed where the string goes on. -/
theorem not_taken_last (hno : ∀ q < p, ¬L.Repeats w q) (hlast : p + w.length = L.text.length)
    (hrest : L.rest ≠ []) (q : ℕ) : ¬L.Taken w q := fun h => by
  rcases Nat.lt_or_ge q p with hlt | hge
  · exact not_taken_before hw hloc hlt (hno q hlt) h
  · have hle := h.1.2.1
    exact hrest (((endsKey_text hle).1 h.1.2.2).2 (by omega))

theorem not_eq_behind (hv : x.val = none) : L.whole[p + w.length]? ≠ some L.eq := by
  obtain ⟨pre, post, hsplit, rfl, hpost⟩ := (located hw hloc).2.split
  have htext : x.text L.eq = w := by
    rw [Entry.text, Entry.tail, hv, (located hw hloc).2.key]
    exact List.append_nil w
  rw [htext] at hsplit
  intro heq
  rw [whole, text, hsplit, List.append_assoc, List.append_assoc,
    List.getElem?_append_right (by omega), Nat.add_sub_cancel_left,
    List.getElem?_append_right le_rfl, Nat.sub_self, ← List.head?_eq_getElem?] at heq
  rcases post with _ | ⟨c, post⟩
  · exact (L.ends _ heq).2 rfl
  · exact L.marks.1 ((hpost c rfl).symm.trans (Option.some.inj heq))

end Entries

/-- Where no entry has the name only repetitions are taken. -/
theorem right_iff_none (hw : L.Asked w) (hloc : locate L.eq w L.entries = none) :
    L.Right w ↔ ∀ q, ¬L.Repeats w q := by
  have htaken : ∀ q, L.Taken w q ↔ L.Repeats w q := fun q => by
    rw [taken_iff hw, or_iff_left]
    exact fun h => not_listed_of_locate L.marks.1 hw.nonempty hw.stop_not hw.eq_not L.ok hloc q h.1
  constructor
  · intro h q hq
    rcases find_spec hw false with ⟨q', -, heq⟩ | ⟨hnone, -⟩
    · have hpresent := h.present
      rw [heq, hloc] at hpresent
      simp [hwconfigTaken] at hpresent
    · exact hnone q ((htaken q).2 hq)
  · intro h
    have hnone : ∀ q, ¬L.Taken w q := fun q hq => h q ((htaken q).1 hq)
    exact ⟨by rw [find_of_none hw hnone, hloc]; rfl,
      by rw [find_of_none hw hnone, value?, hloc]; rfl⟩

/-- A name is found as it should be if and only if the repetitions do no harm and the end of its
entry is seen. -/
theorem right_iff (hw : L.Asked w) : L.Right w ↔ L.Clear w := by
  rcases hloc : locate L.eq w L.entries with _ | ⟨p, x⟩
  · rw [right_iff_none hw hloc, Clear, hloc]
  rw [Clear, hloc]
  obtain ⟨hlen, hle⟩ := entry_length hw hloc
  have hx := (located hw hloc).2
  have hpresent : ∀ {q}, L.FirstTaken w q →
      (L.find w false).isSome = (locate L.eq w L.entries).isSome := fun hq => by
    rw [find_of_first hw hq, hloc, hwconfigTaken, if_pos rfl]
    rfl
  have hvalue : L.value? w = x.val.map fun v => (p + w.length + 1, v.length) := by
    rw [value?, hloc]
    rfl
  constructor
  · intro h
    by_cases hrep : ∃ q, q < p ∧ L.Repeats w q
    · classical
      obtain ⟨hq, hrepeat⟩ := Nat.find_spec hrep
      have hno : ∀ r < Nat.find hrep, ¬L.Repeats w r := fun r hr hr' =>
        Nat.find_min hrep hr ⟨hr.trans hq, hr'⟩
      have hfirst := firstTaken_repeat hw hloc hq hrepeat hno
      have hval := h.value
      rw [find_of_first hw hfirst, hvalue] at hval
      have hne : L.whole[Nat.find hrep + w.length]? ≠ some L.eq := fun heq => by
        obtain ⟨n, htaken⟩ := taken_eq heq
        rw [htaken] at hval
        obtain ⟨v, -, hv⟩ := Option.map_eq_some_iff.1 hval.symm
        have hpos := congrArg Prod.fst hv
        dsimp only at hpos
        omega
      rw [taken_bare hne] at hval
      exact .inl ⟨_, hq, hrepeat, hno, hne, Option.map_eq_none_iff.1 hval.symm⟩
    · have hno : ∀ q < p, ¬L.Repeats w q := fun q hq hq' => hrep ⟨q, hq, hq'⟩
      refine .inr ⟨hno, ?_⟩
      rcases hv : x.val with _ | v
      · have htail : (x.tail L.eq).length = 0 := by rw [Entry.tail, hv]; rfl
        rcases Nat.lt_or_ge (p + (x.text L.eq).length) L.text.length with hlt | hge
        · exact .inl hlt
        · refine .inr (.inl (by_contra fun hrest => ?_))
          have hnone := not_taken_last hw hloc hno (by omega) hrest
          have hfound := h.present
          rw [find_of_none hw hnone, hloc] at hfound
          simp at hfound
      · have htail : (x.tail L.eq).length = v.length + 1 := by rw [Entry.tail, hv]; rfl
        have hfirst := firstTaken_entry hw hloc hno fun hend => absurd hend (by omega)
        have hval := h.value
        rw [find_of_first hw hfirst, hvalue, hv] at hval
        exact (taken_value_iff hx hv).1 hval
  · rintro (⟨q, hq, hrepeat, hno, hne, hv⟩ | ⟨hno, hheard⟩)
    · have hfirst := firstTaken_repeat hw hloc hq hrepeat hno
      refine ⟨hpresent hfirst, ?_⟩
      rw [find_of_first hw hfirst, hvalue, hv, taken_bare hne]
      rfl
    · have hfirst := firstTaken_entry hw hloc hno fun hend => by
        rcases hheard with hlt | hnil | ⟨hsome, -, -⟩
        · omega
        · exact hnil
        · obtain ⟨v, hv⟩ := Option.isSome_iff_exists.1 hsome
          have htail : (x.tail L.eq).length = v.length + 1 := by rw [Entry.tail, hv]; rfl
          omega
      refine ⟨hpresent hfirst, ?_⟩
      rw [find_of_first hw hfirst, hvalue]
      rcases hv : x.val with _ | v
      · rw [taken_bare (not_eq_behind hw hloc hv)]
        rfl
      · exact (taken_value_iff hx hv).2 hheard

end Level

end HwLevel

section Config

/-- A name without the marks that end it, or a terminator. -/
structure HwName (marks : List UInt8) where
  text : List UInt8
  nonempty : text ≠ []
  plain : ∀ c ∈ text, c ≠ 0 ∧ c ∉ marks

/-- The name of an option, and that of a sub-option. -/
abbrev HwOptName := HwName [0x3b, 0x3a]

abbrev HwSubName := HwName [0x3b, 0x2c, 0x3d]

/-- `sub` or `sub=value` -/
structure HwSub where
  name : HwSubName
  value : Option (List UInt8)
  plain : ∀ v, value = some v → ∀ c ∈ v, c ≠ 0 ∧ c ≠ 0x3b ∧ c ≠ 0x2c

def HwSub.entry (s : HwSub) : Entry UInt8 := ⟨s.name.text, s.value⟩

/-- `option`, or `option:` and its sub-options. -/
structure HwOption where
  name : HwOptName
  subs : List HwSub

def subsText (subs : List HwSub) : List UInt8 := entriesText 0x2c 0x3d (subs.map HwSub.entry)

def HwOption.entry (o : HwOption) : Entry UInt8 :=
  ⟨o.name.text, if o.subs = [] then none else some (subsText o.subs)⟩

/-- The options of a string, which fits in memory. -/
structure HwConfig where
  options : List HwOption
  short : (entriesText 0x3b 0x3a (options.map HwOption.entry)).length < 2 ^ 32

namespace HwConfig

variable (c : HwConfig)

def entries : List (Entry UInt8) := c.options.map HwOption.entry

def text : List UInt8 := entriesText 0x3b 0x3a c.entries

/-- The option of the name: the first that is listed. -/
def option? (o : HwOptName) : Option HwOption := c.options.find? fun x => x.name.text = o.text

/-- Where the argument of an option is in the text, and its length. -/
def arg? (o : HwOptName) : Option (ℕ × ℕ) :=
  (locate 0x3a o.text c.entries).bind fun found =>
    found.2.val.map fun v => (found.1 + o.text.length + 1, v.length)

/-- Where the value of a sub-option is in the text, and its length. -/
def subarg? (o : HwOptName) (b : HwSubName) : Option (ℕ × ℕ) :=
  (c.arg? o).bind fun arg => (c.option? o).bind fun x =>
    (locate 0x3d b.text (x.subs.map HwSub.entry)).bind fun found =>
      found.2.val.map fun v => (arg.1 + (found.1 + b.text.length + 1), v.length)

end HwConfig

/-- What the three strings are made of. -/
structure HwSetting where
  env : Option HwConfig
  board : Option HwConfig
  cpu : Option HwConfig

namespace HwSetting

variable (src : HwSetting)

def strings : HwStrings :=
  ⟨src.env.map HwConfig.text, src.board.map HwConfig.text, src.cpu.map HwConfig.text⟩

def config? : Option HwConfig := (src.env.or src.board).or src.cpu

theorem string?_eq : src.strings.string? = src.config?.map HwConfig.text := by
  rw [HwStrings.string?, strings, config?, Option.map_or, Option.map_or]

end HwSetting

/-- An option or a sub-option is reported if and only if it is listed, and the argument is the text
that it has. -/
structure HwRight (src : HwSetting) (o : HwOptName) (b : HwSubName) : Prop where
  opt : hwconfig src.strings o.text = true ↔
    ∃ c, src.config? = some c ∧ ∃ x ∈ c.options, x.name.text = o.text
  arg : hwconfigArg src.strings o.text = src.config?.bind fun c => c.arg? o
  sub : hwconfigSub src.strings o.text b.text = true ↔
    ∃ c x, src.config? = some c ∧ c.option? o = some x ∧ ∃ s ∈ x.subs, s.name.text = b.text
  subarg : hwconfigSubarg src.strings o.text b.text = src.config?.bind fun c => c.subarg? o b

/-- Neither a terminator nor the mark between two options is in the text of sub-options. -/
theorem subsText_plain {subs : List HwSub} {d : UInt8} (hd : d ∈ subsText subs) :
    d ≠ 0 ∧ d ≠ 0x3b := by
  obtain rfl | rfl | ⟨e, he, hin⟩ := mem_entriesText _ _ hd
  · decide
  · decide
  · obtain ⟨s, -, rfl⟩ := List.mem_map.1 he
    rcases hin with hk | ⟨v, hv, hm⟩
    · have hplain := s.name.plain d hk
      simp at hplain
      tauto
    · have hplain := s.plain v hv d hm
      tauto

theorem HwSub.entry_ok (s : HwSub) : s.entry.Ok 0x2c 0x3d where
  stop_key h := by simpa using s.name.plain _ h
  eq_key h := by simpa using s.name.plain _ h
  stop_val v hv h := by simpa using s.plain v hv _ h

theorem HwOption.val_of_subs {x : HwOption} (h : x.subs ≠ []) :
    x.entry.val = some (subsText x.subs) :=
  if_neg h

theorem HwOption.entry_ok (x : HwOption) : x.entry.Ok 0x3b 0x3a where
  stop_key h := by simpa using x.name.plain _ h
  eq_key h := by simpa using x.name.plain _ h
  stop_val v hv h := by
    by_cases hsubs : x.subs = []
    · simp [HwOption.entry, hsubs] at hv
    · rw [x.val_of_subs hsubs] at hv
      obtain rfl := Option.some.inj hv
      exact (subsText_plain h).2 rfl

theorem HwConfig.nul_not_mem (c : HwConfig) : 0 ∉ c.text := fun h => by
  obtain h0 | h0 | ⟨e, he, hin⟩ := mem_entriesText _ _ h
  · exact absurd h0 (by decide)
  · exact absurd h0 (by decide)
  · obtain ⟨x, -, rfl⟩ := List.mem_map.1 he
    rcases hin with hk | ⟨v, hv, hm⟩
    · exact (x.name.plain _ hk).1 rfl
    · by_cases hsubs : x.subs = []
      · simp [HwOption.entry, hsubs] at hv
      · rw [x.val_of_subs hsubs] at hv
        obtain rfl := Option.some.inj hv
        exact (subsText_plain hm).1 rfl

/-- The options, with nothing behind them. -/
def HwConfig.level (c : HwConfig) : HwLevel where
  stop := 0x3b
  eq := 0x3a
  entries := c.entries
  rest := []
  marks := by decide
  ok x hx := by
    obtain ⟨y, -, rfl⟩ := List.mem_map.1 hx
    exact y.entry_ok
  ends := by simp
  nul := by
    rw [List.append_nil]
    exact c.nul_not_mem
  short := by
    rw [List.append_nil]
    exact c.short

/-- An option that is listed with sub-options, and what is behind these. -/
structure HwHold (c : HwConfig) (o : HwOptName) where
  x : HwOption
  found : c.option? o = some x
  subs : x.subs ≠ []
  front : List UInt8
  rest : List UInt8
  split : c.text = front ++ (subsText x.subs ++ rest)
  arg : c.arg? o = some (front.length, (subsText x.subs).length)
  ends : ∀ d, rest.head? = some d → d = 0x3b

/-- The sub-options of the option. -/
def HwHold.level {c : HwConfig} {o : HwOptName} (H : HwHold c o) : HwLevel where
  stop := 0x2c
  eq := 0x3d
  entries := H.x.subs.map HwSub.entry
  rest := H.rest
  marks := by decide
  ok e he := by
    obtain ⟨s, -, rfl⟩ := List.mem_map.1 he
    exact s.entry_ok
  ends d hd := by
    rw [H.ends d hd]
    decide
  nul h := c.nul_not_mem (by rw [H.split]; exact List.mem_append_right _ h)
  short := by
    have hshort : c.text.length < 2 ^ 32 := c.short
    rw [H.split, List.length_append] at hshort
    exact (Nat.le_add_left _ _).trans_lt hshort

/-- The repetitions do no harm, and the ends are seen, at both levels. -/
def HwClear (src : HwSetting) (o : HwOptName) (b : HwSubName) : Prop :=
  ∀ c, src.config? = some c → c.level.Clear o.text ∧ ∀ H : HwHold c o, H.level.Clear b.text

end Config

section Both

variable {c : HwConfig} {o : HwOptName} {b : HwSubName}

theorem HwConfig.asked (c : HwConfig) (o : HwOptName) : c.level.Asked o.text where
  nonempty := o.nonempty
  stop_not h := by simpa [HwConfig.level] using o.plain _ h
  eq_not h := by simpa [HwConfig.level] using o.plain _ h
  end_not := by simp [HwConfig.level]

theorem HwHold.asked (H : HwHold c o) (b : HwSubName) : H.level.Asked b.text where
  nonempty := b.nonempty
  stop_not h := by simpa [HwHold.level] using b.plain _ h
  eq_not h := by simpa [HwHold.level] using b.plain _ h
  end_not d hd h := by
    rw [H.ends d hd] at h
    simpa using b.plain _ h

/-- The first option of the name is the first entry of it. -/
theorem HwConfig.locate_option (c : HwConfig) (o : HwOptName) :
    (locate 0x3a o.text c.entries).map Prod.snd = (c.option? o).map HwOption.entry :=
  locate_find HwOption.entry o.text c.options

theorem HwConfig.hold_cases (c : HwConfig) (o : HwOptName) :
    Nonempty (HwHold c o) ∨ c.arg? o = none ∧ ∀ x, c.option? o = some x → x.subs = [] := by
  have hfind := c.locate_option o
  rcases hloc : locate 0x3a o.text c.entries with _ | ⟨p, e⟩
  · rw [hloc] at hfind
    refine .inr ⟨by rw [HwConfig.arg?, hloc]; rfl, fun x hx => ?_⟩
    rw [hx] at hfind
    simp at hfind
  · rw [hloc] at hfind
    obtain ⟨x, hx, rfl⟩ := Option.map_eq_some_iff.1 hfind.symm
    by_cases hsubs : x.subs = []
    · refine .inr ⟨?_, fun y hy => ?_⟩
      · rw [HwConfig.arg?, hloc]
        simp [HwOption.entry, hsubs]
      · obtain rfl := Option.some.inj (hx.symm.trans hy)
        exact hsubs
    · have hval := x.val_of_subs hsubs
      have hlocated := (HwLevel.located (c.asked o) hloc).2
      obtain ⟨pre, post, hsplit, rfl, hpost⟩ := hlocated.split
      refine .inl ⟨⟨x, hx, hsubs, pre ++ (o.text ++ [0x3a]), post, ?_, ?_, hpost⟩⟩
      · rw [HwConfig.text]
        refine Eq.trans hsplit ?_
        rw [Entry.text, Entry.tail, hlocated.key, hval]
        simp [HwConfig.level]
      · rw [HwConfig.arg?, hloc, Option.bind_some, hval, Option.map_some]
        simp [Nat.add_assoc]

theorem HwConfig.level_find (c : HwConfig) (w : List UInt8) (arglen : Bool) :
    c.level.find w arglen = hwconfigParse c.text c.text.length w 0x3b 0x3a arglen := by
  rw [HwLevel.find, HwLevel.whole, HwLevel.text, HwConfig.level, List.append_nil]
  rfl

theorem HwHold.level_find (H : HwHold c o) (w : List UInt8) (arglen : Bool) :
    H.level.find w arglen = hwconfigParse (c.text.drop H.front.length) (subsText H.x.subs).length w
      0x2c 0x3d arglen := by
  rw [H.split, List.drop_left]
  rfl

variable {src : HwSetting} (hsrc : src.config? = some c)

include hsrc

theorem hwconfigIn_eq (w : List UInt8) (arglen : Bool) :
    hwconfigIn src.strings w arglen = (c.level.find w arglen).map fun arg => (c.text, arg) := by
  rw [hwconfigIn, src.string?_eq, hsrc, Option.map_some, Option.bind_some, c.level_find]

/-- The questions for an option are answered as they should be if and only if its level is right. -/
theorem level_right_iff (o : HwOptName) : c.level.Right o.text ↔
    (hwconfig src.strings o.text = true ↔
      ∃ c, src.config? = some c ∧ ∃ x ∈ c.options, x.name.text = o.text) ∧
    hwconfigArg src.strings o.text = src.config?.bind fun c => c.arg? o := by
  have hopt : (locate 0x3a o.text c.entries).isSome = true ↔
      ∃ c, src.config? = some c ∧ ∃ x ∈ c.options, x.name.text = o.text := by
    have hfind := congrArg Option.isSome (c.locate_option o)
    rw [Option.isSome_map, Option.isSome_map, HwConfig.option?] at hfind
    rw [hfind, List.find?_isSome, hsrc]
    simp
  have hval : c.level.value? o.text = c.arg? o := rfl
  have hin : (hwconfig src.strings o.text = true) = ((c.level.find o.text false).isSome =
    true) := by
    rw [hwconfig, hwconfigIn_eq hsrc, Option.isSome_map]
  have harg : hwconfigArg src.strings o.text = c.level.find o.text true := by
    rw [hwconfigArg, hwconfigIn_eq hsrc, Option.map_map]
    exact Option.map_id'
  rw [hin, harg, ← hopt, ← Bool.eq_iff_iff, hsrc, Option.bind_some]
  exact ⟨fun h => ⟨h.present, h.value.trans hval⟩, fun h => ⟨h.1, h.2.trans hval.symm⟩⟩

/-- So are those for a sub-option, where the option is found with its argument. -/
theorem hold_right_iff (H : HwHold c o) (b : HwSubName)
    (harg : c.level.find o.text true = c.arg? o) : H.level.Right b.text ↔
    (hwconfigSub src.strings o.text b.text = true ↔
      ∃ c x, src.config? = some c ∧ c.option? o = some x ∧ ∃ s ∈ x.subs, s.name.text = b.text) ∧
    hwconfigSubarg src.strings o.text b.text = src.config?.bind fun c => c.subarg? o b := by
  have hin : hwconfigIn src.strings o.text true =
      some (c.text, H.front.length, (subsText H.x.subs).length) := by
    rw [hwconfigIn_eq hsrc, harg, H.arg]
    rfl
  have hsub : hwconfigSub src.strings o.text b.text = (H.level.find b.text false).isSome := by
    rw [hwconfigSub, hin, H.level_find]
  have hsubarg : hwconfigSubarg src.strings o.text b.text =
      (H.level.find b.text true).map fun sub => (H.front.length + sub.1, sub.2) := by
    rw [hwconfigSubarg, hin, H.level_find]
  have hlisted : (locate 0x3d b.text (H.x.subs.map HwSub.entry)).isSome = true ↔
      ∃ c x, src.config? = some c ∧ c.option? o = some x ∧ ∃ s ∈ x.subs, s.name.text = b.text := by
    have hfind : ((locate 0x3d b.text (H.x.subs.map HwSub.entry)).map Prod.snd).isSome = _ :=
      congrArg Option.isSome (locate_find HwSub.entry b.text H.x.subs)
    rw [Option.isSome_map, Option.isSome_map] at hfind
    rw [hfind, List.find?_isSome, hsrc]
    have hfound := H.found
    constructor
    · rintro ⟨s, hs, hname⟩
      exact ⟨c, H.x, rfl, hfound, s, hs, of_decide_eq_true hname⟩
    · rintro ⟨c', x, hc, hx, s, hs, hname⟩
      obtain rfl := Option.some.inj hc
      obtain rfl := Option.some.inj (hfound.symm.trans hx)
      exact ⟨s, hs, decide_eq_true hname⟩
  have hval : (src.config?.bind fun c => c.subarg? o b) =
      (H.level.value? b.text).map fun sub => (H.front.length + sub.1, sub.2) := by
    rw [hsrc, Option.bind_some, HwConfig.subarg?, H.arg, Option.bind_some, H.found,
      Option.bind_some, HwLevel.value?, Option.map_bind]
    congr 1
    funext found
    simp [Function.comp_def]
  have hinj : Function.Injective fun sub : ℕ × ℕ => (H.front.length + sub.1, sub.2) := by
    rintro ⟨a, n⟩ ⟨a', n'⟩ heq
    simpa using heq
  rw [hsub, hsubarg, hval, ← hlisted, ← Bool.eq_iff_iff]
  exact ⟨fun h => ⟨h.present, by rw [h.value]⟩,
    fun h => ⟨h.1, Option.map_injective hinj h.2⟩⟩

end Both

section Answers

theorem hwRight_none {src : HwSetting} (hsrc : src.config? = none) (o : HwOptName)
    (b : HwSubName) : HwRight src o b := by
  have hin : ∀ w arglen, hwconfigIn src.strings w arglen = none := fun w arglen => by
    rw [hwconfigIn, src.string?_eq, hsrc]
    rfl
  constructor
  · simp [hwconfig, hin, hsrc]
  · simp [hwconfigArg, hin, hsrc]
  · simp [hwconfigSub, hin, hsrc]
  · simp [hwconfigSubarg, hin, hsrc]

/-- The answers are right if and only if the repetitions do no harm and the ends are seen. -/
theorem hwRight_iff (src : HwSetting) (o : HwOptName) (b : HwSubName) :
    HwRight src o b ↔ HwClear src o b := by
  rcases hsrc : src.config? with _ | c
  · exact iff_of_true (hwRight_none hsrc o b) fun c hc => by simp [hsrc] at hc
  have hlevel := level_right_iff hsrc o
  rw [HwLevel.right_iff (c.asked o)] at hlevel
  have hhold := fun (H : HwHold c o) (h : c.level.Right o.text) =>
    (HwLevel.right_iff (H.asked b)).symm.trans (hold_right_iff hsrc H b h.value)
  constructor
  · intro h c' hc'
    obtain rfl := Option.some.inj (hsrc.symm.trans hc')
    have hclear := hlevel.2 ⟨h.opt, h.arg⟩
    exact ⟨hclear, fun H => (hhold H ((HwLevel.right_iff (c.asked o)).2 hclear)).2
      ⟨h.sub, h.subarg⟩⟩
  · intro h
    obtain ⟨hclear, hsub⟩ := h c hsrc
    have hright := (HwLevel.right_iff (c.asked o)).2 hclear
    have hopt := hlevel.1 hclear
    rcases c.hold_cases o with ⟨⟨H⟩⟩ | ⟨harg, hnone⟩
    · have hboth := (hhold H hright).1 (hsub H)
      exact ⟨hopt.1, hopt.2, hboth.1, hboth.2⟩
    · have hin : hwconfigIn src.strings o.text true = none := by
        rw [hwconfigIn_eq hsrc, hright.value]
        exact Option.map_eq_none_iff.2 harg
      refine ⟨hopt.1, hopt.2, ?_, ?_⟩
      · rw [hwconfigSub, hin]
        refine iff_of_false (by simp) ?_
        rintro ⟨c', x, hc', hx, s, hs, -⟩
        obtain rfl := Option.some.inj (hsrc.symm.trans hc')
        rw [hnone x hx] at hs
        simp at hs
      · rw [hwconfigSubarg, hin, hsrc, Option.bind_some, HwConfig.subarg?, harg]
        rfl

/-- `usbusb` lists one option, and it is not `usb`. -/
def usbTwice : HwConfig where
  options := [⟨⟨ascii "usbusb", by simp [ascii], by simp [ascii]⟩, []⟩]
  short := by simp [entriesText, Entry.text, Entry.tail, HwOption.entry, ascii]

theorem hwRight_repeat : ¬HwRight ⟨some usbTwice, none, none⟩
    ⟨ascii "usb", by simp [ascii], by simp [ascii]⟩
    ⟨ascii "mode", by simp [ascii], by simp [ascii]⟩ := fun h => by
  obtain ⟨c, hc, x, hx, hname⟩ := h.opt.1 (by rfl)
  obtain rfl := Option.some.inj hc
  obtain rfl := List.mem_singleton.1 hx
  simp [ascii] at hname

end Answers

end InfotmUboot
