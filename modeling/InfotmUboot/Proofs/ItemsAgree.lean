import InfotmUboot.Proofs.Items
import InfotmUboot.Proofs.StringSec

/-!
# Whether the lookups of items agree

`item_exist` compares a key as far as the wanted one goes, `item_string` in full, and `item_equal`
compares the value as far as the wanted one goes. `items_agree_iff` says for which tables and keys
this makes no difference.
-/

namespace InfotmUboot

open Lib

/-- A slot of the table: two strings that fit. -/
structure ItemSlot where
  key : List UInt8
  value : List UInt8
  key_ne : key ≠ []
  key_clean : 0 ∉ key
  key_short : key.length < ITEM_MAX_LEN
  value_clean : 0 ∉ value
  value_short : value.length < ITEM_MAX_LEN

/-- The slots in use, with an empty one behind them unless the table is full. -/
structure ItemTable where
  tab : Mem
  slots : List ItemSlot
  few : slots.length ≤ ITEM_MAX_COUNT
  held : ∀ i s, slots[i]? = some s →
    Holds tab (keyAt i) (s.key ++ [0]) ∧ Holds tab (stringAt i) (s.value ++ [0])
  ends : slots.length < ITEM_MAX_COUNT → tab (keyAt slots.length) = 0

section Lookups

variable (T : ItemTable) (key : List UInt8)

/-- Of a key that has a value wherever it is, `item_exist` says that there is one just if
`item_string` finds one. -/
def ExistRight : Prop :=
  (∀ s ∈ T.slots, s.key = key → s.value ≠ []) →
    itemExist T.tab key ≠ .outside ∧ itemString T.tab key 0 ≠ .outside ∧
      (itemExist T.tab key = .found () ↔ ∃ buf, itemString T.tab key 0 = .found buf)

/-- `item_equal` says whether the value that `item_string` finds is the wanted one. -/
def EqualRight (value : List UInt8) : Prop :=
  ∃ b, itemEqual T.tab key value 0 = some b ∧ (b = true ↔ itemString T.tab key 0 = .found value)

/-- The slot has the key, with a value that does not begin with a dot. -/
def ItemSlot.Shows (s : ItemSlot) : Prop :=
  s.key = key ∧ s.value ≠ [] ∧ s.value.head? ≠ some dot

instance (s : ItemSlot) : Decidable (s.Shows key) := inferInstanceAs (Decidable (_ ∧ _ ∧ _))

/-- The key is shown by a slot; or it begins no key of the table, and that is not full. -/
def ExistClear : Prop :=
  (∀ s ∈ T.slots, s.key = key → s.value ≠ []) → (∃ s ∈ T.slots, s.Shows key) ∨
    (∀ s ∈ T.slots, ¬key <+: s.key) ∧ T.slots.length < ITEM_MAX_COUNT

/-- The wanted value does not begin a longer one of the first slot that shows the key; and if none
does, the table is not full. -/
def EqualClear (value : List UInt8) : Prop :=
  match T.slots.find? fun s => s.Shows key with
  | some s => value <+: s.value → value = s.value
  | none => T.slots.length < ITEM_MAX_COUNT

end Lookups

section Lookups

variable {tab : Mem}

/-- `strncmp` up to the length of the wanted string asks whether the other one begins with it. -/
theorem strncmpEq_prefix : ∀ {k key : List UInt8} {a n : ℕ}, Holds tab a (k ++ [0]) → 0 ∉ key →
    n = key.length ∨ n ≤ key.length ∧ k.length < n → (strncmpEq tab a key n = true ↔ key <+: k)
  | k, key, a, 0, _, _, hn => by
    have hnil : key = [] := List.length_eq_zero_iff.1 (by omega)
    simp [strncmpEq, hnil]
  | k, [], a, n + 1, _, _, hn => by
    rw [List.length_nil] at hn
    omega
  | [], c :: key, a, n + 1, h, hc, _ => by
    rw [List.nil_append, holds_cons] at h
    have h0 : ¬(0 : UInt8) = c := fun h0 => hc (h0 ▸ List.mem_cons_self)
    simp [strncmpEq, h.1, h0]
  | b :: k, c :: key, a, n + 1, h, hc, hn => by
    rw [List.cons_append, holds_cons] at h
    rw [List.length_cons, List.length_cons] at hn
    have ih := strncmpEq_prefix (n := n) h.2 (fun h0 => hc (List.mem_cons_of_mem c h0)) (by omega)
    rw [List.cons_prefix_cons]
    simp only [strncmpEq, h.1, ih, decide_eq_true_eq, @eq_comm _ c b]

variable (T : ItemTable) {key : List UInt8}

theorem ItemTable.key_ne {i : ℕ} {s : ItemSlot} (h : T.slots[i]? = some s) :
    T.tab (keyAt i) ≠ 0 := by
  obtain ⟨b, bs, hb⟩ := List.exists_cons_of_ne_nil s.key_ne
  have hheld := (T.held i s h).1
  rw [hb, List.cons_append, holds_cons] at hheld
  rw [hheld.1]
  exact fun h0 => s.key_clean (by simp [hb, h0])

/-- What a lookup finds over the whole table. -/
theorem ItemTable.lookup_eq {α : Type} {f : ℕ → Option α} {g : ItemSlot → Option α}
    (hf : ∀ i s, T.slots[i]? = some s → f i = g s) : lookup T.tab f =
      (T.slots.findSome? g).elim
        (if T.slots.length < ITEM_MAX_COUNT then .missing else .outside) .found :=
  lookupLoop_slots (fun i s h => ⟨T.key_ne h, hf i s h⟩) T.few T.ends List.drop_zero
    (Nat.zero_add _) (Nat.zero_add _)

theorem ItemTable.exist_eq (hkey : 0 ∉ key) : itemExist T.tab key =
    (T.slots.findSome? fun s => if key <+: s.key then some () else none).elim
      (if T.slots.length < ITEM_MAX_COUNT then .missing else .outside) .found := by
  refine T.lookup_eq fun i s h => ?_
  have hcmp := strncmpEq_prefix (n := min key.length ITEM_MAX_LEN) (T.held i s h).1 hkey
    (by have := s.key_short; omega)
  simp only [hcmp]

/-- What a slot answers to `item_string`. -/
theorem ItemTable.answer (hkey : 0 ∉ key) {i : ℕ} {s : ItemSlot} (h : T.slots[i]? = some s) :
    (if strncmpEq T.tab (keyAt i) key ITEM_MAX_LEN then
      (stringSec T.tab (stringAt i) 0).map fun s => strncpyOf T.tab s ITEM_MAX_LEN
    else none) = if s.Shows key then some s.value else none := by
  obtain ⟨hk, hv⟩ := T.held i s h
  have hcmp := strncmpEq_iff hk (fun b hb h0 => s.key_clean (h0 ▸ hb))
    (fun b hb h0 => hkey (h0 ▸ hb)) s.key_short
  have hcopy : strncpyOf T.tab (stringAt i) ITEM_MAX_LEN = s.value :=
    strncpyOf_holds hv (fun b hb h0 => s.value_clean (h0 ▸ hb)) s.value_short
  by_cases heq : s.key = key
  · rw [if_pos (hcmp.2 heq)]
    have hfuel : ITEM_MAX_COUNT * ITEM_SIZE = 25599 + 1 := rfl
    rcases hval : s.value with _ | ⟨c, cs⟩
    · rw [hval, List.nil_append, holds_cons] at hv
      rw [stringSec, hfuel, (secLoop_nul hv.1 _ _ _).1, if_neg fun hs => hs.2.1 hval,
        Option.map_none]
    · rw [hval] at hcopy
      rw [hval, List.cons_append, holds_cons] at hv
      by_cases hdot : c = dot
      · have hlead : s.value.head? = some dot := by rw [hval, hdot, List.head?_cons]
        rw [stringSec, hfuel, secLoop_lead (hv.1.trans hdot), if_neg fun hs => hs.2.2 hlead,
          Option.map_none]
      · have h0 : T.tab (stringAt i) ≠ 0 := by
          rw [hv.1]
          exact fun h0 => s.value_clean (by simp [hval, h0])
        have hshows : s.Shows key := ⟨heq, by simp [hval], by simpa [hval] using hdot⟩
        rw [stringSec_first h0 (hv.1 ▸ hdot), Option.map_some, hcopy, if_pos hshows]
  · rw [if_neg fun hc => heq (hcmp.1 hc), if_neg fun hs => heq hs.1]

theorem ItemTable.string_eq (hkey : 0 ∉ key) : itemString T.tab key 0 =
    ((T.slots.find? fun s => s.Shows key).map ItemSlot.value).elim
      (if T.slots.length < ITEM_MAX_COUNT then .missing else .outside) .found := by
  have hfind (l : List ItemSlot) :
      (l.findSome? fun s => if s.Shows key then some s.value else none) =
      (l.find? fun s => s.Shows key).map ItemSlot.value := by
    induction l with
    | nil => rfl
    | cons s l ih =>
      rw [List.findSome?_cons, List.find?_cons]
      by_cases hs : s.Shows key
      · simp [hs]
      · simp [hs, ih]
  rw [← hfind]
  exact T.lookup_eq fun i s h => T.answer hkey h

theorem ItemTable.exist_cases (hkey : 0 ∉ key) : itemExist T.tab key =
    if ∃ s ∈ T.slots, key <+: s.key then .found ()
    else if T.slots.length < ITEM_MAX_COUNT then .missing else .outside := by
  rw [T.exist_eq hkey]
  rcases hf : T.slots.findSome? fun s => if key <+: s.key then some () else none with _ | u
  · have hno : ¬∃ s ∈ T.slots, key <+: s.key := by
      rintro ⟨s, hs, hp⟩
      simpa [hp] using List.findSome?_eq_none_iff.1 hf s hs
    rw [hf, if_neg hno, Option.elim_none]
  · obtain ⟨s, hs, hp⟩ := List.exists_of_findSome?_eq_some hf
    have hpre : key <+: s.key := by
      by_contra hn
      simp [hn] at hp
    have hyes : ∃ s ∈ T.slots, key <+: s.key := ⟨s, hs, hpre⟩
    rw [hf, if_pos hyes, Option.elim_some]

end Lookups

section Agree

variable (T : ItemTable) {key : List UInt8}

theorem existRight_iff (hkey : 0 ∉ key) : ExistRight T key ↔ ExistClear T key := by
  refine forall_congr' fun _ => ?_
  rw [T.exist_cases hkey, T.string_eq hkey]
  rcases hf : T.slots.find? fun s => s.Shows key with _ | s
  · have hno : ¬∃ s ∈ T.slots, s.Shows key := by
      rintro ⟨s, hs, h⟩
      simpa [h] using List.find?_eq_none.1 hf s hs
    rw [hf]
    by_cases hroom : T.slots.length < ITEM_MAX_COUNT
    · by_cases hpre : ∃ s ∈ T.slots, key <+: s.key
      · simp [hno, hroom, hpre]
      · simp only [hno, hroom, hpre, if_false, if_true]
        simpa using hpre
    · simp [hno, hroom]
  · have hs := List.mem_of_find?_eq_some hf
    have hshows : s.Shows key := by simpa using List.find?_some hf
    have hpre : ∃ s ∈ T.slots, key <+: s.key := ⟨s, hs, hshows.1 ▸ List.prefix_refl _⟩
    have hyes : ∃ s ∈ T.slots, s.Shows key := ⟨s, hs, hshows⟩
    rw [hf]
    simp [hpre, hyes]

theorem equalRight_iff (hkey : 0 ∉ key) {value : List UInt8} (hvalue : 0 ∉ value) :
    EqualRight T key value ↔ EqualClear T key value := by
  unfold EqualRight EqualClear itemEqual
  rw [T.string_eq hkey]
  rcases hf : T.slots.find? fun s => s.Shows key with _ | s
  · rw [hf]
    by_cases hroom : T.slots.length < ITEM_MAX_COUNT <;> simp [hroom]
  · rw [hf]
    have hbuf : Holds (fun i => s.value.getD i 0) 0 (s.value ++ [0]) := by
      refine List.ext_getElem (by simp) fun i h1 h2 => ?_
      rw [Mem.getElem_load, Nat.zero_add, List.getElem_append]
      split_ifs with hi
      · exact List.getD_eq_getElem _ _ hi
      · simpa using List.getD_eq_default _ _ (Nat.not_lt.1 hi)
    have hcmp := strncmpEq_prefix (n := min value.length ITEM_MAX_LEN) hbuf hvalue
      (by have := s.value_short; omega)
    simp only [Option.map_some, Option.elim_some, Option.some.injEq, Lookup.found.injEq,
      exists_eq_left']
    rw [hcmp]
    constructor
    · exact fun h hp => (h.1 hp).symm
    · exact fun h => ⟨fun hp => (h hp).symm, fun he => he ▸ List.prefix_refl _⟩

/-- The lookups agree on a key and a value if and only if no prefix is taken for the whole, nothing
is hidden by a dot and no search leaves a full table. -/
theorem items_agree_iff (hkey : 0 ∉ key) {value : List UInt8} (hvalue : 0 ∉ value) :
    ExistRight T key ∧ EqualRight T key value ↔ ExistClear T key ∧ EqualClear T key value :=
  and_congr (existRight_iff T hkey) (equalRight_iff T hkey hvalue)

end Agree

section Example

/-- `ab` with the value `12`. -/
def oneItem : ItemSlot where
  key := [0x61, 0x62]
  value := [0x31, 0x32]
  key_ne := List.cons_ne_nil _ _
  key_clean := by decide
  key_short := by decide
  value_clean := by decide
  value_short := by decide

def oneItemMem : Mem :=
  Mem.store (Mem.store (fun _ => 0) 0 [0x61, 0x62, 0]) ITEM_MAX_LEN [0x31, 0x32, 0]

theorem oneItem_held (i : ℕ) (s : ItemSlot) (h : [oneItem][i]? = some s) :
    Holds oneItemMem (keyAt i) (s.key ++ [0]) ∧ Holds oneItemMem (stringAt i) (s.value ++ [0]) := by
  rcases i with _ | i
  · obtain rfl := Option.some.inj h
    exact ⟨(holds_store _ _ _).store (.inl (by decide)), holds_store _ _ _⟩
  · simp at h

theorem oneItem_ends (_ : [oneItem].length < ITEM_MAX_COUNT) :
    oneItemMem (keyAt [oneItem].length) = 0 := by decide

def oneItemTable : ItemTable where
  tab := oneItemMem
  slots := [oneItem]
  few := by decide
  held := oneItem_held
  ends := oneItem_ends

theorem items_agree_iff_one :
    ExistRight oneItemTable [0x61, 0x62] ∧ EqualRight oneItemTable [0x61, 0x62] [0x31, 0x32] ↔
      ExistClear oneItemTable [0x61, 0x62] ∧ EqualClear oneItemTable [0x61, 0x62] [0x31, 0x32] :=
  items_agree_iff oneItemTable (by decide) (by decide)

/-- `item_exist` finds `a`, and `item_string` does not. -/
theorem items_not_agree : ¬∀ (T : ItemTable) (key value : List UInt8), 0 ∉ key → 0 ∉ value →
    ExistRight T key ∧ EqualRight T key value := by
  intro h
  obtain ⟨-, -, hiff⟩ := (h oneItemTable [0x61] [] (by decide) (by decide)).1 (by decide)
  obtain ⟨buf, hbuf⟩ := hiff.1 (by decide)
  have hmissing : itemString oneItemMem [0x61] 0 = .missing := by decide
  exact absurd (hbuf.symm.trans hmissing) (by simp)

end Example

end InfotmUboot
