import InfotmUboot.Env

/-!
# Copies of a variable

What `getenv_r` stores of a value: all of it and its NUL while there is room, else as much as the
buffer takes. It misses its contract when the value is as long as the buffer or one byte shorter
(`getenv_r_right_iff`).
-/

namespace InfotmUboot

open Lib

/-- The value at an index of the environment. -/
def IsValue (m : Mem) (val : ℕ) (v : List UInt8) : Prop :=
  Holds m val (v ++ [0]) ∧ ∀ b ∈ v, b ≠ 0

section Copy

variable {m : Mem}

theorem IsValue.tail {val : ℕ} {b : UInt8} {v : List UInt8} (h : IsValue m val (b :: v)) :
    m val = b ∧ b ≠ 0 ∧ IsValue m (val + 1) v := by
  obtain ⟨hb, hrest⟩ := holds_cons.1 h.1
  exact ⟨hb, h.2 b List.mem_cons_self, hrest, fun c hc => h.2 c (List.mem_cons_of_mem b hc)⟩

theorem IsValue.unique {val : ℕ} : ∀ {v w : List UInt8}, IsValue m val v → IsValue m val w → v = w
  | [], [], _, _ => rfl
  | [], c :: w, hv, hw => absurd ((holds_cons.1 hv.1).1) (hw.tail.1 ▸ hw.tail.2.1)
  | b :: v, [], hv, hw => absurd ((holds_cons.1 hw.1).1) (hv.tail.1 ▸ hv.tail.2.1)
  | b :: v, c :: w, hv, hw => by
    obtain ⟨hb, -, hv⟩ := hv.tail
    obtain ⟨hc, -, hw⟩ := hw.tail
    rw [← hb, ← hc, hv.unique hw]

theorem IsValue.load {val : ℕ} {v : List UInt8} (hv : IsValue m val v) : m.load val v.length = v :=
  (holds_append.1 hv.1).1

/-- The bytes of a value are not NUL. -/
theorem IsValue.ne_zero {val : ℕ} {v : List UInt8} (hv : IsValue m val v) :
    ∀ i < v.length, m (val + i) ≠ 0 := by
  intro i hi
  have hlt : i < (m.load val v.length).length := by rwa [Mem.length_load]
  have hmem := List.getElem_mem hlt
  rw [Mem.getElem_load, hv.load] at hmem
  exact hv.2 _ hmem

/-- Where no value is, no NUL follows. -/
theorem ne_zero_of_no_value {val : ℕ} (h : ¬∃ v, IsValue m val v) : ∀ i, m (val + i) ≠ 0 := by
  intro i
  induction i using Nat.strong_induction_on with
  | _ i ih =>
    intro h0
    refine h ⟨m.load val i, ?_, fun b hb => ?_⟩
    · refine holds_append.2 ⟨?_, ?_⟩
      · rw [Holds, Mem.length_load]
      · rw [Mem.length_load]
        exact holds_cons.2 ⟨h0, holds_nil _⟩
    · obtain ⟨j, hj, rfl⟩ := List.mem_map.1 hb
      exact ih j (List.mem_range.1 hj)

/-- A value that fits is copied with its NUL. -/
theorem getenvRCopy_fits : ∀ {v : List UInt8} {len n val buf : ℕ} {out : Mem}, IsValue m val v →
    v.length < len → getenvRCopy m len n val buf out =
      (n + v.length + 1, buf + v.length + 1, out.store buf (v ++ [0]))
  | _, 0, _, _, _, _, _, hlen => absurd hlen (Nat.not_lt_zero _)
  | [], len + 1, n, val, buf, out, h, _ => by
    have h0 : m val = 0 := (holds_cons.1 h.1).1
    simp only [getenvRCopy, h0, ne_eq, not_true_eq_false, if_false]
    rfl
  | b :: v, len + 1, n, val, buf, out, h, hlen => by
    obtain ⟨hb, hne, hv⟩ := h.tail
    rw [List.length_cons] at hlen ⊢
    simp only [getenvRCopy, hb, ne_eq, hne, not_false_eq_true, if_true]
    have hstore : (out.store buf [b]).store (buf + 1) (v ++ [0]) = out.store buf (b :: v ++ [0]) :=
      (Mem.store_append out buf [b] (v ++ [0])).symm
    rw [getenvRCopy_fits hv (by omega), hstore]
    simp only [Prod.mk.injEq, and_true]
    omega

/-- Of a longer one, or one without an end, the buffer takes what it has room for. -/
theorem getenvRCopy_full : ∀ {len n val buf : ℕ} {out : Mem}, (∀ i < len, m (val + i) ≠ 0) →
    getenvRCopy m len n val buf out = (n + len + 1, buf + len, out.store buf (m.load val len))
  | 0, n, val, buf, out, _ => by
    simp only [getenvRCopy, Nat.add_zero, Mem.load_zero, Mem.store_nil]
  | len + 1, n, val, buf, out, h => by
    have h0 : m val ≠ 0 := h 0 (Nat.succ_pos len)
    have hload : m.load val (len + 1) = [m val] ++ m.load (val + 1) len := by
      rw [Nat.add_comm len 1, Mem.load_add]
      rfl
    simp only [getenvRCopy, ne_eq, h0, not_false_eq_true, if_true]
    rw [getenvRCopy_full fun i hi => by
      have := h (i + 1) (by omega)
      rwa [← Nat.add_assoc, Nat.add_right_comm] at this, hload, Mem.store_append]
    simp only [List.length_singleton, Prod.mk.injEq, and_true]
    omega

end Copy

section Right

variable (size : ℕ) (m : Mem) (name : List UInt8) (buf len : ℕ)

/-- Into any memory, the call stores in the buffer only. Of a variable's value it leaves as long a
beginning there as fits, with a NUL behind it, and returns how many bytes these are or a number that
the buffer has not. -/
def GetenvRRight : Prop :=
  ∀ out, ∃ ret out', getenvR size m name buf len out = some (ret, out') ∧
    (∀ i, ¬(buf ≤ i ∧ i < buf + len) → out' i = out i) ∧
    ∀ val v, getenv size m name = some (some val) → IsValue m val v →
      (v.take (len - 1)).length < len ∧ Holds out' buf (v.take (len - 1) ++ [0]) ∧
      (v.length < len → ret = v.length + 1) ∧ (len ≤ v.length → ret > len)

/-- The search ends, and the value, if there is one, is at least two bytes shorter than the
buffer. -/
def GetenvRFits : Prop :=
  ∃ found, getenv size m name = some found ∧
    ∀ val v, found = some val → IsValue m val v → v.length + 1 < len

variable {size m name buf len}

theorem getenvR_found {val : ℕ} (h : getenv size m name = some (some val)) (out : Mem) :
    getenvR size m name buf len out =
      let (n, p, out) := getenvRCopy m len 0 val buf out
      some (n, if len = n then out.store p [0] else out) := by
  rw [getenvR, h]

/-- A value with a byte to spare is stored whole. -/
theorem getenvR_spare {val : ℕ} {v : List UInt8} (h : getenv size m name = some (some val))
    (hv : IsValue m val v) (hlen : v.length + 1 < len) (out : Mem) :
    getenvR size m name buf len out = some (((v.length + 1 : ℕ) : ℤ), out.store buf (v ++
      [0])) := by
  rw [getenvR_found h, getenvRCopy_fits hv (by omega)]
  dsimp only
  rw [if_neg (by omega), Nat.zero_add]

/-- One that fills the buffer gets a second NUL, behind the buffer. -/
theorem getenvR_exact {val : ℕ} {v : List UInt8} (h : getenv size m name = some (some val))
    (hv : IsValue m val v) (hlen : v.length + 1 = len) (out : Mem) :
    getenvR size m name buf len out =
      some (((v.length + 1 : ℕ) : ℤ), (out.store buf (v ++ [0])).store (buf + len) [0]) := by
  rw [getenvR_found h, getenvRCopy_fits hv (by omega)]
  dsimp only
  rw [if_pos (by omega), Nat.zero_add, Nat.add_assoc, hlen]

theorem getenvR_full {val : ℕ} (h : getenv size m name = some (some val))
    (hv : ∀ i < len, m (val + i) ≠ 0) (out : Mem) :
    getenvR size m name buf len out = some (((len + 1 : ℕ) : ℤ),
      out.store buf (m.load val len)) := by
  rw [getenvR_found h, getenvRCopy_full hv]
  dsimp only
  rw [if_neg (by omega), Nat.zero_add]

theorem right_of_getenvRFits (h : GetenvRFits size m name len) :
    GetenvRRight size m name buf len := by
  obtain ⟨_ | val, hfound, hfits⟩ := h <;> intro out
  · refine ⟨-1, out, by rw [getenvR, hfound], fun i _ => rfl, fun val v h => ?_⟩
    rw [hfound] at h
    cases h
  have hval {val' : ℕ} (h : getenv size m name = some (some val')) : val' = val :=
    Option.some.inj (Option.some.inj (h.symm.trans hfound))
  by_cases hv : ∃ v, IsValue m val v
  · obtain ⟨v, hv⟩ := hv
    have hlen := hfits val v rfl hv
    have hbs : (v ++ [0]).length = v.length + 1 := List.length_append
    refine ⟨_, _, getenvR_spare hfound hv hlen out, fun i hi => if_neg (by omega), ?_⟩
    intro val' w h hw
    obtain rfl := hval h
    obtain rfl := hw.unique hv
    rw [List.take_of_length_le (by omega)]
    exact ⟨by omega, holds_store _ _ _, fun _ => by push_cast; rfl, fun h => by omega⟩
  · have hne := ne_zero_of_no_value hv
    have hbs : (m.load val len).length = len := Mem.length_load ..
    refine ⟨_, _, getenvR_full hfound (fun i _ => hne i) out, fun i hi => if_neg (by omega), ?_⟩
    intro val' w h hw
    exact absurd ⟨w, hval h ▸ hw⟩ hv

theorem getenvRFits_of_right (h : GetenvRRight size m name buf len) :
    GetenvRFits size m name len := by
  rcases hfound : getenv size m name with _ | found
  · obtain ⟨ret, out', hcall, -⟩ := h (fun _ => 0)
    rw [getenvR, hfound] at hcall
    cases hcall
  refine ⟨found, hfound, ?_⟩
  rintro val v rfl hv
  by_contra hlen
  rcases Nat.lt_or_ge v.length len with hlt | hge
  · -- the byte behind the buffer, which was not NUL, is one now
    obtain ⟨ret, out', hcall, hframe, -⟩ := h (fun _ => 1)
    rw [getenvR_exact hfound hv (by omega)] at hcall
    obtain ⟨-, rfl⟩ := Prod.mk.inj (Option.some.inj hcall)
    have hlast := hframe (buf + len) (by omega)
    rw [← Nat.add_zero (buf + len), Mem.store_add _ _ [0] Nat.one_pos] at hlast
    exact absurd hlast (by decide)
  · -- the last byte of the buffer is one of the value
    obtain ⟨ret, out', hcall, -, hright⟩ := h (fun _ => 1)
    rw [getenvR_full hfound fun i hi => hv.ne_zero i (by omega)] at hcall
    obtain ⟨-, rfl⟩ := Prod.mk.inj (Option.some.inj hcall)
    obtain ⟨hpos, hholds, -⟩ := hright val v hfound hv
    rw [List.length_take] at hpos
    have hnul := (holds_cons.1 (holds_append.1 hholds).2).1
    rw [List.length_take, Nat.min_eq_left (by omega),
      Mem.store_add _ _ _ (by rw [Mem.length_load]; omega), Mem.getElem_load] at hnul
    exact hv.ne_zero (len - 1) (by omega) hnul

/-- `getenv_r` meets its contract just where the value leaves a byte of the buffer free. -/
theorem getenv_r_right_iff : GetenvRRight size m name buf len ↔ GetenvRFits size m name len :=
  ⟨getenvRFits_of_right, right_of_getenvRFits⟩

/-- `a=b` and the end of the list -/
def oneVarMem : Mem := Mem.store (fun _ => 0) 0 [0x61, 0x3d, 0x62]

/-- Into two bytes `b` is copied with a NUL behind them. -/
theorem getenv_r_not_right : ¬∀ (size : ℕ) (m : Mem) (name : List UInt8) (buf len : ℕ),
    GetenvRRight size m name buf len := by
  intro h
  obtain ⟨ret, out', hcall, hframe, -⟩ := h ENV_SIZE oneVarMem [0x61] 0 2 (fun _ => 1)
  have hfound : getenv ENV_SIZE oneVarMem [0x61] = some (some 2) := rfl
  have hv : IsValue oneVarMem 2 [0x62] := ⟨rfl, by simp⟩
  have hexact := @getenvR_exact _ _ _ 0 2 _ _ hfound hv rfl (fun _ => 1)
  obtain ⟨-, rfl⟩ := Prod.mk.inj (Option.some.inj (hcall.symm.trans hexact))
  exact absurd (hframe 2 (by decide)) (by decide)

end Right

end InfotmUboot
