import InfotmUboot.Items
import InfotmUboot.Lib.Sections

/-!
# Which section `__string_sec` finds

The loop goes over a dot and the character behind it at once. So a dot right behind one that it
has counted is not counted, and a zero behind one is not seen. `stringSec_right_iff` says for
which strings and numbers it still finds the section.
-/

namespace InfotmUboot

open Lib

/-- `'.'` -/
def dot : UInt8 := 0x2e

/-- The section with this number is found where it starts, and the zero is the last byte read. -/
def StringSecRight (s : List UInt8) (sec : ℕ) : Prop :=
  ∀ (m : Mem) (a n : ℕ), Holds m a (s ++ [0]) → s.length < n →
    stringSecLoop m sec n 0 a = (if sec < (s.splitOn dot).length then
      some (a + (((s.splitOn dot).take sec).map fun t => t.length + 1).sum) else none) ∧
    ∀ p ∈ stringSecReads m sec n 0 a, p ≤ a + s.length

/-- Section 0 begins with something else than a dot. A later one has no two dots next to each other
among those before it; and where there are too few, the string ends in an even number of them. -/
def StringSecClear (s : List UInt8) (sec : ℕ) : Prop :=
  if sec = 0 then ∃ c, s.head? = some c ∧ c ≠ dot
  else
    (sec ≤ s.count dot → ∀ p, s[p]? = some dot → s[p + 1]? = some dot →
      sec ≤ (s.take (p + 1)).count dot) ∧
    (s.count dot < sec → Even (s.rtakeWhile (· = dot)).length)

section Walk

/-- How the loop ends, counted from where it starts. -/
inductive SecEnd where
  | found (k : ℕ)
  | absent
  /-- behind the zero -/
  | past

def SecEnd.shift (i : ℕ) : SecEnd → SecEnd
  | .found k => .found (k + i)
  | .absent => .absent
  | .past => .past

/-- The loop with so many dots to go. -/
def secWalk : ℕ → List UInt8 → SecEnd
  | _, [] => .absent
  | j, [x] => if x = dot then (if j = 1 then .found 1 else .past) else .absent
  | j, x :: y :: s =>
    if x = dot then (if j = 1 then .found 1 else (secWalk (j - 1) s).shift 2)
    else (secWalk j (y :: s)).shift 1

/-- The end that is right. -/
def SecEnd.ofStart : Option ℕ → SecEnd
  | some k => .found k
  | none => .absent

theorem shift_ofStart (e : SecEnd) (o : Option ℕ) (i : ℕ) :
    e.shift i = SecEnd.ofStart (o.map (· + i)) ↔ e = SecEnd.ofStart o := by
  cases e <;> cases o <;> simp [SecEnd.shift, SecEnd.ofStart]

theorem SecEnd.shift_found {e : SecEnd} {i k : ℕ} (h : e.shift i = .found k) :
    ∃ k', e = .found k' ∧ k = k' + i := by
  cases e with
  | found k' => exact ⟨k', rfl, (SecEnd.found.inj h).symm⟩
  | absent => exact absurd h (by simp [SecEnd.shift])
  | past => exact absurd h (by simp [SecEnd.shift])

theorem secWalk_ne {x : UInt8} (h : x ≠ dot) (j : ℕ) (s : List UInt8) :
    secWalk j (x :: s) = (secWalk j s).shift 1 := by
  rcases s with _ | ⟨y, s⟩
  · simp [secWalk, h, SecEnd.shift]
  · rw [secWalk, if_neg h]

theorem secWalk_one (s : List UInt8) : secWalk 1 (dot :: s) = .found 1 := by
  rcases s with _ | ⟨y, s⟩ <;> rw [secWalk, if_pos rfl, if_pos rfl]

theorem secWalk_end (j : ℕ) : secWalk (j + 2) [dot] = .past := by
  rw [secWalk, if_pos rfl, if_neg (by omega)]

theorem secWalk_dot (j : ℕ) (y : UInt8) (s : List UInt8) :
    secWalk (j + 2) (dot :: y :: s) = (secWalk (j + 1) s).shift 2 := by
  rw [secWalk, if_pos rfl, if_neg (by omega), show j + 2 - 1 = j + 1 by omega]

/-- What is found is not before the section. -/
theorem secWalk_found : ∀ {s : List UInt8} {j k : ℕ}, secWalk (j + 1) s = .found k →
    ∃ k', sectionStart dot s (j + 1) = some k' ∧ k' ≤ k
  | [], j, k, h => by simp [secWalk] at h
  | [x], j, k, h => by
    by_cases hx : x = dot
    · subst hx
      rcases j with _ | j
      · rw [secWalk_one] at h
        exact ⟨1, by simp [sectionStart_self], (SecEnd.found.inj h).le⟩
      · simp [secWalk_end] at h
    · rw [secWalk_ne hx] at h
      simp [secWalk, SecEnd.shift] at h
  | x :: y :: s, j, k, h => by
    by_cases hx : x = dot
    · subst hx
      rcases j with _ | j
      · rw [secWalk_one] at h
        exact ⟨1, by simp [sectionStart_self], (SecEnd.found.inj h).le⟩
      · rw [secWalk_dot] at h
        obtain ⟨k, hk, rfl⟩ := SecEnd.shift_found h
        obtain ⟨k', hk', hle⟩ := secWalk_found hk
        rw [sectionStart_self]
        by_cases hy : y = dot
        · -- the second dot is one more than the loop counts
          have hsome : (sectionStart dot s j).isSome = true :=
            (sectionStart_isSome dot s j).2 (by
              have := (sectionStart_isSome dot s (j + 1)).1 (by rw [hk']; rfl)
              omega)
          obtain ⟨i, hi⟩ := Option.isSome_iff_exists.1 hsome
          have hlt := sectionStart_lt dot hi hk'
          exact ⟨i + 1 + 1, by rw [hy, sectionStart_self, hi]; rfl, by omega⟩
        · exact ⟨k' + 1 + 1, by rw [sectionStart_ne dot hy, hk']; rfl, by omega⟩
    · rw [secWalk_ne hx] at h
      obtain ⟨k, hk, rfl⟩ := SecEnd.shift_found h
      obtain ⟨k', hk', hle⟩ := secWalk_found hk
      exact ⟨k' + 1, by rw [sectionStart_ne dot hx, hk']; rfl, by omega⟩

/-- The condition on the dots before the section, and that on the last ones. -/
def Spread (n : ℕ) (s : List UInt8) : Prop :=
  ∀ p, s[p]? = some dot → s[p + 1]? = some dot → n ≤ (s.take (p + 1)).count dot

def EvenEnd (s : List UInt8) : Prop := Even (s.rtakeWhile (· = dot)).length

def WalkClear (n : ℕ) (s : List UInt8) : Prop :=
  (n ≤ s.count dot → Spread n s) ∧ (s.count dot < n → EvenEnd s)

theorem spread_ne {x : UInt8} (hx : x ≠ dot) (n : ℕ) (s : List UInt8) :
    Spread n (x :: s) ↔ Spread n s := by
  constructor
  · intro h p hp hp'
    have := h (p + 1) (by simpa using hp) (by simpa using hp')
    rwa [List.take_succ_cons, List.count_cons_of_ne hx] at this
  · rintro h (_ | p) hp hp'
    · simp only [List.getElem?_cons_zero, Option.some.injEq] at hp
      exact absurd hp hx
    · rw [List.take_succ_cons, List.count_cons_of_ne hx]
      exact h p (by simpa using hp) (by simpa using hp')

theorem spread_dot {y : UInt8} (hy : y ≠ dot) (n : ℕ) (s : List UInt8) :
    Spread (n + 1) (dot :: y :: s) ↔ Spread n (y :: s) := by
  constructor
  · intro h p hp hp'
    have := h (p + 1) (by simpa using hp) (by simpa using hp')
    rw [List.take_succ_cons, List.count_cons_self] at this
    omega
  · rintro h (_ | p) hp hp'
    · simp only [Nat.zero_add, List.getElem?_cons_succ, List.getElem?_cons_zero,
        Option.some.injEq] at hp'
      exact absurd hp' hy
    · rw [List.take_succ_cons, List.count_cons_self]
      exact Nat.succ_le_succ (h p (by simpa using hp) (by simpa using hp'))

theorem spread_one (s : List UInt8) : Spread 1 (dot :: s) := by
  intro p _ _
  rw [List.take_succ_cons, List.count_cons_self]
  omega

theorem evenEnd_ne {x : UInt8} (hx : x ≠ dot) (s : List UInt8) : EvenEnd (x :: s) ↔ EvenEnd s := by
  unfold EvenEnd
  rw [rtakeWhile_cons]
  split_ifs with hall hd
  · exact absurd (of_decide_eq_true hd) hx
  · rw [List.rtakeWhile_eq_self_iff.2 (List.all_eq_true.1 hall)]
  · rfl

/-- A dot in front counts only if there is nothing but dots. -/
theorem evenEnd_dots (s : List UInt8) : EvenEnd (dot :: dot :: s) ↔ EvenEnd s := by
  unfold EvenEnd
  rw [rtakeWhile_cons, rtakeWhile_cons]
  by_cases hall : s.all (· = dot) = true
  · rw [List.rtakeWhile_eq_self_iff.2 (List.all_eq_true.1 hall)]
    simp [hall, Nat.even_add_one]
  · simp [hall]

theorem evenEnd_dot {y : UInt8} (hy : y ≠ dot) (s : List UInt8) :
    EvenEnd (dot :: y :: s) ↔ EvenEnd s := by
  rw [← evenEnd_ne hy s]
  unfold EvenEnd
  rw [rtakeWhile_cons, if_neg (by simp [hy])]

/-- The loop ends where it should if and only if the dots are spread. -/
theorem secWalk_iff : ∀ (s : List UInt8) (j : ℕ),
    secWalk (j + 1) s = SecEnd.ofStart (sectionStart dot s (j + 1)) ↔ WalkClear (j + 1) s
  | [], j => by simp [secWalk, SecEnd.ofStart, WalkClear, EvenEnd]
  | [x], j => by
    by_cases hx : x = dot
    · subst hx
      rcases j with _ | j
      · rw [secWalk_one, sectionStart_self, sectionStart_zero]
        exact iff_of_true rfl ⟨fun _ => spread_one [], fun h => absurd h (by simp)⟩
      · rw [secWalk_end, sectionStart_self, sectionStart_nil]
        refine iff_of_false (by simp [SecEnd.ofStart]) fun h => ?_
        have heven := h.2 (by simp)
        simp [EvenEnd, rtakeWhile_cons] at heven
    · rw [secWalk_ne hx, sectionStart_ne dot hx, shift_ofStart]
      refine iff_of_true (by simp [secWalk, SecEnd.ofStart]) ⟨fun h => ?_, fun _ => ?_⟩
      · simp [List.count_cons_of_ne hx] at h
      · rw [evenEnd_ne hx]
        simp [EvenEnd]
  | x :: y :: s, j => by
    by_cases hx : x = dot
    · subst hx
      rcases j with _ | j
      · rw [secWalk_one, sectionStart_self, sectionStart_zero]
        refine iff_of_true rfl ⟨fun _ => spread_one _, fun h => absurd h ?_⟩
        rw [List.count_cons_self]
        omega
      · rw [secWalk_dot, sectionStart_self]
        by_cases hy : y = dot
        · subst hy
          have hcount : (dot :: dot :: s).count dot = s.count dot + 2 := by simp
          rw [sectionStart_self]
          rcases hj : sectionStart dot s j with _ | k
          · -- there are too few dots, and fewer for the loop
            have hfew := (sectionStart_none dot).1 hj
            have hnext : sectionStart dot s (j + 1) = none := (sectionStart_none dot).2 (by omega)
            have hwalk := secWalk_iff s j
            rw [hnext] at hwalk
            have hstep := shift_ofStart (secWalk (j + 1) s) none 2
            refine hstep.trans (hwalk.trans ?_)
            unfold WalkClear
            rw [evenEnd_dots, hcount]
            exact ⟨fun h => ⟨fun _ => by omega, fun _ => h.2 (by omega)⟩,
              fun h => ⟨fun _ => by omega, fun _ => h.2 (by omega)⟩⟩
          · refine iff_of_false (fun h => ?_) fun h => ?_
            · have hfound := (shift_ofStart (secWalk (j + 1) s) (some k) 2).1 h
              obtain ⟨k', hk', hle⟩ := secWalk_found hfound
              have hlt := sectionStart_lt dot hj hk'
              omega
            · have hmany := (sectionStart_isSome dot s j).1 (by rw [hj]; rfl)
              have htwo := h.1 (by omega) 0 rfl rfl
              simp at htwo
        · rw [sectionStart_ne dot hy, Option.map_map]
          have h2 : (fun k => k + 1) ∘ (fun k => k + 1) = fun k : ℕ => k + 2 := rfl
          rw [h2, shift_ofStart, secWalk_iff s j]
          unfold WalkClear
          rw [evenEnd_dot hy, spread_dot hy, spread_ne hy, List.count_cons_self,
            List.count_cons_of_ne hy, Nat.add_le_add_iff_right, Nat.add_lt_add_iff_right]
    · rw [secWalk_ne hx, sectionStart_ne dot hx, shift_ofStart, secWalk_iff (y :: s) j]
      unfold WalkClear
      rw [spread_ne hx, evenEnd_ne hx, List.count_cons_of_ne hx]

end Walk

section Loop

variable {m : Mem}

theorem secLoop_nul {p : ℕ} (h : m p = 0) (sec n c : ℕ) :
    stringSecLoop m sec (n + 1) c p = none ∧ stringSecReads m sec (n + 1) c p = [p] := by
  simp [stringSecLoop, stringSecReads, h]

theorem secLoop_ne {p c sec : ℕ} (h0 : m p ≠ 0) (hdot : m p ≠ dot) (hc : c < sec) (n : ℕ) :
    stringSecLoop m sec (n + 1) c p = stringSecLoop m sec n c (p + 1) ∧
      stringSecReads m sec (n + 1) c p = p :: stringSecReads m sec n c (p + 1) := by
  rw [dot] at hdot
  simp [stringSecLoop, stringSecReads, h0, hdot, hc.le, hc.ne]

theorem secLoop_last {p c : ℕ} (hdot : m p = dot) (n : ℕ) :
    stringSecLoop m (c + 1) (n + 1) c p = some (p + 1) ∧
      stringSecReads m (c + 1) (n + 1) c p = [p] := by
  rw [dot] at hdot
  simp [stringSecLoop, stringSecReads, hdot]

theorem secLoop_dot {p c sec : ℕ} (hdot : m p = dot) (hc : c + 1 < sec) (n : ℕ) :
    stringSecLoop m sec (n + 1) c p = stringSecLoop m sec n (c + 1) (p + 2) ∧
      stringSecReads m sec (n + 1) c p = p :: stringSecReads m sec n (c + 1) (p + 2) := by
  rw [dot] at hdot
  simp [stringSecLoop, stringSecReads, hdot, (Nat.lt_of_succ_lt hc).le, hc.ne]

theorem secLoop_zero {p : ℕ} (h0 : m p ≠ 0) (hdot : m p ≠ dot) (n : ℕ) :
    stringSecLoop m 0 (n + 1) 0 p = some p ∧ stringSecReads m 0 (n + 1) 0 p = [p] := by
  rw [dot] at hdot
  simp [stringSecLoop, stringSecReads, h0, hdot]

/-- A dot in front is counted before the number is looked at. -/
theorem secLoop_lead {p : ℕ} (hdot : m p = dot) (n : ℕ) :
    stringSecLoop m 0 (n + 1) 0 p = none := by
  rw [dot] at hdot
  rcases n with _ | n <;> simp [stringSecLoop, hdot]

/-- The loop from `p` on, with so many characters before the zero, ends so. -/
def SecEnd.Meets (p len : ℕ) (r : Option ℕ) (reads : List ℕ) : SecEnd → Prop
  | .found k => r = some (p + k) ∧ ∀ q ∈ reads, q ≤ p + len
  | .absent => r = none ∧ ∀ q ∈ reads, q ≤ p + len
  | .past => ∃ q ∈ reads, p + len < q

theorem SecEnd.Meets.shift {p i len : ℕ} {r : Option ℕ} {reads : List ℕ} {e : SecEnd}
    (h : e.Meets (p + i) len r reads) : (e.shift i).Meets p (len + i) r (p :: reads) := by
  cases e with
  | found k =>
    refine ⟨by rw [h.1, Nat.add_assoc, Nat.add_comm i], List.forall_mem_cons.2 ⟨by omega, ?_⟩⟩
    exact fun q hq => (h.2 q hq).trans (by omega)
  | absent =>
    refine ⟨h.1, List.forall_mem_cons.2 ⟨by omega, ?_⟩⟩
    exact fun q hq => (h.2 q hq).trans (by omega)
  | past =>
    obtain ⟨q, hq, hlt⟩ := h
    exact ⟨q, List.mem_cons_of_mem _ hq, by omega⟩

/-- The loop on a string in memory is the walk. -/
theorem loop_meets : ∀ {s : List UInt8} {p n : ℕ} (c j : ℕ), Holds m p (s ++ [0]) → 0 ∉ s →
    s.length < n → (secWalk (j + 1) s).Meets p s.length (stringSecLoop m (c + (j + 1)) n c p)
      (stringSecReads m (c + (j + 1)) n c p)
  | [], p, n + 1, c, j, h, _, _ => by
    rw [List.nil_append, holds_cons] at h
    obtain ⟨hloop, hreads⟩ := secLoop_nul h.1 (c + (j + 1)) n c
    rw [hloop, hreads]
    exact ⟨rfl, by simp⟩
  | [x], p, n + 1, c, j, h, hs, hn => by
    rw [List.singleton_append, holds_cons, holds_cons] at h
    obtain ⟨rfl, h0, -⟩ := h
    obtain ⟨n, rfl⟩ : ∃ k, n = k + 1 := ⟨n - 1, by rw [List.length_singleton] at hn; omega⟩
    by_cases hx : m p = dot
    · rw [hx]
      rcases j with _ | j
      · obtain ⟨hloop, hreads⟩ := secLoop_last (c := c) hx (n + 1)
        rw [secWalk_one, hloop, hreads]
        exact ⟨rfl, by simp⟩
      · obtain ⟨hloop, hreads⟩ := secLoop_dot hx (show c + 1 < c + (j + 1 + 1) by omega) (n + 1)
        rw [secWalk_end, hloop, hreads]
        refine ⟨p + 2, List.mem_cons_of_mem _ ?_, by simp⟩
        rw [stringSecReads]
        exact List.mem_cons_self
    · have hne : m p ≠ 0 := fun h => hs (by simp [h])
      obtain ⟨hloop, hreads⟩ := secLoop_ne hne hx (show c < c + (j + 1) by omega) (n + 1)
      rw [secWalk_ne hx, hloop, hreads]
      exact (loop_meets (s := []) c j (by simpa [holds_cons, holds_nil] using h0) (by simp)
        (Nat.succ_pos n)).shift
  | x :: y :: s, p, n + 1, c, j, h, hs, hn => by
    rw [List.cons_append, holds_cons] at h
    obtain ⟨rfl, h⟩ := h
    rw [List.mem_cons, not_or] at hs
    rw [List.length_cons] at hn
    by_cases hx : m p = dot
    · rw [hx]
      rcases j with _ | j
      · obtain ⟨hloop, hreads⟩ := secLoop_last (c := c) hx n
        rw [secWalk_one, hloop, hreads]
        exact ⟨rfl, by simp⟩
      · obtain ⟨hloop, hreads⟩ := secLoop_dot hx (show c + 1 < c + (j + 1 + 1) by omega) n
        rw [secWalk_dot, hloop, hreads]
        rw [List.cons_append, holds_cons] at h
        have hrest := loop_meets (s := s) (p := p + 2) (n := n) (c + 1) j h.2
          (fun h0 => hs.2 (List.mem_cons_of_mem _ h0)) (by rw [List.length_cons] at hn; omega)
        rw [show c + 1 + (j + 1) = c + (j + 1 + 1) by omega] at hrest
        exact hrest.shift
    · obtain ⟨hloop, hreads⟩ := secLoop_ne (Ne.symm hs.1) hx (show c < c + (j + 1) by omega) n
      rw [secWalk_ne hx, hloop, hreads]
      exact (loop_meets (s := y :: s) c j h hs.2 (by omega)).shift

end Loop

section Sections

variable {s : List UInt8}

/-- A memory that holds nothing but the string. -/
def stringAlone (s : List UInt8) : Mem := Mem.store (fun _ => 0) 0 (s ++ [0])

theorem stringSecRight_succ (hs : 0 ∉ s) (j : ℕ) : StringSecRight s (j + 1) ↔
    secWalk (j + 1) s = SecEnd.ofStart (sectionStart dot s (j + 1)) := by
  have hspec (a : ℕ) : (if j + 1 < (s.splitOn dot).length then
      some (a + (((s.splitOn dot).take (j + 1)).map fun t => t.length + 1).sum) else none) =
        (sectionStart dot s (j + 1)).map (a + ·) := by
    rw [sectionStart_eq]
    split_ifs <;> rfl
  have hmeets (m : Mem) (a n : ℕ) (h : Holds m a (s ++ [0])) (hn : s.length < n) :=
    loop_meets 0 j h hs hn
  unfold StringSecRight
  simp only [hspec]
  simp only [Nat.zero_add] at hmeets
  constructor
  · intro h
    obtain ⟨hval, hreads⟩ := h (stringAlone s) 0 _ (holds_store _ _ _) (Nat.lt_succ_self _)
    have hend := hmeets (stringAlone s) 0 _ (holds_store _ _ _) (Nat.lt_succ_self _)
    rcases hwalk : secWalk (j + 1) s with k | _ | _
    · rw [hwalk] at hend
      rw [hend.1] at hval
      obtain ⟨k', hk', hkk⟩ := Option.map_eq_some_iff.1 hval.symm
      rw [hk', SecEnd.ofStart, Nat.add_left_cancel hkk]
    · rw [hwalk] at hend
      rw [hend.1] at hval
      rw [Option.map_eq_none_iff.1 hval.symm, SecEnd.ofStart]
    · rw [hwalk] at hend
      obtain ⟨q, hq, hlt⟩ := hend
      exact absurd (hreads q hq) (Nat.not_le.2 hlt)
  · intro hwalk m a n h hn
    have hend := hmeets m a n h hn
    rw [hwalk] at hend
    rcases hstart : sectionStart dot s (j + 1) with _ | k
    · rw [hstart] at hend
      exact hend
    · rw [hstart] at hend
      exact hend

/-- Section 0 is not looked for behind the first character. -/
theorem stringSecRight_zero (hs : 0 ∉ s) :
    StringSecRight s 0 ↔ ∃ c, s.head? = some c ∧ c ≠ dot := by
  have hlen : 0 < (s.splitOn dot).length := List.length_pos_of_ne_nil (List.splitOnP_ne_nil _ s)
  unfold StringSecRight
  simp only [hlen, if_true, List.take_zero, List.map_nil, List.sum_nil, Nat.add_zero]
  constructor
  · intro h
    obtain ⟨hval, -⟩ := h (stringAlone s) 0 _ (holds_store _ _ _) (Nat.lt_succ_self _)
    have hholds : Holds (stringAlone s) 0 (s ++ [0]) := holds_store _ _ _
    rcases s with _ | ⟨x, s⟩
    · rw [(secLoop_nul (holds_cons.1 hholds).1 _ _ _).1] at hval
      exact absurd hval (by simp)
    · refine ⟨x, rfl, fun hx => ?_⟩
      subst hx
      rw [List.cons_append, holds_cons] at hholds
      rw [List.length_cons, secLoop_lead hholds.1] at hval
      exact absurd hval (by simp)
  · rintro ⟨c, hc, hcd⟩ m a n h hn
    obtain ⟨s, rfl⟩ := List.head?_eq_some_iff.1 hc
    rw [List.cons_append, holds_cons] at h
    have hne : c ≠ 0 := fun h0 => hs (h0 ▸ List.mem_cons_self)
    obtain ⟨n, rfl⟩ := Nat.exists_eq_succ_of_ne_zero (show n ≠ 0 by omega)
    obtain ⟨hloop, hreads⟩ := secLoop_zero (h.1 ▸ hne) (h.1 ▸ hcd) n
    rw [hloop, hreads]
    exact ⟨rfl, by simp⟩

/-- The right section is found if and only if the dots let the loop see it. -/
theorem stringSec_right_iff (hs : 0 ∉ s) (sec : ℕ) :
    StringSecRight s sec ↔ StringSecClear s sec := by
  rcases sec with _ | j
  · rw [stringSecRight_zero hs, StringSecClear, if_pos rfl]
  · rw [stringSecRight_succ hs, secWalk_iff, StringSecClear, if_neg (Nat.succ_ne_zero j)]
    rfl

theorem stringSec_right_iff_two : StringSecRight [0x61, dot, 0x62, dot, 0x63] 2 ↔
    StringSecClear [0x61, dot, 0x62, dot, 0x63] 2 :=
  stringSec_right_iff (by decide) 2

/-- `"a..b"` has a section 2, and it is not found; and section 2 of `"a."` is looked for behind the
zero. -/
theorem stringSec_not_right : ¬∀ (s : List UInt8) (sec : ℕ), 0 ∉ s → StringSecRight s sec := by
  intro h
  have hval := (h [0x61, dot, dot, 0x62] 2 (by decide) (stringAlone [0x61, dot, dot, 0x62]) 0 5
    (holds_store _ _ _) (by decide)).1
  revert hval
  decide

end Sections

end InfotmUboot
