import InfotmUboot.Logbuff
import InfotmUboot.Lib.Ring

/-!
# The log buffer holds the last characters logged

Each character goes behind those held, in both versions of the header (`Logbuff.Keeps`), and a
message is its lines, each with a level in front (`tagged`). So the ring is right as long as the
messages fit into the line buffer. What `log show` prints is right only until the ring is full
(`log_right_iff`).
-/

namespace InfotmUboot

open Lib

/-- The text begins with a level. -/
def hasTag : List UInt8 → Bool
  | a :: b :: c :: _ => a = 0x3c ∧ 0x30 ≤ b ∧ b ≤ 0x37 ∧ c = 0x3e
  | _ => false

/-- What becomes of a text: a level goes in front of each line that has none. The first line may be
the rest of one. -/
def tagged : Bool → List UInt8 → List UInt8
  | _, [] => []
  | mid, c :: s => (if mid ∨ hasTag (c :: s) then [] else defaultTag) ++ c :: tagged (c ≠ 0x0a) s

/-- Whether a text leaves a line open. -/
def midAfter (mid : Bool) (s : List UInt8) : Bool :=
  match s.getLast? with
  | none => mid
  | some c => c ≠ 0x0a

/-- The stream of the lines of the messages. -/
def logStream : Bool → List (List UInt8) → List UInt8
  | _, [] => []
  | mid, s :: msgs => tagged mid s ++ logStream (midAfter mid s) msgs

def logRun : List (List UInt8) → Logbuff → Option Logbuff
  | [], l => some l
  | s :: msgs, l => (logbuffPrintk s l).bind fun r => logRun msgs r.2

/-- What the ring holds. -/
def Logbuff.held (l : Logbuff) : List UInt8 := ringRead l.lbuf LOGBUFF_LEN l.log.start l.log.size

section Promise

variable (l : Logbuff) (msgs : List (List UInt8))

/-- A line is open. -/
def Logbuff.mid : Bool := 0 ≤ l.msgLevel

/-- At every message of the run the ring holds the last characters of the stream so far. -/
def LogHolds : Prop :=
  ∀ ms, ms <+: msgs → ∃ l', logRun ms (logbuffReset l) = some l' ∧
    l'.held = (logStream l.mid ms).rtake LOGBUFF_LEN

/-- And `log show` prints them. -/
def LogShows : Prop :=
  ∀ ms, ms <+: msgs → ∃ l', logRun ms (logbuffReset l) = some l' ∧
    doLog l' .show_ = some ((logStream l.mid ms).rtake LOGBUFF_LEN, l')

/-- The messages fit behind the room for a tag. -/
def LogFits : Prop := ∀ s ∈ msgs, s.length + 4 ≤ LOG_BUF_SIZE

end Promise

section Put

theorem logMask (n : ℕ) : n &&& LOGBUFF_MASK = n % LOGBUFF_LEN :=
  and_mask (k := 14) rfl n

/-- The ring holds the last characters of the stream. -/
structure Logbuff.Keeps (l : Logbuff) (stream : List UInt8) : Prop where
  size_eq : l.log.size = min stream.length LOGBUFF_LEN
  held_eq : l.held = stream.rtake LOGBUFF_LEN

theorem word_mod (n : ℕ) : u32 n % LOGBUFF_LEN = n % LOGBUFF_LEN :=
  Nat.mod_mod_of_dvd n (by decide)

/-- The counters of version 2 are apart by the number of characters held. -/
theorem stop_mod (start stop : ℕ) :
    stop % LOGBUFF_LEN = (start + toU32 (stop - start)) % LOGBUFF_LEN := by
  rw [← word_mod stop, ← word_mod (start + toU32 (stop - start))]
  refine congrArg (· % LOGBUFF_LEN) ?_
  unfold u32 toU32
  omega

theorem stop_succ (start stop : ℕ) :
    toU32 ((u32 (stop + 1) : ℕ) - start) = u32 (toU32 (stop - start) + 1) := by
  unfold u32 toU32
  omega

theorem both_succ (start stop : ℕ) :
    toU32 ((u32 (stop + 1) : ℕ) - (u32 (start + 1) : ℕ)) = toU32 (stop - start) := by
  unfold u32 toU32
  omega

/-- A character goes behind those held; if there is no room for it, the first one is gone. -/
theorem put_ring (l : Logbuff) (c : UInt8) (hsize : l.log.size ≤ LOGBUFF_LEN) :
    (l.put c).lbuf = l.lbuf.store ((l.log.start + l.log.size) % LOGBUFF_LEN) [c] ∧
      (l.put c).log.size = min (l.log.size + 1) LOGBUFF_LEN ∧
      (l.log.size < LOGBUFF_LEN → (l.put c).log.start = l.log.start) ∧
      (l.log.size = LOGBUFF_LEN → (l.put c).log.start = u32 (l.log.start + 1)) := by
  have hlen : LOGBUFF_LEN = 16384 := rfl
  rcases hlog : l.log with ⟨tag, start, size, chars⟩ | ⟨tag, start, con, stop, chars⟩
  · rw [hlog] at hsize
    change size ≤ LOGBUFF_LEN at hsize
    change _ ∧ _ ∧ (size < LOGBUFF_LEN → _) ∧ (size = LOGBUFF_LEN → _)
    simp only [Logbuff.put, hlog, LogHeader.size, LogHeader.start, logMask, word_mod]
    split_ifs with hlt
    · exact ⟨rfl, (Nat.min_eq_left hlt).symm, fun _ => rfl, fun h => by omega⟩
    · exact ⟨rfl, by change size = _; omega, fun h => absurd h hlt, fun _ => rfl⟩
  · rw [hlog] at hsize
    change toU32 (stop - start) ≤ LOGBUFF_LEN at hsize
    change _ ∧ _ ∧ (toU32 (stop - start) < LOGBUFF_LEN → _) ∧
      (toU32 (stop - start) = LOGBUFF_LEN → _)
    have hnext := stop_succ start stop
    rw [u32_of_lt (show toU32 (stop - start) + 1 < 2 ^ 32 by omega)] at hnext
    simp only [Logbuff.put, hlog, LogHeader.size, LogHeader.start, logMask, ← stop_mod]
    split_ifs with hgt
    · rw [hnext] at hgt
      rw [both_succ]
      exact ⟨trivial, by omega, fun h => by omega, fun _ => rfl⟩
    · rw [hnext] at hgt
      rw [hnext]
      exact ⟨trivial, by omega, fun _ => rfl, fun h => by omega⟩

theorem Logbuff.Keeps.put {l : Logbuff} {stream : List UInt8} (h : l.Keeps stream) (c : UInt8) :
    (l.put c).Keeps (stream ++ [c]) := by
  have hlen : LOGBUFF_LEN = 16384 := rfl
  have hle : l.log.size ≤ LOGBUFF_LEN := by rw [h.size_eq]; omega
  obtain ⟨hbuf, hsize, hstart⟩ := put_ring l c hle
  have hcell : (l.put c).lbuf ((l.log.start + l.log.size) % LOGBUFF_LEN) = c := by
    rw [hbuf]
    exact Mem.store_add _ _ [c] Nat.one_pos
  have hsame : ∀ q, q ≠ (l.log.start + l.log.size) % LOGBUFF_LEN → (l.put c).lbuf q = l.lbuf q := by
    intro q hq
    rw [hbuf, Mem.store, List.length_singleton, if_neg (by omega)]
  refine ⟨by rw [hsize, h.size_eq, List.length_append, List.length_singleton]; omega, ?_⟩
  have hheld := h.held_eq
  unfold Logbuff.held at hheld ⊢
  rw [hsize, ← rtake_rtake_append, ← hheld]
  by_cases hlt : l.log.size < LOGBUFF_LEN
  · rw [hstart.1 hlt, Nat.min_eq_left hlt, ringRead_write hlt hcell hsame,
      rtake_of_length_le (by simp; omega)]
  · -- the cell of the first character is written
    have hfull : l.log.size = LOGBUFF_LEN := by omega
    have hplace : (l.log.start + 1 + (LOGBUFF_LEN - 1)) % LOGBUFF_LEN =
        (l.log.start + l.log.size) % LOGBUFF_LEN := by
      rw [hfull, Nat.add_assoc, Nat.add_sub_cancel' (by omega)]
    rw [← hplace] at hcell hsame
    have hwrite := ringRead_write (by omega) hcell hsame
    rw [Nat.sub_add_cancel (by omega)] at hwrite
    rw [hstart.2 hfull, ← ringRead_mod, word_mod, ringRead_mod, Nat.min_eq_right (by omega), hwrite,
      hfull, List.rtake, List.length_append, length_ringRead, List.length_singleton,
      Nat.add_sub_cancel_left, List.drop_append_of_le_length (by rw [length_ringRead]; omega),
      drop_ringRead _ _ (by omega), ringRead_mod]

end Put

section Text

theorem tagged_cons (mid : Bool) (c : UInt8) (s : List UInt8) : tagged mid (c :: s) =
    (if mid ∨ hasTag (c :: s) then [] else defaultTag) ++ tagged true (c :: s) := by
  simp [tagged]

theorem tagged_open : ∀ {s : List UInt8}, 0x0a ∉ s → tagged true s = s
  | [], _ => rfl
  | c :: s, h => by
    rw [List.mem_cons, not_or] at h
    have hc : decide (c ≠ 0x0a) = true := decide_eq_true (Ne.symm h.1)
    rw [tagged, hc, tagged_open h.2]
    simp

theorem tagged_closed : ∀ {a : List UInt8} (s : List UInt8), 0x0a ∉ a →
    tagged true (a ++ 0x0a :: s) = a ++ 0x0a :: tagged false s
  | [], s, _ => by simp [tagged]
  | c :: a, s, h => by
    rw [List.mem_cons, not_or] at h
    have hc : decide (c ≠ 0x0a) = true := decide_eq_true (Ne.symm h.1)
    rw [List.cons_append, tagged, hc, tagged_closed s h.2]
    simp

theorem midAfter_concat (mid : Bool) (s : List UInt8) (c : UInt8) :
    midAfter mid (s ++ [c]) = decide (c ≠ 0x0a) := by
  rw [midAfter, List.getLast?_concat]

theorem midAfter_closed (mid : Bool) (a s : List UInt8) :
    midAfter mid (a ++ 0x0a :: s) = midAfter false s := by
  rcases List.eq_nil_or_concat' s with rfl | ⟨s, c, rfl⟩
  · rw [midAfter_concat]
    rfl
  · rw [show a ++ 0x0a :: (s ++ [c]) = (a ++ 0x0a :: s) ++ [c] by simp, midAfter_concat,
      midAfter_concat]

theorem midAfter_open {mid : Bool} {s : List UInt8} (hs : s ≠ []) (h : 0x0a ∉ s) :
    midAfter mid s = true := by
  obtain ⟨s, c, rfl⟩ := (List.eq_nil_or_concat' s).resolve_left hs
  simp only [List.mem_append, List.mem_singleton, not_or] at h
  rw [midAfter_concat]
  exact decide_eq_true (Ne.symm h.2)

end Text

section Message

/-- Characters that go into the ring leave the rest. -/
theorem put_rest (l : Logbuff) (c : UInt8) : (l.put c).buf = l.buf ∧
    (l.put c).msgLevel = l.msgLevel := by
  unfold Logbuff.put
  rcases l.log with ⟨tag, start, size, chars⟩ | ⟨tag, start, con, stop, chars⟩
  · dsimp only
    split_ifs <;> exact ⟨rfl, rfl⟩
  · exact ⟨rfl, rfl⟩

def Logbuff.putAll (l : Logbuff) (s : List UInt8) : Logbuff := s.foldl Logbuff.put l

theorem putAll_rest : ∀ (s : List UInt8) (l : Logbuff), (l.putAll s).buf = l.buf ∧
    (l.putAll s).msgLevel = l.msgLevel
  | [], _ => ⟨rfl, rfl⟩
  | c :: s, l => by
    obtain ⟨hbuf, hlevel⟩ := putAll_rest s (l.put c)
    exact ⟨hbuf.trans (put_rest l c).1, hlevel.trans (put_rest l c).2⟩

theorem Logbuff.Keeps.putAll : ∀ (s : List UInt8) {l : Logbuff} {stream : List UInt8},
    l.Keeps stream → (l.putAll s).Keeps (stream ++ s)
  | [], l, stream, h => by rwa [List.append_nil]
  | c :: s, l, stream, h => by
    have hrest := (h.put c).putAll s
    rwa [List.append_assoc, List.singleton_append] at hrest

theorem Logbuff.Keeps.congr {l l' : Logbuff} {stream : List UInt8} (h : l.Keeps stream)
    (hlog : l'.log = l.log) (hlbuf : l'.lbuf = l.lbuf) : l'.Keeps stream := by
  refine ⟨by rw [hlog, h.size_eq], ?_⟩
  rw [← h.held_eq, Logbuff.held, Logbuff.held, hlog, hlbuf]

theorem printkLine_open : ∀ {s : List UInt8} {p n : ℕ} {l : Logbuff}, Holds l.buf p s →
    0x0a ∉ s → s.length ≤ n →
      printkLine (p + s.length) n p l = (l.putAll s, p + s.length, false)
  | [], p, n, l, _, _, _ => by
    rcases n with _ | n
    · rfl
    · rw [printkLine, if_neg (by simp)]
      rfl
  | c :: s, p, n, l, h, hs, hn => by
    rw [List.length_cons] at hn
    obtain ⟨n, rfl⟩ : ∃ k, n = k + 1 := ⟨n - 1, by omega⟩
    rw [holds_cons] at h
    rw [List.mem_cons, not_or] at hs
    have hrest := printkLine_open (p := p + 1) (n := n) (l := l.put c)
      ((put_rest l c).1 ▸ h.2) hs.2 (by omega)
    rw [printkLine, if_pos (by simp)]
    dsimp only
    rw [h.1, if_neg (Ne.symm hs.1), List.length_cons, ← Nat.add_assoc, Nat.add_right_comm]
    exact hrest

theorem printkLine_closed : ∀ {s : List UInt8} {p n bufEnd : ℕ} {l : Logbuff},
    Holds l.buf p (s ++ [0x0a]) → 0x0a ∉ s → s.length < n → p + s.length < bufEnd →
      printkLine bufEnd n p l = (l.putAll (s ++ [0x0a]), p + s.length, true)
  | [], p, n, bufEnd, l, h, _, hn, hend => by
    obtain ⟨n, rfl⟩ : ∃ k, n = k + 1 := ⟨n - 1, by omega⟩
    rw [List.nil_append, holds_cons] at h
    rw [printkLine, if_pos (by simpa using hend)]
    dsimp only
    rw [h.1, if_pos rfl]
    rfl
  | c :: s, p, n, bufEnd, l, h, hs, hn, hend => by
    rw [List.length_cons] at hn hend
    obtain ⟨n, rfl⟩ : ∃ k, n = k + 1 := ⟨n - 1, by omega⟩
    rw [List.cons_append, holds_cons] at h
    rw [List.mem_cons, not_or] at hs
    have hrest : printkLine bufEnd n (p + 1) (l.put c) = _ :=
      printkLine_closed ((put_rest l c).1 ▸ h.2) hs.2 (by omega) (by omega)
    rw [printkLine, if_pos (by omega)]
    dsimp only
    rw [h.1, if_neg (Ne.symm hs.1), List.length_cons, ← Nat.add_assoc, Nat.add_right_comm]
    exact hrest

/-- A level is looked for in the message only. -/
theorem tagAt_eq {l : Logbuff} {p : ℕ} {s : List UInt8} (h : Holds l.buf p (s ++ [0]))
    (hs : s ≠ []) : l.tagAt p = hasTag s := by
  rcases s with _ | ⟨a, _ | ⟨b, _ | ⟨c, s⟩⟩⟩
  · exact absurd rfl hs
  · simp only [List.cons_append, List.nil_append, holds_cons] at h
    simp [Logbuff.tagAt, hasTag, h.1, h.2.1]
  · simp only [List.cons_append, List.nil_append, holds_cons] at h
    simp [Logbuff.tagAt, hasTag, h.1, h.2.1, h.2.2.1]
  · simp only [List.cons_append, holds_cons] at h
    simp [Logbuff.tagAt, hasTag, h.1, h.2.1, h.2.2.1]

/-- What goes in front of a line. -/
def levelOf (mid : Bool) (s : List UInt8) : List UInt8 :=
  if mid ∨ hasTag s then [] else defaultTag

theorem levelOf_open (mid : Bool) (s : List UInt8) : 0x0a ∉ levelOf mid s := by
  unfold levelOf
  split_ifs
  · exact List.not_mem_nil
  · decide

/-- A level is not negative. -/
theorem hasTag_level {m : Mem} {p : ℕ} {s : List UInt8} (h : Holds m p s)
    (htag : hasTag s = true) : (0 : ℤ) ≤ (m (p + 1)).toNat - 0x30 := by
  rcases s with _ | ⟨a, _ | ⟨b, _ | ⟨c, s⟩⟩⟩
  · exact absurd htag (by simp [hasTag])
  · exact absurd htag (by simp [hasTag])
  · exact absurd htag (by simp [hasTag])
  · rw [holds_cons, holds_cons] at h
    have hle : (0x30 : UInt8) ≤ b := (of_decide_eq_true htag).2.1
    have hnat : 0x30 ≤ b.toNat := UInt8.le_iff_toNat_le.1 hle
    rw [h.2.1]
    omega

/-- The line begins with its level, and is open. -/
theorem printkTag_spec {l : Logbuff} {p : ℕ} {s : List UInt8} (h : Holds l.buf p (s ++ [0]))
    (hs : s ≠ []) (hp : 3 ≤ p) : ∃ l' p' msg, printkTag p l = (l', p', msg) ∧
      Holds l'.buf p' (levelOf l.mid s ++ (s ++ [0])) ∧ p' + (levelOf l.mid s).length = p ∧
      l'.mid = true ∧ l'.log = l.log ∧ l'.lbuf = l.lbuf := by
  by_cases hmid : l.msgLevel < 0
  · have hfalse : l.mid = false := decide_eq_false (by omega)
    by_cases htag : hasTag s = true
    · have hlevel : levelOf l.mid s = [] := if_pos (.inr htag)
      rw [printkTag, if_pos hmid, tagAt_eq h hs, if_pos htag, hlevel]
      exact ⟨_, _, _, rfl, h, rfl, decide_eq_true (hasTag_level (holds_append.1 h).1 htag), rfl,
        rfl⟩
    · have hlevel : levelOf l.mid s = defaultTag := if_neg (by simp [hfalse, htag])
      have hlen : defaultTag.length = 3 := rfl
      have hholds : Holds (l.buf.store (p - 3) defaultTag) (p - 3) (defaultTag ++ (s ++ [0])) := by
        rw [holds_append, hlen, Nat.sub_add_cancel hp]
        exact ⟨holds_store _ _ _, h.store (.inr (by omega))⟩
      rw [printkTag, if_pos hmid, tagAt_eq h hs, if_neg htag, hlevel]
      refine ⟨_, _, _, rfl, hholds, by omega, decide_eq_true ?_, rfl, rfl⟩
      exact hasTag_level (holds_append.1 hholds).1 (by decide)
  · have htrue : l.mid = true := decide_eq_true (by omega)
    have hlevel : levelOf l.mid s = [] := if_pos (.inl htrue)
    rw [printkTag, if_neg hmid, hlevel]
    exact ⟨_, _, _, rfl, h, rfl, htrue, rfl, rfl⟩

/-- What the console is given leaves the rest. -/
theorem print_rest (l : Logbuff) (msg bufEnd : ℕ) : (l.print msg bufEnd).buf = l.buf ∧
    (l.print msg bufEnd).msgLevel = l.msgLevel ∧ (l.print msg bufEnd).log = l.log ∧
      (l.print msg bufEnd).lbuf = l.lbuf := by
  unfold Logbuff.print
  split_ifs <;> exact ⟨rfl, rfl, rfl, rfl⟩

/-- The rounds over a message put its lines into the ring. -/
theorem printkLoop_spec : ∀ (n : ℕ) {s : List UInt8} {p : ℕ} {l : Logbuff} {stream : List UInt8},
    Holds l.buf p (s ++ [0]) → 3 ≤ p → s.length ≤ n → l.Keeps stream →
      (printkLoop (p + s.length) n p l).Keeps (stream ++ tagged l.mid s) ∧
        (printkLoop (p + s.length) n p l).mid = midAfter l.mid s
  | n, [], p, l, stream, _, _, _, hk => by
    have hloop : printkLoop (p + 0) n p l = l := by
      rcases n with _ | n
      · rfl
      · rw [printkLoop, if_neg (by omega)]
    rw [List.length_nil, hloop, tagged, List.append_nil]
    exact ⟨hk, rfl⟩
  | n + 1, c :: s, p, l, stream, h, hp, hn, hk => by
    obtain ⟨l1, p1, msg, htag, hholds, hp1, hmid, hlog, hlbuf⟩ :=
      printkTag_spec h (List.cons_ne_nil c s) hp
    have hopen := levelOf_open l.mid (c :: s)
    have hk1 : l1.Keeps stream := hk.congr hlog hlbuf
    rw [printkLoop, if_pos (by simp), htag]
    dsimp only
    by_cases hnl : (0x0a : UInt8) ∈ c :: s
    · obtain ⟨a, rest, hcs, ha⟩ := List.eq_append_cons_of_mem hnl
      have hlen : (c :: s).length = a.length + 1 + rest.length := by simp [hcs]; omega
      have hline : 0x0a ∉ levelOf l.mid (c :: s) ++ a := by simp [hopen, ha]
      have htext : Holds l1.buf p1 (levelOf l.mid (c :: s) ++ a ++ [0x0a] ++ (rest ++ [0])) := by
        simpa [hcs] using hholds
      rw [holds_append] at htext
      obtain ⟨hfront, hback⟩ := htext
      have hplace : p1 + (levelOf l.mid (c :: s) ++ a).length = p + a.length := by
        rw [List.length_append]
        omega
      rw [printkLine_closed hfront hline (by rw [List.length_append]; omega) (by omega)]
      dsimp only
      rw [if_pos rfl, hplace]
      set line := levelOf l.mid (c :: s) ++ a ++ [0x0a] with hdef
      obtain ⟨hbuf, -, hlog', hlbuf'⟩ := print_rest (l1.putAll line) msg (p + (c :: s).length)
      have hk2 : Logbuff.Keeps { (l1.putAll line).print msg (p + (c :: s).length) with
          msgLevel := -1 } _ := (hk1.putAll line).congr hlog' hlbuf'
      have hback : Holds ((l1.putAll line).print msg (p + (c :: s).length)).buf
          (p + a.length + 1) (rest ++ [0]) := by
        rw [hbuf, (putAll_rest line l1).1]
        have hlinelen : p1 + line.length = p + a.length + 1 := by
          rw [hdef, List.length_append, ← Nat.add_assoc, hplace, List.length_singleton]
        rwa [hlinelen] at hback
      have hrest := printkLoop_spec n (l := { (l1.putAll line).print msg (p + (c :: s).length) with
        msgLevel := -1 }) hback (by omega) (by rw [List.length_cons] at hn hlen; omega) hk2
      have hfalse : Logbuff.mid { (l1.putAll line).print msg (p + (c :: s).length) with
          msgLevel := -1 } = false := rfl
      rw [hfalse, show p + a.length + 1 + rest.length = p + (c :: s).length by omega] at hrest
      have htagged : tagged l.mid (c :: s) = line ++ tagged false rest := by
        have hcons := tagged_cons l.mid c s
        rw [hcons, hcs, tagged_closed rest ha, ← hcs, hdef, levelOf]
        simp
      rw [htagged, ← List.append_assoc, hcs, midAfter_closed, ← hcs]
      exact hrest
    · have hline : 0x0a ∉ levelOf l.mid (c :: s) ++ (c :: s) := by
        rw [List.mem_append, not_or]
        exact ⟨hopen, hnl⟩
      have htext : Holds l1.buf p1 (levelOf l.mid (c :: s) ++ (c :: s)) := by
        rw [← List.append_assoc, holds_append] at hholds
        exact hholds.1
      have hend : p + (c :: s).length = p1 + (levelOf l.mid (c :: s) ++ (c :: s)).length := by
        rw [List.length_append]
        omega
      rw [hend, printkLine_open htext hline (by omega)]
      dsimp only
      set line := levelOf l.mid (c :: s) ++ (c :: s) with hdef
      obtain ⟨-, hlevel, hlog', hlbuf'⟩ := print_rest (l1.putAll line) msg (p1 + line.length)
      have hover (k : ℕ) (l' : Logbuff) :
          printkLoop (p1 + line.length) k (p1 + line.length + 1) l' = l' := by
        rcases k with _ | k
        · rfl
        · rw [printkLoop, if_neg (by omega)]
      have htagged : tagged l.mid (c :: s) = line := by
        rw [tagged_cons, tagged_open hnl, hdef, levelOf]
      rw [if_neg Bool.false_ne_true, hover, htagged, midAfter_open (List.cons_ne_nil c s) hnl]
      refine ⟨(hk1.putAll line).congr hlog' hlbuf', ?_⟩
      rw [← hmid, Logbuff.mid, hlevel, (putAll_rest line l1).2, Logbuff.mid]

end Message

section Run

theorem logbuffPrintk_spec {s : List UInt8} {l : Logbuff} {stream : List UInt8}
    (hs : s.length + 4 ≤ LOG_BUF_SIZE) (hk : l.Keeps stream) : ∃ l',
      logbuffPrintk s l = some (s.length, l') ∧ l'.Keeps (stream ++ tagged l.mid s) ∧
        l'.mid = midAfter l.mid s := by
  refine ⟨_, if_pos (by omega), ?_⟩
  exact printkLoop_spec s.length (holds_store _ _ _) le_rfl le_rfl (hk.congr rfl rfl)

theorem logRun_spec : ∀ {msgs : List (List UInt8)} {l : Logbuff} {stream : List UInt8},
    LogFits msgs → l.Keeps stream →
      ∃ l', logRun msgs l = some l' ∧ l'.Keeps (stream ++ logStream l.mid msgs)
  | [], l, stream, _, hk => ⟨l, rfl, by rwa [logStream, List.append_nil]⟩
  | s :: msgs, l, stream, hfit, hk => by
    obtain ⟨l1, hrun, hk1, hmid⟩ := logbuffPrintk_spec (hfit s List.mem_cons_self) hk
    obtain ⟨l2, hrest, hk2⟩ :=
      logRun_spec (fun t ht => hfit t (List.mem_cons_of_mem s ht)) hk1
    refine ⟨l2, by rw [logRun, hrun, Option.bind_some, hrest], ?_⟩
    rwa [hmid, List.append_assoc] at hk2

/-- A run gets through only if its messages fit. -/
theorem logFits_of_run : ∀ {msgs : List (List UInt8)} {l l' : Logbuff},
    logRun msgs l = some l' → LogFits msgs
  | [], _, _, _ => fun _ h => absurd h List.not_mem_nil
  | s :: msgs, l, l', h => by
    obtain ⟨r, hr, hrest⟩ := Option.bind_eq_some_iff.1 h
    refine List.forall_mem_cons.2 ⟨?_, logFits_of_run hrest⟩
    by_contra hlong
    rw [logbuffPrintk, if_neg (by omega)] at hr
    exact absurd hr (by simp)

theorem reset_keeps (l : Logbuff) : (logbuffReset l).Keeps [] := by
  have hsize : (logbuffReset l).log.size = 0 := by
    unfold logbuffReset
    rcases l.log with _ | _ <;> rfl
  exact ⟨hsize, by rw [Logbuff.held, hsize]; rfl⟩

/-- The mask makes a full ring an empty one. -/
theorem logShow_eq {l : Logbuff} {stream : List UInt8} (hk : l.Keeps stream) :
    logShow l = if stream.length < LOGBUFF_LEN then l.held else [] := by
  have hcell (i : ℕ) :
      u32 (l.log.start + i) &&& LOGBUFF_MASK = (l.log.start + i) % LOGBUFF_LEN := by
    rw [logMask, word_mod]
  rw [logShow, Logbuff.held, ringRead, logMask, hk.size_eq]
  simp only [hcell]
  split_ifs with hlt
  · rw [Nat.min_eq_left hlt.le, Nat.mod_eq_of_lt hlt]
  · rw [Nat.min_eq_right (Nat.not_lt.1 hlt), Nat.mod_self]
    rfl

theorem logStream_append : ∀ (ms ms' : List (List UInt8)) (mid : Bool),
    (logStream mid ms).length ≤ (logStream mid (ms ++ ms')).length
  | [], _, _ => by simp [logStream]
  | s :: ms, ms', mid => by
    simp only [logStream, List.cons_append, List.length_append]
    exact Nat.add_le_add_left (logStream_append ms ms' _) _

/-- The messages of `log append`. -/
def appendTexts : List (List UInt8) → List (List UInt8)
  | [] => []
  | arg :: args => arg :: [if args = [] then 0x0a else 0x20] :: appendTexts args

theorem logAppend_run : ∀ (args : List (List UInt8)) (l : Logbuff),
    logAppend args l = logRun (appendTexts args) l
  | [], _ => rfl
  | arg :: args, l => by
    rw [logAppend, appendTexts, logRun]
    rcases logbuffPrintk arg l with _ | r
    · rfl
    · rw [Option.bind_some, logRun]
      change (logbuffPutc _ r.2).bind _ = _
      rw [logbuffPutc]
      rcases logbuffPrintk [if args = [] then 0x0a else 0x20] r.2 with _ | r'
      · rfl
      · exact logAppend_run args r'.2

theorem rtake_length {s : List UInt8} {n : ℕ} (h : n ≤ s.length) : (s.rtake n).length = n := by
  rw [List.rtake, List.length_drop]
  omega

/-- What a run of messages that fit leaves, and what `log show` prints then. -/
theorem run_shows {l : Logbuff} {msgs : List (List UInt8)} (hfit : LogFits msgs) :
    ∃ l', logRun msgs (logbuffReset l) = some l' ∧
      l'.held = (logStream l.mid msgs).rtake LOGBUFF_LEN ∧
      logShow l' = if (logStream l.mid msgs).length < LOGBUFF_LEN
        then (logStream l.mid msgs).rtake LOGBUFF_LEN else [] := by
  obtain ⟨l', hrun, hk⟩ := logRun_spec hfit (reset_keeps l)
  have hshow := logShow_eq hk
  rw [hk.held_eq] at hshow
  exact ⟨l', hrun, hk.held_eq, hshow⟩

end Run

section Full

variable (l : Logbuff) (msgs : List (List UInt8))

theorem logHolds_iff : LogHolds l msgs ↔ LogFits msgs := by
  constructor
  · intro h
    obtain ⟨l', hrun, -⟩ := h msgs List.prefix_rfl
    exact logFits_of_run hrun
  · intro hfit ms hms
    obtain ⟨l', hrun, hheld, -⟩ := run_shows (l := l) fun s hs => hfit s (hms.subset hs)
    exact ⟨l', hrun, hheld⟩

/-- Nothing is shown of a full ring. -/
theorem full_not_shown {l : Logbuff} {msgs : List (List UInt8)} (hfit : LogFits msgs)
    (hlong : LOGBUFF_LEN ≤ (logStream l.mid msgs).length) : ¬LogShows l msgs := by
  intro h
  obtain ⟨l', hrun, hshow⟩ := h msgs List.prefix_rfl
  obtain ⟨l'', hrun', -, hshow'⟩ := run_shows (l := l) hfit
  obtain rfl := Option.some.inj (hrun.symm.trans hrun')
  rw [doLog, Option.some.injEq, Prod.mk.injEq] at hshow
  have hprinted := hshow.1
  rw [if_neg (Nat.not_lt.2 hlong)] at hshow'
  have hlen := rtake_length hlong
  rw [← hprinted, hshow'] at hlen
  exact absurd hlen (by decide)

/-- The ring is right in every run of messages that fit; what is shown is right until it is full. -/
theorem log_right_iff : (LogHolds l msgs ↔ LogFits msgs) ∧ (LogHolds l msgs ∧ LogShows l msgs ↔
    LogFits msgs ∧ (logStream l.mid msgs).length < LOGBUFF_LEN) := by
  refine ⟨logHolds_iff l msgs, ?_⟩
  constructor
  · rintro ⟨hholds, hshows⟩
    have hfit := (logHolds_iff l msgs).1 hholds
    refine ⟨hfit, ?_⟩
    by_contra hlong
    exact full_not_shown hfit (Nat.not_lt.1 hlong) hshows
  · rintro ⟨hfit, hshort⟩
    refine ⟨(logHolds_iff l msgs).2 hfit, fun ms hms => ?_⟩
    obtain ⟨l', hrun, -, hshow⟩ := run_shows (l := l) fun s hs => hfit s (hms.subset hs)
    obtain ⟨rest, rfl⟩ := hms
    have hlt := (logStream_append ms rest l.mid).trans_lt hshort
    rw [if_pos hlt] at hshow
    exact ⟨l', hrun, by rw [doLog, hshow]⟩

/-- Every character of a message is in the stream. -/
theorem length_le_tagged : ∀ (mid : Bool) (s : List UInt8), s.length ≤ (tagged mid s).length
  | _, [] => Nat.zero_le _
  | mid, c :: s => by
    rw [tagged, List.length_append, List.length_cons, List.length_cons]
    have hrest := length_le_tagged (c ≠ 0x0a) s
    omega

theorem length_le_logStream (s : List UInt8) : ∀ (n : ℕ) (mid : Bool),
    n * s.length ≤ (logStream mid (List.replicate n s)).length
  | 0, _ => by simp
  | n + 1, mid => by
    rw [List.replicate_succ, logStream, List.length_append, Nat.succ_mul]
    have hone := length_le_tagged mid s
    have hrest := length_le_logStream s n (midAfter mid s)
    omega

/-- Seventeen messages of a thousand characters. -/
theorem log_not_right : ¬∀ (l : Logbuff) (msgs : List (List UInt8)),
    (∀ s ∈ msgs, s.length < LOG_BUF_SIZE) → LogHolds l msgs ∧ LogShows l msgs := by
  intro h
  have hlen : (List.replicate 1000 (0x61 : UInt8)).length = 1000 := List.length_replicate
  have hall : ∀ s ∈ List.replicate 17 (List.replicate 1000 (0x61 : UInt8)), s.length = 1000 := by
    intro s hs
    rw [List.eq_of_mem_replicate hs, hlen]
  have hfit : LogFits (List.replicate 17 (List.replicate 1000 (0x61 : UInt8))) := by
    intro s hs
    rw [hall s hs]
    decide
  have hlong := length_le_logStream (List.replicate 1000 (0x61 : UInt8)) 17 false
  rw [hlen] at hlong
  refine full_not_shown (l := ⟨fun _ => 0, .v1 0 0 0 0, fun _ => 0, -1, 0, []⟩) hfit
    (le_trans (by decide) hlong) (h _ _ fun s hs => ?_).2
  rw [hall s hs]
  decide

end Full

end InfotmUboot
