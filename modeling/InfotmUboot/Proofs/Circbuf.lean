import InfotmUboot.Circbuf
import InfotmUboot.Lib.Ring

/-!
# A circular buffer is a queue

The buffer keeps the last bytes pushed and not yet popped, as many as it has room for
(`Circbuf.Keeps`), whatever is called on it. Only a buffer without storage does not: the first byte
that is pushed on it goes outside (`circbuf_fifo_iff`).
-/

namespace InfotmUboot

open Lib

inductive CircOp where
  | push (src : List UInt8)
  | pop (len : ℕ)
  deriving DecidableEq, Repr

/-- A call on a buffer: what it returns and, of `buf_pop`, what it reads. -/
def circStep (buf : Circbuf) : CircOp → Option ((ℕ × List UInt8) × Circbuf)
  | .push src => (bufPush buf src).map fun r => ((r.1, []), r.2)
  | .pop len => (bufPop buf len).map fun r => ((r.1, r.2.1), r.2.2)

def circRun : List CircOp → Circbuf → Option (List (ℕ × List UInt8) × Circbuf)
  | [], buf => some ([], buf)
  | op :: ops, buf =>
    match circStep buf op with
    | none => none
    | some (out, buf) => (circRun ops buf).map fun r => (out :: r.1, r.2)

/-- The call on a queue that keeps the last `totalsize` bytes. -/
def fifoStep (totalsize : ℕ) (kept : List UInt8) : CircOp → (ℕ × List UInt8) × List UInt8
  | .push src => ((src.length, []), (kept ++ src).rtake totalsize)
  | .pop len => (((kept.take len).length, kept.take len), kept.drop len)

def fifoRun (totalsize : ℕ) : List CircOp → List UInt8 → List (ℕ × List UInt8) × List UInt8
  | [], kept => ([], kept)
  | op :: ops, kept =>
    let s := fifoStep totalsize kept op
    let r := fifoRun totalsize ops s.2
    (s.1 :: r.1, r.2)

/-- A position inside the storage, or where there is none, its start. -/
def Circbuf.Inside (buf : Circbuf) (p : ℕ) : Prop := p < buf.room ∨ p = 0

/-- The buffer holds `kept`. -/
structure Circbuf.Keeps (n : ℕ) (kept : List UInt8) (buf : Circbuf) : Prop where
  totalsize_eq : buf.totalsize = n
  room_eq : buf.room = n
  stop_eq : buf.stop = n
  top_lt : buf.top < n
  size_le : buf.size ≤ n
  tail_eq : buf.tail = (buf.top + buf.size) % n
  read_eq : ringRead buf.data n buf.top buf.size = kept

section Steps

variable {n : ℕ} {kept : List UInt8} {buf : Circbuf}

theorem Circbuf.Keeps.size_eq (h : buf.Keeps n kept) : buf.size = kept.length := by
  rw [← h.read_eq, length_ringRead]

theorem Circbuf.next_eq (h : buf.stop = n) (p : ℕ) : buf.next p = ringNext n p := by
  rw [Circbuf.next, ringNext, h]

theorem popLoop_read (hroom : buf.room = n) (hstop : buf.stop = n) : ∀ (k : ℕ) {p : ℕ}, p < n →
    popLoop buf k p = some (ringRead buf.data n p k, (p + k) % n)
  | 0, p, hp => by
    rw [popLoop, ringRead_zero, Nat.add_zero, Nat.mod_eq_of_lt hp]
  | k + 1, p, hp => by
    have hnext := ringNext_lt hp
    rw [popLoop, if_pos (by omega), Circbuf.next_eq hstop, popLoop_read hroom hstop k hnext,
      Option.map_some, ringRead_succ _ hp, ringNext_eq hp, ring_add, Nat.add_comm 1 k]

theorem bufPop_keeps (h : buf.Keeps n kept) (len : ℕ) : ∃ buf', bufPop buf len =
    some ((kept.take len).length, kept.take len, buf') ∧ buf'.Keeps n (kept.drop len) := by
  have hsize := h.size_eq
  have hlen : (if len > buf.size then buf.size else len) = min len buf.size := by
    split_ifs <;> omega
  have htake : kept.take len = kept.take (min len buf.size) := by
    rw [hsize, List.take_eq_take_min]
  have hdrop : kept.drop len = kept.drop (min len buf.size) := by
    rcases Nat.le_total len buf.size with hle | hle
    · rw [Nat.min_eq_left hle]
    · rw [Nat.min_eq_right hle, List.drop_eq_nil_of_le (by omega), List.drop_eq_nil_of_le
        (by omega)]
  have hmin : min len buf.size ≤ buf.size := Nat.min_le_right _ _
  rw [bufPop, hlen, popLoop_read h.room_eq h.stop_eq _ h.top_lt, htake, hdrop]
  generalize min len buf.size = k at hmin
  rw [← h.read_eq, take_ringRead _ _ hmin, drop_ringRead _ _ hmin, length_ringRead]
  exact ⟨_, rfl, {
    totalsize_eq := h.totalsize_eq
    room_eq := h.room_eq
    stop_eq := h.stop_eq
    top_lt := Nat.mod_lt _ (Nat.zero_lt_of_lt h.top_lt)
    size_le := (Nat.sub_le _ _).trans h.size_le
    tail_eq := by
      dsimp only
      rw [h.tail_eq, ring_add, Nat.add_sub_of_le hmin]
    read_eq := rfl }⟩

/-- One round of `buf_push`. -/
theorem push_keeps (h : buf.Keeps n kept) (c : UInt8) :
    buf.tail < buf.room ∧
      let buf' := { buf with data := buf.data.store buf.tail [c], tail := buf.next buf.tail }
      if buf.size < buf.totalsize then
        Circbuf.Keeps n ((kept ++ [c]).rtake n) { buf' with size := buf.size + 1 }
      else Circbuf.Keeps n ((kept ++ [c]).rtake n) { buf' with top := buf.next buf.top } := by
  have hpos : 0 < n := Nat.zero_lt_of_lt h.top_lt
  have htail : buf.tail < n := h.tail_eq ▸ Nat.mod_lt _ hpos
  have hstored : buf.data.store buf.tail [c] buf.tail = c :=
    Mem.store_add buf.data buf.tail [c] Nat.one_pos
  have hother : ∀ q, q ≠ buf.tail → buf.data.store buf.tail [c] q = buf.data q := fun q hq =>
    if_neg (by rw [List.length_singleton]; omega)
  have hlen := h.size_eq
  have hle := h.size_le
  refine ⟨h.room_eq ▸ htail, ?_⟩
  dsimp only
  generalize buf.data.store buf.tail [c] = data at hstored hother ⊢
  split_ifs with hroom
  · rw [h.totalsize_eq] at hroom
    have hnext : buf.next buf.tail = (buf.top + (buf.size + 1)) % n := by
      rw [Circbuf.next_eq h.stop_eq, ringNext_eq htail, h.tail_eq, ring_add]
    rw [rtake_of_length_le (by rw [List.length_append, List.length_singleton]; omega)]
    refine ⟨h.totalsize_eq, h.room_eq, h.stop_eq, h.top_lt, hroom, hnext, ?_⟩
    rw [h.tail_eq] at hstored hother
    dsimp only
    rw [ringRead_write hroom hstored hother, h.read_eq]
  · -- the ring is full, and the byte takes the place of the oldest one
    rw [h.totalsize_eq] at hroom
    have hfull : buf.size = n := by omega
    have htop : buf.tail = buf.top := by
      rw [h.tail_eq, hfull, Nat.add_mod_right, Nat.mod_eq_of_lt h.top_lt]
    obtain ⟨k, hk⟩ : ∃ k, n = k + 1 := ⟨n - 1, by omega⟩
    have hlt := ringNext_lt h.top_lt
    have hback : (ringNext n buf.top + k) % n = buf.tail := by
      rw [ringNext_eq h.top_lt, ring_add, htop, Nat.add_comm 1 k, ← hk, Nat.add_mod_right,
        Nat.mod_eq_of_lt h.top_lt]
    have hkept : kept = buf.data buf.top :: ringRead buf.data n (ringNext n buf.top) k := by
      rw [← h.read_eq, hfull, ← ringRead_succ _ h.top_lt, ← hk]
    have hrtake : (kept ++ [c]).rtake n = ringRead buf.data n (ringNext n buf.top) k ++ [c] := by
      rw [List.rtake, hkept]
      simp only [List.cons_append, List.length_cons, List.length_append, length_ringRead,
        List.length_nil]
      rw [show k + (0 + 1) + 1 - n = 1 by omega, List.drop_one, List.tail_cons]
    rw [hrtake]
    refine ⟨h.totalsize_eq, h.room_eq, h.stop_eq, ?_, hle, ?_, ?_⟩ <;>
      dsimp only <;> rw [Circbuf.next_eq h.stop_eq]
    · exact hlt
    · rw [Circbuf.next_eq h.stop_eq, hfull, Nat.add_mod_right, htop, Nat.mod_eq_of_lt hlt]
    · rw [← hback] at hstored hother
      rw [hfull, ← ringRead_write (by omega) hstored hother, ← hk]

theorem pushLoop_keeps : ∀ (src : List UInt8) {p : ℕ} {buf : Circbuf} {kept : List UInt8},
    Circbuf.Keeps n kept { buf with tail := p } → ∃ buf' p', pushLoop src p buf = some (buf', p') ∧
      Circbuf.Keeps n ((kept ++ src).rtake n) { buf' with tail := p' }
  | [], p, buf, kept, h => by
    refine ⟨buf, p, rfl, ?_⟩
    rw [List.append_nil, rtake_of_length_le (h.size_eq ▸ h.size_le)]
    exact h
  | c :: src, p, buf, kept, h => by
    obtain ⟨hin, hnext⟩ := push_keeps h c
    have hrest : (kept ++ c :: src).rtake n = ((kept ++ [c]).rtake n ++ src).rtake n := by
      rw [rtake_rtake_append, List.append_assoc, List.singleton_append]
    rw [pushLoop, if_pos hin, hrest]
    dsimp only at hnext ⊢
    split_ifs at hnext ⊢
    · exact pushLoop_keeps src hnext
    · exact pushLoop_keeps src hnext

theorem bufPush_keeps (h : buf.Keeps n kept) (src : List UInt8) : ∃ buf',
    bufPush buf src = some (src.length, buf') ∧ buf'.Keeps n ((kept ++ src).rtake n) := by
  obtain ⟨buf', p', hloop, hkeeps⟩ := pushLoop_keeps src h
  exact ⟨_, by rw [bufPush, hloop]; rfl, hkeeps⟩

/-- A call does to the buffer what it does to the queue. -/
theorem circStep_keeps (h : buf.Keeps n kept) (op : CircOp) : ∃ buf',
    circStep buf op = some ((fifoStep n kept op).1, buf') ∧
      buf'.Keeps n (fifoStep n kept op).2 := by
  cases op with
  | push src =>
    obtain ⟨buf', hpush, hkeeps⟩ := bufPush_keeps h src
    exact ⟨buf', by rw [circStep, hpush]; rfl, hkeeps⟩
  | pop len =>
    obtain ⟨buf', hpop, hkeeps⟩ := bufPop_keeps h len
    exact ⟨buf', by rw [circStep, hpop]; rfl, hkeeps⟩

theorem circRun_keeps : ∀ (ops : List CircOp) {buf : Circbuf} {kept : List UInt8},
    buf.Keeps n kept → ∃ buf', circRun ops buf = some ((fifoRun n ops kept).1, buf') ∧
      buf'.Keeps n (fifoRun n ops kept).2
  | [], buf, kept, h => ⟨buf, rfl, h⟩
  | op :: ops, buf, kept, h => by
    obtain ⟨buf1, hstep, h1⟩ := circStep_keeps h op
    obtain ⟨buf', hrun, h'⟩ := circRun_keeps ops h1
    refine ⟨buf', ?_, h'⟩
    rw [circRun, hstep]
    dsimp only
    rw [hrun]
    rfl

theorem bufInit_keeps (data : Mem) (hn : 0 < n) : (bufInit true n data).Keeps n [] where
  totalsize_eq := rfl
  room_eq := rfl
  stop_eq := rfl
  top_lt := hn
  size_le := Nat.zero_le n
  tail_eq := (Nat.zero_mod n).symm
  read_eq := rfl

end Steps

section Empty

/-- A call that stores nothing. -/
def CircOp.Stores : CircOp → Prop
  | .push src => src ≠ []
  | .pop _ => False

instance (op : CircOp) : Decidable op.Stores :=
  match op with
  | .push src => inferInstanceAs (Decidable (src ≠ []))
  | .pop _ => inferInstanceAs (Decidable False)

variable {buf : Circbuf}

/-- On an empty buffer, a call that stores nothing does nothing. -/
theorem circStep_empty (hsize : buf.size = 0) {op : CircOp} (h : ¬op.Stores) (n : ℕ) :
    circStep buf op = some ((fifoStep n [] op).1, buf) ∧ (fifoStep n [] op).2 = [] := by
  cases op with
  | push src =>
    obtain rfl : src = [] := not_not.1 h
    exact ⟨rfl, List.rtake_nil n⟩
  | pop len =>
    have hlen : (if len > buf.size then buf.size else len) = 0 := by
      split_ifs <;> omega
    rw [circStep, bufPop, hlen, popLoop, fifoStep, List.take_nil, List.drop_nil]
    exact ⟨rfl, rfl⟩

theorem circRun_empty (n : ℕ) : ∀ (ops : List CircOp), (∀ op ∈ ops, ¬op.Stores) → buf.size = 0 →
    circRun ops buf = some ((fifoRun n ops []).1, buf) ∧ (fifoRun n ops []).2 = []
  | [], _, _ => ⟨rfl, rfl⟩
  | op :: ops, h, hsize => by
    obtain ⟨hstep, hkept⟩ := circStep_empty hsize (h op List.mem_cons_self) n
    obtain ⟨hrun, hrest⟩ := circRun_empty n ops (fun o ho => h o (List.mem_cons_of_mem op ho)) hsize
    rw [circRun, hstep, fifoRun]
    dsimp only
    rw [hkept, hrun]
    exact ⟨rfl, hrest⟩

/-- Without storage a call that stores something leaves it. -/
theorem circStep_outside (hroom : buf.room = 0) {op : CircOp} (h : op.Stores) :
    circStep buf op = none := by
  cases op with
  | push src =>
    obtain ⟨c, src, rfl⟩ := List.exists_cons_of_ne_nil h
    rw [circStep, bufPush, pushLoop, if_neg (by omega)]
    rfl
  | pop len => exact absurd h id

theorem circRun_outside : ∀ (ops : List CircOp) {r : List (ℕ × List UInt8) × Circbuf},
    buf.size = 0 → buf.room = 0 → circRun ops buf = some r → ∀ op ∈ ops, ¬op.Stores
  | [], _, _, _, _ => fun _ h => absurd h List.not_mem_nil
  | op :: ops, r, hsize, hroom, h => by
    rw [circRun] at h
    by_cases hop : op.Stores
    · rw [circStep_outside hroom hop] at h
      cases h
    · rw [(circStep_empty hsize hop 0).1] at h
      obtain ⟨r', hrun, -⟩ := Option.map_eq_some_iff.1 h
      exact List.forall_mem_cons.2 ⟨hop, circRun_outside ops hsize hroom hrun⟩

end Empty

section Fifo

/-- The calls on a new buffer stay inside its storage, and each returns what it does on a queue of
the last `size` bytes; in the end the buffer has as many bytes as the queue keeps, and these are no
more than `size`. -/
def CircFifo (malloc : Bool) (size : ℕ) (data : Mem) (ops : List CircOp) : Prop :=
  ∃ buf, circRun ops (bufInit malloc size data) = some ((fifoRun size ops []).1, buf) ∧
    buf.size = (fifoRun size ops []).2.length ∧ buf.size ≤ buf.totalsize ∧
    buf.totalsize = size ∧ buf.Inside buf.top ∧ buf.Inside buf.tail

/-- There is storage, or nothing is pushed. -/
def CircFits (malloc : Bool) (size : ℕ) (ops : List CircOp) : Prop :=
  malloc = true ∧ 0 < size ∨ ∀ op ∈ ops, ¬op.Stores

variable {malloc : Bool} {size : ℕ} {data : Mem} {ops : List CircOp}

theorem fifo_of_circFits (h : CircFits malloc size ops) : CircFifo malloc size data ops := by
  rcases h with ⟨rfl, hpos⟩ | hnone
  · obtain ⟨buf, hrun, hkeeps⟩ := circRun_keeps ops (bufInit_keeps data hpos)
    have htail : buf.tail < size := hkeeps.tail_eq ▸ Nat.mod_lt _ hpos
    have hroom := hkeeps.room_eq
    have htop := hkeeps.top_lt
    exact ⟨buf, hrun, hkeeps.size_eq, hkeeps.totalsize_eq ▸ hkeeps.size_le, hkeeps.totalsize_eq,
      Or.inl (by omega), Or.inl (by omega)⟩
  · obtain ⟨hrun, hkept⟩ := @circRun_empty (bufInit malloc size data) size ops hnone rfl
    exact ⟨_, hrun, by rw [hkept]; rfl, Nat.zero_le _, rfl, Or.inr rfl, Or.inr rfl⟩

theorem circFits_of_fifo (h : CircFifo malloc size data ops) : CircFits malloc size ops := by
  obtain ⟨buf, hrun, -⟩ := h
  by_cases hroom : malloc = true ∧ 0 < size
  · exact Or.inl hroom
  · refine Or.inr (circRun_outside ops rfl ?_ hrun)
    rw [bufInit]
    split_ifs with hm
    · exact Nat.eq_zero_of_not_pos fun h => hroom ⟨hm, h⟩
    · rfl

/-- A circular buffer is a queue of its last bytes as long as it has storage or nothing is
pushed. -/
theorem circbuf_fifo_iff : CircFifo malloc size data ops ↔ CircFits malloc size ops :=
  ⟨circFits_of_fifo, fifo_of_circFits⟩

/-- Three bytes in two: the first is lost, and the pops return the others in order. -/
example : (fifoRun 2 [.push [1, 2, 3], .pop 1, .push [4], .pop 5] []).1 =
    [(3, []), (1, [2]), (1, []), (2, [3, 4])] := by decide

/-- On a buffer of no bytes the first push goes outside. -/
theorem circbuf_not_fifo : ¬∀ (malloc : Bool) (size : ℕ) (data : Mem) (ops : List CircOp),
    CircFifo malloc size data ops := by
  intro h
  obtain ⟨buf, hrun, -⟩ := h true 0 (fun _ => 0) [.push [1]]
  cases hrun

end Fifo

end InfotmUboot
