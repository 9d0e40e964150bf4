import InfotmUboot.Kermit
import Mathlib.Data.List.Basic

/-!
# A file over a Kermit line

A sender that sends its next packet once the last one is acknowledged, and the copies of its packets
that get through to `k_recv` whole or damaged. What `k_recv` has in memory at the end is the file
just where no packet behind one with data is first seen by a damage in front of its sequence byte.
-/

namespace InfotmUboot

open Lib

section Sender

/-- The bytes that data stand for, where no pair of an escape and its character is split. -/
def kdecode (quote : UInt8) : List UInt8 → Option (List UInt8)
  | [] => some []
  | [c] => if c = quote then none else some [c]
  | c :: e :: cs =>
    if c = quote then (kdecode quote cs).map (ktrans e :: ·) else (kdecode quote (e :: cs)).map
      (c :: ·)

structure KermitPacket where
  type : UInt8
  data : List UInt8
  long : Bool
  deriving DecidableEq, Repr

def kcheck (cs : List UInt8) : UInt8 := tochar (blockCheck (cs.map UInt8.toNat).sum)

/-- What is in front of the data: the length, the sequence number, the type and, in a long packet,
the length again and a check of these. -/
def KermitPacket.head (p : KermitPacket) (n : ℕ) : List UInt8 :=
  if p.long then
    let cs := [tochar 0, tochar (n % 64), p.type, tochar ((p.data.length + 1) / 95),
      tochar ((p.data.length + 1) % 95)]
    cs ++ [kcheck cs]
  else [tochar (p.data.length + 3), tochar (n % 64), p.type]

/-- The characters of packet `n`. -/
def KermitPacket.wire (p : KermitPacket) (n : ℕ) : List UInt8 :=
  START_CHAR :: (p.head n ++ p.data ++ [kcheck (p.head n ++ p.data), END_CHAR])

/-- A sender's parameters, the name of the file, its data in packets, and what is in the last two
packets; some of the packets may be long ones. -/
structure KermitTransfer where
  params : List UInt8
  name : List UInt8
  chunks : List (List UInt8)
  eof : List UInt8
  brk : List UInt8
  long : ℕ → Bool

namespace KermitTransfer

variable (s : KermitTransfer)

def packets : List KermitPacket :=
  ([(SEND_TYPE, s.params), (0x46, s.name)] ++ s.chunks.map (fun c => (DATA_TYPE, c)) ++
    [(0x5a, s.eof), (BREAK_TYPE, s.brk)]).mapIdx fun i p => ⟨p.1, p.2, s.long i⟩

/-- The quote that the parameters ask for. -/
def quote : UInt8 := if 6 ≤ s.params.length then s.params.getD 5 0 else K_ESCAPE

/-- The file that the data stand for. -/
def file : List UInt8 := s.chunks.flatMap fun c => (kdecode s.quote c).getD []

end KermitTransfer

/-- A transfer of packets such as a sender sends: without control characters, no longer than
`k_recv` takes, and no escape is split. -/
structure KermitSession extends KermitTransfer where
  plain : ∀ p ∈ toKermitTransfer.packets, ∀ c ∈ p.data, isControl c = false
  fits : ∀ p ∈ toKermitTransfer.packets, p.data.length ≤ if p.long then 94 * 95 + 93 else 91
  decodes : ∀ c ∈ chunks, kdecode toKermitTransfer.quote c ≠ none

/-- The error that a packet runs into, if any: what is left of the line behind it. -/
def Frame.rejects : Frame → List UInt8 → Option (List UInt8)
  | _, [] => none
  | f, c :: cs =>
    match f.next c with
    | .go f' => f'.rejects cs
    | .bad => some cs
    | .whole => none

/-- A damaged copy of the characters of a packet: its start and its sequence byte are as they were,
it runs into an error, and what is left of it then begins no other packet. -/
structure Damaged (wire copy : List UInt8) : Prop where
  start : copy[0]? = some START_CHAR
  seq : copy[2]? = wire[2]?
  rejected : ∃ rest, Frame.first.rejects copy.tail = some rest ∧
    ∀ c ∈ rest, c ≠ START_CHAR ∧ c ≠ ETX_CHAR

/-- A copy of a packet that gets through to `k_recv`. -/
inductive KermitCopy where
  | intact
  | damaged (copy : List UInt8)
  deriving DecidableEq, Repr

def KermitCopy.line (wire : List UInt8) : KermitCopy → List UInt8
  | .intact => wire
  | .damaged copy => copy

/-- The error is in front of the sequence byte. -/
def KermitCopy.Early : KermitCopy → Prop
  | .intact => False
  | .damaged copy => isControl (copy.getD 1 0) = true

instance : DecidablePred KermitCopy.Early
  | .intact => inferInstanceAs (Decidable False)
  | .damaged copy => inferInstanceAs (Decidable (isControl (copy.getD 1 0) = true))

/-- The copies of each packet that come before the one that the sender gets an answer to: the answer
to an intact one is lost, and after a damaged one the packet is sent again. -/
structure KermitSchedule (s : KermitSession) where
  copies : ℕ → List KermitCopy
  damaged : ∀ n p, s.packets[n]? = some p → ∀ copy, .damaged copy ∈ copies n →
    Damaged (p.wire n) copy

/-- The line with these copies of the packets from number `n` on. -/
def lineFrom (copies : ℕ → List KermitCopy) : ℕ → List KermitPacket → List UInt8
  | _, [] => []
  | n, p :: ps =>
    (copies n).flatMap (KermitCopy.line (p.wire n)) ++ p.wire n ++ lineFrom copies (n + 1) ps

def KermitSession.line (s : KermitSession) (sched : KermitSchedule s) : List UInt8 :=
  lineFrom sched.copies 0 s.packets

/-- What `k_recv` promises: it is done, has the file in memory and returns its length. -/
def KermitRight (s : KermitSession) (sched : KermitSchedule s) (addr : ℕ) (mem : Mem) : Prop :=
  let k := kRecv addr mem (s.line sched)
  k.mode = .done ∧ k.ret addr = some s.file.length ∧ k.mem.load addr s.file.length = s.file

/-- No packet behind one with data has its first copy damaged in front of the sequence byte. -/
def KermitClean (s : KermitSession) (sched : KermitSchedule s) : Prop :=
  ∀ i c, s.chunks[i]? = some c → c ≠ [] → ∀ copy, (sched.copies (i + 3)).head? = some copy →
    ¬copy.Early

end Sender

section Chars

theorem isControl_eq (c : UInt8) : isControl c = decide (c.toNat < 32) := by
  have h : ∀ n : Fin 256, isControl (UInt8.ofNat n) = decide ((n : ℕ) < 32) := by decide +kernel
  simpa using h ⟨c.toNat, c.toNat_lt⟩

theorem untochar_tochar {x : ℕ} (h : x < 256) : untochar (tochar x) = x := by
  unfold untochar tochar SPACE
  rw [UInt8.toNat_sub, UInt8.toNat_ofNat', UInt8.toNat_ofNat']
  omega

theorem isControl_tochar {x : ℕ} (h : x < 224) : isControl (tochar x) = false := by
  rw [isControl_eq]
  unfold tochar SPACE
  rw [UInt8.toNat_ofNat', decide_eq_false_iff_not]
  omega

theorem blockCheck_lt (sum : ℕ) : blockCheck sum < 64 := by
  unfold blockCheck
  exact lt_of_le_of_lt Nat.and_le_right (by norm_num)

theorem isControl_check (sum : ℕ) : isControl (tochar (blockCheck sum)) = false :=
  isControl_tochar ((blockCheck_lt sum).trans (by norm_num))

variable {f f' : Frame} {c : UInt8}

/-- A character that is none of control, in a packet that does not end with it. -/
theorem Frame.next_phase (h1 : f.phase ≠ .length) (h : f.next c = .go f') :
    f'.phase ≠ .length ∧ f'.phase ≠ .seq := by
  obtain ⟨phase, sum, length, lenHi⟩ := f
  have hbody (z : ℤ) : bodyPhase z ≠ .length ∧ bodyPhase z ≠ .seq := by
    unfold bodyPhase
    split_ifs <;> decide
  unfold next at h
  cases phase with
  | length => exact absurd rfl h1
  | type =>
    simp only [reduceCtorEq, if_false] at h
    split_ifs at h
    · cases h
      exact ⟨by simp, by simp⟩
    · cases h
      exact hbody _
  | _ =>
    simp only [reduceCtorEq, if_false, if_true] at h
    split_ifs at h
    all_goals
      cases h
      first | exact hbody _ | exact ⟨by simp, by simp⟩

end Chars

section Data

variable {k : Kermit} {c quote : UInt8}

theorem Kermit.kDataChar_plain (he : k.escape = false) (hc : c ≠ k.hisQuote) :
    k.kDataChar c = k.binDataChar c := by
  unfold kDataChar
  rw [he, if_neg (by decide), if_neg hc]

theorem Kermit.kDataChar_escape (he : k.escape = false) (e : UInt8) :
    (k.kDataChar k.hisQuote).kDataChar e = k.binDataChar (ktrans e) := by
  unfold kDataChar binDataChar
  simp [he]

theorem Kermit.binDataChar_then (b : UInt8) (bytes : List UInt8) :
    { k.binDataChar b with
      mem := (k.binDataChar b).mem.store (k.binDataChar b).osDataAddr bytes
      osDataAddr := (k.binDataChar b).osDataAddr + bytes.length } =
    { k with
      mem := k.mem.store k.osDataAddr (b :: bytes)
      osDataAddr := k.osDataAddr + (b :: bytes).length } := by
  have hmem := Mem.store_append k.mem k.osDataAddr [b] bytes
  rw [List.singleton_append] at hmem
  unfold binDataChar
  rw [hmem, List.length_cons, Nat.add_comm bytes.length 1, ← Nat.add_assoc]
  rfl

/-- The data of a packet go to memory decoded. -/
theorem Kermit.kDataChars : ∀ (data bytes : List UInt8) (k : Kermit), kdecode quote data =
    some bytes →
    k.escape = false → k.hisQuote = quote → data.foldl kDataChar k =
      { k with
        mem := k.mem.store k.osDataAddr bytes
        osDataAddr := k.osDataAddr + bytes.length }
  | [], bytes, k, h, he, hq => by
    cases h
    simp
  | [c], bytes, k, h, he, hq => by
    rw [kdecode] at h
    split_ifs at h with hc
    cases h
    rw [List.foldl_cons, kDataChar_plain he (by rwa [hq])]
    rfl
  | c :: e :: cs, bytes, k, h, he, hq => by
    rw [kdecode] at h
    split_ifs at h with hc
    · obtain ⟨bytes', hd, rfl⟩ := Option.map_eq_some_iff.1 h
      rw [List.foldl_cons, List.foldl_cons, hc, ← hq, kDataChar_escape he,
        Kermit.kDataChars cs bytes' (k.binDataChar (ktrans e)) hd he hq, binDataChar_then]
    · obtain ⟨bytes', hd, rfl⟩ := Option.map_eq_some_iff.1 h
      rw [List.foldl_cons, kDataChar_plain he (by rwa [hq]),
        Kermit.kDataChars (e :: cs) bytes' (k.binDataChar c) hd he hq, binDataChar_then]

theorem Kermit.body_data : ∀ (data : List UInt8) (k : Kermit),
    k.kState = DATA_TYPE → data.foldl (fun k c => k.take .body c) k = data.foldl kDataChar k
  | [], _, _ => rfl
  | c :: data, k, h => by
    have hstate : (k.kDataChar c).kState = DATA_TYPE := by
      rw [← h]
      unfold kDataChar
      split_ifs <;> rfl
    have htake : k.take .body c = k.kDataChar c := if_pos h
    rw [List.foldl_cons, List.foldl_cons, htake, Kermit.body_data data _ hstate]

theorem Kermit.body_send : ∀ (data : List UInt8) (k : Kermit), k.kState = SEND_TYPE →
    k.sendParms.length ≤ 19 → data.foldl (fun k c => k.take .body c) k =
      { k with sendParms := (k.sendParms ++ data).take 19 }
  | [], k, _, hlen => by
    rw [List.append_nil, List.take_of_length_le hlen]
    rfl
  | c :: data, k, h, hlen => by
    have htake : k.take .body c = k.sendParm c := by
      unfold take
      simp only []
      rw [if_neg (by rw [h]; decide), if_pos h]
    rw [List.foldl_cons, htake]
    unfold sendParm SEND_DATA_SIZE
    split_ifs with h20
    · rw [Kermit.body_send data { k with sendParms := k.sendParms ++ [c] } h
        (by rw [List.length_append, List.length_singleton]; omega), List.append_assoc]
      rfl
    · have h19 : k.sendParms.length = 19 := by omega
      rw [Kermit.body_send data k h hlen, List.take_append_of_le_length h19.ge,
        List.take_append_of_le_length h19.ge]

theorem Kermit.body_other : ∀ (data : List UInt8) (k : Kermit), k.kState ≠ DATA_TYPE →
    k.kState ≠ SEND_TYPE → data.foldl (fun k c => k.take .body c) k = k
  | [], _, _, _ => rfl
  | c :: data, k, hd, hs => by
    have htake : k.take .body c = k := by
      unfold take
      simp only []
      rw [if_neg hd, if_neg hs]
    rw [List.foldl_cons, htake, Kermit.body_other data k hd hs]

end Data

section Damage

variable {k k' k'' : Kermit}

/-- What a packet changes behind its sequence byte: neither the checkpoint nor what is in memory in
front of where it goes on. -/
structure Within (k k' : Kermit) : Prop where
  lastN : k'.lastN = k.lastN
  escapeSaved : k'.escapeSaved = k.escapeSaved
  saved : k'.osDataAddrSaved = k.osDataAddrSaved
  quote : k'.hisQuote = k.hisQuote
  addr : k.osDataAddr ≤ k'.osDataAddr
  mem : ∀ x < k.osDataAddr, k'.mem x = k.mem x

theorem Within.refl (k : Kermit) : Within k k := ⟨rfl, rfl, rfl, rfl, le_rfl, fun _ _ => rfl⟩

theorem Within.trans (h : Within k k') (h' : Within k' k'') : Within k k'' where
  lastN := h'.lastN.trans h.lastN
  escapeSaved := h'.escapeSaved.trans h.escapeSaved
  saved := h'.saved.trans h.saved
  quote := h'.quote.trans h.quote
  addr := h.addr.trans h'.addr
  mem := fun x hx => (h'.mem x (by have := h.addr; omega)).trans (h.mem x hx)

theorem within_binDataChar (c : UInt8) : Within k (k.binDataChar c) :=
  ⟨rfl, rfl, rfl, rfl, Nat.le_succ _, fun _ hx => Mem.store_of_lt _ _ hx⟩

theorem within_take {phase : Phase} (c : UInt8) (h : phase ≠ .seq) : Within k (k.take phase c) := by
  cases phase with
  | seq => exact absurd rfl h
  | type => exact ⟨rfl, rfl, rfl, rfl, le_rfl, fun _ _ => rfl⟩
  | body =>
    simp only [Kermit.take]
    split_ifs
    · unfold Kermit.kDataChar
      split_ifs
      · obtain ⟨h1, h2, h3, h4, h5, h6⟩ := @within_binDataChar k (ktrans c)
        exact ⟨h1, h2, h3, h4, h5, h6⟩
      · exact ⟨rfl, rfl, rfl, rfl, le_rfl, fun _ _ => rfl⟩
      · exact within_binDataChar c
    · unfold Kermit.sendParm
      split_ifs
      · exact ⟨rfl, rfl, rfl, rfl, le_rfl, fun _ _ => rfl⟩
      · exact Within.refl k
    · exact Within.refl k
  | _ => exact Within.refl k

theorem Within.mode (h : Within k k') (m : KermitMode) : Within k { k' with mode := m } :=
  ⟨h.lastN, h.escapeSaved, h.saved, h.quote, h.addr, h.mem⟩

theorem idle_run : ∀ (cs : List UInt8) (k : Kermit), k.mode = .idle →
    (∀ c ∈ cs, c ≠ START_CHAR ∧ c ≠ ETX_CHAR) → cs.foldl Kermit.step k = k
  | [], _, _, _ => rfl
  | c :: cs, k, h, hcs => by
    obtain ⟨h1, h2⟩ := hcs c List.mem_cons_self
    have hstep : k.step c = k := by
      unfold Kermit.step
      rw [h]
      dsimp only
      rw [if_neg h1, if_neg h2]
    rw [List.foldl_cons, hstep, idle_run cs k h fun c hc => hcs c (List.mem_cons_of_mem _ hc)]

theorem step_go {f f' : Frame} {c : UInt8} (hm : k.mode = .packet f) (h : f.next c = .go f') :
    k.step c = { k.take f.phase c with mode := .packet f' } := by
  unfold Kermit.step
  rw [hm]
  dsimp only
  rw [h]

theorem step_bad {f : Frame} {c : UInt8} (hm : k.mode = .packet f) (h : f.next c = .bad) :
    k.step c = k.packetError := by
  unfold Kermit.step
  rw [hm]
  dsimp only
  rw [h]

theorem step_whole {f : Frame} {c : UInt8} (hm : k.mode = .packet f) (h : f.next c = .whole) :
    k.step c = k.complete := by
  unfold Kermit.step
  rw [hm]
  dsimp only
  rw [h]

/-- A packet that runs into an error behind its sequence byte. -/
theorem rejected_run : ∀ (cs : List UInt8) (f : Frame) (k : Kermit) {rest : List UInt8},
    k.mode = .packet f → f.phase ≠ .length → f.phase ≠ .seq → f.rejects cs = some rest →
    (∀ c ∈ rest, c ≠ START_CHAR ∧ c ≠ ETX_CHAR) →
    ∃ k', Within k k' ∧ cs.foldl Kermit.step k = k'.packetError
  | [], _, _, _, _, _, _, h, _ => by cases h
  | c :: cs, f, k, rest, hm, hl, hs, h, hrest => by
    rw [Frame.rejects] at h
    rw [List.foldl_cons]
    rcases hn : f.next c with f' | _ | _
    · rw [hn] at h
      obtain ⟨hl', hs'⟩ := f.next_phase hl hn
      rw [step_go hm hn]
      obtain ⟨k', hw, hk'⟩ := rejected_run cs f' { k.take f.phase c with mode := .packet f' }
        rfl hl' hs'
        h hrest
      exact ⟨k', ((within_take c hs).mode _).trans hw, hk'⟩
    · rw [hn] at h
      cases h
      rw [step_bad hm hn]
      exact ⟨k, Within.refl k, idle_run cs _ rfl hrest⟩
    · rw [hn] at h
      cases h

end Damage

section Checkpoint

variable {addr : ℕ} {quote : UInt8} {s t : List UInt8} {last : ℤ} {k : Kermit} {n : ℕ}

/-- Between two packets: `s` was in memory when the packet was begun whose number was last seen, and
`t` is there now. -/
structure KermitAt (addr : ℕ) (quote : UInt8) (s t : List UInt8) (last : ℤ) (mode : KermitMode)
    (k : Kermit) : Prop where
  mode : k.mode = mode
  lastN : k.lastN = last
  escape : k.escape = false
  escapeSaved : k.escapeSaved = false
  saved : k.osDataAddrSaved = addr + s.length
  cur : k.osDataAddr = addr + t.length
  stored : k.mem.load addr t.length = t
  earlier : s <+: t
  quote : k.hisQuote = quote

/-- In a packet whose sequence byte was read. -/
structure KermitIn (addr : ℕ) (quote : UInt8) (s : List UInt8) (last : ℤ) (f : Frame) (k : Kermit) :
    Prop where
  mode : k.mode = .packet f
  lastN : k.lastN = last
  escape : k.escape = false
  escapeSaved : k.escapeSaved = false
  saved : k.osDataAddrSaved = addr + s.length
  cur : k.osDataAddr = addr + s.length
  stored : k.mem.load addr s.length = s
  quote : k.hisQuote = quote
  parms : k.sendParms = []

theorem kermitAt_start (addr : ℕ) (mem : Mem) :
    KermitAt addr K_ESCAPE [] [] (-1) .idle (Kermit.start addr mem) :=
  ⟨rfl, rfl, rfl, rfl, rfl, rfl, rfl, List.prefix_rfl, rfl⟩

theorem KermitAt.stored_earlier (h : KermitAt addr quote s t last .idle k) :
    k.mem.load addr s.length = s := by
  rw [← k.mem.take_load addr h.earlier.length_le, h.stored]
  exact (List.prefix_iff_eq_take.1 h.earlier).symm

theorem start_step (hm : k.mode = .idle) :
    k.step START_CHAR = { k with mode := .packet Frame.first, sendParms := [] } := by
  unfold Kermit.step
  rw [hm]
  rfl

/-- An error in front of the sequence byte goes back to the checkpoint of the packet before. -/
theorem KermitAt.early (h : KermitAt addr quote s t last .idle k) {c : UInt8} {rest : List UInt8}
    (hc : isControl c = true) (hrest : ∀ c ∈ rest, c ≠ START_CHAR ∧ c ≠ ETX_CHAR) :
    KermitAt addr quote s s last .idle ((START_CHAR :: c :: rest).foldl Kermit.step k) := by
  have hbad : Frame.first.next c = .bad := by
    unfold Frame.next
    rw [if_neg (by decide), if_pos hc]
  rw [List.foldl_cons, List.foldl_cons, start_step h.mode, step_bad rfl hbad,
    idle_run rest _ rfl hrest]
  exact ⟨rfl, h.lastN, h.escapeSaved, h.escapeSaved, h.saved, h.saved, h.stored_earlier,
    List.prefix_rfl, h.quote⟩

/-- The sequence byte: the checkpoint is made, or gone back to where the number is that last
seen. -/
theorem KermitAt.seen (h : KermitAt addr quote s t last .idle k) {c : UInt8}
    (hc : isControl c = false) (hn : n < 64) :
    KermitIn addr quote (if (n : ℤ) = last then s else t) n
      ⟨.type, c.toNat + (tochar n).toNat, untochar c - 1, 0⟩
      ([START_CHAR, c, tochar n].foldl Kermit.step k) := by
  have hlen : Frame.first.next c = .go ⟨.seq, c.toNat, untochar c, 0⟩ := by
    unfold Frame.next
    rw [if_neg (by decide), hc, if_neg (by decide)]
    simp [Frame.first]
  have hseq : (⟨.seq, c.toNat, untochar c, 0⟩ : Frame).next (tochar n) =
      .go ⟨.type, c.toNat + (tochar n).toNat, untochar c - 1, 0⟩ := by
    unfold Frame.next
    rw [if_neg (by simp), isControl_tochar (by omega), if_neg (by decide)]
  simp only [List.foldl_cons, List.foldl_nil]
  rw [start_step h.mode, step_go rfl hlen, step_go rfl hseq]
  unfold Kermit.take
  simp only [Frame.first, untochar_tochar (show n < 256 by omega), h.lastN]
  split_ifs with hlast
  · exact ⟨rfl, hlast.symm, h.escapeSaved, h.escapeSaved, h.saved, h.saved,
      h.stored_earlier, h.quote, rfl⟩
  · exact ⟨rfl, rfl, h.escape, h.escape, h.cur, h.cur, h.stored, h.quote, rfl⟩

/-- A packet that runs into an error behind its sequence byte leaves the checkpoint. -/
theorem KermitIn.rejected {f : Frame} {cs rest : List UInt8} (h : KermitIn addr quote s last f k)
    (hl : f.phase ≠ .length) (hs : f.phase ≠ .seq) (hr : f.rejects cs = some rest)
    (hrest : ∀ c ∈ rest, c ≠ START_CHAR ∧ c ≠ ETX_CHAR) :
    KermitAt addr quote s s last .idle (cs.foldl Kermit.step k) := by
  obtain ⟨k', hw, hk'⟩ := rejected_run cs f k h.mode hl hs hr hrest
  rw [hk']
  have haddr := hw.addr
  refine ⟨rfl, hw.lastN.trans h.lastN, hw.escapeSaved.trans h.escapeSaved,
    hw.escapeSaved.trans h.escapeSaved, hw.saved.trans h.saved, hw.saved.trans h.saved, ?_,
    List.prefix_rfl, hw.quote.trans h.quote⟩
  have hload : k'.mem.load addr s.length = k.mem.load addr s.length :=
    Mem.load_congr fun i hi => hw.mem _ (by rw [h.cur]; omega)
  exact hload.trans h.stored

end Checkpoint

section Intact

variable {addr : ℕ} {quote : UInt8} {s : List UInt8} {last : ℤ} {k : Kermit} {p : KermitPacket}
  {sum lenHi : ℕ} {length : ℤ}

theorem take_mode (k : Kermit) (m : KermitMode) (c : UInt8) :
    ({ k with mode := m } : Kermit).take .body c = { k.take .body c with mode := m } := by
  unfold Kermit.take Kermit.kDataChar Kermit.binDataChar Kermit.sendParm
  dsimp only
  split_ifs <;> rfl

theorem body_mode (m m' : KermitMode) : ∀ (cs : List UInt8) (k : Kermit),
    ({ cs.foldl (fun k c => k.take .body c) ({ k with mode := m } : Kermit) with mode := m' } :
      Kermit) =
      { cs.foldl (fun k c => k.take .body c) k with mode := m' }
  | [], _ => rfl
  | c :: cs, k => by
    rw [List.foldl_cons, List.foldl_cons, take_mode]
    exact body_mode m m' cs (k.take .body c)

/-- The data of a packet, up to its check. -/
theorem body_run : ∀ (data : List UInt8) (k : Kermit) (sum : ℕ),
    (∀ c ∈ data, isControl c = false) →
    k.mode = .packet ⟨bodyPhase (data.length + 1 : ℕ), sum, (data.length + 1 : ℕ), lenHi⟩ →
    data.foldl Kermit.step k =
      { data.foldl (fun k c => k.take .body c) k with
        mode := .packet ⟨.check, sum + (data.map UInt8.toNat).sum, 1, lenHi⟩ }
  | [], k, sum, _, hm => by
    rw [List.foldl_nil, List.foldl_nil, List.map_nil, List.sum_nil, Nat.add_zero]
    exact congrArg (fun m => ({ k with mode := m } : Kermit)) hm
  | c :: data, k, sum, hdata, hm => by
    have hphase : bodyPhase ((c :: data).length + 1 : ℕ) = .body := by
      unfold bodyPhase
      rw [if_pos (by simp)]
    rw [hphase] at hm
    have hnext : (⟨.body, sum, ((c :: data).length + 1 : ℕ), lenHi⟩ : Frame).next c =
        .go ⟨bodyPhase (data.length + 1 : ℕ), sum + c.toNat, (data.length + 1 : ℕ), lenHi⟩ := by
      unfold Frame.next
      rw [if_neg (by simp), hdata c List.mem_cons_self, if_neg (by decide)]
      simp
    rw [List.foldl_cons, List.foldl_cons, step_go hm hnext,
      body_run data _ (sum + c.toNat) (fun c hc => hdata c (List.mem_cons_of_mem _ hc)) rfl,
      List.map_cons, List.sum_cons, Nat.add_assoc]
    exact body_mode _ _ data (k.take .body c)

/-- The check of a packet and its end. -/
theorem end_run (hm : k.mode = .packet ⟨.check, sum, length, lenHi⟩) :
    [tochar (blockCheck sum), END_CHAR].foldl Kermit.step k =
      ({ k with mode := .packet ⟨.end_, sum, length, lenHi⟩ } : Kermit).complete := by
  have hcheck : (⟨.check, sum, length, lenHi⟩ : Frame).next (tochar (blockCheck sum)) =
      .go ⟨.end_, sum, length, lenHi⟩ := by
    unfold Frame.next
    rw [if_neg (by simp), isControl_check, if_neg (by decide)]
    simp
  have hend : (⟨.end_, sum, length, lenHi⟩ : Frame).next END_CHAR = .whole := by
    unfold Frame.next
    rw [if_pos rfl, if_pos rfl]
  rw [List.foldl_cons, List.foldl_cons, List.foldl_nil, step_go hm hcheck, step_whole rfl hend]
  rfl

/-- What a packet stores. -/
def KermitPacket.bytes (quote : UInt8) (p : KermitPacket) : List UInt8 :=
  if p.type = DATA_TYPE then (kdecode quote p.data).getD [] else []

/-- The quote behind a packet. -/
def KermitPacket.nextQuote (quote : UInt8) (p : KermitPacket) : UInt8 :=
  if p.type = SEND_TYPE then (if 6 ≤ p.data.length then p.data.getD 5 0 else K_ESCAPE) else quote

/-- A packet such as a sender sends. -/
structure KermitPacket.Ok (quote : UInt8) (p : KermitPacket) : Prop where
  type : isControl p.type = false
  plain : ∀ c ∈ p.data, isControl c = false
  fits : p.data.length ≤ if p.long then 94 * 95 + 93 else 91
  decodes : p.type = DATA_TYPE → kdecode quote p.data ≠ none

theorem handleSendPacket_quote (hlen : k.sendParms = p.data.take 19) :
    k.handleSendPacket.hisQuote = if 6 ≤ p.data.length then p.data.getD 5 0 else K_ESCAPE := by
  have hsix : 6 ≤ min k.sendParms.length (SEND_DATA_SIZE - 2) ↔ 6 ≤ p.data.length := by
    rw [hlen, List.length_take]
    unfold SEND_DATA_SIZE
    omega
  have hget : k.sendParms.getD 5 0 = p.data.getD 5 0 := by
    rw [hlen, List.getD_eq_getElem?_getD, List.getElem?_take_of_lt (by omega),
      ← List.getD_eq_getElem?_getD]
  change (if 6 ≤ min k.sendParms.length (SEND_DATA_SIZE - 2) then k.sendParms.getD 5 0
    else K_ESCAPE) = _
  rw [hget]
  simp only [hsix]

theorem complete_other {t : List UInt8} {mode : KermitMode}
    (h : KermitAt addr quote s t last mode k) (hk : k.kState ≠ SEND_TYPE) :
    KermitAt addr quote s t last (if k.kState = BREAK_TYPE then .done else .idle) k.complete := by
  unfold Kermit.complete
  rw [if_neg hk]
  exact ⟨rfl, h.lastN, h.escape, h.escapeSaved, h.saved, h.cur, h.stored, h.earlier, h.quote⟩

theorem complete_send {t : List UInt8} {mode : KermitMode} (hk : k.kState = SEND_TYPE)
    (hlen : k.sendParms = p.data.take 19) (h : KermitAt addr quote s t last mode k) :
    KermitAt addr (if 6 ≤ p.data.length then p.data.getD 5 0 else K_ESCAPE) s t last .idle
      k.complete := by
  unfold Kermit.complete
  rw [if_pos hk]
  exact ⟨rfl, h.lastN, h.escape, h.escapeSaved, h.saved, h.cur, h.stored, h.earlier,
    handleSendPacket_quote hlen⟩

/-- A whole packet, from its data on. -/
theorem KermitIn.whole (h : KermitIn addr quote s last
      ⟨bodyPhase (p.data.length + 1 : ℕ), sum, (p.data.length + 1 : ℕ), lenHi⟩ k)
    (hk : k.kState = p.type) (hp : p.Ok quote) :
    KermitAt addr (p.nextQuote quote) s (s ++ p.bytes quote) last
      (if p.type = BREAK_TYPE then .done else .idle)
      ((p.data ++ [tochar (blockCheck (sum + (p.data.map UInt8.toNat).sum)), END_CHAR]).foldl
        Kermit.step k) := by
  rw [List.foldl_append, body_run p.data k sum hp.plain h.mode, end_run rfl, ← hk]
  by_cases hd : p.type = DATA_TYPE
  · obtain ⟨bytes, hb⟩ := Option.ne_none_iff_exists'.1 (hp.decodes hd)
    have hbytes : p.bytes quote = bytes := by
      unfold KermitPacket.bytes
      rw [if_pos hd, hb]
      rfl
    have hquote : p.nextQuote quote = quote := by
      unfold KermitPacket.nextQuote
      rw [if_neg (by rw [hd]; decide)]
    rw [Kermit.body_data _ _ (hk.trans hd), Kermit.kDataChars _ _ _ hb h.escape h.quote,
      hbytes, hquote]
    have hsend : k.kState ≠ SEND_TYPE := by
      rw [hk, hd]
      decide
    have hat (m : KermitMode) : KermitAt addr quote s (s ++ bytes) last m
        { k with
          mode := m
          mem := k.mem.store k.osDataAddr bytes
          osDataAddr := k.osDataAddr + bytes.length } := by
      refine ⟨rfl, h.lastN, h.escape, h.escapeSaved, h.saved, ?_, ?_, List.prefix_append _ _,
        h.quote⟩
      · change k.osDataAddr + bytes.length = _
        rw [h.cur, List.length_append, Nat.add_assoc]
      · change (k.mem.store k.osDataAddr bytes).load addr (s ++ bytes).length = _
        rw [List.length_append, Mem.load_add, h.cur, Mem.load_store_same,
          Mem.load_store_after _ _ le_rfl, h.stored]
    exact complete_other (hat _) hsend
  · have hbytes : p.bytes quote = [] := if_neg hd
    have hat (m : KermitMode) (parms : List UInt8) : KermitAt addr quote s s last m
        { k with mode := m, sendParms := parms } :=
      ⟨rfl, h.lastN, h.escape, h.escapeSaved, h.saved, h.cur, h.stored, List.prefix_rfl, h.quote⟩
    rw [hbytes, List.append_nil]
    by_cases hs : p.type = SEND_TYPE
    · have hquote : p.nextQuote quote = if 6 ≤ p.data.length then p.data.getD 5 0 else K_ESCAPE :=
        if_pos hs
      rw [Kermit.body_send _ _ (hk.trans hs) (by rw [h.parms]; simp),
        if_neg (by rw [hk, hs]; decide),
        h.parms, List.nil_append, hquote]
      exact complete_send (hk.trans hs) rfl (hat _ _)
    · have hquote : p.nextQuote quote = quote := if_neg hs
      rw [Kermit.body_other _ _ (by rwa [hk]) (by rwa [hk]), hquote]
      have hsend : k.kState ≠ SEND_TYPE := by rwa [hk]
      exact complete_other (hat _ k.sendParms) hsend

theorem KermitIn.type {f f' : Frame} {c : UInt8} (h : KermitIn addr quote s last f k)
    (hf : f.phase = .type) (hn : f.next c = .go f') :
    KermitIn addr quote s last f' (k.step c) ∧ (k.step c).kState = c := by
  rw [step_go h.mode hn, hf]
  exact ⟨⟨rfl, h.lastN, h.escape, h.escapeSaved, h.saved, h.cur, h.stored, h.quote, h.parms⟩, rfl⟩

theorem KermitIn.extended {f f' : Frame} {c : UInt8} (h : KermitIn addr quote s last f k)
    (hf : f.phase = .lenHi ∨ f.phase = .lenLo ∨ f.phase = .header) (hn : f.next c = .go f') :
    KermitIn addr quote s last f' (k.step c) ∧ (k.step c).kState = k.kState := by
  have htake : k.take f.phase c = k := by
    rcases hf with hf | hf | hf <;> rw [hf] <;> rfl
  rw [step_go h.mode hn, htake]
  exact ⟨⟨rfl, h.lastN, h.escape, h.escapeSaved, h.saved, h.cur, h.stored, h.quote, h.parms⟩, rfl⟩

/-- The first character of a packet, the length. -/
def KermitPacket.lengthChar (p : KermitPacket) : UInt8 :=
  tochar (if p.long then 0 else p.data.length + 3)

/-- The characters of a packet behind its sequence byte. -/
def KermitPacket.rest (p : KermitPacket) (n : ℕ) : List UInt8 :=
  (p.head n).drop 2 ++ (p.data ++ [kcheck (p.head n ++ p.data), END_CHAR])

theorem wire_eq (p : KermitPacket) (n : ℕ) :
    p.wire n = [START_CHAR, p.lengthChar, tochar (n % 64)] ++ p.rest n := by
  unfold KermitPacket.wire KermitPacket.rest KermitPacket.lengthChar KermitPacket.head
  rw [List.append_assoc]
  split_ifs <;> rfl

theorem isControl_lengthChar (hp : p.Ok quote) : isControl p.lengthChar = false := by
  have hfits := hp.fits
  unfold KermitPacket.lengthChar
  split_ifs at hfits ⊢
  · exact isControl_tochar (by omega)
  · exact isControl_tochar (by omega)

theorem kcheck_append (cs ds : List UInt8) :
    kcheck (cs ++ ds) = tochar
      (blockCheck ((cs.map UInt8.toNat).sum + (ds.map UInt8.toNat).sum)) := by
  unfold kcheck
  rw [List.map_append, List.sum_append]

theorem bodyPhase_length (n : ℕ) :
    (if ((n + 3 : ℕ) : ℤ) - 1 - 1 = -2 then Phase.lenHi else bodyPhase (((n + 3 : ℕ) : ℤ) - 1 - 1))
      =
      bodyPhase (n + 1 : ℕ) := by
  rw [if_neg (by omega), show ((n + 3 : ℕ) : ℤ) - 1 - 1 = (n + 1 : ℕ) by omega]

/-- A whole packet, from its type on. -/
theorem KermitIn.packet {n : ℕ} (hp : p.Ok quote)
    (h : KermitIn addr quote s last ⟨.type, p.lengthChar.toNat + (tochar (n % 64)).toNat,
      untochar p.lengthChar - 1, 0⟩ k) :
    KermitAt addr (p.nextQuote quote) s (s ++ p.bytes quote) last
      (if p.type = BREAK_TYPE then .done else .idle) ((p.rest n).foldl Kermit.step k) := by
  have hfits := hp.fits
  generalize hsum : p.lengthChar.toNat + (tochar (n % 64)).toNat = sum at h
  unfold KermitPacket.rest
  rw [kcheck_append, List.foldl_append]
  rcases hlong : p.long with _ | _
  · have hchar : p.lengthChar = tochar (p.data.length + 3) := by
      unfold KermitPacket.lengthChar
      rw [hlong]
      rfl
    have hhead : p.head n = [p.lengthChar, tochar (n % 64), p.type] := by
      unfold KermitPacket.head
      rw [hlong, hchar]
      rfl
    rw [hlong, if_neg (by decide)] at hfits
    have hnext : (⟨.type, sum, untochar p.lengthChar - 1, 0⟩ : Frame).next p.type =
        .go ⟨bodyPhase (p.data.length + 1 : ℕ), sum + p.type.toNat, (p.data.length + 1 : ℕ),
          0⟩ := by
      unfold Frame.next
      rw [if_neg (by simp), hp.type, if_neg (by decide), hchar, untochar_tochar (by omega)]
      dsimp only
      rw [bodyPhase_length, show ((p.data.length + 3 : ℕ) : ℤ) - 1 - 1 = (p.data.length + 1 :
        ℕ) by omega]
    obtain ⟨hin, hk⟩ := h.type rfl hnext
    have hwhole := hin.whole hk hp
    rw [hhead]
    simpa only [List.drop_succ_cons, List.drop_zero, List.foldl_cons, List.foldl_nil, List.map_cons,
      List.map_nil, List.sum_cons, List.sum_nil, Nat.add_zero, ← Nat.add_assoc, hsum] using hwhole
  · rw [hlong, if_pos rfl] at hfits
    have hchar : p.lengthChar = tochar 0 := by
      unfold KermitPacket.lengthChar
      rw [hlong]
      rfl
    obtain ⟨hi, hhi⟩ : ∃ hi, hi = (p.data.length + 1) / 95 := ⟨_, rfl⟩
    obtain ⟨lo, hlo⟩ : ∃ lo, lo = (p.data.length + 1) % 95 := ⟨_, rfl⟩
    have hhead : p.head n = [p.lengthChar, tochar (n % 64), p.type, tochar hi, tochar lo,
        tochar (blockCheck (sum + p.type.toNat + (tochar hi).toNat + (tochar lo).toNat))] := by
      unfold KermitPacket.head kcheck
      rw [hlong, ← hchar, ← hhi, ← hlo, ← hsum]
      simp only [if_true, List.cons_append, List.nil_append, List.map_cons, List.map_nil,
        List.sum_cons, List.sum_nil, Nat.add_zero, Nat.add_assoc]
    have hnext1 : (⟨.type, sum, untochar p.lengthChar - 1, 0⟩ : Frame).next p.type =
        .go ⟨.lenHi, sum + p.type.toNat, -2, 0⟩ := by
      unfold Frame.next
      rw [if_neg (by simp), hp.type, if_neg (by decide), hchar, untochar_tochar (by norm_num)]
      simp
    have hnext2 : (⟨.lenHi, sum + p.type.toNat, -2, 0⟩ : Frame).next (tochar hi) =
        .go ⟨.lenLo, sum + p.type.toNat + (tochar hi).toNat, -2, hi⟩ := by
      unfold Frame.next
      rw [if_neg (by simp), isControl_tochar (by omega), if_neg (by decide)]
      dsimp only
      rw [untochar_tochar (by omega)]
    have hnext3 : (⟨.lenLo, sum + p.type.toNat + (tochar hi).toNat, -2, hi⟩ : Frame).next
      (tochar lo) =
        .go ⟨.header, sum + p.type.toNat + (tochar hi).toNat + (tochar lo).toNat,
          (p.data.length + 1 : ℕ), hi⟩ := by
      unfold Frame.next
      rw [if_neg (by simp), isControl_tochar (by omega), if_neg (by decide)]
      dsimp only
      rw [untochar_tochar (by omega),
        show (hi : ℤ) * 95 + lo = (p.data.length + 1 : ℕ) by omega]
    have hnext4 : (⟨.header, sum + p.type.toNat + (tochar hi).toNat + (tochar lo).toNat,
        (p.data.length + 1 : ℕ), hi⟩ : Frame).next
          (tochar (blockCheck (sum + p.type.toNat + (tochar hi).toNat + (tochar lo).toNat))) =
        .go ⟨bodyPhase (p.data.length + 1 : ℕ),
          sum + p.type.toNat + (tochar hi).toNat + (tochar lo).toNat +
            (tochar (blockCheck (sum + p.type.toNat + (tochar hi).toNat +
              (tochar lo).toNat))).toNat,
          (p.data.length + 1 : ℕ), hi⟩ := by
      unfold Frame.next
      rw [if_neg (by simp), isControl_check, if_neg (by decide)]
      simp
    obtain ⟨hin1, hk1⟩ := h.type rfl hnext1
    obtain ⟨hin2, hk2⟩ := hin1.extended (Or.inl rfl) hnext2
    obtain ⟨hin3, hk3⟩ := hin2.extended (Or.inr (Or.inl rfl)) hnext3
    obtain ⟨hin4, hk4⟩ := hin3.extended (Or.inr (Or.inr rfl)) hnext4
    have hwhole := hin4.whole (hk4.trans (hk3.trans (hk2.trans hk1))) hp
    rw [hhead]
    simpa only [List.drop_succ_cons, List.drop_zero, List.foldl_cons, List.foldl_nil, List.map_cons,
      List.map_nil, List.sum_cons, List.sum_nil, Nat.add_zero, ← Nat.add_assoc, hsum] using hwhole

end Intact

section Copies

variable {addr : ℕ} {quote : UInt8} {s t : List UInt8} {last : ℤ} {k : Kermit} {p : KermitPacket}
  {n : ℕ}

theorem done_run : ∀ (cs : List UInt8) (k : Kermit), k.mode = .done → cs.foldl Kermit.step k = k
  | [], _, _ => rfl
  | c :: cs, k, h => by
    have hstep : k.step c = k := by
      unfold Kermit.step
      rw [h]
    rw [List.foldl_cons, hstep, done_run cs k h]

/-- Where `k_recv` is once it has a packet. -/
def KermitPacket.mode (p : KermitPacket) : KermitMode := if p.type = BREAK_TYPE then .done
    else .idle

theorem KermitPacket.nextQuote_again : p.nextQuote (p.nextQuote quote) = p.nextQuote quote := by
  unfold nextQuote
  split_ifs <;> rfl

theorem KermitPacket.nextQuote_data (h : p.type = DATA_TYPE) : p.nextQuote quote = quote := by
  unfold nextQuote
  rw [if_neg (by rw [h]; decide)]

theorem KermitPacket.bytes_again : p.bytes (p.nextQuote quote) = p.bytes quote := by
  unfold bytes
  split_ifs with h
  · rw [nextQuote_data h]
  · rfl

theorem KermitPacket.Ok.again (h : p.Ok quote) : p.Ok (p.nextQuote quote) where
  type := h.type
  plain := h.plain
  fits := h.fits
  decodes := fun hd => by
    rw [nextQuote_data hd]
    exact h.decodes hd

/-- An intact copy. -/
theorem KermitAt.intact (h : KermitAt addr quote s t last .idle k) (hp : p.Ok quote) :
    KermitAt addr (p.nextQuote quote) (if ((n % 64 : ℕ) : ℤ) = last then s else t)
      ((if ((n % 64 : ℕ) : ℤ) = last then s else t) ++ p.bytes quote) (n % 64 : ℕ) p.mode
      ((p.wire n).foldl Kermit.step k) := by
  rw [wire_eq, List.foldl_append]
  exact (h.seen (isControl_lengthChar hp) (by omega)).packet hp

theorem Damaged.split {copy : List UInt8} (h : Damaged (p.wire n) copy) :
    ∃ a cs, copy = START_CHAR :: a :: tochar (n % 64) :: cs := by
  have hseq := h.seq
  rw [wire_eq] at hseq
  obtain ⟨hstart, -, -⟩ := h
  rcases copy with _ | ⟨c, _ | ⟨a, _ | ⟨b, cs⟩⟩⟩
  · cases hstart
  · cases hseq
  · cases hseq
  · exact ⟨a, cs, by simp_all⟩

theorem rejects_control {f : Frame} {c : UInt8} {cs : List UInt8} (hf : f.phase ≠ .end_)
    (hc : isControl c = true) : f.rejects (c :: cs) = some cs := by
  have hbad : f.next c = .bad := by
    unfold Frame.next
    rw [if_neg hf, if_pos hc]
  rw [Frame.rejects, hbad]

/-- A copy that is damaged in front of its sequence byte. -/
theorem KermitAt.damaged_early {copy : List UInt8} (h : KermitAt addr quote s t last .idle k)
    (hd : Damaged (p.wire n) copy) (he : (KermitCopy.damaged copy).Early) :
    KermitAt addr quote s s last .idle (copy.foldl Kermit.step k) := by
  obtain ⟨a, cs, rfl⟩ := hd.split
  obtain ⟨rest, hr, hrest⟩ := hd.rejected
  have hc : isControl a = true := he
  rw [List.tail_cons, rejects_control (by simp [Frame.first]) hc] at hr
  cases hr
  exact h.early hc hrest

/-- A copy that is damaged behind its sequence byte. -/
theorem KermitAt.damaged_late {copy : List UInt8} (h : KermitAt addr quote s t last .idle k)
    (hd : Damaged (p.wire n) copy) (he : ¬(KermitCopy.damaged copy).Early) :
    KermitAt addr quote (if ((n % 64 : ℕ) : ℤ) = last then s else t)
      (if ((n % 64 : ℕ) : ℤ) = last then s else t) (n % 64 : ℕ) .idle
        (copy.foldl Kermit.step k) := by
  obtain ⟨a, cs, rfl⟩ := hd.split
  obtain ⟨rest, hr, hrest⟩ := hd.rejected
  have hc : isControl a = false := by
    rcases ha : isControl a with _ | _
    · rfl
    · exact absurd ha he
  have hlen : Frame.first.next a = .go ⟨.seq, a.toNat, untochar a, 0⟩ := by
    unfold Frame.next
    rw [if_neg (by decide), hc, if_neg (by decide)]
    simp [Frame.first]
  have hseq : (⟨.seq, a.toNat, untochar a, 0⟩ : Frame).next (tochar (n % 64)) =
      .go ⟨.type, a.toNat + (tochar (n % 64)).toNat, untochar a - 1, 0⟩ := by
    unfold Frame.next
    rw [if_neg (by simp), isControl_tochar (by omega), if_neg (by decide)]
  rw [List.tail_cons, Frame.rejects, hlen] at hr
  dsimp only at hr
  rw [Frame.rejects, hseq] at hr
  have hin := h.seen (n := n % 64) hc (by omega)
  exact hin.rejected (by simp) (by simp) hr hrest

variable {copies : List KermitCopy}

/-- The copies of a packet whose number was seen, up to the one that is answered. -/
theorem KermitAt.seen_run : ∀ (copies : List KermitCopy) {quote' : UInt8} {t : List UInt8}
    {k : Kermit},
    (∀ copy, .damaged copy ∈ copies → Damaged (p.wire n) copy) → p.Ok quote →
    quote' = quote ∨ quote' = p.nextQuote quote →
    KermitAt addr quote' s t (n % 64 : ℕ) .idle k →
    KermitAt addr (p.nextQuote quote) s (s ++ p.bytes quote) (n % 64 : ℕ) p.mode
      ((copies.flatMap (KermitCopy.line (p.wire n)) ++ p.wire n).foldl Kermit.step k)
  | copies, quote', t, k, hd, hp, hq, h => by
    have hintact : KermitAt addr (p.nextQuote quote) s (s ++ p.bytes quote) (n % 64 : ℕ) p.mode
        ((p.wire n).foldl Kermit.step k) := by
      rcases hq with rfl | rfl
      · have hin := h.intact (n := n) hp
        rwa [if_pos rfl] at hin
      · have hin := h.intact (n := n) hp.again
        rwa [if_pos rfl, KermitPacket.nextQuote_again, KermitPacket.bytes_again] at hin
    rcases copies with _ | ⟨copy | copy, copies⟩
    · exact hintact
    · have hrest (copy : List UInt8) (hmem : .damaged copy ∈ copies) : Damaged (p.wire n) copy :=
        hd copy (List.mem_cons_of_mem _ hmem)
      rw [List.flatMap_cons, List.append_assoc, List.foldl_append]
      change KermitAt _ _ _ _ _ _ (List.foldl _ ((p.wire n).foldl Kermit.step k) _)
      by_cases hb : p.type = BREAK_TYPE
      · rw [done_run _ _ (hintact.mode.trans (if_pos hb))]
        exact hintact
      · have hidle : p.mode = .idle := if_neg hb
        rw [hidle] at hintact ⊢
        have hrun := KermitAt.seen_run copies hrest hp (Or.inr rfl) hintact
        rwa [hidle] at hrun
    · have hrest (copy : List UInt8) (hmem : .damaged copy ∈ copies) : Damaged (p.wire n) copy :=
        hd copy (List.mem_cons_of_mem _ hmem)
      rw [List.flatMap_cons, List.append_assoc, List.foldl_append]
      refine KermitAt.seen_run copies hrest hp hq (t := s) ?_
      by_cases he : (KermitCopy.damaged copy).Early
      · exact h.damaged_early (hd copy List.mem_cons_self) he
      · have hlate := h.damaged_late (hd copy List.mem_cons_self) he
        rw [if_pos rfl] at hlate
        exact hlate

/-- The first copy of a packet is damaged in front of its sequence byte. -/
def HeadEarly (copies : List KermitCopy) : Prop := ∃ copy ∈ copies.head?, copy.Early

instance : DecidablePred HeadEarly
  | [] => isFalse (by simp [HeadEarly])
  | copy :: _ => decidable_of_iff copy.Early (by simp [HeadEarly])

/-- The copies of the next packet, up to the one that is answered. -/
theorem KermitAt.unseen_run : ∀ (copies : List KermitCopy) {t : List UInt8} {k : Kermit},
    (∀ copy, .damaged copy ∈ copies → Damaged (p.wire n) copy) → p.Ok quote →
    ((n % 64 : ℕ) : ℤ) ≠ last → KermitAt addr quote s t last .idle k →
    KermitAt addr (p.nextQuote quote) (if HeadEarly copies then s else t)
      ((if HeadEarly copies then s else t) ++ p.bytes quote) (n % 64 : ℕ) p.mode
      ((copies.flatMap (KermitCopy.line (p.wire n)) ++ p.wire n).foldl Kermit.step k)
  | [], t, k, hd, hp, hl, h => by
    have hintact := h.intact (n := n) hp
    rw [if_neg hl] at hintact
    rw [if_neg (by simp [HeadEarly])]
    exact hintact
  | .intact :: copies, t, k, hd, hp, hl, h => by
    have hintact := h.intact (n := n) hp
    rw [if_neg hl] at hintact
    have hrest (copy : List UInt8) (hmem : .damaged copy ∈ copies) : Damaged (p.wire n) copy :=
      hd copy (List.mem_cons_of_mem _ hmem)
    rw [if_neg (by simp [HeadEarly, KermitCopy.Early]), List.flatMap_cons, List.append_assoc,
      List.foldl_append]
    change KermitAt _ _ _ _ _ _ (List.foldl _ ((p.wire n).foldl Kermit.step k) _)
    by_cases hb : p.type = BREAK_TYPE
    · rw [done_run _ _ (hintact.mode.trans (if_pos hb))]
      exact hintact
    · have hidle : p.mode = .idle := if_neg hb
      rw [hidle] at hintact ⊢
      have hrun := KermitAt.seen_run copies hrest hp (Or.inr rfl) hintact
      rwa [hidle] at hrun
  | .damaged copy :: copies, t, k, hd, hp, hl, h => by
    have hrest (copy : List UInt8) (hmem : .damaged copy ∈ copies) : Damaged (p.wire n) copy :=
      hd copy (List.mem_cons_of_mem _ hmem)
    have hhead : HeadEarly (.damaged copy :: copies) ↔ (KermitCopy.damaged copy).Early := by
      simp [HeadEarly]
    rw [List.flatMap_cons, List.append_assoc, List.foldl_append]
    by_cases he : (KermitCopy.damaged copy).Early
    · have hearly := h.damaged_early (hd copy List.mem_cons_self) he
      have hrun := KermitAt.unseen_run copies hrest hp hl hearly
      rw [ite_self] at hrun
      rw [if_pos (hhead.2 he)]
      exact hrun
    · have hlate := h.damaged_late (hd copy List.mem_cons_self) he
      rw [if_neg hl] at hlate
      rw [if_neg (mt hhead.1 he)]
      exact KermitAt.seen_run copies hrest hp (Or.inl rfl) hlate

end Copies

section Kept

variable (early : ℕ → Prop) [DecidablePred early]

/-- What is in memory at the checkpoint and now, once packets from number `n` on have stored these
bytes: where the first copy of a packet is damaged early, those of the packet before are lost. -/
def kept : ℕ → List UInt8 × List UInt8 → List (List UInt8) → List UInt8 × List UInt8
  | _, st, [] => st
  | n, st, b :: bs =>
    let s := if early n then st.1 else st.2
    kept (n + 1) (s, s ++ b) bs

/-- No packet behind one that stored something is damaged early. -/
def KeepsAll : ℕ → List UInt8 → List (List UInt8) → Prop
  | _, _, [] => True
  | n, b, b' :: bs => (early n → b = []) ∧ KeepsAll (n + 1) b' bs

variable {early}

theorem kept_length : ∀ (bs : List (List UInt8)) (n : ℕ) (s b : List UInt8),
    (kept early n (s, s ++ b) bs).2.length ≤ (s ++ b).length + bs.flatten.length
  | [], _, _, _ => by simp [kept]
  | b' :: bs, n, s, b => by
    have ih := kept_length bs (n + 1)
    rw [kept]
    dsimp only
    split_ifs with h
    · have hs := ih s b'
      simp only [List.length_append, List.flatten_cons] at hs ⊢
      omega
    · have hs := ih (s ++ b) b'
      simp only [List.length_append, List.flatten_cons] at hs ⊢
      omega

theorem kept_all : ∀ (bs : List (List UInt8)) (n : ℕ) (s b : List UInt8), KeepsAll early n b bs →
    (kept early n (s, s ++ b) bs).2 = s ++ b ++ bs.flatten
  | [], _, _, _, _ => by simp [kept]
  | b' :: bs, n, s, b, h => by
    obtain ⟨h1, h2⟩ := h
    have hs : (if early n then s else s ++ b) = s ++ b := by
      split_ifs with he
      · rw [h1 he, List.append_nil]
      · rfl
    rw [kept]
    dsimp only
    rw [hs, kept_all bs (n + 1) (s ++ b) b' h2, List.flatten_cons, List.append_assoc]

theorem kept_lost : ∀ (bs : List (List UInt8)) (n : ℕ) (s b : List UInt8), ¬KeepsAll early n b bs →
    (kept early n (s, s ++ b) bs).2.length < (s ++ b).length + bs.flatten.length
  | [], _, _, _, h => absurd trivial h
  | b' :: bs, n, s, b, h => by
    rw [kept]
    dsimp only
    by_cases hlost : early n ∧ b ≠ []
    · obtain ⟨he, hb⟩ := hlost
      have hle := @kept_length early _ bs (n + 1) s b'
      have hpos := List.length_pos_iff.2 hb
      rw [if_pos he]
      simp only [List.length_append, List.flatten_cons] at hle ⊢
      omega
    · have hrest : ¬KeepsAll early (n + 1) b' bs := fun hk =>
        h ⟨fun he => not_not.1 fun hb => hlost ⟨he, hb⟩, hk⟩
      have hs : (if early n then s else s ++ b) = s ++ b := by
        split_ifs with he
        · rw [not_not.1 fun hb => hlost ⟨he, hb⟩, List.append_nil]
        · rfl
      have ih := kept_lost bs (n + 1) (s ++ b) b' hrest
      rw [hs]
      simp only [List.length_append, List.flatten_cons] at ih ⊢
      omega

theorem kept_eq_iff (bs : List (List UInt8)) (n : ℕ) (s b : List UInt8) :
    (kept early n (s, s ++ b) bs).2 = s ++ b ++ bs.flatten ↔ KeepsAll early n b bs := by
  constructor
  · intro h
    by_contra hk
    have hlt := kept_lost bs n s b hk
    rw [h, List.length_append] at hlt
    exact lt_irrefl _ hlt
  · exact kept_all bs n s b

end Kept

section Session

variable {addr : ℕ} {quote : UInt8} {copies : ℕ → List KermitCopy}

theorem KermitPacket.nextQuote_other {p : KermitPacket} (h : p.type ≠ SEND_TYPE) :
    p.nextQuote quote = quote := if_neg h

theorem seq_ne (n : ℕ) : (((n + 1) % 64 : ℕ) : ℤ) ≠ (n % 64 : ℕ) := by omega

/-- The packets from number `n` on, the last of which ends the transmission. -/
theorem packets_run : ∀ (ps : List KermitPacket) (n : ℕ) (st : List UInt8 × List UInt8) {last : ℤ}
    {k : Kermit}, ps ≠ [] → (∀ p ∈ ps, p.Ok quote) → (∀ p ∈ ps, p.type ≠ SEND_TYPE) →
    (∀ p ∈ ps.dropLast, p.type ≠ BREAK_TYPE) → (∀ p ∈ ps.getLast?, p.type = BREAK_TYPE) →
    (∀ i p, ps[i]? = some p → ∀ copy, .damaged copy ∈ copies (n + i) →
      Damaged (p.wire (n + i)) copy) →
    ((n % 64 : ℕ) : ℤ) ≠ last → KermitAt addr quote st.1 st.2 last .idle k →
    ∃ last', KermitAt addr quote (kept (fun n => HeadEarly (copies n)) n st
      (ps.map (·.bytes quote))).1
      (kept (fun n => HeadEarly (copies n)) n st (ps.map (·.bytes quote))).2 last' .done
      ((lineFrom copies n ps).foldl Kermit.step k)
  | [], _, _, _, _, hne, _, _, _, _, _, _, _ => absurd rfl hne
  | [p], n, st, last, k, _, hok, hsend, _, hb, hd, hl, h => by
    have hrun := KermitAt.unseen_run (copies n) (hd 0 p rfl) (hok p List.mem_cons_self) hl h
    have hmode : p.mode = .done := if_pos (hb p rfl)
    rw [hmode, KermitPacket.nextQuote_other (hsend p List.mem_cons_self)] at hrun
    refine ⟨(n % 64 : ℕ), ?_⟩
    rw [lineFrom, lineFrom, List.append_nil]
    exact hrun
  | p :: p' :: ps, n, st, last, k, _, hok, hsend, hnb, hb, hd, hl, h => by
    have hrun := KermitAt.unseen_run (copies n) (hd 0 p rfl) (hok p List.mem_cons_self) hl h
    have hmode : p.mode = .idle := if_neg (hnb p List.mem_cons_self)
    rw [hmode, KermitPacket.nextQuote_other (hsend p List.mem_cons_self)] at hrun
    rw [lineFrom, List.foldl_append]
    exact packets_run (p' :: ps) (n + 1) _ (List.cons_ne_nil _ _)
      (fun q hq => hok q (List.mem_cons_of_mem _ hq)) (fun q hq =>
        hsend q (List.mem_cons_of_mem _ hq))
      (fun q hq => hnb q (List.mem_cons_of_mem _ hq)) (fun q hq => hb q (by simpa using hq))
      (fun i q hq => by
        rw [show n + 1 + i = n + (i + 1) by omega]
        exact hd (i + 1) q hq) (seq_ne n) hrun

theorem kdecode_ne_nil : ∀ (data : List UInt8), data ≠ [] → kdecode quote data ≠ some []
  | [], h, _ => h rfl
  | [c], _, h => by
    rw [kdecode] at h
    split_ifs at h
    simp at h
  | c :: e :: cs, _, h => by
    rw [kdecode] at h
    split_ifs at h <;> simp at h

theorem keepsAll_chunks {early : ℕ → Prop} (f : List UInt8 → List UInt8) :
    ∀ (chunks : List (List UInt8)) (n : ℕ) (b : List UInt8),
    KeepsAll early n b (chunks.map f ++ [[], []]) ↔
      (early n → b = []) ∧ ∀ i c, chunks[i]? = some c → early (n + 1 + i) → f c = []
  | [], n, b => by simp [KeepsAll]
  | c :: chunks, n, b => by
    have ih := @keepsAll_chunks early f chunks (n + 1) (f c)
    rw [List.map_cons, List.cons_append, KeepsAll, ih]
    refine and_congr_right fun _ => ⟨fun ⟨h0, hs⟩ i c' hc => ?_, fun h =>
      ⟨h 0 c rfl, fun i c' hc => ?_⟩⟩
    · rcases i with _ | i
      · cases hc
        exact h0
      · rw [show n + 1 + (i + 1) = n + 1 + 1 + i by omega]
        exact hs i c' hc
    · rw [show n + 1 + 1 + i = n + 1 + (i + 1) by omega]
      exact h (i + 1) c' hc

variable (s : KermitSession)

/-- The packets behind the first, but the last. -/
def KermitTransfer.middle (s : KermitTransfer) : List KermitPacket :=
  ((0x46, s.name) :: (s.chunks.map fun c => (DATA_TYPE, c)) ++ [((0x5a : UInt8), s.eof)]).mapIdx
    fun i p => ⟨p.1, p.2, s.long (i + 1)⟩

theorem packets_eq (s : KermitTransfer) :
    s.packets = ⟨SEND_TYPE, s.params, s.long 0⟩ :: (s.middle ++
      [⟨BREAK_TYPE, s.brk, s.long (s.chunks.length + 3)⟩]) := by
  have hlist : [(SEND_TYPE, s.params), (0x46, s.name)] ++ s.chunks.map (fun c => (DATA_TYPE, c)) ++
      [(0x5a, s.eof), (BREAK_TYPE, s.brk)] =
      (SEND_TYPE, s.params) :: (((0x46, s.name) :: (s.chunks.map fun c => (DATA_TYPE, c)) ++
        [((0x5a : UInt8), s.eof)]) ++ [(BREAK_TYPE, s.brk)]) := by
    simp
  unfold KermitTransfer.packets KermitTransfer.middle
  rw [hlist, List.mapIdx_cons, List.mapIdx_append]
  simp

theorem mem_middle {s : KermitTransfer} {p : KermitPacket} (h : p ∈ s.middle) :
    p.type = 0x46 ∨ p.type = 0x5a ∨ p.type = DATA_TYPE ∧ p.data ∈ s.chunks := by
  obtain ⟨i, hi, rfl⟩ := List.mem_mapIdx.1 h
  have hmem := List.getElem_mem hi
  rcases List.mem_append.1 hmem with hmem | hmem
  · rcases List.mem_cons.1 hmem with heq | hmem
    · exact Or.inl (congrArg Prod.fst heq)
    · obtain ⟨c, hc, heq⟩ := List.mem_map.1 hmem
      exact Or.inr (Or.inr ⟨(congrArg Prod.fst heq).symm, (congrArg Prod.snd heq) ▸ hc⟩)
  · exact Or.inr (Or.inl (congrArg Prod.fst (List.mem_singleton.1 hmem)))

theorem KermitSession.ok {p : KermitPacket} (h : p ∈ s.packets) : p.Ok s.quote := by
  have hp := h
  rw [packets_eq, List.mem_cons, List.mem_append, List.mem_singleton] at h
  refine ⟨?_, s.plain p hp, s.fits p hp, ?_⟩
  · rcases h with rfl | h | rfl
    · exact (by decide : isControl SEND_TYPE = false)
    · rcases mem_middle h with h | h | ⟨h, -⟩ <;> rw [h] <;> decide
    · exact (by decide : isControl BREAK_TYPE = false)
  · intro hd
    rcases h with rfl | h | rfl
    · exact absurd hd (by decide : SEND_TYPE ≠ DATA_TYPE)
    · rcases mem_middle h with h | h | ⟨-, h⟩
      · exact absurd (h.symm.trans hd) (by decide)
      · exact absurd (h.symm.trans hd) (by decide)
      · exact s.decodes p.data h
    · exact absurd hd (by decide : BREAK_TYPE ≠ DATA_TYPE)

theorem middle_bytes (s : KermitTransfer) :
    (s.middle ++ [(⟨BREAK_TYPE, s.brk, s.long (s.chunks.length + 3)⟩ : KermitPacket)]).map
        (KermitPacket.bytes s.quote) =
      [] :: ((s.chunks.map fun c => (kdecode s.quote c).getD []) ++ [[], []]) := by
  have hmap (l : List (UInt8 × List UInt8)) (long : ℕ → Bool) :
      (l.mapIdx fun i p => (⟨p.1, p.2, long i⟩ : KermitPacket)).map (KermitPacket.bytes s.quote) =
        l.map fun p => if p.1 = DATA_TYPE then (kdecode s.quote p.2).getD [] else [] := by
    refine List.ext_getElem (by simp) fun i h1 h2 => ?_
    simp [KermitPacket.bytes]
  unfold KermitTransfer.middle
  rw [List.map_append, hmap]
  simp [KermitPacket.bytes, Function.comp_def, show ¬(0x46 : UInt8) = DATA_TYPE by decide,
    show ¬(0x5a : UInt8) = DATA_TYPE by decide, show ¬BREAK_TYPE = DATA_TYPE by decide]

variable (sched : KermitSchedule s)

/-- What `k_recv` has at the end of a session. -/
theorem session_run (addr : ℕ) (mem : Mem) : ∃ last, KermitAt addr s.quote
    (kept (fun n => HeadEarly (sched.copies n)) 1 ([], [])
      ([] :: ((s.chunks.map fun c => (kdecode s.quote c).getD []) ++ [[], []]))).1
    (kept (fun n => HeadEarly (sched.copies n)) 1 ([], [])
      ([] :: ((s.chunks.map fun c => (kdecode s.quote c).getD []) ++ [[], []]))).2
    last .done (kRecv addr mem (s.line sched)) := by
  have hpk := packets_eq s.toKermitTransfer
  have hfirst : (⟨SEND_TYPE, s.params, s.long 0⟩ : KermitPacket) ∈ s.packets := by
    rw [hpk]
    exact List.mem_cons_self
  have hd (n : ℕ) (p : KermitPacket) (h : s.packets[n]? = some p) := sched.damaged n p h
  have hok : (⟨SEND_TYPE, s.params, s.long 0⟩ : KermitPacket).Ok K_ESCAPE := by
    have h := s.ok hfirst
    exact ⟨h.type, h.plain, h.fits, fun hd => absurd hd (by decide : SEND_TYPE ≠ DATA_TYPE)⟩
  have hrun := KermitAt.unseen_run (n := 0) (sched.copies 0) (hd 0 _ (by rw [hpk]; rfl)) hok
    (by decide) (kermitAt_start addr mem)
  rw [ite_self] at hrun
  have hsend : ∀ p ∈ s.middle ++ [(⟨BREAK_TYPE, s.brk, s.long (s.chunks.length + 3)⟩ :
    KermitPacket)],
      p.type ≠ SEND_TYPE := by
    intro p hp
    rcases List.mem_append.1 hp with hp | hp
    · rcases mem_middle hp with h | h | ⟨h, -⟩ <;> rw [h] <;> decide
    · rw [List.mem_singleton.1 hp]
      exact (by decide : BREAK_TYPE ≠ SEND_TYPE)
  have hbreak : ∀ p ∈ (s.middle ++
      [(⟨BREAK_TYPE, s.brk, s.long (s.chunks.length + 3)⟩ : KermitPacket)]).dropLast,
      p.type ≠ BREAK_TYPE := by
    intro p hp
    rw [List.dropLast_concat] at hp
    rcases mem_middle hp with h | h | ⟨h, -⟩ <;> rw [h] <;> decide
  obtain ⟨last, hfin⟩ := @packets_run addr s.quote sched.copies _ 1 ([], []) _ _
    (by simp) (fun p hp => s.ok (by rw [hpk]; exact List.mem_cons_of_mem _ hp)) hsend hbreak
    (fun p hp => by
      rw [List.getLast?_concat] at hp
      cases hp
      rfl)
    (fun i p hi => hd (1 + i) p (by
      rw [hpk, Nat.add_comm 1 i]
      exact hi)) (seq_ne 0) hrun
  rw [middle_bytes] at hfin
  refine ⟨last, ?_⟩
  unfold kRecv KermitSession.line
  rw [hpk, lineFrom, List.foldl_append]
  exact hfin

/-- A file comes over the line as it is just where no packet behind one with data is damaged in
front of its sequence byte as it is first seen. -/
theorem kermit_right_iff (addr : ℕ) (mem : Mem) :
    KermitRight s sched addr mem ↔ KermitClean s sched := by
  obtain ⟨last, hrun⟩ := session_run s sched addr mem
  have hflat : ([] :: ((s.chunks.map fun c => (kdecode s.quote c).getD []) ++ [[], []])).flatten =
      s.file := by
    simp [KermitTransfer.file, List.flatMap_def]
  have hkept := @kept_eq_iff (fun n => HeadEarly (sched.copies n)) _
    ([] :: ((s.chunks.map fun c => (kdecode s.quote c).getD []) ++ [[], []])) 1 [] []
  rw [hflat] at hkept
  generalize hc : (kept (fun n => HeadEarly (sched.copies n)) 1 ([], [])
    ([] :: ((s.chunks.map fun c => (kdecode s.quote c).getD []) ++ [[], []]))).2 = content at hrun
  have hcontent : content = s.file ↔
      KeepsAll (fun n => HeadEarly (sched.copies n)) 1 []
        ([] :: ((s.chunks.map fun c => (kdecode s.quote c).getD []) ++ [[], []])) := by
    rw [← hc]
    exact hkept
  have hret : (kRecv addr mem (s.line sched)).ret addr = some content.length := by
    unfold Kermit.ret
    rw [hrun.mode, hrun.cur, Nat.add_sub_cancel_left]
  have hright : KermitRight s sched addr mem ↔ content = s.file := by
    unfold KermitRight
    dsimp only
    rw [hret]
    constructor
    · rintro ⟨-, hlen, hload⟩
      rw [← Option.some.inj hlen, hrun.stored] at hload
      exact hload
    · rintro rfl
      exact ⟨hrun.mode, rfl, hrun.stored⟩
  rw [hright, hcontent, KeepsAll, keepsAll_chunks]
  constructor
  · rintro ⟨-, -, h⟩ i c hi hne copy hcopy he
    obtain ⟨bytes, hb⟩ := Option.ne_none_iff_exists'.1 (s.decodes c (List.mem_of_getElem? hi))
    have hnil := h i c hi (by
      rw [show 1 + 1 + 1 + i = i + 3 by omega]
      exact ⟨copy, hcopy, he⟩)
    rw [hb] at hnil
    refine kdecode_ne_nil c hne (hb.trans ?_)
    exact congrArg some hnil
  · intro h
    refine ⟨fun _ => rfl, fun _ => rfl, fun i c hi he => ?_⟩
    rw [show 1 + 1 + 1 + i = i + 3 by omega] at he
    obtain ⟨copy, hcopy, he⟩ := he
    by_contra hne
    refine h i c hi ?_ copy hcopy he
    rintro rfl
    exact hne rfl

/-- A byte as data, behind an escape where it has to be. -/
def kencodeByte (b : UInt8) : List UInt8 :=
  if isControl b then [K_ESCAPE, b ^^^ 0x40] else if b = K_ESCAPE then [K_ESCAPE, b] else [b]

theorem kencodeByte_ok (b : UInt8) : kdecode K_ESCAPE (kencodeByte b) = some [b] ∧
    (∀ c ∈ kencodeByte b, isControl c = false) ∧ (kencodeByte b).length ≤ 2 := by
  have h : ∀ n < 256, kdecode K_ESCAPE (kencodeByte (UInt8.ofNat n)) = some [UInt8.ofNat n] ∧
      (kencodeByte (UInt8.ofNat n)).any isControl = false ∧
      (kencodeByte (UInt8.ofNat n)).length ≤ 2 := by decide +kernel
  simpa using h b.toNat b.toNat_lt

theorem packets_data {s : KermitTransfer} {p : KermitPacket} (h : p ∈ s.packets) :
    p.data = s.params ∨ p.data = s.name ∨ p.data ∈ s.chunks ∨ p.data = s.eof ∨ p.data = s.brk := by
  unfold KermitTransfer.packets at h
  obtain ⟨i, hi, rfl⟩ := List.mem_mapIdx.1 h
  have hmem := List.mem_map_of_mem (f := Prod.snd) (List.getElem_mem hi)
  simpa [or_assoc] using hmem

/-- Every file can be sent. -/
theorem exists_session (file : List UInt8) : ∃ s : KermitSession, s.file = file := by
  have hdata (p : KermitPacket)
      (h : p ∈ (⟨[], [], file.map kencodeByte, [], [], fun _ => false⟩ : KermitTransfer).packets) :
      p.data = [] ∨ ∃ b, p.data = kencodeByte b := by
    rcases packets_data h with h | h | h | h | h
    · exact Or.inl h
    · exact Or.inl h
    · obtain ⟨b, -, hb⟩ := List.mem_map.1 h
      exact Or.inr ⟨b, hb.symm⟩
    · exact Or.inl h
    · exact Or.inl h
  refine ⟨⟨⟨[], [], file.map kencodeByte, [], [], fun _ => false⟩, ?_, ?_, ?_⟩, ?_⟩
  · intro p hp c hc
    rcases hdata p hp with h | ⟨b, h⟩ <;> rw [h] at hc
    · cases hc
    · exact (kencodeByte_ok b).2.1 c hc
  · intro p hp
    have hlen : p.data.length ≤ 2 := by
      rcases hdata p hp with h | ⟨b, h⟩ <;> rw [h]
      · exact Nat.zero_le 2
      · exact (kencodeByte_ok b).2.2
    split_ifs <;> omega
  · intro c hc
    obtain ⟨b, -, rfl⟩ := List.mem_map.1 hc
    change kdecode K_ESCAPE (kencodeByte b) ≠ none
    rw [(kencodeByte_ok b).1]
    exact Option.some_ne_none _
  · change ((file.map kencodeByte).flatMap fun c => (kdecode K_ESCAPE c).getD []) = file
    rw [List.flatMap_map]
    simp only [(kencodeByte_ok _).1, Option.getD_some]
    exact List.flatMap_singleton' file

/-- A file of one byte. -/
def kermitByte : KermitSession where
  params := []
  name := [0x66]
  chunks := [[0x41]]
  eof := []
  brk := []
  long := fun _ => false
  plain := by decide +kernel
  fits := by decide
  decodes := by decide

/-- The packet behind the data comes with a control character as its length, and then as it is. -/
def damagedLength : KermitSchedule kermitByte where
  copies n := if n = 3 then [.damaged [0x01, 0x00, 0x23, 0x5a, 0x42, 0x0d]] else []
  damaged := by
    intro n p hp copy hcopy
    split_ifs at hcopy with hn
    · subst hn
      cases hp
      rw [List.mem_singleton] at hcopy
      cases hcopy
      exact ⟨rfl, by decide, [0x23, 0x5a, 0x42, 0x0d], by decide +kernel, by decide +kernel⟩
    · cases hcopy

/-- `k_recv` goes back in front of the byte that it acknowledged, and returns 0 as the length. -/
theorem kermit_right_fails :
    ¬∀ (s : KermitSession) (sched : KermitSchedule s) (addr : ℕ) (mem : Mem),
      KermitRight s sched addr mem := by
  intro h
  obtain ⟨-, hret, -⟩ := h kermitByte damagedLength 0 (fun _ => 0)
  exact absurd hret (by decide)

end Session

end InfotmUboot
