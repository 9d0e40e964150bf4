import InfotmUboot.Retry

/-!
# The two searches for a retry set

The preloader stops at the first set that its complement confirms, and so does the driver unless a
set before that one passes its weaker test. In the loop that reads the table of the chip, the
position stays where a failed check left it, so the next check is past the end of what was read.
-/

namespace InfotmUboot

open Lib

section Check

variable (buf : Mem)

/-- The bytes that follow the set at `s` are its complement. -/
def TableAt (s : ℕ) : Prop :=
  ∀ i < OTP_LEN, buf (s + i) ||| buf (s + i + OTP_LEN) = 0xff ∧ buf (s + i) &&& buf
    (s + i + OTP_LEN) = 0

/-- No two bits of them are both wrong, one 0 in both and one 1 in both, in the same byte. -/
def TableLike (s : ℕ) : Prop :=
  ∀ i < OTP_LEN, buf (s + i) ||| buf (s + i + OTP_LEN) = 0xff ∨ buf (s + i) &&& buf
    (s + i + OTP_LEN) = 0

instance : DecidablePred (TableAt buf) := fun _ => inferInstanceAs (Decidable (∀ _ < _, _))

instance : DecidablePred (TableLike buf) := fun _ => inferInstanceAs (Decidable (∀ _ < _, _))

/-- Where the seven sets are, from `s` on. -/
def otpPlaces (s : ℕ) : List ℕ := List.range' s 7 128

/-- The first set of a page that its complement confirms. -/
def firstTable : Option (List UInt8) :=
  ((otpPlaces 0).find? (TableAt buf ·)).map fun s => buf.load s OTP_LEN

variable {buf} {differ : UInt8 → UInt8 → Bool}

theorem TableAt.like {s : ℕ} (h : TableAt buf s) : TableLike buf s := fun i hi => Or.inl (h i hi).1

theorem otpScan_iff : ∀ {n i : ℕ}, (otpScan buf differ n i).1 = true ↔
    ∀ j < n, differ (buf (i + j)) (buf (i + j + OTP_LEN)) = false
  | 0, _ => by simp [otpScan]
  | n + 1, i => by
    rw [otpScan, Nat.forall_lt_succ_left]
    simp only [Nat.add_zero]
    split_ifs with h
    · simp [h]
    · rw [otpScan_iff]
      simp only [Bool.not_eq_true] at h
      simp only [h, true_and, Nat.add_assoc, Nat.add_comm 1]

theorem otpScan_reads : ∀ {n i x : ℕ}, x ∈ (otpScan buf differ n i).2 → x < i + n + OTP_LEN
  | 0, _, _, h => by simp [otpScan] at h
  | n + 1, i, x, h => by
    rw [otpScan] at h
    split_ifs at h
    · simp only [List.mem_cons, List.not_mem_nil, or_false] at h
      omega
    · simp only [List.mem_cons] at h
      rcases h with h | h | h
      · omega
      · omega
      · have := otpScan_reads h
        omega

/-- The first byte is always read, -/
theorem otpScan_head (n i : ℕ) : i ∈ (otpScan buf differ (n + 1) i).2 := by
  rw [otpScan]
  split_ifs <;> simp

/-- and all of them if the set is right. -/
theorem otpScan_all : ∀ {n i j : ℕ}, (otpScan buf differ n i).1 = true → j < n →
    i + j + OTP_LEN ∈ (otpScan buf differ n i).2
  | n + 1, i, j, h, hj => by
    rw [otpScan] at h ⊢
    split_ifs at h ⊢
    rcases j with _ | j
    · simp
    · have := otpScan_all h (Nat.lt_of_succ_lt_succ hj)
      rw [show i + 1 + j = i + (j + 1) by omega] at this
      simp [this]

theorem imapOtpDiffer_iff {s : ℕ} : (otpScan buf imapOtpDiffer OTP_LEN s).1 = true ↔
    TableAt buf s := by
  simp only [otpScan_iff, imapOtpDiffer, TableAt, decide_eq_false_iff_not, not_or, not_not]

theorem nandOtpDiffer_iff {s : ℕ} : (otpScan buf nandOtpDiffer OTP_LEN s).1 = true ↔
    TableLike buf s := by
  simp only [otpScan_iff, nandOtpDiffer, TableLike, decide_eq_false_iff_not, not_and_or, not_not]

/-- The search of the preloader from `s` on, over the sets that are left. -/
theorem imapOtpCheckFrom_spec {offset : ℕ} (h32 : offset + 896 < 2 ^ 32) : ∀ {n s : ℕ},
    s + 128 * n = offset + 896 → ∃ reads,
      imapOtpCheckFrom buf offset n s =
        (match (List.range' s n 128).find? (TableAt buf ·) with
        | some p => ⟨0, p, reads⟩
        | none => ⟨-1, offset + 896, reads⟩) ∧ ∀ x ∈ reads, x < offset + 896
  | 0, s, hs => ⟨[], by simp [imapOtpCheckFrom, ← hs], by simp⟩
  | n + 1, s, hs => by
    have hlen : OTP_LEN = 64 := rfl
    have hreads : ∀ x ∈ (otpScan buf imapOtpDiffer OTP_LEN s).2, x < offset + 896 := fun x hx => by
      have := otpScan_reads hx
      omega
    rw [imapOtpCheckFrom, List.range'_succ]
    dsimp only
    by_cases hp : TableAt buf s
    · rw [if_pos (imapOtpDiffer_iff.2 hp), List.find?_cons_of_pos (by simpa using hp)]
      exact ⟨_, rfl, hreads⟩
    · rw [if_neg (mt imapOtpDiffer_iff.1 hp), List.find?_cons_of_neg (by simpa using hp),
        u32_of_lt (by omega), u32_of_lt (by omega)]
      rcases n with _ | n
      · rw [if_pos (by omega), show s + 128 = offset + 896 by omega]
        exact ⟨_, rfl, hreads⟩
      · obtain ⟨reads, heq, hin⟩ := imapOtpCheckFrom_spec h32 (n := n + 1) (s := s + 128) (by omega)
        rw [if_neg (by omega), heq]
        refine ⟨(otpScan buf imapOtpDiffer OTP_LEN s).2 ++ reads, ?_, fun x hx => ?_⟩
        · rcases (List.range' (s + 128) (n + 1) 128).find? (TableAt buf ·) with _ | p <;> rfl
        · rcases List.mem_append.1 hx with hx | hx
          · exact hreads x hx
          · exact hin x hx

theorem nandOtpCheckFrom_eq : ∀ {n s : ℕ}, s + 128 * n = 896 →
    nandOtpCheckFrom buf n s = (List.range' s n 128).find? (TableLike buf ·)
  | 0, _, _ => rfl
  | n + 1, s, hs => by
    have hlen : OTP_LEN = 64 := rfl
    rw [nandOtpCheckFrom, List.range'_succ]
    by_cases hp : TableLike buf s
    · rw [if_neg (fun h => h.2 (nandOtpDiffer_iff.2 hp)), List.find?_cons_of_pos
        (by simpa using hp)]
    · rw [if_pos ⟨by omega, mt nandOtpDiffer_iff.1 hp⟩, List.find?_cons_of_neg (by simpa using hp)]
      dsimp only
      rcases n with _ | n
      · rw [if_pos (by omega)]
        rfl
      · rw [if_neg (by omega), show s + OTP_LEN * 2 = s + 128 from rfl, nandOtpCheckFrom_eq
          (by omega)]

theorem imapOtpCheck_spec {offset : ℕ} (h32 : offset + 896 < 2 ^ 32) : ∃ reads,
    imapOtpCheck buf offset =
      (match (otpPlaces offset).find? (TableAt buf ·) with
      | some p => ⟨0, p, reads⟩
      | none => ⟨-1, offset + 896, reads⟩) ∧ ∀ x ∈ reads, x < offset + 896 :=
  imapOtpCheckFrom_spec h32 rfl

theorem imapOtpSet_eq (buf : Mem) : imapOtpSet buf = firstTable buf := by
  obtain ⟨reads, heq, -⟩ := @imapOtpCheck_spec buf 0 (by norm_num)
  unfold imapOtpSet firstTable
  rw [heq]
  rcases (otpPlaces 0).find? (TableAt buf ·) with _ | p
  · simp
  · simp

theorem nandOtpSet_eq (buf : Mem) :
    nandOtpSet buf = ((otpPlaces 0).find? (TableLike buf ·)).map fun s => buf.load s OTP_LEN := by
  unfold nandOtpSet nandOtpCheck
  rw [nandOtpCheckFrom_eq (by norm_num)]
  rfl

end Check

section Run

variable (crc : List UInt8 → ℕ)

/-- The first set of a page that passes the test of the driver is the first right one, or has its
bytes. -/
def DriverFinds (page : Mem) : Prop :=
  ∀ w ∈ (otpPlaces 0).find? (TableLike page ·),
    TableAt page w ∨ ∃ s ∈ (otpPlaces 0).find? (TableAt page ·), page.load s OTP_LEN =
      page.load w OTP_LEN

instance (page : Mem) : Decidable (DriverFinds page) :=
  inferInstanceAs (Decidable (∀ w ∈ (otpPlaces 0).find? _, _))

def OtpHead (buf : Mem) : Prop := buf 0 = 0x8 ∧ buf 1 = 0x8

instance : DecidablePred OtpHead := fun _ => inferInstanceAs (Decidable (_ ∧ _))

/-- The reads of the table of the chip that have its head, if the reads come to that. -/
def otpTables : List Mem → List Mem
  | [] => []
  | buf :: bufs =>
    if buf.get32 (255 * 4) ≠ G_2ATR_MAGIC then bufs.filter (OtpHead ·)
    else if buf.get32 (254 * 4) = crc (buf.load 0 896) ∧ ∃ s ∈ otpPlaces 0, TableAt buf s then []
    else otpTables bufs

/-- The first of these is right, or no other one follows it. -/
def FirstTableRight : List Mem → Prop
  | first :: _ :: _ => ∃ s ∈ otpPlaces 2, TableAt first s
  | _ => True

/-- Both take the first right set of a page, and `imap_otp_check` stays inside of what was read. -/
structure RetryRight (otpStart : ℕ) (page : Mem) (bufs : List Mem) : Prop where
  preloader : imapOtpSet page = firstTable page
  driver : nandOtpSet page = firstTable page
  inside : ∀ x ∈ retryReads crc { otpStart := otpStart } bufs, x < 1024

variable {crc}

theorem find_places {s : ℕ} {P : ℕ → Prop} [DecidablePred P] :
    (otpPlaces s).find? (P ·) = none ↔ ¬∃ p ∈ otpPlaces s, P p := by
  simp

/-- A right set passes the weaker test, so the first one of those is the first right one, or comes
before it. -/
theorem find_tableAt {buf : Mem} {w : ℕ} {places : List ℕ}
    (h : places.find? (TableLike buf ·) = some w) (hw : TableAt buf w) :
    places.find? (TableAt buf ·) = some w := by
  obtain ⟨-, as, bs, rfl, hnone⟩ := List.find?_eq_some_iff_append.1 h
  refine List.find?_eq_some_iff_append.2 ⟨by simpa using hw, as, bs, rfl, fun a ha => ?_⟩
  have := hnone a ha
  simp only [Bool.not_eq_true', decide_eq_false_iff_not] at this ⊢
  exact mt TableAt.like this

theorem driver_iff (page : Mem) : nandOtpSet page = firstTable page ↔ DriverFinds page := by
  rw [nandOtpSet_eq]
  unfold firstTable DriverFinds
  rcases hw : (otpPlaces 0).find? (TableLike page ·) with _ | w
  · have hnone : (otpPlaces 0).find? (TableAt page ·) = none := by
      rw [List.find?_eq_none] at hw ⊢
      intro x hx
      have := hw x hx
      simp only [decide_eq_true_eq] at this ⊢
      exact mt TableAt.like this
    simp [hnone]
  · by_cases hat : TableAt page w
    · simp [find_tableAt hw hat, hat]
    · rcases hs : (otpPlaces 0).find? (TableAt page ·) with _ | s
      · simp [hat]
      · simp [hat, eq_comm]

/-- Past the sets of a page, the second check reads what is behind it. -/
theorem imapOtpCheck_past (buf : Mem) : ∃ x ∈ (imapOtpCheck buf 898).reads, 1024 ≤ x := by
  unfold imapOtpCheck
  rw [imapOtpCheckFrom]
  by_cases hp : (otpScan buf imapOtpDiffer OTP_LEN 898).1 = true
  · rw [if_pos hp]
    exact ⟨_, otpScan_all hp (by decide : 62 < OTP_LEN), by decide⟩
  · rw [if_neg hp]
    dsimp only
    rw [if_neg (by decide), imapOtpCheckFrom]
    have hhead := @otpScan_head buf imapOtpDiffer 63 (u32 (898 + 128))
    refine ⟨u32 (898 + 128), List.mem_append_right _ ?_, by decide⟩
    by_cases hp' : (otpScan buf imapOtpDiffer OTP_LEN (u32 (898 + 128))).1 = true
    · rw [if_pos hp']
      exact hhead
    · rw [if_neg hp']
      dsimp only
      rw [if_neg (by decide)]
      exact List.mem_append_left _ hhead

theorem retryReads_done {n : ℕ} : ∀ bufs : List Mem, retryReads crc ⟨.done, n⟩ bufs = []
  | [] => rfl
  | _ :: bufs => retryReads_done bufs

/-- The loop over the table of the chip once a check failed. -/
theorem otp_failed : ∀ bufs : List Mem,
    (∀ x ∈ retryReads crc ⟨.otp, 898⟩ bufs, x < 1024) ↔ bufs.filter (OtpHead ·) = []
  | [] => by simp [retryReads]
  | buf :: bufs => by
    rw [retryReads, retryStep]
    dsimp only
    by_cases hh : OtpHead buf
    · rw [if_neg (by unfold OtpHead at hh; tauto), List.filter_cons_of_pos (by simpa using hh)]
      obtain ⟨x, hx, hge⟩ := imapOtpCheck_past buf
      refine iff_of_false (fun h => ?_) (List.cons_ne_nil _ _)
      exact absurd (h x (List.mem_append_left _ hx)) (by omega)
    · rw [if_pos (by unfold OtpHead at hh; tauto), List.filter_cons_of_neg (by simpa using hh),
        List.nil_append]
      exact otp_failed bufs

theorem otp_iff : ∀ bufs : List Mem,
    (∀ x ∈ retryReads crc ⟨.otp, 2⟩ bufs, x < 1024) ↔ FirstTableRight (bufs.filter (OtpHead ·))
  | [] => by simp [retryReads, FirstTableRight]
  | buf :: bufs => by
    rw [retryReads, retryStep]
    dsimp only
    by_cases hh : OtpHead buf
    · rw [if_neg (by unfold OtpHead at hh; tauto), List.filter_cons_of_pos (by simpa using hh)]
      obtain ⟨reads, heq, hin⟩ := @imapOtpCheck_spec buf 2 (by norm_num)
      rw [heq]
      rcases hf : (otpPlaces 2).find? (TableAt buf ·) with _ | p
      · dsimp only
        rw [if_pos (by decide)]
        have hno := (@find_places 2 (TableAt buf) _).1 hf
        have hrest := @otp_failed crc bufs
        have hcond : FirstTableRight (buf :: bufs.filter (OtpHead ·)) ↔
            bufs.filter (OtpHead ·) = [] := by
          rcases bufs.filter (OtpHead ·) with _ | ⟨b, bs⟩
          · simp [FirstTableRight]
          · simp only [FirstTableRight, hno, reduceCtorEq]
        rw [hcond, ← hrest]
        refine ⟨fun h x hx => h x (List.mem_append_right _ hx), fun h x hx => ?_⟩
        rcases List.mem_append.1 hx with hx | hx
        · have := hin x hx
          omega
        · exact h x hx
      · dsimp only
        rw [if_neg (by decide), retryReads_done, List.append_nil]
        refine iff_of_true (fun x hx => ?_) ?_
        · have := hin x hx
          omega
        · have hp := List.find?_some hf
          have hmem := List.mem_of_find?_eq_some hf
          rcases bufs.filter (OtpHead ·) with _ | ⟨b, bs⟩
          · trivial
          · exact ⟨p, hmem, by simpa using hp⟩
    · rw [if_pos (by unfold OtpHead at hh; tauto), List.filter_cons_of_neg (by simpa using hh),
        List.nil_append]
      exact otp_iff bufs

theorem inside_iff : ∀ (otpStart : ℕ) (bufs : List Mem),
    (∀ x ∈ retryReads crc { otpStart := otpStart } bufs, x < 1024) ↔
      FirstTableRight (otpTables crc bufs)
  | _, [] => by simp [retryReads, FirstTableRight, otpTables]
  | otpStart, buf :: bufs => by
    rw [retryReads, retryStep, otpTables]
    dsimp only
    by_cases hmagic : buf.get32 (255 * 4) ≠ G_2ATR_MAGIC
    · rw [if_pos hmagic, if_pos hmagic, List.nil_append]
      exact otp_iff bufs
    · rw [if_neg hmagic, if_neg hmagic]
      by_cases hcrc : buf.get32 (254 * 4) = crc (buf.load 0 896)
      · rw [if_neg (not_not.2 hcrc)]
        obtain ⟨reads, heq, hin⟩ := @imapOtpCheck_spec buf 0 (by norm_num)
        rw [heq]
        rcases hf : (otpPlaces 0).find? (TableAt buf ·) with _ | p
        · have hno := (@find_places 0 (TableAt buf) _).1 hf
          have hbad : ¬(buf.get32 (254 * 4) = crc (buf.load 0 896) ∧ ∃ s ∈ otpPlaces 0,
            TableAt buf s) :=
            fun h => hno h.2
          dsimp only
          rw [if_neg hbad, if_pos (by decide), ← inside_iff (0 + 896) bufs]
          refine ⟨fun h x hx => h x (List.mem_append_right _ hx), fun h x hx => ?_⟩
          rcases List.mem_append.1 hx with hx | hx
          · have := hin x hx
            omega
          · exact h x hx
        · dsimp only
          rw [if_neg (by decide), retryReads_done, List.append_nil,
            if_pos ⟨hcrc, p, List.mem_of_find?_eq_some hf, by simpa using List.find?_some hf⟩]
          refine iff_of_true (fun x hx => ?_) trivial
          have := hin x hx
          omega
      · rw [if_pos hcrc, if_neg (fun h => hcrc h.1), List.nil_append]
        exact inside_iff otpStart bufs

/-- The two searches agree, and stay inside, just where the driver meets no set that only looks
right before the first right one, and the first table read from the chip is not read in vain. -/
theorem retry_right_iff (otpStart : ℕ) (page : Mem) (bufs : List Mem) :
    RetryRight crc otpStart page bufs ↔
      DriverFinds page ∧ FirstTableRight (otpTables crc bufs) := by
  constructor
  · intro h
    exact ⟨(driver_iff page).1 h.driver, (inside_iff otpStart bufs).1 h.inside⟩
  · rintro ⟨hdriver, hinside⟩
    exact ⟨imapOtpSet_eq page, (driver_iff page).2 hdriver, (inside_iff otpStart bufs).2 hinside⟩

/-- The driver takes a set of ones from an erased page. -/
theorem retry_right_fails :
    ¬∀ (crc : List UInt8 → ℕ) (otpStart : ℕ) (page : Mem) (bufs : List Mem),
      RetryRight crc otpStart page bufs := by
  intro h
  have hdriver := (driver_iff fun _ => 0xff).1 (h (fun _ => 0) 0 (fun _ => 0xff) []).driver
  exact absurd hdriver (by decide)

end Run

end InfotmUboot
