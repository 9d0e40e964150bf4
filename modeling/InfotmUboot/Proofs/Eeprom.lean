import InfotmUboot.Eeprom
import InfotmUboot.Lib.Pieces

/-!
# Writing to the EEPROM

The driver cuts its data at the ends of the pages. The address has two bytes, and so has the counter
of the bytes that failed.
-/

namespace InfotmUboot

open Lib

section Write

/-- The address and the data of a write. -/
def pageWriteOf : IicOp → Option (ℕ × List UInt8)
  | .regWrite [hi, lo] data => some (hi.toNat * 2 ^ 8 + lo.toNat, data)
  | _ => none

def pageWrites (log : List (IicOp × Bool)) : List (ℕ × List UInt8) :=
  log.filterMap fun x => pageWriteOf x.1

/-- The bytes of the writes that worked. -/
def bytesWritten : List (IicOp × Bool) → ℕ
  | [] => 0
  | (.regWrite _ data, true) :: log => data.length + bytesWritten log
  | _ :: log => bytesWritten log

/-- A write of `data` covers its range page by page once the controller is up, and returns how many
bytes were written, whichever of the writes work. -/
structure EepromWriteRight (data : List UInt8) (start : ℕ) : Prop where
  covers : ∀ (const : ℕ) (σ : Type) (h : σ → IicOp → Bool × σ) (s : σ),
    (∀ s a, (h s (.init a)).1 = true) →
      Covers start (pageWrites (Prog.run h (e2pVsWrite const data start) s).log) data
  pages : ∀ (const : ℕ) (σ : Type) (h : σ → IicOp → Bool × σ) (s : σ),
    ∀ p ∈ pageWrites (Prog.run h (e2pVsWrite const data start) s).log, InPage 16 p
  count : ∀ (const : ℕ) (σ : Type) (h : σ → IicOp → Bool × σ) (s : σ),
    (Prog.run h (e2pVsWrite const data start) s).val =
      bytesWritten (Prog.run h (e2pVsWrite const data start) s).log

theorem pageWrites_cons {o : IicOp} {p : ℕ × List UInt8} (h : pageWriteOf o = some p) {ok : Bool}
    {log : List (IicOp × Bool)} : pageWrites ((o, ok) :: log) = p :: pageWrites log :=
  List.filterMap_cons_some h

theorem bytesWritten_failed (o : IicOp) (log : List (IicOp × Bool)) :
    bytesWritten ((o, false) :: log) = bytesWritten log := by
  rw [bytesWritten]
  exact nofun

/-- The loop has come to `offs`, with `n` bytes to go. -/
def IicTransfer.At (iic : IicTransfer) (offs n : ℕ) : Prop :=
  u16 (iic.iicWordAddr + iic.iicCurrentLen) = offs % 2 ^ 16 ∧ iic.iicLen = n

theorem getAddress_none {iic : IicTransfer} {offs : ℕ} (h : iic.At offs 0) :
    (iicWriteGetAddress iic).1 = false := by
  unfold iicWriteGetAddress iicAddressNum
  simp [h.2]

/-- The next chunk goes to the end of the page, or of the data. -/
theorem getAddress_some {iic : IicTransfer} {offs n : ℕ} (h : iic.At offs n) (hn : n ≠ 0) :
    (iicWriteGetAddress iic).1 = true ∧ (iicWriteGetAddress iic).2.flag = iic.flag ∧
      (iicWriteGetAddress iic).2.iicWordAddr = offs % 2 ^ 16 ∧
      (iicWriteGetAddress iic).2.iicCurrentLen = min (16 - offs % 16) n ∧
      (iicWriteGetAddress iic).2.iicLen = n - min (16 - offs % 16) n := by
  obtain ⟨haddr, hlen⟩ := h
  have hmod : offs % 2 ^ 16 % 16 = offs % 16 := Nat.mod_mod_of_dvd _ (by norm_num)
  unfold iicWriteGetAddress iicAddressNum PAGE_BLOCK_LEN
  rw [haddr, hlen]
  simp only [Bool.not_true, Bool.false_and, Bool.false_eq_true, if_false, hmod]
  split_ifs with ha hb
  · refine ⟨rfl, rfl, rfl, ?_, ?_⟩ <;> dsimp only <;> omega
  · refine ⟨rfl, rfl, rfl, ?_, ?_⟩ <;> dsimp only <;> omega
  · omega

theorem pageWriteOf_current {a : ℕ} (ha : a < 2 ^ 16) (data : List UInt8) :
    pageWriteOf (.regWrite (iicWordCurrentAddr a) data) = some (a, data) := by
  unfold iicWordCurrentAddr iicAddressNum
  simp only [if_true, pageWriteOf, UInt8.toNat_ofNat', Nat.shiftRight_eq_div_pow]
  congr 2
  omega

/-- The controller comes up in front of the first chunk. -/
theorem e2pVsWriteLoop_flag {n : ℕ} {iic : IicTransfer} {offs : ℕ} {data : List UInt8}
    (h : iic.At offs data.length) (hd : data ≠ []) (hf : iic.flag = true) (i : ℕ) :
    e2pVsWriteLoop (n + 1) iic data i = Prog.op (.init (iicWriteGetAddress iic).2.iicAddr) >>=
      fun up =>
      if up then e2pVsWriteLoop (n + 1) { iic with flag := false } data i else pure none := by
  have hne : data.length ≠ 0 := fun h0 => hd (List.length_eq_zero_iff.1 h0)
  obtain ⟨h1, h2, -⟩ := getAddress_some h hne
  obtain ⟨h1', h2', -⟩ := @getAddress_some { iic with flag := false } offs data.length h hne
  have hsame : (iicWriteGetAddress { iic with flag := false }).2 =
      { (iicWriteGetAddress iic).2 with flag := false } := by
    unfold iicWriteGetAddress iicAddressNum
    simp only [Bool.not_true, Bool.false_and, Bool.false_eq_true, if_false]
    split_ifs <;> rfl
  rw [e2pVsWriteLoop, e2pVsWriteLoop]
  simp only [h1, h1', h2, hf, if_true, hsame, Bool.false_eq_true, if_false, pure_bind]

variable {σ : Type} (h : σ → IicOp → Bool × σ)

/-- What the loop sends, and what it counts as failed. -/
theorem e2pVsWriteLoop_run : ∀ {n : ℕ} {iic : IicTransfer} {offs : ℕ} {data : List UInt8} {i : ℕ}
    (s : σ), iic.At offs data.length → iic.flag = false → data.length < n →
      pageWrites (Prog.run h (e2pVsWriteLoop n iic data i) s).log =
          (pagePieces 16 n offs data).map (fun p => (p.1 % 2 ^ 16, p.2)) ∧
        ∃ failed, bytesWritten (Prog.run h (e2pVsWriteLoop n iic data i) s).log + failed =
            data.length ∧
          ∃ i', (Prog.run h (e2pVsWriteLoop n iic data i) s).val = some i' ∧
            (i < 2 ^ 16 → i' = (i + failed) % 2 ^ 16)
  | n + 1, iic, offs, data, i, s, hat, hf, hn => by
    by_cases hd : data.length = 0
    · rw [e2pVsWriteLoop, getAddress_none (hd ▸ hat), pagePieces, if_pos hd]
      refine ⟨rfl, 0, ?_, i, rfl, fun hi => ?_⟩
      · exact hd.symm
      · omega
    · obtain ⟨h1, h2, h3, h4, h5⟩ := getAddress_some hat hd
      rw [e2pVsWriteLoop, h1, h2, hf, pagePieces, if_neg hd]
      simp only [if_true, Bool.false_eq_true, if_false, pure_bind, h3, h4]
      set len := min (16 - offs % 16) data.length with hlen
      set iic' : IicTransfer :=
        { iicAddr := (iicWriteGetAddress iic).2.iicAddr
          iicWordAddr := offs % 2 ^ 16
          iicAddition := (iicWriteGetAddress iic).2.iicAddition
          iicLen := (iicWriteGetAddress iic).2.iicLen
          iicCurrentLen := len
          flag := false } with hiic
      have hat' : iic'.At (offs + len) (data.drop len).length := by
        refine ⟨?_, h5.trans (List.length_drop).symm⟩
        rw [hiic]
        unfold u16
        dsimp only
        omega
      have hw : pageWriteOf (.regWrite (iicWordCurrentAddr (offs % 2 ^ 16)) (data.take len)) =
          some (offs % 2 ^ 16, data.take len) := pageWriteOf_current (Nat.mod_lt _ (by norm_num)) _
      have htake : (data.take len).length = len := List.length_take_of_le (by omega)
      rw [Prog.run_bind, Prog.run_op]
      rcases h s (.regWrite (iicWordCurrentAddr (offs % 2 ^ 16)) (data.take len)) with ⟨ok, s'⟩
      dsimp only
      obtain ⟨hwrites, failed, hfailed, i', hval, hi'⟩ :=
        @e2pVsWriteLoop_run n iic' (offs + len) (data.drop len) (if ok = true then i
          else u16 (i + len))
          s' hat' rfl (by rw [List.length_drop]; omega)
      rw [List.length_drop] at hfailed
      rw [List.singleton_append, pageWrites_cons hw, hwrites]
      refine ⟨rfl, ?_⟩
      rcases ok with _ | _
      · refine ⟨failed + len, ?_, i', hval, fun hi => ?_⟩
        · rw [bytesWritten_failed]
          omega
        · rw [hi' (Nat.mod_lt _ (by norm_num))]
          simp only [Bool.false_eq_true, if_false, u16]
          omega
      · refine ⟨failed, ?_, i', hval, hi'⟩
        rw [bytesWritten, htake]
        omega

/-- What a write of some data leaves, if the controller comes up and if it does not. -/
theorem e2pVsWrite_run {data : List UInt8} (const start : ℕ) (hd : data ≠ [])
    (hlen : data.length < 2 ^ 31) (s : σ) :
    let out := Prog.run h (e2pVsWrite const data start) s
    if (h s (.init const)).1 then
      pageWrites out.log = (pagePieces 16 (data.length + 1) start data).map
          (fun p => (p.1 % 2 ^ 16, p.2)) ∧
        ∃ failed, bytesWritten out.log + failed = data.length ∧
          out.val = data.length - (failed % 2 ^ 16 : ℕ)
    else out.val = 0 ∧ pageWrites out.log = [] ∧ bytesWritten out.log = 0 := by
  set iic : IicTransfer :=
    { iicAddr := iicAddrFunc const start
      iicWordAddr := iicWordAddrFunc start
      iicLen := u32 data.length
      iicCurrentLen := 0
      flag := true } with hiic
  have hat : iic.At start data.length := ⟨Nat.mod_mod _ _, u32_of_lt (by omega)⟩
  have hne : data.length ≠ 0 := fun h0 => hd (List.length_eq_zero_iff.1 h0)
  have hinit : (iicWriteGetAddress iic).2.iicAddr = const := by
    unfold iicWriteGetAddress iicAddressNum
    simp only [Bool.not_true, Bool.false_and, Bool.false_eq_true, if_false]
    split_ifs <;> rfl
  have hrun : e2pVsWrite const data start =
      e2pVsWriteLoop (data.length + 1) iic data 0 >>= fun i =>
        i.elim (pure 0) fun i => pure (s32 (data.length - i)) := by
    refine congrArg (e2pVsWriteLoop (data.length + 1) iic data 0 >>= ·) (funext fun i => ?_)
    cases i <;> rfl
  dsimp only
  rw [hrun, e2pVsWriteLoop_flag hat hd rfl, hinit, bind_assoc, Prog.run_bind, Prog.run_op]
  rcases h s (.init const) with ⟨up, s'⟩
  dsimp only
  rcases up with _ | _
  · exact ⟨rfl, rfl, rfl⟩
  · obtain ⟨hwrites, failed, hfailed, i', hval, hi'⟩ :=
      @e2pVsWriteLoop_run σ h (data.length + 1) { iic with flag := false } start data 0 s' hat rfl
        (Nat.lt_succ_self _)
    have hi := hi' (by norm_num)
    simp only [if_true, Prog.run_bind, hval, Option.elim_some, Prog.run_pure, List.append_nil,
      List.singleton_append]
    refine ⟨hwrites, failed, hfailed, ?_⟩
    rw [hi, Nat.zero_add, s32_of_range (by omega) (by omega)]

end Write

section Right

variable {data : List UInt8} {start : ℕ}

theorem bytesWritten_none : ∀ {log : List (IicOp × Bool)},
    (∀ x ∈ log, ∀ w d, x ≠ (.regWrite w d, true)) → bytesWritten log = 0
  | [], _ => rfl
  | x :: log, hx => by
    have hrest := bytesWritten_none fun y hy => hx y (List.mem_cons_of_mem _ hy)
    rw [bytesWritten]
    · exact hrest
    · exact fun w d he => hx x List.mem_cons_self w d he

/-- The controller comes up, and no write works. -/
def deadChip (_ : Unit) : IicOp → Bool × Unit
  | .init _ => (true, ())
  | .regWrite _ _ => (false, ())

theorem EepromWriteRight.fits (hr : EepromWriteRight data start) (hlen : data.length < 2 ^ 31)
    (hd : data ≠ []) : start + data.length ≤ 2 ^ 16 ∧ data.length < 2 ^ 16 := by
  have hrun := e2pVsWrite_run deadChip 0 start hd hlen ()
  have hcov := hr.covers 0 Unit deadChip () fun _ _ => rfl
  have hpages := hr.pages 0 Unit deadChip ()
  have hcount := hr.count 0 Unit deadChip ()
  dsimp only at hrun
  rw [if_pos (show (deadChip () (.init 0)).1 = true from rfl)] at hrun
  obtain ⟨hwrites, failed, hfailed, hval⟩ := hrun
  have hnone : bytesWritten (Prog.run deadChip (e2pVsWrite 0 data start) ()).log = 0 :=
    bytesWritten_none fun x hx w d he => by
      obtain ⟨s', hs'⟩ := Prog.run_log_reply deadChip _ () x hx
      rw [he] at hs'
      exact Bool.noConfusion (show true = false from hs')
  have hend := hcov.end_le (show 16 ∣ 2 ^ 16 by norm_num) (fun p hp => ⟨?_, hpages p hp⟩) hd
  · refine ⟨hend, ?_⟩
    rw [hnone] at hcount hfailed
    rw [hcount] at hval
    omega
  · rw [hwrites] at hp
    obtain ⟨q, -, rfl⟩ := List.mem_map.1 hp
    exact Nat.mod_lt _ (by norm_num)

/-- The driver writes as promised just where the address has the range, and the counter the number
of its bytes. -/
theorem eeprom_write_right_iff (data : List UInt8) (start : ℕ) (hlen : data.length < 2 ^ 31) :
    EepromWriteRight data start ↔
      data = [] ∨ start + data.length ≤ 2 ^ 16 ∧ data.length < 2 ^ 16 := by
  constructor
  · intro hr
    by_cases hd : data = []
    · exact Or.inl hd
    · exact Or.inr (hr.fits hlen hd)
  · intro hfit
    by_cases hd : data = []
    · subst hd
      exact ⟨fun const σ h s hup => rfl, fun const σ h s p hp => absurd hp List.not_mem_nil,
        fun const σ h s => rfl⟩
    obtain ⟨hend, hsmall⟩ := hfit.resolve_left hd
    have hcov : Covers start (pagePieces 16 (data.length + 1) start data) data :=
      covers_page (by norm_num) (Nat.lt_succ_self _)
    refine ⟨fun const σ h s hup => ?_, fun const σ h s p hp => ?_, fun const σ h s => ?_⟩
    · have hrun := e2pVsWrite_run h const start hd hlen s
      rw [if_pos (hup _ _)] at hrun
      have hsame : (pagePieces 16 (data.length + 1) start data).map (fun p => (p.1 % 2 ^ 16, p.2)) =
          pagePieces 16 (data.length + 1) start data := by
        refine (List.map_congr_left fun p hp => ?_).trans (List.map_id _)
        have := hcov.lt p hp
        exact Prod.ext (Nat.mod_eq_of_lt (by omega)) rfl
      rw [hrun.1, hsame]
      exact hcov
    · have hrun := e2pVsWrite_run h const start hd hlen s
      split_ifs at hrun
      · rw [hrun.1] at hp
        obtain ⟨q, hq, rfl⟩ := List.mem_map.1 hp
        have hin := inPage_page (by norm_num) q hq
        unfold InPage at hin ⊢
        rwa [Nat.mod_mod_of_dvd _ (by norm_num)]
      · rw [hrun.2.1] at hp
        exact absurd hp List.not_mem_nil
    · have hrun := e2pVsWrite_run h const start hd hlen s
      split_ifs at hrun
      · obtain ⟨-, failed, hfailed, hval⟩ := hrun
        rw [hval, Nat.mod_eq_of_lt (by omega)]
        omega
      · rw [hrun.1, hrun.2.2]
        rfl

theorem eeprom_write_right_iff_page :
    EepromWriteRight (List.replicate 16 0) 8 ↔ List.replicate 16 (0 : UInt8) = [] ∨
      8 + (List.replicate 16 (0 : UInt8)).length ≤ 2 ^ 16 ∧
        (List.replicate 16 (0 : UInt8)).length < 2 ^ 16 :=
  eeprom_write_right_iff _ 8 (by decide)

/-- One byte behind the last one that has an address. -/
theorem eeprom_write_right_fails :
    ¬∀ (data : List UInt8) (start : ℕ), data.length < 2 ^ 31 → EepromWriteRight data start := by
  intro h
  have hfits := (h [0] (2 ^ 16) (by decide)).fits (by decide) (List.cons_ne_nil _ _)
  exact absurd hfits.1 (by decide)

end Right

end InfotmUboot
