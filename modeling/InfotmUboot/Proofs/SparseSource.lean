import InfotmUboot.Extra
import InfotmUboot.Proofs.NndRead

/-!
# The source of a sparse image in a package

A call of `ius_sparse_data` moves the source on by what `vs_read` returns (`sparseCall`). The
ramdisk returns bytes, so whole blocks come in order; a card returns the count of blocks times
itself, which is the count of bytes for a full buffer only (`ius_sparse_right`).
-/

namespace InfotmUboot

open Lib

section Calls

/-- The devices that `burn_extra` is given for a source, with what they hold. -/
inductive Medium where
  | card (id : ℤ) (c : Card)
  | ramdisk (disk : Mem)

def Medium.id : Medium → ℤ
  | card id _ => id
  | ramdisk _ => Dev.ram.id

def Medium.bytes : Medium → Mem
  | card _ c => c.data
  | ramdisk disk => disk

/-- `vs_read` of the medium. -/
def Medium.vsRead (B : Board) : Medium → Dev → ℕ → ℤ → ℤ × List UInt8
  | card _ c, d, start, length => vsReadVal d (B.align d) start length (mmcVsRead c)
  | ramdisk disk, d, start, length => vsReadVal d (B.align d) start length (ramVsRead disk)

/-- The storage layer over the medium. -/
def Medium.step (B : Board) (s : Medium) (_ : Unit) : Op → Reply × Unit
  | .read d start length => (⟨(s.vsRead B d start length).1, (s.vsRead B d start length).2⟩, ())
  | _ => (⟨0, []⟩, ())

variable (B : Board) (m : Medium)

/-- One call: what it returns with the bytes of the buffer that this counts, and the source after
it. -/
def sparseCall (s : IusSource) : (ℤ × List UInt8) × IusSource :=
  let r := (Prog.run (m.step B) (iusSparseData B s) ()).val
  ((r.1, r.2.1.take r.1.toNat), r.2.2)

/-- The source after `n` calls. -/
def sparseAfter (s : IusSource) (n : ℕ) : IusSource := (fun s => (sparseCall B m s).2)^[n] s

/-- What `n` calls gave. -/
def sparseStream : IusSource → ℕ → List UInt8
  | _, 0 => []
  | s, n + 1 => (sparseCall B m s).1.2 ++ sparseStream (sparseCall B m s).2 n

/-- The calls give the image, the counter is never negative, and after the last byte they return
0. -/
def SourceRight (desc : IusDesc) : Prop :=
  let s := iusSource desc m.id
  (∀ n, 0 ≤ (sparseAfter B m s n).remain) ∧
    ∃ n, (sparseStream B m s n).take desc.len = m.bytes.load desc.offi desc.len ∧
      ∀ k ≥ n, (sparseCall B m (sparseAfter B m s k)).1.1 = 0

end Calls

section Run

variable {B : Board} {m : Medium}

/-- With nothing left a call returns 0 and leaves the source. -/
theorem sparseCall_zero {s : IusSource} (h : s.remain = 0) : sparseCall B m s = ((0, []), s) := by
  unfold sparseCall iusSparseData
  rw [if_pos h]
  rfl

variable (B) in
/-- How much a call reads: a buffer, or the rest, which two of the cards take in whole blocks. -/
def sparseStep (d : Dev) (s : IusSource) : ℤ :=
  if EXTRA_BUFFER_SIZE > s.remain then
    if 6 ≤ s.id ∧ s.id ≤ 7 then s32 (andNot (toU32 s.remain) (toU32 (B.align d - 1)) + B.align d)
    else s.remain
  else EXTRA_BUFFER_SIZE

theorem sparseCall_eq {s : IusSource} {d : Dev} (hd : Dev.ofId s.id = some d)
    (hread : d.entry.read = true) (h0 : s.remain ≠ 0) (hs : sparseStep B d s ≠ 0) :
    let r := m.vsRead B d s.offs (sparseStep B d s)
    sparseCall B m s = ((r.1, r.2.take r.1.toNat),
      { s with remain := s32 (s.remain - r.1), offs := toU64 (s.offs + r.1) }) := by
  have hstep : sparseStep B d s = if EXTRA_BUFFER_SIZE > s.remain then
      if 6 ≤ s.id ∧ s.id ≤ 7 then s32 (andNot (toU32 s.remain) (toU32 (B.align d - 1)) + B.align d)
      else s.remain
    else EXTRA_BUFFER_SIZE := rfl
  unfold sparseCall iusSparseData vsAssignById vsRead
  rw [if_neg h0, hd]
  simp only [Bool.false_eq_true, if_false, pure_bind, vsAlign, hd, hread, not_true_eq_false]
  rw [← hstep, if_neg hs]
  rfl

variable (m) in
/-- The source with `r` bytes left before `stop`. -/
def sourceAt (stop r : ℕ) : IusSource := ⟨m.id, r, stop - r⟩

/-- A call whose read gives what it counts, of what is left. -/
theorem sourceAt_call {d : Dev} (hm : m.id = d.id) (hread : d.entry.read = true) {stop r n : ℕ}
    (hr : 0 < r) (hlt : r < 2 ^ 31) (hle : r ≤ stop) (hstop : stop < 2 ^ 64) (hn : n ≤ r)
    (hs : sparseStep B d (sourceAt m stop r) ≠ 0)
    (hval : m.vsRead B d (stop - r) (sparseStep B d (sourceAt m stop r)) =
      ((n : ℤ), m.bytes.load (stop - r) n)) :
    sparseCall B m (sourceAt m stop r) =
      (((n : ℤ), m.bytes.load (stop - r) n), sourceAt m stop (r - n)) := by
  have hd : Dev.ofId (sourceAt m stop r).id = some d := by
    change Dev.ofId m.id = some d
    rw [hm, Dev.ofId_id]
  have hcall := sparseCall_eq (m := m) hd hread (Int.natCast_ne_zero.2 (by omega)) hs
  have hoffs : (sourceAt m stop r).offs = stop - r := rfl
  have hremain : (sourceAt m stop r).remain = r := rfl
  have hto : toU64 ((stop - r : ℕ) + n) = stop - (r - n) := by
    unfold toU64
    omega
  have hleft : s32 ((r : ℤ) - n) = (r - n : ℕ) := by
    rw [s32_of_range (by omega) (by omega), Nat.cast_sub hn]
  rw [hcall, hoffs, hval, hremain]
  dsimp only
  rw [hto, hleft, List.take_of_length_le (by rw [Mem.length_load, Int.toNat_natCast])]
  rfl

/-- A source whose calls each give some of what is left, in order, gives all of it. -/
theorem sourceAt_right {stop : ℕ} {P : ℕ → Prop} (hstep : ∀ r ≤ stop, 0 < r → P r →
      ∃ n, 0 < n ∧ n ≤ r ∧ P (r - n) ∧ sparseCall B m (sourceAt m stop r) =
        (((n : ℤ), m.bytes.load (stop - r) n), sourceAt m stop (r - n))) :
    ∀ r ≤ stop, P r → (∀ n, 0 ≤ (sparseAfter B m (sourceAt m stop r) n).remain) ∧
      ∃ n, sparseStream B m (sourceAt m stop r) n = m.bytes.load (stop - r) r ∧
        ∀ k ≥ n, (sparseCall B m (sparseAfter B m (sourceAt m stop r) k)).1.1 = 0 := by
  intro r
  induction r using Nat.strong_induction_on with
  | _ r ih =>
    intro hr hP
    rcases Nat.eq_zero_or_pos r with rfl | hpos
    · have hzero : sparseCall B m (sourceAt m stop 0) = ((0, []), sourceAt m stop 0) :=
        sparseCall_zero rfl
      have hafter : ∀ n, sparseAfter B m (sourceAt m stop 0) n = sourceAt m stop 0 := by
        intro n
        refine Function.iterate_fixed ?_ n
        rw [hzero]
      refine ⟨fun n => ?_, 0, rfl, fun k _ => ?_⟩
      · rw [hafter]
        exact le_rfl
      · rw [hafter, hzero]
    · obtain ⟨n, hn, hnr, hPn, hcall⟩ := hstep r hr hpos hP
      obtain ⟨hremain, k, hstream, hend⟩ := ih (r - n) (by omega) (by omega) hPn
      have hafter : ∀ j, sparseAfter B m (sourceAt m stop r) (j + 1) =
          sparseAfter B m (sourceAt m stop (r - n)) j := by
        intro j
        rw [sparseAfter, Function.iterate_succ_apply, hcall]
        rfl
      refine ⟨fun j => ?_, k + 1, ?_, fun j hj => ?_⟩
      · rcases j with _ | j
        · exact Int.natCast_nonneg r
        · rw [hafter]
          exact hremain j
      · have hoff : stop - (r - n) = stop - r + n := by omega
        have hlen : r = n + (r - n) := by omega
        have hload := Mem.load_add m.bytes (stop - r) n (r - n)
        rw [← hlen] at hload
        rw [sparseStream, hcall, hstream, hoff, hload]
      · obtain ⟨j, rfl⟩ : ∃ i, j = i + 1 := ⟨j - 1, by omega⟩
        rw [hafter]
        exact hend j (by omega)

end Run

section Read

theorem vsMask_512 : vsMask 512 = 2 ^ 9 - 1 := rfl

/-- From an aligned offset on, nothing is read before it. -/
theorem vsPrelen_aligned {start : ℕ} (h : start % 512 = 0) : vsPrelen 512 start = 0 := by
  unfold vsPrelen
  dsimp only
  rw [vsMask_512, and_mask rfl, show (2 ^ 9 : ℕ) = 512 from rfl, h]
  rfl

/-- A length from an aligned offset on: whole blocks, and what is past them. -/
theorem vsLengths_aligned {d : Dev} (hd : d ≠ .nnd) {start length : ℕ} (h : start % 512 = 0)
    (hlt : length < 2 ^ 31) : vsPostlen d 512 start length = length % 512 ∧
      vsMidlen d 512 start length = (length - length % 512 : ℕ) := by
  have hpost : vsPostlen d 512 start length = length % 512 := by
    rw [vsPostlen, vsLength, if_neg hd, vsPrelen_aligned h, vsMask_512, and_mask rfl, Nat.cast_zero,
      sub_zero, toU32_natCast (by omega)]
    rfl
  refine ⟨hpost, ?_⟩
  have hle := Nat.mod_le length 512
  rw [vsMidlen, hpost, vsLength, if_neg hd, vsPrelen_aligned h, Nat.cast_zero, sub_zero,
    s32_of_range (z := length) (by omega) (by omega), ← Nat.cast_sub hle,
    s32_of_range (by omega) (by omega)]

variable {c : Card} (hb : 0 < c.bMax)
include hb

/-- The rounds of `mmc_bread` read on. -/
theorem mmcBreadLoop_eq : ∀ {n start todo : ℕ}, 0 < todo → todo ≤ n →
    mmcBreadLoop c n start todo = c.data.load (start * 512) (todo * 512)
  | 0, _, _, h0, hn => by omega
  | n + 1, start, todo, h0, hn => by
    rw [mmcBreadLoop]
    by_cases hgt : todo > c.bMax
    · have hoff : (start + c.bMax) * 512 = start * 512 + c.bMax * 512 := Nat.add_mul _ _ _
      have hall : c.bMax * 512 + (todo - c.bMax) * 512 = todo * 512 := by
        rw [← Nat.add_mul, Nat.add_sub_cancel' hgt.le]
      rw [if_pos hgt, if_pos (by omega), mmcBreadLoop_eq (by omega) (by omega), hoff,
        ← Mem.load_add, hall]
    · rw [if_neg hgt, if_neg (by omega)]

/-- A read of `n` blocks returns `n * n`. -/
theorem mmcVsRead_blocks (hlba : c.lba < 2 ^ 32) {start n : ℕ} (h : start % 512 = 0) (hn : 0 < n)
    (hin : start + n * 512 ≤ c.lba * 512) :
    mmcVsRead c start (n * 512 : ℕ) = (s32 (n * n : ℕ), c.data.load start (n * 512)) := by
  have hshift : start >>> 9 = start / 512 := Nat.shiftRight_eq_div_pow start 9
  have hdiv : start / 512 * 512 = start := by omega
  have hblocks : ((n * 512 : ℕ) : ℤ) / 512 = n := by omega
  unfold mmcVsRead
  rw [hblocks]
  dsimp only
  rw [toU32_natCast (by omega), hshift, u32_of_lt (by omega), mmcBread, if_neg (by omega),
    u32_of_lt (by omega), if_neg (by omega), mmcBreadLoop_eq hb hn le_rfl, hdiv, Nat.cast_mul]

/-- A full buffer from a card. -/
theorem mmcVsRead_full (hlba : c.lba < 2 ^ 32) {start : ℕ} (h : start % 512 = 0)
    (hin : start + EXTRA_BUFFER_SIZE ≤ c.lba * 512) : mmcVsRead c start EXTRA_BUFFER_SIZE =
      ((EXTRA_BUFFER_SIZE : ℤ), c.data.load start EXTRA_BUFFER_SIZE) := by
  have hread : ∀ n, n = 512 → n * 512 = EXTRA_BUFFER_SIZE → mmcVsRead c start EXTRA_BUFFER_SIZE =
      ((EXTRA_BUFFER_SIZE : ℤ), c.data.load start EXTRA_BUFFER_SIZE) := by
    intro n hn hsize
    have hpos : 0 < n := by rw [hn]; decide
    have hret : s32 (n * n : ℕ) = EXTRA_BUFFER_SIZE := by rw [hn]; decide
    rw [← hsize, mmcVsRead_blocks hb hlba h hpos (by rw [hsize]; exact hin), hret, hsize]
  exact hread 512 rfl rfl

end Read

section Right

variable {B : Board}

/-- The devices that are cards. -/
def Dev.isCard (d : Dev) : Prop := d = .mmc0 ∨ d = .mmc1 ∨ d = .mmc2

/-- A call to a card with a full buffer left. -/
theorem card_call {d : Dev} (hd : d.isCard) (halign : B.align d = 512) {c : Card} (hb : 0 < c.bMax)
    (hlba : c.lba < 2 ^ 32) {stop r : ℕ} (hr : EXTRA_BUFFER_SIZE ≤ r) (hlt : r < 2 ^ 31)
    (hle : r ≤ stop) (hstart : (stop - r) % 512 = 0) (hin : stop ≤ c.lba * 512) :
    sparseCall B (.card d.id c) (sourceAt (.card d.id c) stop r) =
      (((EXTRA_BUFFER_SIZE : ℤ), c.data.load (stop - r) EXTRA_BUFFER_SIZE),
        sourceAt (.card d.id c) stop (r - EXTRA_BUFFER_SIZE)) := by
  have hread : d.entry.read = true := by rcases hd with rfl | rfl | rfl <;> rfl
  have hnnd : d ≠ .nnd := by rcases hd with rfl | rfl | rfl <;> decide
  have hfnd : d ≠ .fnd := by rcases hd with rfl | rfl | rfl <;> decide
  have hsize : EXTRA_BUFFER_SIZE < 2 ^ 31 := by decide
  have hpos : EXTRA_BUFFER_SIZE ≠ 0 := by decide
  have hmod : EXTRA_BUFFER_SIZE % 512 = 0 := by decide
  obtain ⟨hpost, hmid⟩ := vsLengths_aligned hnnd hstart hsize
  rw [hmod, Nat.sub_zero] at hmid
  have hval : vsReadVal d 512 (stop - r) EXTRA_BUFFER_SIZE (mmcVsRead c) =
      ((EXTRA_BUFFER_SIZE : ℤ), c.data.load (stop - r) EXTRA_BUFFER_SIZE) := by
    rw [vsReadVal_mid hfnd (vsPrelen_aligned hstart) (hpost.trans hmod)
      (by rw [hmid]; exact Int.natCast_ne_zero.2 hpos), hmid, mmcVsRead_full hb hlba hstart
        (by omega)]
  have hchoose : sparseStep B d (sourceAt (.card d.id c) stop r) = EXTRA_BUFFER_SIZE :=
    if_neg (by
      change ¬((EXTRA_BUFFER_SIZE : ℕ) : ℤ) > (r : ℕ)
      omega)
  refine sourceAt_call (m := .card d.id c) rfl hread (by omega) hlt hle (by omega) hr ?_ ?_
  · rw [hchoose]
    exact Int.natCast_ne_zero.2 hpos
  · rw [hchoose, Medium.vsRead, halign, hval]
    rfl

theorem ramVsRead_eq {disk : Mem} {start : ℕ} (hin : IUS_DEFAULT_LOCATION ≤ start) (n : ℕ) :
    ramVsRead disk start n = ((n : ℤ), disk.load start n) := by
  rw [ramVsRead, if_neg (not_lt.2 hin), Int.toNat_natCast]

/-- How much is read of the ramdisk. -/
theorem sparseStep_ram (disk : Mem) (stop r : ℕ) :
    sparseStep B .ram (sourceAt (.ramdisk disk) stop r) = (min r EXTRA_BUFFER_SIZE : ℕ) := by
  have hremain : (sourceAt (.ramdisk disk) stop r).remain = r := rfl
  have hid : ¬(6 ≤ (sourceAt (.ramdisk disk) stop r).id ∧ (sourceAt (.ramdisk disk) stop r).id ≤
    7) := by
    change ¬((6 : ℤ) ≤ 13 ∧ (13 : ℤ) ≤ 7)
    decide
  rw [sparseStep, hremain, if_neg hid]
  split_ifs <;> omega

/-- A call to the ramdisk, with whole blocks to read. -/
theorem ram_call (B : Board) (disk : Mem) {stop r n : ℕ} (hn : n = min r EXTRA_BUFFER_SIZE)
    (hr : 0 < r)
    (hlt : r < 2 ^ 31) (hle : r ≤ stop) (hstop : stop < 2 ^ 64) (hstart : (stop - r) % 512 = 0)
    (hin : IUS_DEFAULT_LOCATION ≤ stop - r) (hwhole : n % 512 = 0) :
    sparseCall B (.ramdisk disk) (sourceAt (.ramdisk disk) stop r) =
      (((n : ℤ), disk.load (stop - r) n), sourceAt (.ramdisk disk) stop (r - n)) := by
  have hpos : 0 < EXTRA_BUFFER_SIZE := by decide
  have hne : (n : ℤ) ≠ 0 := by omega
  obtain ⟨hpost, hmid⟩ := vsLengths_aligned (d := .ram) (by decide) hstart
    (show n < 2 ^ 31 by omega)
  rw [hwhole, Nat.sub_zero] at hmid
  have hval : vsReadVal .ram 512 (stop - r) n (ramVsRead disk) =
    ((n : ℤ), disk.load (stop - r) n) := by
    rw [vsReadVal_mid (by decide) (vsPrelen_aligned hstart) (hpost.trans hwhole) (by rwa [hmid]),
      hmid, ramVsRead_eq hin]
  have hstep := sparseStep_ram (B := B) disk stop r
  rw [← hn] at hstep
  refine sourceAt_call (m := .ramdisk disk) rfl rfl hr hlt hle hstop (by omega) ?_ ?_
  · rwa [hstep]
  · rw [hstep]
    exact hval

/-- The last call to the ramdisk, with a part of a block to read, counts the whole of it. -/
theorem ram_tail {disk : Mem} {stop r : ℕ} (hr : r < EXTRA_BUFFER_SIZE)
    (hstart : (stop - r) % 512 = 0) (hin : IUS_DEFAULT_LOCATION ≤ stop - r)
    (hpart : r % 512 ≠ 0) :
    (sparseCall B (.ramdisk disk) (sourceAt (.ramdisk disk) stop r)).2.remain < 0 := by
  have hlt : r < 2 ^ 31 := hr.trans (by decide)
  have hstep := sparseStep_ram (B := B) disk stop r
  rw [min_eq_left hr.le] at hstep
  clear hr
  have hmod := Nat.mod_lt r (show 0 < 512 by decide)
  have hmodle := Nat.mod_le r 512
  obtain ⟨hpost, hmid⟩ := vsLengths_aligned (d := .ram) (by decide) hstart hlt
  have hret : (vsReadVal .ram 512 (stop - r) r (ramVsRead disk)).1 = (r - r % 512 + 512 : ℕ) := by
    have hmidread : (if ¬((r - r % 512 : ℕ) : ℤ) = 0 then
        ramVsRead disk (stop - r) (r - r % 512 : ℕ) else (0, [])).1 = (r - r % 512 : ℕ) := by
      split_ifs with h0
      · exact h0.symm
      · rw [ramVsRead_eq hin]
    have htail : (ramVsRead disk (((stop - r : ℕ) : ℤ) + (r - r % 512 : ℕ)).toNat (512 : ℕ)).1 =
        512 := by
      rw [ramVsRead_eq (by omega)]
      rfl
    simp only [vsReadVal, if_neg (by decide : ¬Dev.ram = .fnd), hpost, hmid,
      vsPrelen_aligned hstart,
      ne_eq, not_true_eq_false, if_false, Nat.add_zero, lt_irrefl, hpart]
    rw [if_neg, if_neg]
    · change 0 + (if ¬((r - r % 512 : ℕ) : ℤ) = 0 then _ else _ : ℤ × List UInt8).1 +
        (ramVsRead disk _ _).1 = _
      rw [hmidread, htail]
      omega
    · rw [htail]
      decide
    · rw [hmidread]
      omega
  have hd : Dev.ofId (sourceAt (.ramdisk disk) stop r).id = some .ram := rfl
  have hcall := sparseCall_eq (B := B) (m := .ramdisk disk) hd rfl
    (Int.natCast_ne_zero.2 (by omega : r ≠ 0)) (by
      rw [hstep]
      omega)
  have hremain : (sourceAt (.ramdisk disk) stop r).remain = r := rfl
  rw [hcall, hstep, hremain]
  change s32 ((r : ℤ) - (vsReadVal .ram 512 (stop - r) r (ramVsRead disk)).1) < 0
  rw [hret, s32_of_range (by omega) (by omega)]
  omega

/-- What is not whole blocks ends below zero. -/
theorem ram_negative (B : Board) (disk : Mem) {stop : ℕ} (hstop : stop < 2 ^ 64) :
    ∀ r ≤ stop, r < 2 ^ 31 → (stop - r) % 512 = 0 → IUS_DEFAULT_LOCATION ≤ stop - r → r % 512 ≠ 0 →
      ∃ n, (sparseAfter B (.ramdisk disk) (sourceAt (.ramdisk disk) stop r) n).remain < 0 := by
  intro r
  induction r using Nat.strong_induction_on with
  | _ r ih =>
    intro hle hlt hstart hin hpart
    by_cases hr : r < EXTRA_BUFFER_SIZE
    · exact ⟨1, ram_tail hr hstart hin hpart⟩
    · have hmod : EXTRA_BUFFER_SIZE % 512 = 0 := by decide
      have hpos : 0 < EXTRA_BUFFER_SIZE := by decide
      have hcall := ram_call B disk (min_eq_right (not_lt.1 hr)).symm (by omega) hlt
        hle hstop hstart hin hmod
      obtain ⟨n, hn⟩ := ih (r - EXTRA_BUFFER_SIZE) (by omega) (by omega) (by omega) (by omega)
        (by omega) (by omega)
      refine ⟨n + 1, ?_⟩
      rw [sparseAfter, Function.iterate_succ_apply, hcall]
      exact hn

theorem desc_offi (desc : IusDesc) : desc.offi % 512 = 0 ∧ IUS_DEFAULT_LOCATION ≤ desc.offi ∧
    desc.offi < 2 ^ 34 := by
  have hand : desc.sector.toNat &&& 0xffffff ≤ 0xffffff := Nat.and_le_right
  unfold IusDesc.offi IUS_DEFAULT_LOCATION
  rw [Nat.shiftLeft_eq]
  omega

/-- The source `burn_extra` starts from. -/
theorem iusSource_eq {m : Medium} {desc : IusDesc} (hlt : desc.len < 2 ^ 31) :
    iusSource desc m.id = sourceAt m (desc.offi + desc.len) desc.len := by
  unfold iusSource sourceAt
  rw [s32_of_range (by omega) (by omega), Nat.add_sub_cancel]

/-- A source whose calls each give some of what is left is right. -/
theorem sourceRight_of {m : Medium} {desc : IusDesc} (hlt : desc.len < 2 ^ 31) {P : ℕ → Prop}
    (hP : P desc.len) (hstep : ∀ r, 0 < r → r ≤ desc.len → P r → ∃ n, 0 < n ∧ n ≤ r ∧ P (r - n) ∧
      sparseCall B m (sourceAt m (desc.offi + desc.len) r) =
        (((n : ℤ), m.bytes.load (desc.offi + desc.len - r) n),
          sourceAt m (desc.offi + desc.len) (r - n))) : SourceRight B m desc := by
  have hsteps : ∀ r ≤ desc.offi + desc.len, 0 < r → r ≤ desc.len ∧ P r →
      ∃ n, 0 < n ∧ n ≤ r ∧ (r - n ≤ desc.len ∧ P (r - n)) ∧
        sparseCall B m (sourceAt m (desc.offi + desc.len) r) =
          (((n : ℤ), m.bytes.load (desc.offi + desc.len - r) n),
            sourceAt m (desc.offi + desc.len) (r - n)) := by
    rintro r - hr ⟨hle, hPr⟩
    obtain ⟨n, hn, hnr, hPn, hcall⟩ := hstep r hr hle hPr
    exact ⟨n, hn, hnr, ⟨by omega, hPn⟩, hcall⟩
  obtain ⟨hremain, n, hstream, hend⟩ := sourceAt_right hsteps desc.len (Nat.le_add_left _ _)
    ⟨le_rfl, hP⟩
  unfold SourceRight
  dsimp only
  rw [iusSource_eq hlt]
  refine ⟨hremain, n, ?_, hend⟩
  rw [hstream, Nat.add_sub_cancel, List.take_of_length_le (Mem.length_load _ _ _).le]

theorem card_right {d : Dev} (hd : d.isCard) (halign : B.align d = 512) {c : Card} (hb : 0 < c.bMax)
    (hlba : c.lba < 2 ^ 32) {desc : IusDesc} (hin : desc.offi + desc.len ≤ c.lba * 512)
    (hlt : desc.len < 2 ^ 31) (hwhole : EXTRA_BUFFER_SIZE ∣ desc.len) :
    SourceRight B (.card d.id c) desc := by
  obtain ⟨haligned, -, -⟩ := desc_offi desc
  have hdvd : 512 ∣ EXTRA_BUFFER_SIZE := by decide
  have hpos : 0 < EXTRA_BUFFER_SIZE := by decide
  have hlen := Nat.mod_eq_zero_of_dvd (hdvd.trans hwhole)
  refine sourceRight_of hlt (P := fun r => EXTRA_BUFFER_SIZE ∣ r) hwhole fun r hr hle hdiv => ?_
  have hr512 := Nat.mod_eq_zero_of_dvd (hdvd.trans hdiv)
  have hge := Nat.le_of_dvd hr hdiv
  exact ⟨_, hpos, hge, Nat.dvd_sub hdiv dvd_rfl,
    card_call hd halign hb hlba hge (by omega) (by omega) (by omega) hin⟩

theorem ram_right {disk : Mem} {desc : IusDesc} (hlt : desc.len < 2 ^ 31)
    (hwhole : desc.len % 512 = 0) : SourceRight B (.ramdisk disk) desc := by
  obtain ⟨haligned, hlow, hhigh⟩ := desc_offi desc
  have hmod : EXTRA_BUFFER_SIZE % 512 = 0 := by decide
  have hpos : 0 < EXTRA_BUFFER_SIZE := by decide
  refine sourceRight_of hlt (P := fun r => r % 512 = 0) hwhole fun r hr hle hr512 => ?_
  have hmin : min r EXTRA_BUFFER_SIZE % 512 = 0 := by
    rcases min_choice r EXTRA_BUFFER_SIZE with h | h <;> rw [h]
    · exact hr512
    · exact hmod
  exact ⟨_, by omega, min_le_left _ _, by omega,
    ram_call B disk rfl hr (by omega) (by omega) (by omega) (by omega) (by omega) hmin⟩

/-- A card is a right source if the length is a multiple of the buffer, and the ramdisk if and only
if it is a multiple of a block. -/
theorem ius_sparse_right (B : Board) (hB : ∀ i, B.mmcBlksz i = 512) (desc : IusDesc) :
    (∀ d c, Dev.isCard d → 0 < c.bMax → c.lba < 2 ^ 32 → desc.offi + desc.len ≤ c.lba * 512 →
      desc.len < 2 ^ 31 → EXTRA_BUFFER_SIZE ∣ desc.len → SourceRight B (.card d.id c) desc) ∧
    ∀ disk, SourceRight B (.ramdisk disk) desc ↔ desc.len < 2 ^ 31 ∧ 512 ∣ desc.len := by
  refine ⟨fun d c hd hb hlba hin hlt hwhole => ?_, fun disk => ⟨fun h => ?_, fun h => ?_⟩⟩
  · have halign : B.align d = 512 := by
      rcases hd with rfl | rfl | rfl
      · exact hB 0
      · exact hB 1
      · exact hB 2
    exact card_right hd halign hb hlba hin hlt hwhole
  · obtain ⟨hremain, -⟩ := h
    have hlt : desc.len < 2 ^ 31 := by
      have h0 := hremain 0
      have hmax : desc.len < 2 ^ 32 := desc.length.toNat_lt
      unfold sparseAfter iusSource s32 at h0
      rw [Function.iterate_zero_apply, Int.bmod_def] at h0
      dsimp only at h0
      split_ifs at h0 <;> omega
    refine ⟨hlt, Nat.dvd_of_mod_eq_zero ?_⟩
    obtain ⟨haligned, hlow, hhigh⟩ := desc_offi desc
    by_contra hpart
    have hstart : desc.offi + desc.len - desc.len = desc.offi := Nat.add_sub_cancel _ _
    have hstop : desc.offi + desc.len < 2 ^ 64 := by omega
    obtain ⟨n, hn⟩ := ram_negative B disk hstop desc.len (Nat.le_add_left _ _) hlt
      (by rw [hstart]; exact haligned) (by rw [hstart]; exact hlow) hpart
    rw [← iusSource_eq hlt] at hn
    exact absurd (hremain n) (not_le.2 hn)
  · exact ram_right h.1 (Nat.mod_eq_zero_of_dvd h.2)

/-- A card of 64 MB. -/
def wholeCard : Card := ⟨fun _ => 0, 0x20000, 128⟩

/-- Two buffers of an image. -/
theorem ius_sparse_right_two :
    SourceRight slcBoard (.card Dev.mmc0.id wholeCard) ⟨0x20000000, 0, 0, 0x80000⟩ :=
  (ius_sparse_right slcBoard (fun _ => rfl) ⟨0x20000000, 0, 0, 0x80000⟩).1 .mmc0 wholeCard
    (Or.inl rfl) (by decide) (by decide) (by decide) (by decide) (by decide)

/-- An image of two bytes: the first call returns 1, the second one 2. -/
theorem ius_sparse_negative : ¬∀ (B : Board), (∀ i, B.mmcBlksz i = 512) →
    ∀ (desc : IusDesc) (d : Dev)
    (c : Card), d.isCard → 0 < c.bMax → c.lba < 2 ^ 32 → desc.offi + desc.len ≤ c.lba * 512 →
    SourceRight B (.card d.id c) desc := by
  intro h
  have hright := h slcBoard (fun _ => rfl) ⟨0x20000000, 0, 0, 2⟩ .mmc0 wholeCard (Or.inl rfl)
    (by decide) (by decide) (by decide)
  exact absurd (hright.1 2) (by decide)

end Right

end InfotmUboot
