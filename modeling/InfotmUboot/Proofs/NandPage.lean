import InfotmUboot.NandPage
import InfotmUboot.Proofs.Ecc
import Mathlib.Data.List.Nodup

/-!
# Reading back pages with software ECC

What was written to erased pages is read back right by every later read, as long as in each step of
256 bytes and its code there is never more than one wrong bit. A step with two wrong bits does not
go unnoticed, unless the page is given out of the buffer.
-/

namespace InfotmUboot

open Lib

section Steps

/-- No more than one bit differs. -/
def OneBit (as bs : List UInt8) : Prop := ∃ i, ∀ l, bitAt as l ≠ bitAt bs l → l = i

theorem OneBit.twoBits {as bs : List UInt8} (h : OneBit as bs) : TwoBits as bs := by
  obtain ⟨i, hi⟩ := h
  exact ⟨i, i, fun l hl => Or.inl (hi l hl)⟩

/-- `n` steps as they were written, and as they are read, with what of their codes is read. -/
def StepsWorn (W : List UInt8 → List UInt8 → Prop) : ℕ → List UInt8 → List UInt8 → List UInt8 → Prop
  | 0, _, _, _ => True
  | n + 1, d, p, code =>
    W (d.take 256 ++ nandCalculateEcc (d.take 256)) (p.take 256 ++ code.take 3) ∧
      StepsWorn W n (d.drop 256) (p.drop 256) (code.drop 3)

theorem eccRegs_take (p : List UInt8) : eccRegs (p.take 256) = eccRegs p := by
  unfold eccRegs
  refine List.foldl_ext _ _ _ fun r i hi => ?_
  rw [List.mem_range] at hi
  rw [List.getD_eq_getElem?_getD, List.getElem?_take_of_lt hi, ← List.getD_eq_getElem?_getD]

theorem nandCalculateEcc_take (p : List UInt8) :
    nandCalculateEcc (p.take 256) = nandCalculateEcc p := by
  unfold nandCalculateEcc
  rw [eccRegs_take]

theorem nandCorrectData_take (dat code calcd rest : List UInt8) (h : calcd.length = 3) :
    nandCorrectData dat code (calcd ++ rest) = nandCorrectData dat (code.take 3) calcd := by
  have hget : ∀ i < 3, (code.take 3).getD i 0 = code.getD i 0 := fun i hi => by
    rw [List.getD_eq_getElem?_getD, List.getElem?_take_of_lt hi, ← List.getD_eq_getElem?_getD]
  rw [nandCorrectData_eq, nandCorrectData_eq]
  unfold syndrome
  rw [hget 0 (by omega), hget 1 (by omega), hget 2 (by omega), List.getD_append _ _ _ _ (by omega),
    List.getD_append _ _ _ _ (by omega), List.getD_append _ _ _ _ (by omega)]

theorem eccCorrect_succ (n : ℕ) (p code : List UInt8) (st : EccStats) :
    eccCorrect (n + 1) p code (eccCalc (n + 1) p) st =
      ((nandCorrectData (p.take 256) (code.take 3) (nandCalculateEcc (p.take 256))).2 ++
        (eccCorrect n (p.drop 256) (code.drop 3) (eccCalc n (p.drop 256)) (eccCount st
          (nandCorrectData (p.take 256) (code.take 3) (nandCalculateEcc (p.take 256))).1)).1,
      (eccCorrect n (p.drop 256) (code.drop 3) (eccCalc n (p.drop 256)) (eccCount st
          (nandCorrectData (p.take 256) (code.take 3) (nandCalculateEcc (p.take 256))).1)).2) := by
  have hdrop : (nandCalculateEcc p ++ eccCalc n (p.drop 256)).drop 3 = eccCalc n (p.drop 256) :=
    List.drop_left' rfl
  rw [eccCorrect, eccCalc, nandCorrectData_take _ _ _ _ rfl, hdrop, nandCalculateEcc_take]

theorem le_eccCount (st : EccStats) (stat : ℤ) : st.failed ≤ (eccCount st stat).failed := by
  unfold eccCount
  split_ifs <;> simp

theorem eccCorrect_failed_le : ∀ (n : ℕ) (p code : List UInt8) (st : EccStats),
    st.failed ≤ (eccCorrect n p code (eccCalc n p) st).2.failed
  | 0, _, _, _ => le_rfl
  | n + 1, p, code, st => by
    rw [eccCorrect_succ]
    exact (le_eccCount st _).trans (eccCorrect_failed_le n _ _ _)

/-- With two wrong bits in a step at most, and no step counted as failed, the data are right. -/
theorem eccCorrect_two {n : ℕ} : ∀ {d p code : List UInt8} {st : EccStats},
    StepsWorn TwoBits n d p code → d.length = 256 * n → p.length = 256 * n → code.length = 3 * n →
    (eccCorrect n p code (eccCalc n p) st).2.failed = st.failed →
    (eccCorrect n p code (eccCalc n p) st).1 = d := by
  induction n with
  | zero =>
    intro d p code st _ hd hp _ _
    rw [List.length_eq_zero_iff.1 hp, List.length_eq_zero_iff.1 hd]
    rfl
  | succ n ih =>
    intro d p code st hw hd hp hc hfail
    rw [eccCorrect_succ] at hfail ⊢
    set stat := (nandCorrectData (p.take 256) (code.take 3) (nandCalculateEcc (p.take 256))).1
    dsimp only at hfail ⊢
    have hrest := eccCorrect_failed_le n (p.drop 256) (code.drop 3) (eccCount st stat)
    have hcount := le_eccCount st stat
    have hpos : 0 ≤ stat := by
      by_contra hneg
      have : (eccCount st stat).failed = st.failed + 1 := by
        rw [eccCount, if_pos (not_le.1 hneg)]
      omega
    have hstep := nandCorrectData_two (by rw [List.length_take]; omega)
      (by rw [List.length_take]; omega) (by rw [List.length_take]; omega) hw.1 hpos
    have hsame : (eccCorrect n (p.drop 256) (code.drop 3) (eccCalc n (p.drop 256))
        (eccCount st stat)).2.failed = (eccCount st stat).failed := by omega
    have hih := ih hw.2 (by rw [List.length_drop]; omega) (by rw [List.length_drop]; omega)
      (by rw [List.length_drop]; omega) hsame
    rw [hstep, hih, List.take_append_drop]

/-- With one wrong bit in a step at most none fails. -/
theorem eccCorrect_one {n : ℕ} : ∀ {d p code : List UInt8} {st : EccStats},
    StepsWorn OneBit n d p code → d.length = 256 * n → p.length = 256 * n → code.length = 3 * n →
    (eccCorrect n p code (eccCalc n p) st).2.failed = st.failed := by
  induction n with
  | zero => exact fun _ _ _ _ => rfl
  | succ n ih =>
    intro d p code st hw hd hp hc
    obtain ⟨i, hi⟩ := hw.1
    obtain ⟨hpos, -⟩ := nandCorrectData_one (by rw [List.length_take]; omega)
      (by rw [List.length_take]; omega) (by rw [List.length_take]; omega) hi
    rw [eccCorrect_succ]
    dsimp only
    rw [ih hw.2 (by rw [List.length_drop]; omega) (by rw [List.length_drop]; omega)
      (by rw [List.length_drop]; omega), eccCount, if_neg (not_lt.2 hpos)]

theorem StepsWorn.mono {W W' : List UInt8 → List UInt8 → Prop} (hW : ∀ as bs, W as bs → W' as bs) :
    ∀ {n : ℕ} {d p code : List UInt8}, StepsWorn W n d p code → StepsWorn W' n d p code
  | 0, _, _, _, _ => trivial
  | _ + 1, _, _, _, h => ⟨hW _ _ h.1, StepsWorn.mono hW h.2⟩

/-- Some of the steps. -/
theorem StepsWorn.slice {W : List UInt8 → List UInt8 → Prop} {d p code : List UInt8} :
    ∀ {n : ℕ} (a k : ℕ), StepsWorn W n d p code → a + k ≤ n →
    StepsWorn W k ((d.drop (a * 256)).take (k * 256)) ((p.drop (a * 256)).take (k * 256))
      ((code.drop (a * 3)).take (k * 3)) := by
  intro n a k h hle
  induction a generalizing n d p code with
  | zero =>
    simp only [Nat.zero_mul, List.drop_zero]
    induction k generalizing n d p code with
    | zero => exact trivial
    | succ k ih =>
      obtain _ | n := n
      · omega
      · have hih := ih h.2 (by omega)
        refine ⟨?_, ?_⟩
        · rw [List.take_take, List.take_take, List.take_take, min_eq_left (by omega),
            min_eq_left (by omega)]
          exact h.1
        · rw [List.drop_take, List.drop_take, List.drop_take,
            show (k + 1) * 256 - 256 = k * 256 by omega, show (k + 1) * 3 - 3 = k * 3 by omega]
          exact hih
  | succ a ih =>
    obtain _ | n := n
    · omega
    · have hih := ih h.2 (by omega)
      simp only [List.drop_drop] at hih
      rwa [show 256 + a * 256 = (a + 1) * 256 by omega,
        show 3 + a * 3 = (a + 1) * 3 by omega] at hih

end Steps

section Page

variable {c : NandChip}

structure NandChip.Ok (c : NandChip) : Prop where
  writesize_eq : c.writesize = 256 * c.steps
  steps_pos : 0 < c.steps
  total_le : c.total ≤ c.eccpos.length
  eccpos_lt : ∀ x ∈ c.eccpos.take c.total, x < c.oobsize
  nodup : (c.eccpos.take c.total).Nodup
  bus : c.busw ∣ c.oobsize
  /-- The code of a step ends with a word, or that of the next step begins within one. -/
  ends : ∀ k < c.steps,
    c.busw ∣ c.eccpos.getD (3 * k + 2) 0 + 1 ∨ ¬ c.busw ∣ c.eccpos.getD (3 * k + 3) 0

/-- `nand_oob_64` on a 16-bit bus. -/
example : NandChip.Ok ⟨2048, 64, 512, 2 ^ 27, (List.range 24).map (40 + ·), false, true⟩ :=
  ⟨rfl, by decide, by decide, by decide, by decide, by decide, by decide⟩

theorem NandChip.Ok.writesize_pos (hc : c.Ok) : 0 < c.writesize := by
  have := hc.writesize_eq
  have := hc.steps_pos
  omega

/-- The bytes of code in a page. -/
def NandChip.code (c : NandChip) (page : NandPage) : List UInt8 :=
  (c.eccpos.take c.total).map fun i => page.oob.getD i 0

/-- The page was written with the data `d` and is worn as `W` allows. -/
structure PageKept (c : NandChip) (W : List UInt8 → List UInt8 → Prop) (page : NandPage)
    (d : List UInt8) : Prop where
  length_page : page.data.length = c.writesize
  length_oob : page.oob.length = c.oobsize
  length_data : d.length = c.writesize
  worn : StepsWorn W c.steps d page.data (c.code page)

theorem PageKept.mono {W W' : List UInt8 → List UInt8 → Prop} (hW : ∀ as bs, W as bs → W' as bs)
    {page : NandPage} {d : List UInt8} (h : PageKept c W page d) : PageKept c W' page d :=
  ⟨h.length_page, h.length_oob, h.length_data, h.worn.mono hW⟩

theorem length_code (hc : c.Ok) (page : NandPage) : (c.code page).length = 3 * c.steps := by
  rw [NandChip.code, List.length_map, List.length_take, min_eq_left hc.total_le, NandChip.total,
    Nat.mul_comm]

/-- The code from the buffer the out-of-band bytes were read to. -/
theorem map_store_oob (hc : c.Ok) {page : NandPage} (hoob : page.oob.length = c.oobsize)
    (oobPoi : Mem) {pos : List ℕ} (hpos : ∀ x ∈ pos, x < c.oobsize) :
    pos.map (oobPoi.store 0 (page.oob.take (c.wordLen c.oobsize)))
      = pos.map fun i => page.oob.getD i 0 := by
  refine List.map_congr_left fun x hx => ?_
  have hlt := hpos x hx
  rw [NandChip.wordLen, Nat.div_mul_cancel hc.bus, List.take_of_length_le hoob.le]
  have h := Mem.store_add oobPoi 0 page.oob (hoob.symm ▸ hlt)
  rw [Nat.zero_add] at h
  rw [h, List.getD_eq_getElem _ _ (hoob.symm ▸ hlt)]

theorem readPage_eq (hc : c.Ok) {W : List UInt8 → List UInt8 → Prop} {page : NandPage}
    {d : List UInt8} (h : PageKept c W page d) (oobPoi : Mem) (st : EccStats) :
    (nandReadPageSwecc c page oobPoi st).1
        = (eccCorrect c.steps page.data (c.code page) (eccCalc c.steps page.data) st).1 ∧
      (nandReadPageSwecc c page oobPoi st).2.2
        = (eccCorrect c.steps page.data (c.code page) (eccCalc c.steps page.data) st).2 := by
  unfold nandReadPageSwecc
  dsimp only
  rw [map_store_oob hc h.length_oob _ hc.eccpos_lt, List.take_of_length_le h.length_page.le]
  exact ⟨rfl, rfl⟩

/-- Code bytes in one run follow the first. -/
theorem consecutive_eq : ∀ {pos : List ℕ} {i : ℕ},
    ((pos.zip pos.tail).any fun ab => ab.1 + 1 ≠ ab.2) = false → i < pos.length →
    pos.getD i 0 = pos.headD 0 + i
  | [], _, _, hi => absurd hi (Nat.not_lt_zero _)
  | [a], i, _, hi => by
    obtain rfl : i = 0 := Nat.lt_one_iff.1 hi
    rfl
  | a :: b :: pos, 0, _, _ => rfl
  | a :: b :: pos, i + 1, h, hi => by
    simp only [List.tail_cons, List.zip_cons_cons, List.any_cons, Bool.or_eq_false_iff,
      decide_eq_false_iff_not, not_not] at h
    obtain ⟨hab, hrest⟩ := h
    have ih := consecutive_eq hrest (Nat.lt_of_succ_lt_succ hi)
    simp only [List.headD_cons, List.getD_cons_succ] at ih ⊢
    omega

/-- The code from a part of the out-of-band bytes that has all of it. -/
theorem map_store_run {page : NandPage} {pos : List ℕ} (hoob : page.oob.length = c.oobsize)
    (hpos : ∀ x ∈ pos, x < c.oobsize) (oobPoi : Mem) {lo len : ℕ}
    (hin : ∀ x ∈ pos, lo ≤ x ∧ x < lo + len) :
    pos.map (oobPoi.store lo ((page.oob.drop lo).take len))
      = pos.map fun i => page.oob.getD i 0 := by
  refine List.map_congr_left fun x hx => ?_
  obtain ⟨hlo, hhi⟩ := hin x hx
  have hlt := hpos x hx
  obtain ⟨i, rfl⟩ := Nat.exists_eq_add_of_le hlo
  have hi : i < ((page.oob.drop lo).take len).length := by
    rw [List.length_take, List.length_drop]
    omega
  rw [Mem.store_add _ _ _ hi, List.getElem_take, List.getElem_drop,
    List.getD_eq_getElem _ _ (by omega)]

/-- The words from the first place of `n` bytes on have them all, if the last byte ends one or the
place after them is counted in. -/
theorem NandChip.words_cover (c : NandChip) {first next n : ℕ}
    (hend : c.busw ∣ first + n ∨ ¬ c.busw ∣ next) :
    first + n ≤ first - first % c.busw + c.wordLen (n + (if first % c.busw ≠ 0 then 1 else 0) +
      (if next % c.busw ≠ 0 then 1 else 0)) := by
  unfold NandChip.wordLen
  unfold NandChip.busw at hend ⊢
  split_ifs at hend ⊢ <;> omega

/-- The code that is read for `k` steps, alone or with all out-of-band bytes. -/
theorem readSubpage_code (hc : c.Ok) {page : NandPage} (hoob : page.oob.length = c.oobsize)
    (oobPoi : Mem) {pos : List ℕ} {a k next : ℕ} (hlen : pos.length = k * 3)
    (hpos : ∀ x ∈ pos, x < c.oobsize)
    (hget : ∀ i < k * 3, pos.getD i 0 = c.eccpos.getD (a * 3 + i) 0) (hk : 0 < k)
    (hends : c.busw ∣ c.eccpos.getD (a * 3 + (k * 3 - 1)) 0 + 1 ∨ ¬ c.busw ∣ next) :
    pos.map (if ((pos.zip pos.tail).any fun ab => ab.1 + 1 ≠ ab.2) = true then
        oobPoi.store 0 (page.oob.take (c.wordLen c.oobsize))
      else oobPoi.store (c.eccpos.getD (a * 3) 0 - c.eccpos.getD (a * 3) 0 % c.busw)
        ((page.oob.drop (c.eccpos.getD (a * 3) 0 - c.eccpos.getD (a * 3) 0 % c.busw)).take
          (c.wordLen (k * 3 + (if c.eccpos.getD (a * 3) 0 % c.busw ≠ 0 then 1 else 0) +
            (if next % c.busw ≠ 0 then 1 else 0)))))
      = pos.map fun i => page.oob.getD i 0 := by
  by_cases hgaps : ((pos.zip pos.tail).any fun ab => ab.1 + 1 ≠ ab.2) = true
  · rw [if_pos hgaps]
    exact map_store_oob hc hoob _ hpos
  rw [if_neg hgaps]
  have hrun : ∀ i < k * 3, pos.getD i 0 = c.eccpos.getD (a * 3) 0 + i := fun i hi => by
    have hfirst := consecutive_eq (i := 0) (Bool.eq_false_iff.2 hgaps) (by omega)
    have hi := consecutive_eq (Bool.eq_false_iff.2 hgaps) (hlen.symm ▸ hi)
    rw [hi, ← Nat.add_zero (a * 3), ← hget 0 (by omega), hfirst, Nat.add_zero]
  have hwhole : c.busw ∣ c.eccpos.getD (a * 3) 0 + k * 3 ∨ ¬ c.busw ∣ next := by
    rw [← hget _ (by omega), hrun _ (by omega), show ∀ x, x + (k * 3 - 1) + 1 = x + k * 3 by omega]
      at hends
    exact hends
  have hcover := c.words_cover hwhole
  refine map_store_run hoob hpos oobPoi fun x hx => ?_
  obtain ⟨i, hi, rfl⟩ := List.getElem_of_mem hx
  have hplace := hrun i (by omega)
  rw [List.getD_eq_getElem _ _ hi] at hplace
  have hbelow : pos[i] < c.eccpos.getD (a * 3) 0 + k * 3 := by omega
  exact ⟨by omega, hbelow.trans_le hcover⟩

/-- The steps of a part of a page. -/
theorem readSubpage_eq (hc : c.Ok) {W : List UInt8 → List UInt8 → Prop} {page : NandPage}
    {d : List UInt8} (h : PageKept c W page d) {col bytes : ℕ} (hb : 0 < bytes)
    (hend : col + bytes ≤ c.writesize) (bufpoi oobPoi : Mem) (st : EccStats) :
    ∃ a k p code, a * 256 ≤ col ∧ col + bytes ≤ (a + k) * 256 ∧ p.length = 256 * k ∧
      ((d.drop (a * 256)).take (k * 256)).length = 256 * k ∧ code.length = 3 * k ∧
      StepsWorn W k ((d.drop (a * 256)).take (k * 256)) p code ∧
      (nandReadSubpage c page col bytes bufpoi oobPoi st).1
        = bufpoi.store (a * 256) (eccCorrect k p code (eccCalc k p) st).1 ∧
      (nandReadSubpage c page col bytes bufpoi oobPoi st).2.2
        = (eccCorrect k p code (eccCalc k p) st).2 := by
  have hws := hc.writesize_eq
  have hlp := h.length_page
  have hld := h.length_data
  set a := col / 256
  set k := (col + bytes - 1) / 256 - a + 1 with hk
  have hak : a + k ≤ c.steps := by omega
  have hslice := h.worn.slice a k hak
  refine ⟨a, k, _, _, by omega, by omega, ?_, ?_, ?_, hslice, ?_⟩
  · rw [List.length_take, List.length_drop]
    omega
  · rw [List.length_take, List.length_drop]
    omega
  · rw [List.length_take, List.length_drop, length_code hc]
    omega
  have hpos : (c.eccpos.drop (a * 3)).take (k * 3)
      = ((c.eccpos.take c.total).drop (a * 3)).take (k * 3) := by
    rw [List.drop_take, List.take_take, min_eq_left (by rw [NandChip.total]; omega)]
  have hlen : ((c.eccpos.drop (a * 3)).take (k * 3)).length = k * 3 := by
    have := hc.total_le
    rw [NandChip.total] at this
    rw [List.length_take, List.length_drop]
    omega
  have hlt : ∀ x ∈ (c.eccpos.drop (a * 3)).take (k * 3), x < c.oobsize := fun x hx =>
    hc.eccpos_lt x (List.mem_of_mem_drop (List.mem_of_mem_take (hpos ▸ hx)))
  have hcode : ((c.code page).drop (a * 3)).take (k * 3)
      = ((c.eccpos.drop (a * 3)).take (k * 3)).map fun i => page.oob.getD i 0 := by
    rw [NandChip.code, ← List.map_drop, ← List.map_take, hpos]
  have hget : ∀ i < k * 3, ((c.eccpos.drop (a * 3)).take (k * 3)).getD i 0
      = c.eccpos.getD (a * 3 + i) 0 := fun i hi => by
    rw [List.getD_eq_getElem?_getD, List.getElem?_take_of_lt hi, List.getElem?_drop,
      ← List.getD_eq_getElem?_getD]
  have hends : c.busw ∣ c.eccpos.getD (a * 3 + (k * 3 - 1)) 0 + 1 ∨
      ¬ c.busw ∣ c.eccpos.getD ((a + k) * 3) 0 := by
    have hlast := hc.ends (a + k - 1) (by omega)
    rwa [show 3 * (a + k - 1) + 2 = a * 3 + (k * 3 - 1) by omega,
      show 3 * (a + k - 1) + 3 = (a + k) * 3 by omega] at hlast
  unfold nandReadSubpage
  dsimp only
  rw [← hk, readSubpage_code hc h.length_oob oobPoi hlen hlt hget (by omega) hends, ← hcode]
  exact ⟨rfl, rfl⟩

end Page

section Read

/-- The pages from `lo` to `hi` hold what `dev` has there, worn as `W` allows, and so does the
buffer if it has one of them. Chips with subpage reads never have a page in the buffer. -/
structure ReadsAs (c : NandChip) (W : List UInt8 → List UInt8 → Prop) (dev : Mem) (lo hi : ℕ)
    (s : NandState) : Prop where
  kept : ∀ n, lo ≤ n → n < hi → PageKept c W (s.pages n) (dev.load (n * c.writesize) c.writesize)
  cached : ∀ n, s.pagebuf = some n → lo ≤ n → n < hi →
    s.databuf.load 0 c.writesize = dev.load (n * c.writesize) c.writesize
  nocache : c.subpageRead = true → s.pagebuf = none

variable {c : NandChip} {W : List UInt8 → List UInt8 → Prop} {dev : Mem} {lo hi : ℕ}
  {s : NandState} {n col bytes : ℕ}

theorem ReadsAs.mono {W' : List UInt8 → List UInt8 → Prop} (hW : ∀ as bs, W as bs → W' as bs)
    (h : ReadsAs c W dev lo hi s) : ReadsAs c W' dev lo hi s :=
  ⟨fun n h1 h2 => (h.kept n h1 h2).mono hW, h.cached, h.nocache⟩

theorem load_part {m m' : Mem} {b N : ℕ} (h : m.load 0 N = m'.load b N) (hle : col + bytes ≤ N) :
    m.load col bytes = m'.load (b + col) bytes := by
  refine Mem.load_congr fun i hi => ?_
  have hbyte := List.getElem_of_eq h (i := col + i) (by rw [Mem.length_load]; omega)
  rwa [Mem.getElem_load, Mem.getElem_load, Nat.zero_add, ← Nat.add_assoc] at hbyte

/-- What was stored over the steps of a part gives the part. -/
theorem load_steps {bufpoi : Mem} {b a k : ℕ} (hlo : a * 256 ≤ col)
    (hhi : col + bytes ≤ (a + k) * 256)
    (hlen : (((dev.load b c.writesize).drop (a * 256)).take (k * 256)).length = 256 * k) :
    (bufpoi.store (a * 256)
      (((dev.load b c.writesize).drop (a * 256)).take (k * 256))).load col bytes
      = dev.load (b + col) bytes := by
  refine Mem.load_congr fun i hi => ?_
  obtain ⟨j, hj⟩ := Nat.exists_eq_add_of_le hlo
  have hlt : j + i < (((dev.load b c.writesize).drop (a * 256)).take (k * 256)).length := by omega
  rw [hj, Nat.add_assoc, Mem.store_add _ _ _ hlt, List.getElem_take, List.getElem_drop,
    Mem.getElem_load]
  congr 1
  omega

theorem readPagePart_failed_le (hc : c.Ok) {d : List UInt8} (h : PageKept c W (s.pages n) d)
    (hb : 0 < bytes) (hend : col + bytes ≤ c.writesize) :
    s.stats.failed ≤ (readPagePart c n col bytes s).2.stats.failed := by
  obtain ⟨-, hpage⟩ := readPage_eq hc h s.oobPoi s.stats
  obtain ⟨a, k, p, code, -, -, -, -, -, -, -, hsub⟩ :=
    readSubpage_eq hc h hb hend s.databuf s.oobPoi s.stats
  unfold readPagePart
  split_ifs
  · exact le_rfl
  · dsimp only
    rw [hpage]
    exact eccCorrect_failed_le _ _ _ _
  · dsimp only
    rw [hsub]
    exact eccCorrect_failed_le _ _ _ _
  · dsimp only
    rw [hpage]
    exact eccCorrect_failed_le _ _ _ _

/-- A part of a page in which no step failed is right, and so is what is in the buffer then. -/
theorem readPagePart_right (hc : c.Ok) (h : ReadsAs c TwoBits dev lo hi s) (hlo : lo ≤ n)
    (hhi : n < hi) (hb : 0 < bytes) (hend : col + bytes ≤ c.writesize)
    (hfail : (readPagePart c n col bytes s).2.stats.failed = s.stats.failed) :
    (readPagePart c n col bytes s).1 = dev.load (n * c.writesize + col) bytes ∧
      ReadsAs c TwoBits dev lo hi (readPagePart c n col bytes s).2 := by
  have hkept := h.kept n hlo hhi
  have hws := hc.writesize_eq
  obtain ⟨hdata, hstats⟩ := readPage_eq hc hkept s.oobPoi s.stats
  obtain ⟨a, k, p, code, hlo', hhi', hp, hd, hcode, hworn, hsub, hsubstats⟩ :=
    readSubpage_eq hc hkept hb hend s.databuf s.oobPoi s.stats
  have hwhole : (nandReadPageSwecc c (s.pages n) s.oobPoi s.stats).2.2.failed = s.stats.failed →
      (nandReadPageSwecc c (s.pages n) s.oobPoi s.stats).1
        = dev.load (n * c.writesize) c.writesize := fun hf => by
    rw [hstats] at hf
    rw [hdata]
    exact eccCorrect_two hkept.worn (by rw [hkept.length_data, hws])
      (by rw [hkept.length_page, hws]) (length_code hc _) hf
  unfold readPagePart at hfail ⊢
  by_cases hcached : s.pagebuf = some n
  · rw [if_pos hcached]
    exact ⟨load_part (h.cached n hcached hlo hhi) hend, h⟩
  rw [if_neg hcached] at hfail ⊢
  by_cases hall : bytes = c.writesize
  · rw [if_pos hall] at hfail ⊢
    obtain rfl : col = 0 := by omega
    exact ⟨by rw [hall]; exact hwhole hfail, h.kept, h.cached, h.nocache⟩
  rw [if_neg hall] at hfail ⊢
  by_cases hsp : c.subpageRead = true
  · rw [if_pos hsp] at hfail ⊢
    dsimp only at hfail ⊢
    rw [hsubstats] at hfail
    rw [hsub, eccCorrect_two hworn hd hp hcode hfail]
    refine ⟨load_steps hlo' hhi' hd, h.kept, fun m hm => ?_, h.nocache⟩
    exact absurd (hm.symm.trans (h.nocache hsp)) (Option.some_ne_none m)
  · rw [if_neg hsp] at hfail ⊢
    have hbuf : (s.databuf.store 0 (dev.load (n * c.writesize) c.writesize)).load 0 c.writesize
        = dev.load (n * c.writesize) c.writesize := by
      have hsame := Mem.load_store_same s.databuf 0 (dev.load (n * c.writesize) c.writesize)
      rwa [Mem.length_load] at hsame
    dsimp only at hfail ⊢
    rw [hwhole hfail]
    refine ⟨load_part hbuf hend, h.kept, fun m hm _ _ => ?_, fun hsub => absurd hsub hsp⟩
    rw [← Option.some.inj hm]
    exact hbuf

theorem readPagePart_one (hc : c.Ok) (h : ReadsAs c OneBit dev lo hi s) (hlo : lo ≤ n)
    (hhi : n < hi) (hb : 0 < bytes) (hend : col + bytes ≤ c.writesize) :
    (readPagePart c n col bytes s).2.stats.failed = s.stats.failed := by
  have hkept := h.kept n hlo hhi
  have hws := hc.writesize_eq
  obtain ⟨-, hstats⟩ := readPage_eq hc hkept s.oobPoi s.stats
  obtain ⟨a, k, p, code, -, -, hp, hd, hcode, hworn, -, hsubstats⟩ :=
    readSubpage_eq hc hkept hb hend s.databuf s.oobPoi s.stats
  have hwhole : (nandReadPageSwecc c (s.pages n) s.oobPoi s.stats).2.2.failed = s.stats.failed := by
    rw [hstats]
    exact eccCorrect_one hkept.worn (by rw [hkept.length_data, hws])
      (by rw [hkept.length_page, hws]) (length_code hc _)
  unfold readPagePart
  split_ifs
  · rfl
  · exact hwhole
  · dsimp only
    rw [hsubstats]
    exact eccCorrect_one hworn hd hp hcode
  · exact hwhole

theorem readPagePart_pages (n col bytes : ℕ) (s : NandState) :
    (readPagePart c n col bytes s).2.pages = s.pages := by
  unfold readPagePart
  split_ifs <;> rfl

/-- One round of the loop, and the rest if there is one. -/
theorem readOpsLoop_succ (fuel n col readlen : ℕ) (s : NandState) :
    readOpsLoop c (fuel + 1) n col readlen s =
      if readlen - min (c.writesize - col) readlen = 0 then
        readPagePart c n col (min (c.writesize - col) readlen) s
      else
        ((readPagePart c n col (min (c.writesize - col) readlen) s).1 ++
          (readOpsLoop c fuel (n + 1) 0 (readlen - min (c.writesize - col) readlen)
            (readPagePart c n col (min (c.writesize - col) readlen) s).2).1,
        (readOpsLoop c fuel (n + 1) 0 (readlen - min (c.writesize - col) readlen)
            (readPagePart c n col (min (c.writesize - col) readlen) s).2).2) := rfl

theorem readOpsLoop_pages (fuel : ℕ) : ∀ (n col readlen : ℕ) (s : NandState),
    (readOpsLoop c fuel n col readlen s).2.pages = s.pages := by
  induction fuel with
  | zero => exact fun _ _ _ _ => rfl
  | succ fuel ih =>
    intro n col readlen s
    rw [readOpsLoop_succ]
    split_ifs
    · exact readPagePart_pages _ _ _ _
    · exact (ih _ _ _ _).trans (readPagePart_pages _ _ _ _)

theorem readOpsLoop_failed_le (hc : c.Ok) (fuel : ℕ) : ∀ {n col readlen : ℕ} {s : NandState},
    (∀ m, lo ≤ m → m < hi → PageKept c W (s.pages m) (dev.load (m * c.writesize) c.writesize)) →
    lo ≤ n → col < c.writesize → 0 < readlen →
    n * c.writesize + col + readlen ≤ hi * c.writesize →
    s.stats.failed ≤ (readOpsLoop c fuel n col readlen s).2.stats.failed := by
  induction fuel with
  | zero => exact fun _ _ _ _ _ => le_rfl
  | succ fuel ih =>
    intro n col readlen s hkept hlo hcol hlen hend
    have hhi : n < hi := Nat.lt_of_mul_lt_mul_right (a := c.writesize) (by omega)
    have hpart : s.stats.failed ≤
        (readPagePart c n col (min (c.writesize - col) readlen) s).2.stats.failed :=
      readPagePart_failed_le hc (hkept n hlo hhi) (by omega) (by omega)
    rw [readOpsLoop_succ]
    split_ifs with hdone
    · exact hpart
    · refine hpart.trans (ih (fun m h1 h2 => ?_) (by omega) (by omega) (by omega) ?_)
      · rw [readPagePart_pages]
        exact hkept m h1 h2
      · rw [Nat.succ_mul]
        omega

theorem readOpsLoop_right (hc : c.Ok) (fuel : ℕ) : ∀ {n col readlen : ℕ} {s : NandState},
    ReadsAs c TwoBits dev lo hi s → lo ≤ n → col < c.writesize → 0 < readlen → readlen ≤ fuel →
    n * c.writesize + col + readlen ≤ hi * c.writesize →
    (readOpsLoop c fuel n col readlen s).2.stats.failed = s.stats.failed →
    (readOpsLoop c fuel n col readlen s).1 = dev.load (n * c.writesize + col) readlen ∧
      ReadsAs c TwoBits dev lo hi (readOpsLoop c fuel n col readlen s).2 := by
  induction fuel with
  | zero =>
    intro _ _ _ _ _ _ _ hlen hfuel
    omega
  | succ fuel ih =>
    intro n col readlen s h hlo hcol hlen hfuel hend hfail
    have hhi : n < hi := Nat.lt_of_mul_lt_mul_right (a := c.writesize) (by omega)
    set bytes := min (c.writesize - col) readlen with hbytes
    have hle : s.stats.failed ≤ (readPagePart c n col bytes s).2.stats.failed :=
      readPagePart_failed_le hc (h.kept n hlo hhi) (by omega) (by omega)
    rw [readOpsLoop_succ, ← hbytes] at hfail ⊢
    by_cases hdone : readlen - bytes = 0
    · rw [if_pos hdone] at hfail ⊢
      have hall : bytes = readlen := by omega
      obtain ⟨hdata, hnext⟩ := readPagePart_right hc h hlo hhi (by omega) (by omega) hfail
      rw [hall] at hdata hnext ⊢
      exact ⟨hdata, hnext⟩
    · rw [if_neg hdone] at hfail ⊢
      have hcolb : col + bytes = c.writesize := by omega
      have hnend : (n + 1) * c.writesize + 0 + (readlen - bytes) ≤ hi * c.writesize := by
        rw [Nat.succ_mul]
        omega
      have hkept : ∀ m, lo ≤ m → m < hi → PageKept c TwoBits
          ((readPagePart c n col bytes s).2.pages m)
          (dev.load (m * c.writesize) c.writesize) := by
        rw [readPagePart_pages]
        exact h.kept
      have hrest : (readPagePart c n col bytes s).2.stats.failed ≤ (readOpsLoop c fuel (n + 1) 0
          (readlen - bytes) (readPagePart c n col bytes s).2).2.stats.failed :=
        readOpsLoop_failed_le hc fuel hkept (by omega) (by omega) (by omega) hnend
      obtain ⟨hdata, hnext⟩ := readPagePart_right hc h hlo hhi (by omega) (by omega)
        (le_antisymm (hrest.trans hfail.le) hle)
      obtain ⟨hdata', hnext'⟩ := ih hnext (by omega) (by omega) (by omega) (by omega) hnend
        (le_antisymm (hfail.le.trans hle) hrest)
      refine ⟨?_, hnext'⟩
      dsimp only
      rw [hdata, hdata', show (n + 1) * c.writesize + 0 = n * c.writesize + col + bytes by
        rw [Nat.succ_mul]; omega, ← Mem.load_add, Nat.add_sub_cancel' (by omega)]

theorem readOpsLoop_one (hc : c.Ok) (fuel : ℕ) : ∀ {n col readlen : ℕ} {s : NandState},
    ReadsAs c OneBit dev lo hi s → lo ≤ n → col < c.writesize → 0 < readlen →
    n * c.writesize + col + readlen ≤ hi * c.writesize →
    (readOpsLoop c fuel n col readlen s).2.stats.failed = s.stats.failed := by
  induction fuel with
  | zero => exact fun _ _ _ _ _ => rfl
  | succ fuel ih =>
    intro n col readlen s h hlo hcol hlen hend
    have hhi : n < hi := Nat.lt_of_mul_lt_mul_right (a := c.writesize) (by omega)
    set bytes := min (c.writesize - col) readlen with hbytes
    have hone : (readPagePart c n col bytes s).2.stats.failed = s.stats.failed :=
      readPagePart_one hc h hlo hhi (by omega) (by omega)
    rw [readOpsLoop_succ, ← hbytes]
    split_ifs with hdone
    · exact hone
    · have htwo : ReadsAs c TwoBits dev lo hi s := h.mono fun _ _ => OneBit.twoBits
      obtain ⟨-, hnext⟩ := readPagePart_right hc htwo hlo hhi (by omega) (by omega) hone
      have hnext1 : ReadsAs c OneBit dev lo hi (readPagePart c n col bytes s).2 :=
        ⟨fun m h1 h2 => by rw [readPagePart_pages]; exact h.kept m h1 h2, hnext.cached,
          hnext.nocache⟩
      exact (ih hnext1 (by omega) (by omega) (by omega) (by rw [Nat.succ_mul]; omega)).trans hone

theorem mtdNandRead_eq {start len : ℕ} (hsize : start + len ≤ c.size) (hlen : 0 < len)
    (s : NandState) : mtdNandRead c start len s = nandDoReadOps c start len s := by
  rw [mtdNandRead, if_neg (Nat.not_lt.2 hsize), if_neg hlen.ne']

/-- A read that does not fail is right. -/
theorem mtdNandRead_right (hc : c.Ok) (h : ReadsAs c TwoBits dev lo hi s) {start len : ℕ}
    (hlo : lo * c.writesize ≤ start) (hhi : start + len ≤ hi * c.writesize)
    (hsize : start + len ≤ c.size) (hok : (mtdNandRead c start len s).1 ≠ -EBADMSG) :
    (mtdNandRead c start len s).2.1 = dev.load start len ∧
      ReadsAs c TwoBits dev lo hi (mtdNandRead c start len s).2.2 := by
  have hws := hc.writesize_pos
  rcases Nat.eq_zero_or_pos len with rfl | hlen
  · rw [mtdNandRead, if_neg (Nat.not_lt.2 hsize), if_pos rfl]
    exact ⟨rfl, h⟩
  have hsplit : start / c.writesize * c.writesize + start % c.writesize = start :=
    Nat.div_add_mod' _ _
  have hfirst : lo ≤ start / c.writesize := (Nat.le_div_iff_mul_le hws).2 hlo
  have hle : s.stats.failed ≤ (readOpsLoop c len (start / c.writesize) (start % c.writesize) len
      s).2.stats.failed :=
    readOpsLoop_failed_le hc len h.kept hfirst (Nat.mod_lt start hws) hlen (by omega)
  rw [mtdNandRead_eq hsize hlen] at hok ⊢
  have hfail : (readOpsLoop c len (start / c.writesize) (start % c.writesize) len s).2.stats.failed
      = s.stats.failed := by
    by_contra hne
    refine hok ?_
    unfold nandDoReadOps
    dsimp only
    rw [if_pos (by omega)]
  obtain ⟨hdata, hnext⟩ := readOpsLoop_right hc len h hfirst (Nat.mod_lt start hws) hlen le_rfl
    (by omega) hfail
  rw [hsplit] at hdata
  exact ⟨hdata, hnext⟩

theorem mtdNandRead_one (hc : c.Ok) (h : ReadsAs c OneBit dev lo hi s) {start len : ℕ}
    (hlo : lo * c.writesize ≤ start) (hhi : start + len ≤ hi * c.writesize)
    (hsize : start + len ≤ c.size) :
    (mtdNandRead c start len s).1 = 0 ∨ (mtdNandRead c start len s).1 = -EUCLEAN := by
  have hws := hc.writesize_pos
  rcases Nat.eq_zero_or_pos len with rfl | hlen
  · rw [mtdNandRead, if_neg (Nat.not_lt.2 hsize), if_pos rfl]
    exact Or.inl rfl
  have hsplit : start / c.writesize * c.writesize + start % c.writesize = start :=
    Nat.div_add_mod' _ _
  have hone := readOpsLoop_one hc len h ((Nat.le_div_iff_mul_le hws).2 hlo) (Nat.mod_lt start hws)
    hlen (by omega)
  rw [mtdNandRead_eq hsize hlen]
  unfold nandDoReadOps
  dsimp only
  rw [hone, Nat.sub_self, if_neg (fun h => h rfl)]
  split_ifs
  · exact Or.inr rfl
  · exact Or.inl rfl

theorem mtdNandRead_ne (hc : c.Ok) (h : ReadsAs c OneBit dev lo hi s) {start len : ℕ}
    (hlo : lo * c.writesize ≤ start) (hhi : start + len ≤ hi * c.writesize)
    (hsize : start + len ≤ c.size) : (mtdNandRead c start len s).1 ≠ -EBADMSG := by
  rcases mtdNandRead_one hc h hlo hhi hsize with h0 | h0 <;> rw [h0] <;> decide

theorem mtdNandRead_state (start len : ℕ) (s : NandState) :
    (mtdNandRead c start len s).2.2.pages = s.pages := by
  unfold mtdNandRead nandDoReadOps
  split_ifs
  · rfl
  · rfl
  · exact readOpsLoop_pages _ _ _ _ _

end Read

section Write

variable {c : NandChip}

/-- Bytes put to places of their own. -/
theorem foldl_set (pos : ℕ → ℕ) (val : ℕ → UInt8) (oob : List UInt8) (k : ℕ)
    (hlt : ∀ i < k, pos i < oob.length) (hinj : ∀ i < k, ∀ j < k, pos i = pos j → i = j) :
    ((List.range k).foldl (fun oob i => oob.set (pos i) (val i)) oob).length = oob.length ∧
      ∀ i < k, ((List.range k).foldl (fun oob i => oob.set (pos i) (val i)) oob).getD (pos i) 0
        = val i := by
  induction k with
  | zero => exact ⟨rfl, fun i hi => absurd hi (Nat.not_lt_zero i)⟩
  | succ k ih =>
    obtain ⟨hlen, hval⟩ := ih (fun i hi => hlt i (by omega)) fun i hi j hj => hinj i (by omega) j
      (by omega)
    rw [List.range_succ, List.foldl_append, List.foldl_cons, List.foldl_nil]
    refine ⟨by rw [List.length_set, hlen], fun i hi => ?_⟩
    rcases Nat.lt_succ_iff_lt_or_eq.1 hi with h | rfl
    · have hne : pos k ≠ pos i := fun he => by
        have := hinj k (by omega) i (by omega) he
        omega
      rw [List.getD_eq_getElem?_getD, List.getElem?_set_ne hne, ← List.getD_eq_getElem?_getD]
      exact hval i h
    · rw [List.getD_eq_getElem _ _ (by rw [List.length_set, hlen]; exact hlt i (by omega)),
        List.getElem_set_self]

theorem length_eccCalc : ∀ (n : ℕ) (p : List UInt8), (eccCalc n p).length = 3 * n
  | 0, _ => rfl
  | n + 1, p => by
    rw [eccCalc, List.length_append, length_eccCalc n, length_nandCalculateEcc]
    omega

/-- The page that is sent has the code of its data. -/
theorem writePage_code (hc : c.Ok) {oobPoi : List UInt8} (hoob : oobPoi.length = c.oobsize)
    (buf : List UInt8) : (nandWritePageSwecc c oobPoi buf).oob.length = c.oobsize ∧
      c.code (nandWritePageSwecc c oobPoi buf) = eccCalc c.steps buf := by
  have hget : ∀ i (hi : i < c.total), c.eccpos.getD i 0 ∈ c.eccpos.take c.total := fun i hi => by
    have hle := hc.total_le
    rw [List.getD_eq_getElem _ _ (by omega)]
    exact List.mem_take_iff_getElem.2 ⟨i, by omega, rfl⟩
  have hinj : ∀ i < c.total, ∀ j < c.total, c.eccpos.getD i 0 = c.eccpos.getD j 0 → i = j :=
    fun i hi j hj h => by
      have hle := hc.total_le
      have hlen : (c.eccpos.take c.total).length = c.total := by
        rw [List.length_take, min_eq_left hle]
      rw [List.getD_eq_getElem _ _ (by omega), List.getD_eq_getElem _ _ (by omega)] at h
      have hi' : i < (c.eccpos.take c.total).length := hlen.symm ▸ hi
      have hj' : j < (c.eccpos.take c.total).length := hlen.symm ▸ hj
      have hsame : (c.eccpos.take c.total)[i] = (c.eccpos.take c.total)[j] := by
        rw [List.getElem_take, List.getElem_take]
        exact h
      exact (List.Nodup.getElem_inj_iff hc.nodup).1 hsame
  obtain ⟨hlen, hval⟩ := foldl_set (fun i => c.eccpos.getD i 0)
    (fun i => (eccCalc c.steps buf).getD i 0) oobPoi c.total
    (fun i hi => by rw [hoob]; exact hc.eccpos_lt _ (hget i hi)) hinj
  refine ⟨hlen.trans hoob, List.ext_getElem ?_ fun i h1 h2 => ?_⟩
  · rw [length_code hc, length_eccCalc]
  · rw [length_code hc] at h1
    have hle := hc.total_le
    have hi : i < c.total := by rw [NandChip.total]; omega
    have hv := hval i hi
    rw [List.getD_eq_getElem _ _ (by omega : i < c.eccpos.length),
      List.getD_eq_getElem _ _ h2] at hv
    simp only [NandChip.code, List.getElem_map, List.getElem_take]
    exact hv

/-- An erased page. -/
def NandChip.erased (c : NandChip) : NandPage :=
  ⟨List.replicate c.writesize 0xff, List.replicate c.oobsize 0xff⟩

theorem zipWith_ones (bs : List UInt8) :
    List.zipWith (· &&& ·) (List.replicate bs.length 0xff) bs = bs := by
  have hone : ∀ b : UInt8, 0xff &&& b = b := fun b => by
    have h : (0xff : UInt8) = -1 := rfl
    rw [h, UInt8.neg_one_and]
  induction bs with
  | nil => rfl
  | cons b bs ih => rw [List.length_cons, List.replicate_succ, List.zipWith_cons_cons, ih, hone]

theorem programPage_erased {page : NandPage} (hdata : page.data.length = c.writesize)
    (hoob : page.oob.length = c.oobsize) : programPage c.erased page = page := by
  unfold programPage NandChip.erased
  rw [← hdata, ← hoob, zipWith_ones, zipWith_ones]

theorem stepsWorn_eccCalc : ∀ {n : ℕ} (d : List UInt8), StepsWorn (· = ·) n d d (eccCalc n d)
  | 0, _ => trivial
  | n + 1, d => by
    have htake : (eccCalc (n + 1) d).take 3 = nandCalculateEcc (d.take 256) := by
      rw [eccCalc, List.take_left' (length_nandCalculateEcc d), nandCalculateEcc_take]
    have hdrop : (eccCalc (n + 1) d).drop 3 = eccCalc n (d.drop 256) := by
      rw [eccCalc, List.drop_left' (length_nandCalculateEcc d)]
    exact ⟨by rw [htake], by rw [hdrop]; exact stepsWorn_eccCalc (d.drop 256)⟩

/-- The chip with the page written. -/
def pageWritten (s : NandState) (n : ℕ) (page : NandPage) : NandState :=
  { s with pages := Function.update s.pages n (programPage (s.pages n) page) }

theorem writeOpsLoop_full {fails : ℕ → Option NandPage} {fuel n : ℕ} {buf oobPoi : List UInt8}
    {s : NandState} (hge : c.writesize ≤ buf.length) (hws : 0 < c.writesize)
    (hf : fails n = none) :
    writeOpsLoop c fails (fuel + 1) n 0 buf oobPoi s =
      if buf.length - c.writesize = 0 then
        (0, pageWritten s n (nandWritePageSwecc c oobPoi (buf.take c.writesize)))
      else writeOpsLoop c fails fuel (n + 1) 0 (buf.drop c.writesize)
        (nandWritePageSwecc c oobPoi (buf.take c.writesize)).oob
        (pageWritten s n (nandWritePageSwecc c oobPoi (buf.take c.writesize))) := by
  have hfull : ¬ ((0 : ℕ) ≠ 0 ∨ buf.length < c.writesize - 1) := by omega
  rw [writeOpsLoop]
  simp only [if_neg hfull, hf]
  rfl

theorem writeOpsLoop_fails {fails : ℕ → Option NandPage} {fuel n : ℕ} {buf oobPoi : List UInt8}
    {s : NandState} {junk : NandPage} (hf : fails n = some junk) :
    (writeOpsLoop c fails (fuel + 1) n 0 buf oobPoi s).1 = - EIO := by
  rw [writeOpsLoop]
  simp only [hf]

/-- Whole pages written where all was erased. -/
theorem writeOpsLoop_right (hc : c.Ok) {fails : ℕ → Option NandPage} (fuel : ℕ) :
    ∀ {n k : ℕ} {buf oobPoi : List UInt8} {s s' : NandState},
    buf.length = (k + 1) * c.writesize → k < fuel → oobPoi.length = c.oobsize →
    (∀ i ≤ k, s.pages (n + i) = c.erased) →
    writeOpsLoop c fails fuel n 0 buf oobPoi s = (0, s') →
    (∀ i ≤ k, PageKept c (· = ·) (s'.pages (n + i))
      ((buf.drop (i * c.writesize)).take c.writesize)) ∧
      (∀ m, m < n → s'.pages m = s.pages m) ∧ s'.pagebuf = s.pagebuf := by
  have hws := hc.writesize_pos
  induction fuel with
  | zero =>
    intro _ k _ _ _ _ _ hfuel
    omega
  | succ fuel ih =>
    intro n k buf oobPoi s s' hlen hfuel hoob herased hret
    have hge : c.writesize ≤ buf.length := by
      rw [hlen, Nat.succ_mul]
      omega
    rcases hf : fails n with _ | junk
    swap
    · have hneg : (writeOpsLoop c fails (fuel + 1) n 0 buf oobPoi s).1 = - EIO :=
        writeOpsLoop_fails hf
      rw [hret] at hneg
      exact absurd (show (0 : ℤ) = - EIO from hneg) (by decide)
    obtain ⟨hpoob, hpcode⟩ := writePage_code hc hoob (buf.take c.writesize)
    rw [writeOpsLoop_full hge hws hf] at hret
    set page := nandWritePageSwecc c oobPoi (buf.take c.writesize) with hpage
    have hpdata : page.data.length = c.writesize := by
      rw [hpage, nandWritePageSwecc, List.length_take, min_eq_left hge]
    have hfirst : PageKept c (· = ·) page (buf.take c.writesize) :=
      ⟨hpdata, hpoob, hpdata, by rw [hpcode]; exact stepsWorn_eccCalc _⟩
    have hput : (pageWritten s n page).pages n = page := by
      have h0 := herased 0 (Nat.zero_le k)
      rw [Nat.add_zero] at h0
      have hup : (pageWritten s n page).pages n = programPage (s.pages n) page :=
        Function.update_self _ _ _
      rw [hup, h0, programPage_erased hpdata hpoob]
    have hother : ∀ m, m ≠ n → (pageWritten s n page).pages m = s.pages m := fun m hm =>
      Function.update_of_ne hm _ _
    by_cases hdone : buf.length - c.writesize = 0
    · rw [if_pos hdone, Prod.mk.injEq] at hret
      obtain ⟨-, rfl⟩ := hret
      have hk : k = 0 := by
        rw [hlen, Nat.succ_mul, Nat.add_sub_cancel] at hdone
        exact (Nat.mul_eq_zero.1 hdone).resolve_right hws.ne'
      subst hk
      refine ⟨fun i hi => ?_, fun m hm => hother m hm.ne, rfl⟩
      obtain rfl : i = 0 := by omega
      rw [Nat.add_zero, hput, Nat.zero_mul, List.drop_zero]
      exact hfirst
    · rw [if_neg hdone] at hret
      obtain ⟨k, rfl⟩ : ∃ j, k = j + 1 := by
        refine Nat.exists_eq_succ_of_ne_zero fun hk => hdone ?_
        rw [hlen, hk, Nat.zero_add, Nat.one_mul, Nat.sub_self]
      have hrest : (buf.drop c.writesize).length = (k + 1) * c.writesize := by
        rw [List.length_drop, hlen, Nat.succ_mul (k + 1), Nat.add_sub_cancel]
      obtain ⟨hkept, hbelow, hbuf⟩ := ih hrest (by omega) hpoob (fun i hi => by
        rw [hother _ (by omega), Nat.add_assoc, Nat.add_comm 1 i]
        exact herased (i + 1) (by omega)) hret
      refine ⟨fun i hi => ?_, fun m hm => (hbelow m (by omega)).trans (hother m hm.ne), hbuf⟩
      rcases i with _ | i
      · rw [Nat.add_zero, hbelow n (by omega), hput, Nat.zero_mul, List.drop_zero]
        exact hfirst
      · have h := hkept i (by omega)
        rw [List.drop_drop, Nat.add_assoc, Nat.add_comm 1 i,
          show c.writesize + i * c.writesize = (i + 1) * c.writesize by
            rw [Nat.succ_mul]; omega] at h
        exact h

end Write

section Run

variable {c : NandChip}

/-- The steps of a page and of what has become of it. -/
def StepsWear (W : List UInt8 → List UInt8 → Prop) :
    ℕ → List UInt8 → List UInt8 → List UInt8 → List UInt8 → Prop
  | 0, _, _, _, _ => True
  | n + 1, p, code, p', code' => W (p.take 256 ++ code.take 3) (p'.take 256 ++ code'.take 3) ∧
      StepsWear W n (p.drop 256) (code.drop 3) (p'.drop 256) (code'.drop 3)

/-- What may have become of a page, if each step with its code wears as `W` says. -/
structure PageWorn (c : NandChip) (W : List UInt8 → List UInt8 → Prop) (page page' : NandPage) :
    Prop where
  length_data : page'.data.length = page.data.length
  length_oob : page'.oob.length = page.oob.length
  steps : StepsWear W c.steps page.data (c.code page) page'.data (c.code page')

theorem StepsWorn.wear {W : List UInt8 → List UInt8 → Prop} : ∀ {n : ℕ}
    {d p code p' code' : List UInt8}, StepsWorn (· = ·) n d p code → StepsWear W n p code p' code' →
    StepsWorn W n d p' code'
  | 0, _, _, _, _, _, _, _ => trivial
  | _ + 1, _, _, _, _, _, h, hw => ⟨by rw [h.1]; exact hw.1, h.2.wear hw.2⟩

theorem PageKept.wear {W : List UInt8 → List UInt8 → Prop} {page page' : NandPage} {d : List UInt8}
    (h : PageKept c (· = ·) page d) (hw : PageWorn c W page page') : PageKept c W page' d :=
  ⟨hw.length_data.trans h.length_page, hw.length_oob.trans h.length_oob, h.length_data,
    h.worn.wear hw.steps⟩

/-- Data of whole pages to a place where the chip is erased. -/
structure WriteFits (c : NandChip) (start : ℕ) (buf : List UInt8) (s : NandState) : Prop where
  aligned : start % c.writesize = 0 ∧ buf.length % c.writesize = 0
  erased : ∀ n, start ≤ n * c.writesize → n * c.writesize < start + buf.length →
    s.pages n = c.erased
  nocache : c.subpageRead = true → s.pagebuf = none

/-- Data in a memory of their own. -/
def devOf (start : ℕ) (buf : List UInt8) : Mem := Mem.store (fun _ => 0) start buf

theorem load_devOf {start : ℕ} {buf : List UInt8} {a n : ℕ} (ha : start ≤ a)
    (hn : a + n ≤ start + buf.length) :
    (devOf start buf).load a n = (buf.drop (a - start)).take n := by
  have hsame := Mem.load_store_same (fun _ => 0) start buf
  conv_rhs => rw [← hsame]
  rw [Mem.drop_load _ _ (by omega), Mem.take_load _ _ (by omega), Nat.add_sub_cancel' ha]
  rfl

/-- A write that is let through drops the page in the buffer if it is one of those written. -/
theorem mtdNandWrite_loop {fails : ℕ → Option NandPage} {start : ℕ} {buf : List UInt8}
    {s s' : NandState} (hw : mtdNandWrite c fails start buf s = (0, s')) (hne : buf ≠ []) :
    start + buf.length ≤ c.size ∧ ∃ s0 : NandState, s0.pages = s.pages ∧
      (∀ n, s0.pagebuf = some n → s.pagebuf = some n ∧
        ¬ ((start : ℤ) ≤ s32 (n * c.writesize : ℕ) ∧
          s32 (n * c.writesize : ℕ) < (start : ℤ) + buf.length)) ∧
      writeOpsLoop c fails buf.length (start / c.writesize) (start % c.writesize) buf
        (List.replicate c.oobsize 0xff) s0 = (0, s') := by
  have hinval : (0 : ℤ) ≠ -EINVAL := by decide
  have hio : (0 : ℤ) ≠ - EIO := by decide
  unfold mtdNandWrite at hw
  split_ifs at hw with hsize
  · exact absurd (congrArg Prod.fst hw).symm hinval
  refine ⟨Nat.not_lt.1 hsize, ?_⟩
  unfold nandDoWriteOps at hw
  rw [if_neg fun h => hne (List.length_eq_zero_iff.1 h)] at hw
  split_ifs at hw with h1 h2
  · exact absurd (congrArg Prod.fst hw).symm hinval
  · exact absurd (congrArg Prod.fst hw).symm hio
  rcases hp : s.pagebuf with _ | page
  · rw [hp] at hw
    exact ⟨s, rfl, fun n hn => absurd (hp.symm.trans hn) (by simp), hw⟩
  · rw [hp] at hw
    by_cases hin : (start : ℤ) ≤ s32 (page * c.writesize : ℕ) ∧
        s32 (page * c.writesize : ℕ) < (start : ℤ) + buf.length
    · simp only [decide_eq_true hin, if_true] at hw
      exact ⟨{ s with pagebuf := none }, rfl,
        fun n hn => absurd hn.symm (Option.some_ne_none n), hw⟩
    · simp only [decide_eq_false hin, Bool.false_eq_true, if_false] at hw
      refine ⟨s, rfl, fun n hn => ⟨hp ▸ hn, ?_⟩, hw⟩
      rw [hp, Option.some.injEq] at hn
      rw [← hn]
      exact hin

/-- As an `int`, a place below 2 GiB is where it is. -/
theorem s32_mem {start x len : ℕ} (hx : x < 2 ^ 31) (hlo : start ≤ x) (hhi : x < start + len) :
    (start : ℤ) ≤ s32 x ∧ s32 x < (start : ℤ) + len := by
  have hs32 : s32 x = x := by rw [s32_natCast (hx.trans (by decide)), if_pos hx]
  rw [hs32]
  exact ⟨Int.ofNat_le.2 hlo, Int.ofNat_lt.2 hhi⟩

/-- After a write that succeeded, the pages can wear. -/
theorem mtdNandWrite_readsAs (hc : c.Ok) (hsize : c.subpageRead = false → c.size ≤ 2 ^ 31)
    {fails : ℕ → Option NandPage} {start : ℕ} {buf : List UInt8} {s s' : NandState}
    (hfit : WriteFits c start buf s) (hw : mtdNandWrite c fails start buf s = (0, s'))
    {W : List UInt8 → List UInt8 → Prop} {pages : ℕ → NandPage}
    (hworn : ∀ n, start ≤ n * c.writesize → n * c.writesize < start + buf.length →
      PageWorn c W (s'.pages n) (pages n)) :
    ReadsAs c W (devOf start buf) (start / c.writesize) ((start + buf.length) / c.writesize)
      { s' with pages } := by
  have hws := hc.writesize_pos
  rcases eq_or_ne buf [] with rfl | hne
  · have hs : s = s' := by
      rw [mtdNandWrite, nandDoWriteOps, if_pos List.length_nil] at hw
      split_ifs at hw
      · have hneg : -EINVAL = 0 := congrArg Prod.fst hw
        exact absurd hneg (by decide)
      · exact (Prod.mk.inj hw).2
    subst hs
    refine ⟨fun n h1 h2 => ?_, fun n _ h1 h2 => ?_, hfit.nocache⟩ <;>
      rw [List.length_nil, Nat.add_zero] at h2 <;> omega
  obtain ⟨hle, s0, hpages, hbuf, hloop⟩ := mtdNandWrite_loop hw hne
  obtain ⟨hastart, halen⟩ := hfit.aligned
  have hstart : start / c.writesize * c.writesize = start := Nat.div_mul_cancel
    (Nat.dvd_of_mod_eq_zero hastart)
  have hlen : buf.length / c.writesize * c.writesize = buf.length := Nat.div_mul_cancel
    (Nat.dvd_of_mod_eq_zero halen)
  have hend : (start + buf.length) / c.writesize
      = start / c.writesize + buf.length / c.writesize := by
    rw [← hstart, ← hlen, ← Nat.add_mul, Nat.mul_div_cancel _ hws, Nat.mul_div_cancel _ hws,
      Nat.mul_div_cancel _ hws]
  have hpos : 0 < buf.length := List.length_pos_iff.2 hne
  obtain ⟨k, hk⟩ : ∃ k, buf.length / c.writesize = k + 1 := by
    refine Nat.exists_eq_succ_of_ne_zero fun h0 => ?_
    rw [h0, Nat.zero_mul] at hlen
    omega
  have hkfuel : k < buf.length := by
    have := Nat.div_le_self buf.length c.writesize
    omega
  have hin : ∀ n, start / c.writesize ≤ n → n < (start + buf.length) / c.writesize →
      start ≤ n * c.writesize ∧ n * c.writesize + c.writesize ≤ start + buf.length := by
    intro n h1 h2
    have hlo := Nat.mul_le_mul_right c.writesize h1
    have hhi := Nat.mul_le_mul_right c.writesize (Nat.succ_le_of_lt h2)
    rw [Nat.succ_mul, hend, Nat.add_mul, hstart, hlen] at hhi
    rw [hstart] at hlo
    exact ⟨hlo, hhi⟩
  rw [hastart] at hloop
  obtain ⟨hkept, -, hpagebuf⟩ := writeOpsLoop_right hc buf.length (by rw [← hk, hlen]) hkfuel
    (by rw [List.length_replicate]) (fun i hi => by
      have hb := hin (start / c.writesize + i) (by omega) (by omega)
      rw [hpages]
      exact hfit.erased _ hb.1 (by omega)) hloop
  refine ⟨fun n h1 h2 => ?_, fun n hn h1 h2 => ?_, fun hsp => ?_⟩
  · obtain ⟨hlo, hhi⟩ := hin n h1 h2
    obtain ⟨i, rfl⟩ := Nat.exists_eq_add_of_le h1
    rw [load_devOf hlo hhi]
    have hoff : (start / c.writesize + i) * c.writesize - start = i * c.writesize := by
      rw [Nat.add_mul, hstart, Nat.add_sub_cancel_left]
    rw [hoff]
    exact (hkept i (by omega)).wear (hworn _ hlo (by omega))
  · obtain ⟨hlo, hhi⟩ := hin n h1 h2
    obtain ⟨hs, hout⟩ := hbuf n (hpagebuf.symm.trans hn)
    have hsmall : c.size ≤ 2 ^ 31 := hsize <| Bool.eq_false_iff.2 fun hsp => by
      rw [hfit.nocache hsp] at hs
      exact Option.some_ne_none n hs.symm
    exact absurd (s32_mem (by omega) hlo (by omega)) hout
  · rw [show ({ s' with pages } : NandState).pagebuf = s0.pagebuf from hpagebuf]
    rcases hp : s0.pagebuf with _ | n
    · rfl
    · exact absurd (hfit.nocache hsp) (by rw [(hbuf n hp).1]; exact Option.some_ne_none n)

/-- What is asked of the chip: bytes of it, when its pages have become these. -/
structure NandReadReq where
  pages : ℕ → NandPage
  start : ℕ
  len : ℕ

/-- One read after the other. -/
def nandReads (c : NandChip) : List NandReadReq → NandState → List (ℤ × List UInt8)
  | [], _ => []
  | r :: rs, s =>
    ((mtdNandRead c r.start r.len { s with pages := r.pages }).1,
      (mtdNandRead c r.start r.len { s with pages := r.pages }).2.1) ::
      nandReads c rs (mtdNandRead c r.start r.len { s with pages := r.pages }).2.2

theorem ReadsAs.reads (hc : c.Ok) {dev : Mem} {lo hi : ℕ} {reqs : List NandReadReq}
    {s : NandState} (h : ReadsAs c OneBit dev lo hi s)
    (hreqs : ∀ r ∈ reqs, (∀ n, lo ≤ n → n < hi →
        PageKept c OneBit (r.pages n) (dev.load (n * c.writesize) c.writesize)) ∧
      lo * c.writesize ≤ r.start ∧ r.start + r.len ≤ hi * c.writesize ∧
      r.start + r.len ≤ c.size) :
    List.Forall₂ (fun r res => (res.1 = 0 ∨ res.1 = -EUCLEAN) ∧ res.2 = dev.load r.start r.len) reqs
      (nandReads c reqs s) := by
  induction reqs generalizing s with
  | nil => exact .nil
  | cons r rs ih =>
    obtain ⟨hkept, hlo, hhi, hsize⟩ := hreqs r (List.mem_cons_self ..)
    have hnow : ReadsAs c OneBit dev lo hi { s with pages := r.pages } :=
      ⟨hkept, h.cached, h.nocache⟩
    have hret := mtdNandRead_one hc hnow hlo hhi hsize
    have hne := mtdNandRead_ne hc hnow hlo hhi hsize
    obtain ⟨hdata, hnext⟩ := mtdNandRead_right hc (hnow.mono fun _ _ => OneBit.twoBits) hlo hhi
      hsize hne
    refine .cons ⟨hret, hdata⟩ (ih ⟨fun n h1 h2 => ?_, hnext.cached, hnext.nocache⟩ fun q hq =>
      hreqs q (List.mem_cons_of_mem _ hq))
    rw [mtdNandRead_state]
    exact hkept n h1 h2

theorem mtdNandWrite_le {fails : ℕ → Option NandPage} {start : ℕ} {buf : List UInt8}
    {s s' : NandState} (hw : mtdNandWrite c fails start buf s = (0, s')) :
    start + buf.length ≤ c.size := by
  by_contra hgt
  rw [mtdNandWrite, if_pos (Nat.not_le.1 hgt)] at hw
  have hneg : -EINVAL = 0 := congrArg Prod.fst hw
  exact absurd hneg (by decide)

theorem WriteFits.ends {start : ℕ} {buf : List UInt8} {s : NandState}
    (hfit : WriteFits c start buf s) : start / c.writesize * c.writesize = start ∧
      (start + buf.length) / c.writesize * c.writesize = start + buf.length := by
  obtain ⟨hstart, hlen⟩ := hfit.aligned
  have h1 := Nat.dvd_of_mod_eq_zero hstart
  exact ⟨Nat.div_mul_cancel h1, Nat.div_mul_cancel (Nat.dvd_add h1 (Nat.dvd_of_mod_eq_zero hlen))⟩

theorem StepsWear.refl {W : List UInt8 → List UInt8 → Prop} (hW : ∀ as, W as as) :
    ∀ (n : ℕ) (p code : List UInt8), StepsWear W n p code p code
  | 0, _, _ => trivial
  | n + 1, _, _ => ⟨hW _, StepsWear.refl hW n _ _⟩

theorem StepsWear.mono {W W' : List UInt8 → List UInt8 → Prop} (hW : ∀ as bs, W as bs → W' as bs) :
    ∀ {n : ℕ} {p code p' code' : List UInt8}, StepsWear W n p code p' code' →
      StepsWear W' n p code p' code'
  | 0, _, _, _, _, _ => trivial
  | _ + 1, _, _, _, _, h => ⟨hW _ _ h.1, h.2.mono hW⟩

theorem PageWorn.refl {W : List UInt8 → List UInt8 → Prop} (hW : ∀ as, W as as) (page : NandPage) :
    PageWorn c W page page :=
  ⟨rfl, rfl, StepsWear.refl hW _ _ _⟩

theorem OneBit.refl (as : List UInt8) : OneBit as as := ⟨0, fun _ h => absurd rfl h⟩

/-- What was written to an erased place is read right by every later read of it, however often and
in whatever parts, while in no step with its code more than one bit is wrong at a time. -/
theorem nand_reads_right (hc : c.Ok) (hsize : c.subpageRead = false → c.size ≤ 2 ^ 31)
    {fails : ℕ → Option NandPage} {start : ℕ} {buf : List UInt8} {s s' : NandState}
    (hfit : WriteFits c start buf s) (hw : mtdNandWrite c fails start buf s = (0, s'))
    {reqs : List NandReadReq}
    (hreqs : ∀ r ∈ reqs, (∀ n, start ≤ n * c.writesize → n * c.writesize < start + buf.length →
        PageWorn c OneBit (s'.pages n) (r.pages n)) ∧
      start ≤ r.start ∧ r.start + r.len ≤ start + buf.length) :
    List.Forall₂ (fun r res => (res.1 = 0 ∨ res.1 = -EUCLEAN) ∧
      res.2 = (buf.drop (r.start - start)).take r.len) reqs (nandReads c reqs s') := by
  obtain ⟨hlo, hhi⟩ := hfit.ends
  have hle := mtdNandWrite_le hw
  have hfirst : ReadsAs c OneBit (devOf start buf) (start / c.writesize)
      ((start + buf.length) / c.writesize) s' :=
    mtdNandWrite_readsAs hc hsize hfit hw fun n _ _ => PageWorn.refl OneBit.refl (s'.pages n)
  have hreads : List.Forall₂ (fun r res => (res.1 = 0 ∨ res.1 = -EUCLEAN) ∧
      res.2 = (devOf start buf).load r.start r.len) reqs (nandReads c reqs s') := by
    refine hfirst.reads hc fun r hr => ?_
    obtain ⟨hworn, h1, h2⟩ := hreqs r hr
    refine ⟨(mtdNandWrite_readsAs hc hsize hfit hw hworn).kept, ?_, ?_, h2.trans hle⟩
    · rw [hlo]
      exact h1
    · rw [hhi]
      exact h2
  refine (List.forall₂_iff_get.2 ⟨(List.forall₂_iff_get.1 hreads).1, fun i h1 h2 => ?_⟩)
  obtain ⟨hret, hdata⟩ := (List.forall₂_iff_get.1 hreads).2 i h1 h2
  obtain ⟨-, ha, hb⟩ := hreqs _ (List.get_mem reqs ⟨i, h1⟩)
  exact ⟨hret, hdata.trans (load_devOf ha hb)⟩

theorem OneBit.flip {bs : List UInt8} {i : ℕ} (hi : i < 8 * bs.length) :
    OneBit bs (flipBit bs i) := by
  refine ⟨i, fun l hl => ?_⟩
  rw [bitAt_flipBit hi] at hl
  by_contra hne
  simp [hne] at hl

/-- One wrong bit in the data of a page of one step. -/
theorem PageWorn.flip {page : NandPage} (hsteps : c.steps = 1) (hlen : page.data.length = 256)
    {i : ℕ} (hi : i < 8 * 256) :
    PageWorn c OneBit page { page with data := flipBit page.data i } := by
  refine ⟨length_flipBit _ _, rfl, ?_⟩
  rw [hsteps]
  refine ⟨?_, trivial⟩
  dsimp only
  have hflip : (flipBit page.data i).length ≤ 256 := by rw [length_flipBit, hlen]
  rw [List.take_of_length_le hflip, List.take_of_length_le hlen.le]
  have hcode : c.code { page with data := flipBit page.data i } = c.code page := rfl
  rw [hcode, ← flipBit_append_left _ _ (by rw [hlen]; exact hi)]
  exact OneBit.flip (by rw [List.length_append, hlen]; omega)

def smallChip : NandChip := ⟨256, 8, 256, 512, [0, 1, 2], false, false⟩

theorem smallChip_ok : smallChip.Ok := by
  refine ⟨rfl, by decide, by decide, by decide, by decide, by decide, by decide⟩

/-- Two erased pages. -/
def erasedNand : NandState :=
  ⟨fun _ => smallChip.erased, none, fun _ => 0, fun _ => 0, ⟨0, 0⟩⟩

def smallWritten : NandState :=
  (mtdNandWrite smallChip (fun _ => none) 0 (List.replicate 256 0x5a) erasedNand).2

theorem erasedNand_fits : WriteFits smallChip 0 (List.replicate 256 0x5a) erasedNand :=
  ⟨⟨rfl, by rw [List.length_replicate]; rfl⟩, fun _ _ _ => rfl, fun _ => rfl⟩

theorem erasedNand_written :
    mtdNandWrite smallChip (fun _ => none) 0 (List.replicate 256 0x5a) erasedNand
      = (0, smallWritten) := by
  have hret : (mtdNandWrite smallChip (fun _ => none) 0 (List.replicate 256 0x5a)
      erasedNand).1 = 0 := by
    decide +kernel
  exact Prod.ext hret (by rw [smallWritten])

theorem smallWritten_readsAs {pages : ℕ → NandPage}
    (hworn : ∀ n, 0 ≤ n * smallChip.writesize →
      n * smallChip.writesize < 0 + (List.replicate 256 (0x5a : UInt8)).length →
      PageWorn smallChip OneBit (smallWritten.pages n) (pages n)) :
    ReadsAs smallChip OneBit (devOf 0 (List.replicate 256 0x5a)) 0 1
      { smallWritten with pages := pages } := by
  have h := mtdNandWrite_readsAs smallChip_ok (fun _ => by decide) erasedNand_fits
    erasedNand_written hworn
  rwa [List.length_replicate] at h

theorem smallWritten_length : (smallWritten.pages 0).data.length = smallChip.writesize := by
  have h := smallWritten_readsAs fun n _ _ => PageWorn.refl OneBit.refl (smallWritten.pages n)
  have hkept := h.kept 0 le_rfl Nat.zero_lt_one
  dsimp only at hkept
  exact hkept.length_page

/-- Three bytes, while a bit among them is wrong. -/
def smallReq : NandReadReq :=
  ⟨fun n => { smallWritten.pages n with data := flipBit (smallWritten.pages n).data 43 }, 4, 3⟩

theorem smallReq_worn (n : ℕ) (h : n * 256 < 0 + (List.replicate 256 (0x5a : UInt8)).length) :
    PageWorn smallChip OneBit (smallWritten.pages n) (smallReq.pages n) := by
  obtain rfl : n = 0 := by
    rw [List.length_replicate] at h
    omega
  exact PageWorn.flip rfl smallWritten_length (by decide)

theorem nand_reads_right_small : List.Forall₂ (fun r res => (res.1 = 0 ∨ res.1 = -EUCLEAN) ∧
    res.2 = ((List.replicate 256 (0x5a : UInt8)).drop (r.start - 0)).take r.len)
    [smallReq, smallReq] (nandReads smallChip [smallReq, smallReq] smallWritten) := by
  refine nand_reads_right smallChip_ok (fun _ => by decide) erasedNand_fits
    erasedNand_written fun r hr => ?_
  obtain rfl : r = smallReq := by simpa using hr
  exact ⟨fun n _ hn => smallReq_worn n hn, Nat.zero_le _, by rw [List.length_replicate]; decide⟩

/-- With two wrong bits in a step, the first read is right or fails. -/
theorem nand_read_detects (hc : c.Ok) (hsize : c.subpageRead = false → c.size ≤ 2 ^ 31)
    {fails : ℕ → Option NandPage} {start : ℕ} {buf : List UInt8} {s s' : NandState}
    (hfit : WriteFits c start buf s) (hw : mtdNandWrite c fails start buf s = (0, s'))
    {r : NandReadReq} (hworn : ∀ n, start ≤ n * c.writesize → n * c.writesize < start + buf.length →
        PageWorn c TwoBits (s'.pages n) (r.pages n))
    (hlo : start ≤ r.start) (hhi : r.start + r.len ≤ start + buf.length)
    (hok : (mtdNandRead c r.start r.len { s' with pages := r.pages }).1 ≠ -EBADMSG) :
    (mtdNandRead c r.start r.len { s' with pages := r.pages }).2.1
      = (buf.drop (r.start - start)).take r.len := by
  obtain ⟨hstart, hend⟩ := hfit.ends
  have hle := mtdNandWrite_le hw
  obtain ⟨hdata, -⟩ := mtdNandRead_right hc (mtdNandWrite_readsAs hc hsize hfit hw hworn)
    (by rw [hstart]; exact hlo) (by rw [hend]; exact hhi) (hhi.trans hle) hok
  exact hdata.trans (load_devOf hlo hhi)

theorem nand_read_detects_small :
    (mtdNandRead smallChip smallReq.start smallReq.len
        { smallWritten with pages := smallReq.pages }).2.1
      = ((List.replicate 256 (0x5a : UInt8)).drop (smallReq.start - 0)).take smallReq.len := by
  have hworn : ∀ n, 0 ≤ n * smallChip.writesize →
      n * smallChip.writesize < 0 + (List.replicate 256 (0x5a : UInt8)).length →
      PageWorn smallChip TwoBits (smallWritten.pages n) (smallReq.pages n) := fun n _ hn =>
    ⟨(smallReq_worn n hn).length_data, (smallReq_worn n hn).length_oob,
      (smallReq_worn n hn).steps.mono fun _ _ => OneBit.twoBits⟩
  have hreads : ReadsAs smallChip OneBit (devOf 0 (List.replicate 256 0x5a)) 0 1
      { smallWritten with pages := smallReq.pages } :=
    smallWritten_readsAs fun n _ hn => smallReq_worn n hn
  have hok : (mtdNandRead smallChip smallReq.start smallReq.len
      { smallWritten with pages := smallReq.pages }).1 ≠ -EBADMSG := by
    have hlo : 0 * smallChip.writesize ≤ smallReq.start := Nat.zero_le _
    have hhi : smallReq.start + smallReq.len ≤ 1 * smallChip.writesize := by decide
    exact mtdNandRead_ne smallChip_ok hreads hlo hhi (by decide)
  dsimp only at hok ⊢
  exact nand_read_detects smallChip_ok (fun _ => by decide) erasedNand_fits erasedNand_written hworn
    (Nat.zero_le _) (by rw [List.length_replicate]; decide) hok

theorem readOpsLoop_within {n col len : ℕ} (hlen : 0 < len) (hone : col + len ≤ c.writesize)
    (s : NandState) : readOpsLoop c len n col len s = readPagePart c n col len s := by
  obtain ⟨fuel, rfl⟩ := Nat.exists_eq_succ_of_ne_zero hlen.ne'
  rw [readOpsLoop_succ, min_eq_right (by omega), if_pos (Nat.sub_self _)]

theorem readPagePart_kept (hsp : c.subpageRead = false) (n col : ℕ) {len : ℕ}
    (hpart : len < c.writesize) (s : NandState) : (readPagePart c n col len s).2.pagebuf = some n ∧
      (readPagePart c n col len s).1 = (readPagePart c n col len s).2.databuf.load col len := by
  unfold readPagePart
  rw [if_neg hpart.ne, hsp]
  split_ifs with hbuf hsub
  · exact ⟨hbuf, rfl⟩
  · exact hsub.elim
  · exact ⟨rfl, rfl⟩

/-- On a chip with small pages, a part of a page that could not be corrected is given out of the
buffer when it is read once more, and nothing fails. -/
theorem nand_read_again (hsp : c.subpageRead = false) {start len : ℕ} (hlen : 0 < len)
    (hpart : len < c.writesize) (hone : start % c.writesize + len ≤ c.writesize)
    (hsize : start + len ≤ c.size) (s : NandState) :
    mtdNandRead c start len (mtdNandRead c start len s).2.2
      = (0, (mtdNandRead c start len s).2.1, (mtdNandRead c start len s).2.2) := by
  obtain ⟨hbuf, hdata⟩ := readPagePart_kept hsp (start / c.writesize) (start % c.writesize) hpart s
  rw [mtdNandRead_eq hsize hlen, mtdNandRead_eq hsize hlen]
  unfold nandDoReadOps
  rw [readOpsLoop_within hlen hone, readOpsLoop_within hlen hone]
  dsimp only
  set s' := (readPagePart c (start / c.writesize) (start % c.writesize) len s).2
  have hagain : readPagePart c (start / c.writesize) (start % c.writesize) len s'
      = (s'.databuf.load (start % c.writesize) len, s') := by
    rw [readPagePart, if_pos hbuf]
  rw [hagain, hdata, Nat.sub_self, Nat.sub_self]
  rfl

end Run

end InfotmUboot
