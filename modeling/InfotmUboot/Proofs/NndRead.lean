import InfotmUboot.Proofs.Drivers

/-!
# Reading nnd

What the `read` of `nnd` gives against a flash and a map of bad blocks: the pages of the rows that
`Lib.walk` goes through, or an error (`nndVsRead_run`).
-/

namespace InfotmUboot

open Lib

section Pages

variable (nc : NandConfig) (ppb : ℕ) (bad : ℕ → Bool) (rows : ℕ → Row)

/-- What `base_vs_read` makes of a row: an erased page for one without the driver's mark, and no
page for one the ECC cannot mend. -/
def pageBytes (row : ℕ) : Option (List UInt8) :=
  let r := (flashStep ppb bad rows (.readPage .normal row)).1
  let prsvdbuf := fit (nc.sysinfosize + 4) r.spare
  if prsvdbuf.getD 1 0 = 0xff then some (List.replicate nc.pagesize 0xff)
  else if r.unfixed then none
  else some (fit nc.pagesize r.main)

def readRows : List ℕ → Option (List UInt8)
  | [] => some []
  | r :: rs =>
    match pageBytes nc ppb bad rows r with
    | none => none
    | some p => (readRows rs).map (p ++ ·)

variable {nc ppb bad rows}

theorem length_pageBytes {row : ℕ} {p : List UInt8} (h : pageBytes nc ppb bad rows row = some p) :
    p.length = nc.pagesize := by
  unfold pageBytes at h
  dsimp only at h
  split_ifs at h
  · rw [← Option.some.inj h, List.length_replicate]
  · rw [← Option.some.inj h, length_fit]

theorem length_readRows :
    ∀ {rs : List ℕ} {ps : List UInt8}, readRows nc ppb bad rows rs = some ps →
      ps.length = rs.length * nc.pagesize
  | [], ps, h => by
    rw [readRows, Option.some.injEq] at h
    rw [← h, List.length_nil, List.length_nil, Nat.zero_mul]
  | r :: rs, ps, h => by
    rw [readRows] at h
    rcases hp : pageBytes nc ppb bad rows r with _ | p
    · rw [hp] at h
      exact absurd h (by simp)
    · rw [hp] at h
      obtain ⟨qs, hqs, rfl⟩ := Option.map_eq_some_iff.1 h
      rw [List.length_append, length_pageBytes hp, length_readRows hqs, List.length_cons,
        Nat.add_mul, Nat.one_mul, Nat.add_comm]

theorem readRows_append (rs : List ℕ) :
    ∀ rs' : List ℕ, readRows nc ppb bad rows (rs' ++ rs) =
      (readRows nc ppb bad rows rs').bind fun ps =>
        (readRows nc ppb bad rows rs).map (ps ++ ·)
  | [] => by
    simp [readRows]
  | r :: rs' => by
    rw [List.cons_append, readRows, readRows, readRows_append rs rs']
    rcases pageBytes nc ppb bad rows r with _ | p
    · rfl
    · rcases readRows nc ppb bad rows rs' with _ | ps
      · rfl
      · rcases readRows nc ppb bad rows rs with _ | qs
        · rfl
        · simp

/-- The pages of the rows one after the other, or none if one of them cannot be read. -/
theorem baseVsReadLoop_run :
    ∀ (n row : ℕ) (ret : ℤ) (data : List UInt8),
      let out := Prog.run (flashStep ppb bad) (baseVsReadLoop nc false n row ret data) rows
      match readRows nc ppb bad rows (List.range' row n) with
      | some ps => out.val = (ret + ps.length, data ++ ps)
      | none => out.val.1 = -1
  | 0, row, ret, data => by
    simp [baseVsReadLoop, readRows]
  | n + 1, row, ret, data => by
    have hret : (flashStep ppb bad rows (.readPage .normal row)).1.ret = 0 := by
      simp only [flashStep]
      rcases rows row <;> rfl
    have henv : (flashStep ppb bad rows (.readPage .normal row)).2 = rows := by
      simp only [flashStep]
      rcases rows row <;> rfl
    rw [List.range'_succ, readRows]
    simp only [baseVsReadLoop, Prog.run_bind, Prog.run_op, hret, henv, ne_eq, not_true_eq_false,
      if_false, Bool.false_eq_true, List.append_nil, pageBytes]
    set r := (flashStep ppb bad rows (.readPage .normal row)).1
    by_cases hff : (fit (nc.sysinfosize + 4) r.spare).getD 1 0 = 0xff
    · have ih := baseVsReadLoop_run n (row + 1) (ret + nc.pagesize)
        (data ++ List.replicate nc.pagesize 0xff)
      simp only [hff, if_true, not_true_eq_false, false_and, if_false, List.length_replicate]
      rcases hrs : readRows nc ppb bad rows (List.range' (row + 1) n) with _ | ps
      · rw [hrs] at ih
        exact ih
      · rw [hrs] at ih
        dsimp only [Option.map_some] at ih ⊢
        rw [ih, List.length_append, List.length_replicate, List.append_assoc]
        push_cast
        rw [Int.add_assoc]
    · simp only [hff, if_false, not_false_eq_true, true_and]
      by_cases hu : r.unfixed = true
      · simp only [hu, if_true, Prog.run_pure]
      · have ih := baseVsReadLoop_run n (row + 1) (ret + nc.pagesize)
          (data ++ fit nc.pagesize r.main)
        simp only [hu, Bool.false_eq_true, if_false, length_fit]
        rcases hrs : readRows nc ppb bad rows (List.range' (row + 1) n) with _ | ps
        · rw [hrs] at ih
          exact ih
        · rw [hrs] at ih
          dsimp only [Option.map_some] at ih ⊢
          rw [ih, List.length_append, length_fit, List.append_assoc]
          push_cast
          rw [Int.add_assoc]

end Pages

/-- An offset in a block of `q` pages, from the row in it. -/
theorem mod_page {p t : ℕ} (hp : 0 < p) (ht : t < p) (q r : ℕ) :
    (r * p + t) % (q * p) = r % q * p + t := by
  have h1 : (r * p + t) / p = r := by
    rw [Nat.mul_comm, Nat.mul_add_div hp, Nat.div_eq_of_lt ht, Nat.add_zero]
  have h2 : (r * p + t) % p = t := by
    rw [Nat.mul_add_mod_self_right, Nat.mod_eq_of_lt ht]
  rw [Nat.mul_comm q, Nat.mod_mul, h1, h2, Nat.add_comm, Nat.mul_comm]

section Read

variable (B : Board) (bad : ℕ → Bool) (rows : ℕ → Row) {nc : NandConfig}
variable (hn : B.nand.normal = some nc)
include hn

/-- A read, tried again or not, gives the whole pages of its length from the page of its offset on,
or fails. -/
theorem baseVsReadRetry_run {start w : ℕ} (hw : w < 2 ^ 32) :
    ∀ k : ℕ,
      let out := Prog.run (flashStep B.pagesperblock bad)
        (baseVsReadRetry B.nand nc start (w : ℕ) k) rows
      out.env = rows ∧
        match readRows nc B.pagesperblock bad rows
            (List.range' (start / nc.pagesize) (w / nc.pagesize)) with
        | some ps => out.val = ((ps.length : ℤ), ps)
        | none => out.val.1 = -1 := by
  obtain ⟨hpage, _⟩ := B.nand.block_of_normal hn
  obtain ⟨a, ha⟩ : ∃ a, a = w / nc.pagesize := ⟨_, rfl⟩
  obtain ⟨row, hrow⟩ : ∃ row, row = start / nc.pagesize := ⟨_, rfl⟩
  have hread : baseVsRead B.nand nc start (w : ℕ) false =
      baseVsReadLoop nc false a row 0 [] := by
    unfold baseVsRead
    rw [toU32_natCast hw, normalUnit, if_neg (by simp), Nat.add_zero, Nat.shiftRight_eq_div_pow,
      ← hpage, ha, hrow]
  have hloop := @baseVsReadLoop_run nc B.pagesperblock bad rows a row 0 []
  have henv := (quiet_run bad B.pagesperblock (baseVsReadLoop_asks nc false a row 0 []) rows).1
  simp only [Int.zero_add, List.nil_append] at hloop
  rw [← ha, ← hrow]
  intro k
  induction k with
  | zero =>
    rw [baseVsReadRetry, hread]
    exact ⟨henv, hloop⟩
  | succ k ih =>
    rw [baseVsReadRetry, hread]
    simp only [Prog.run_bind]
    set out := Prog.run (flashStep B.pagesperblock bad) (baseVsReadLoop nc false a row 0 []) rows
    rw [henv]
    by_cases hfail : out.val.1 = -1
    · simp only [hfail, if_true]
      exact ih
    · simp only [hfail, if_false, Prog.run_pure]
      refine ⟨trivial, ?_⟩
      rcases hrs : readRows nc B.pagesperblock bad rows (List.range' row a) with _ | ps
      · rw [hrs] at hloop
        exact absurd hloop hfail
      · rw [hrs] at hloop
        exact hloop

/-- The bad mark of the block an offset is in, asked for at its start. -/
theorem nndVsIsbad_block (start : ℕ) :
    let out := Prog.run (flashStep B.pagesperblock bad)
      (nndVsIsbad B.nand (andNot start (nc.blocksize - 1))) rows
    out.val = (if bad (start / nc.blocksize) then 1 else 0) ∧ out.env = rows := by
  obtain ⟨_, hblk, _⟩ := B.nand.block_of_normal hn
  have hdiv : andNot start (nc.blocksize - 1) / nc.blocksize = start / nc.blocksize := by
    rw [andNot_mask hblk]
    have hmod := Nat.div_add_mod start nc.blocksize
    rw [show start - start % nc.blocksize = nc.blocksize * (start / nc.blocksize) by omega,
      Nat.mul_div_cancel_left _ (by rw [hblk]; exact Nat.two_pow_pos _)]
  have h := nndVsIsbad_run B bad hn (andNot start (nc.blocksize - 1)) rows
  rwa [hdiv] at h

/-- The skip loop of the reader is `seek`. -/
theorem nndSkipBad_run :
    ∀ k start : ℕ,
      let out := Prog.run (flashStep B.pagesperblock bad)
        (nndSkipBad B.nand nc.blocksize k start) rows
      out.val = (seek (fun o => bad (o / nc.blocksize)) nc.blocksize k start).map Prod.fst ∧
        out.env = rows
  | 0, start => by
    obtain ⟨hval, henv⟩ := nndVsIsbad_block B bad rows hn start
    simp only [nndSkipBad, Prog.run_bind, Prog.run_pure, hval, henv, seek]
    by_cases hb : bad (start / nc.blocksize) = true
    · simp [hb]
    · simp [hb]
  | k + 1, start => by
    obtain ⟨hval, henv⟩ := nndVsIsbad_block B bad rows hn start
    simp only [nndSkipBad, Prog.run_bind, hval, henv, seek]
    by_cases hb : bad (start / nc.blocksize) = true
    · simp only [hb, if_true, ne_eq, one_ne_zero, not_false_eq_true]
      exact nndSkipBad_run k (start + nc.blocksize)
    · simp [hb]

omit hn in
/-- What a read of `n` pages of `nnd` from a row on gives. -/
def nndRows (nc : NandConfig) (n row : ℕ) : Option (List UInt8) :=
  (walk bad B.pagesperblock 31 n row).bind (readRows nc B.pagesperblock bad rows)

omit hn in
theorem length_nndRows {n row : ℕ} {ps : List UInt8} (h : nndRows B bad rows nc n row = some ps) :
    ps.length = n * nc.pagesize := by
  obtain ⟨rs, hrs, hps⟩ := Option.bind_eq_some_iff.1 h
  rw [length_readRows hps, length_walk 31 hrs]

theorem block_rows : 0 < B.pagesperblock ∧ nc.blocksize = B.pagesperblock * nc.pagesize := by
  obtain ⟨m, _, hppb, _⟩ := view_blocks B (d := .nnd) (by simp only [Board.view, hn]; rfl)
  obtain ⟨hpage, hblk, _, _, _, h6, _⟩ := B.nand.block_of_normal hn
  refine ⟨hppb ▸ Nat.two_pow_pos m, ?_⟩
  rw [Board.pagesperblock, hn, Option.elim_some, NandConfig.pagesperblock, Nat.mul_comm,
    Nat.mul_div_cancel' (by rw [hpage, hblk]; exact pow_dvd_pow 2 (by omega))]

omit hn in
/-- A read goes on in the first good block, and in it row by row up to the next block. -/
theorem nndRows_block {n row r k : ℕ} (hppb : 0 < B.pagesperblock)
    (hs : seek (fun r => bad (r / B.pagesperblock)) B.pagesperblock 31 row = some (r, k)) :
    let a := min (B.pagesperblock - r % B.pagesperblock) (n + 1)
    nndRows B bad rows nc (n + 1) row =
      (readRows nc B.pagesperblock bad rows (List.range' r a)).bind fun ps =>
        (nndRows B bad rows nc (n + 1 - a) (r + a)).map (ps ++ ·) := by
  intro a
  have hgood : bad (r / B.pagesperblock) = false :=
    @seek_isGood (fun r => bad (r / B.pagesperblock)) _ _ _ r k hs
  have hrlt := Nat.mod_lt r hppb
  have hna : n + 1 = a + (n + 1 - a) := by omega
  rw [nndRows, walk_seek 31 hs, hna, walk_block 31 hgood (by omega), ← hna, nndRows]
  rcases walk bad B.pagesperblock 31 (n + 1 - a) (r + a) with _ | rs
  · rcases readRows nc B.pagesperblock bad rows (List.range' r a) with _ | ps <;> rfl
  · simp only [Option.map_some, Option.bind_some, readRows_append]

/-- Reading past the start of a page goes on in step with the pages as long as the read stays in one
block. -/
theorem nndVsReadLoop_run (length : ℤ) {t : ℕ} (ht : t < nc.pagesize) :
    ∀ (k n row : ℕ) (data : List UInt8), n ≤ k → n * nc.pagesize < 2 ^ 32 →
      (t = 0 ∨ row % B.pagesperblock + n < B.pagesperblock) →
      let out := Prog.run (flashStep B.pagesperblock bad)
        (nndVsReadLoop B.nand nc length k (row * nc.pagesize + t) (n * nc.pagesize : ℕ) data) rows
      out.env = rows ∧
        match nndRows B bad rows nc n row with
        | some ps => out.val = (length, data ++ ps)
        | none => out.val.1 = -1
  | 0, n, row, data, hk, _, _ => by
    obtain rfl : n = 0 := by omega
    simp [nndVsReadLoop, nndRows, walk, readRows]
  | k + 1, 0, row, data, _, _, _ => by
    simp [nndVsReadLoop, nndRows, walk, readRows]
  | k + 1, n + 1, row, data, hk, hlt, hin => by
    obtain ⟨hpage, hblk, _⟩ := B.nand.block_of_normal hn
    obtain ⟨hppb, hrows⟩ := block_rows B hn
    have hpos : 0 < nc.pagesize := by
      rw [hpage]
      exact Nat.two_pow_pos _
    have hne : ¬(((n + 1) * nc.pagesize : ℕ) : ℤ) = 0 := by
      exact_mod_cast (Nat.mul_pos (Nat.succ_pos n) hpos).ne'
    obtain ⟨hval, henv⟩ := nndSkipBad_run B bad rows hn 31 (row * nc.pagesize + t)
    rw [hrows, seek_shift ht] at hval
    rw [← hrows] at hval
    simp only [nndVsReadLoop, hne, if_false, Prog.run_bind]
    rw [hval, henv]
    rcases hs : seek (fun r => bad (r / B.pagesperblock)) B.pagesperblock 31 row with _ | ⟨r, b⟩
    · simp [nndRows, walk, hs]
    · obtain ⟨j, hj⟩ := seek_stride _ _ 31 row r b hs
      have hrmod : r % B.pagesperblock = row % B.pagesperblock := by
        rw [hj, Nat.add_mul_mod_self_right]
      have hrlt := Nat.mod_lt r hppb
      obtain ⟨a, ha⟩ : ∃ a, a = min (B.pagesperblock - r % B.pagesperblock) (n + 1) := ⟨_, rfl⟩
      have hmod : r * nc.pagesize + t &&& (nc.blocksize - 1) =
          r % B.pagesperblock * nc.pagesize + t := by
        rw [and_mask hblk, hrows, mod_page hpos ht]
      have hw : min (nc.blocksize : ℤ)
          (min (nc.blocksize - (r * nc.pagesize + t &&& (nc.blocksize - 1) : ℕ))
            ((n + 1) * nc.pagesize : ℕ)) = (a * nc.pagesize : ℕ) := by
        have hleft : (B.pagesperblock - r % B.pagesperblock) * nc.pagesize +
            r % B.pagesperblock * nc.pagesize = nc.blocksize := by
          rw [← Nat.add_mul, Nat.sub_add_cancel hrlt.le, hrows]
        rw [hmod, ha]
        rcases hin with h0 | hin
        · rcases Nat.le_total (B.pagesperblock - r % B.pagesperblock) (n + 1) with h | h
          · have h' := Nat.mul_le_mul_right nc.pagesize h
            rw [Nat.min_eq_left h]
            omega
          · have h' := Nat.mul_le_mul_right nc.pagesize h
            rw [Nat.min_eq_right h]
            omega
        · have h' := Nat.mul_le_mul_right nc.pagesize
            (show n + 1 + 1 ≤ B.pagesperblock - r % B.pagesperblock by omega)
          rw [Nat.add_mul (n + 1) 1, Nat.one_mul] at h'
          rw [Nat.min_eq_right (by omega)]
          omega
      have halt : a * nc.pagesize < 2 ^ 32 := by
        refine lt_of_le_of_lt (Nat.mul_le_mul_right _ ?_) hlt
        omega
      obtain ⟨henv', hread⟩ := @baseVsReadRetry_run B bad rows nc hn (r * nc.pagesize + t)
        (a * nc.pagesize) halt (nc.attempts - 1)
      have hrow : (r * nc.pagesize + t) / nc.pagesize = r := by
        rw [Nat.mul_comm, Nat.mul_add_div hpos, Nat.div_eq_of_lt ht, Nat.add_zero]
      rw [hrow, Nat.mul_div_cancel _ hpos] at hread
      have hwalk := @nndRows_block B bad rows nc n row r b hppb hs
      dsimp only at hwalk
      rw [← ha] at hwalk
      simp only [Option.map_some, hw, Prog.run_bind]
      rw [hwalk]
      set out := Prog.run (flashStep B.pagesperblock bad) (baseVsReadRetry B.nand nc
        (r * nc.pagesize + t) (a * nc.pagesize : ℕ) (nc.attempts - 1)) rows
      rcases hrs : readRows nc B.pagesperblock bad rows (List.range' r a) with _ | ps
      · rw [hrs] at hread
        simp only [hread, if_true, Prog.run_pure, Option.bind_none]
        exact ⟨henv', trivial⟩
      · rw [hrs] at hread
        have hstart : ((r * nc.pagesize + t : ℕ) + (a * nc.pagesize : ℕ) : ℤ).toNat =
            (r + a) * nc.pagesize + t := by
          rw [Nat.add_mul]
          omega
        have hremain : (((n + 1) * nc.pagesize : ℕ) : ℤ) - (a * nc.pagesize : ℕ) =
            ((n + 1 - a) * nc.pagesize : ℕ) := by
          rw [Nat.sub_mul, Nat.cast_sub (Nat.mul_le_mul_right _ (by omega))]
        have hle : (n + 1 - a) * nc.pagesize ≤ (n + 1) * nc.pagesize :=
          Nat.mul_le_mul_right _ (Nat.sub_le _ _)
        have hin' : t = 0 ∨ (r + a) % B.pagesperblock + (n + 1 - a) < B.pagesperblock := by
          refine hin.imp_right fun h => ?_
          rw [show n + 1 - a = 0 by omega, Nat.add_zero]
          exact Nat.mod_lt _ hppb
        have ih := nndVsReadLoop_run length ht k (n + 1 - a) (r + a) (data ++ ps) (by omega)
          (lt_of_le_of_lt hle hlt) hin'
        have hne1 : ¬(ps.length : ℤ) = -1 := by omega
        simp only [hstart, hremain, henv', hread, hne1, if_false, Option.bind_some]
        rcases hrest : nndRows B bad rows nc (n + 1 - a) (r + a) with _ | qs
        · rw [hrest] at ih
          exact ih
        · rw [hrest] at ih
          simp only [List.append_assoc] at ih
          exact ih

omit hn in
theorem nnd_quiet (o : ℕ) (n : ℤ) :
    (Prog.run (flashStep B.pagesperblock bad) (nandRead B.nand .nnd o n) rows).env = rows :=
  (quiet_run bad B.pagesperblock (nandRead_asks B.nand .nnd o n) rows).1

/-- A read of `n` pages from an offset in a row on, all in one block if it is not the start of the
row. -/
theorem nndVsRead_shift {n row t : ℕ} (ht : t < nc.pagesize) (hlt : n * nc.pagesize < 2 ^ 32)
    (hin : t = 0 ∨ row % B.pagesperblock + n < B.pagesperblock) :
    let out := Prog.run (flashStep B.pagesperblock bad)
      (nandRead B.nand .nnd (row * nc.pagesize + t) (n * nc.pagesize : ℕ)) rows
    out.env = rows ∧
      match nndRows B bad rows nc n row with
      | some ps => out.val = (((n * nc.pagesize : ℕ) : ℤ), ps)
      | none => out.val.1 = -1 := by
  have h := nndVsReadLoop_run B bad rows hn (n * nc.pagesize : ℕ) ht (n * nc.pagesize) n row []
    (Nat.le_mul_of_pos_right n (by omega)) hlt hin
  simp only [nandRead, nndVsRead, NandCfg.getConfig, hn, Int.natAbs_natCast]
  simpa using h

/-- A read of `n` pages from a row on. -/
theorem nndVsRead_run {n row : ℕ} (hlt : n * nc.pagesize < 2 ^ 32) :
    let out := Prog.run (flashStep B.pagesperblock bad)
      (nandRead B.nand .nnd (row * nc.pagesize) (n * nc.pagesize : ℕ)) rows
    out.env = rows ∧
      match nndRows B bad rows nc n row with
      | some ps => out.val = (((n * nc.pagesize : ℕ) : ℤ), ps)
      | none => out.val.1 = -1 := by
  have hpos : 0 < nc.pagesize := by
    rw [(B.nand.block_of_normal hn).1]
    exact Nat.two_pow_pos _
  exact @nndVsRead_shift B bad rows nc hn n row 0 hpos hlt (Or.inl rfl)

omit hn in
/-- A read that does not fail returns the length it was asked for. -/
theorem nndVsReadLoop_val (length : ℤ) :
    ∀ (k start : ℕ) (remain : ℤ) (data : List UInt8) (rows : ℕ → Row),
      (Prog.run (flashStep B.pagesperblock bad)
        (nndVsReadLoop B.nand nc length k start remain data) rows).val.1 = length ∨
      (Prog.run (flashStep B.pagesperblock bad)
        (nndVsReadLoop B.nand nc length k start remain data) rows).val.1 = -1
  | 0, start, remain, data, rows => Or.inl rfl
  | k + 1, start, remain, data, rows => by
    unfold nndVsReadLoop
    by_cases h0 : remain = 0
    · rw [if_pos h0]
      exact Or.inl rfl
    · rw [if_neg h0]
      simp only [Prog.run_bind_val]
      rcases (Prog.run (flashStep B.pagesperblock bad)
        (nndSkipBad B.nand nc.blocksize 31 start) rows).val with _ | s
      · exact Or.inr rfl
      · simp only [Prog.run_bind_val]
        split_ifs with hfail
        · exact Or.inr rfl
        · exact nndVsReadLoop_val length k _ _ _ _

theorem nndVsRead_neg {length : ℤ} (h0 : length < 0) (start : ℕ) (rows : ℕ → Row) :
    (Prog.run (flashStep B.pagesperblock bad) (nandRead B.nand .nnd start length) rows).val.1 < 0
    := by
  simp only [nandRead, nndVsRead, NandCfg.getConfig, hn]
  rcases nndVsReadLoop_val B bad length length.natAbs start length [] rows with h | h
  · rw [h]
    exact h0
  · rw [h]
    decide

end Read

section Body

variable {O R σ : Type} (h : σ → O → R × σ) (d : Dev) (align start : ℕ) (length : ℤ)

/-- `vs_read` over what the driver's `read` gives. -/
def vsReadVal (r : ℕ → ℤ → ℤ × List UInt8) : ℤ × List UInt8 :=
  if d = .fnd then r start length
  else
    let prelen := vsPrelen align start
    let postlen := vsPostlen d align start length
    let midlen := vsMidlen d align start length
    let head := if prelen ≠ 0 then r (andNot (u32 start) (vsMask align)) align else (0, [])
    let mid := if midlen ≠ 0 then r (start + prelen) midlen else (0, [])
    let tail := r ((start + prelen : ℕ) + midlen).toNat align
    let buf := (fit align head.2).drop (align - prelen)
    if head.1 < 0 then (head.1, [])
    else if mid.1 < 0 then (mid.1, buf ++ mid.2)
    else if postlen = 0 then (head.1 + mid.1, buf ++ mid.2)
    else if tail.1 < 0 then (tail.1, buf ++ fit midlen.toNat mid.2)
    else (head.1 + mid.1 + tail.1, buf ++ fit midlen.toNat mid.2 ++ (fit align tail.2).take postlen)

/-- If reading leaves the environment as it is, `vs_read` is that. -/
theorem vsReadBody_run {read : ℕ → ℤ → Prog O R (ℤ × List UInt8)} {s : σ}
    (hs : ∀ o n, (Prog.run h (read o n) s).env = s) :
    (Prog.run h (vsReadBody d align start length read) s).val =
      vsReadVal d align start length fun o n => (Prog.run h (read o n) s).val := by
  have hpart {c : Prop} [Decidable c] (o : ℕ) (n : ℤ) :
      (Prog.run h (vsReadPart c (read o n)) s).env = s ∧
        (Prog.run h (vsReadPart c (read o n)) s).val =
          if c then (Prog.run h (read o n) s).val else (0, []) := by
    unfold vsReadPart
    split_ifs
    · exact ⟨hs o n, rfl⟩
    · exact ⟨rfl, rfl⟩
  unfold vsReadBody vsReadVal
  by_cases hd : d = .fnd
  · rw [if_pos hd, if_pos hd]
  · rw [if_neg hd, if_neg hd]
    dsimp only
    simp only [Prog.run_bind_val, Prog.run_ite_val, (hpart _ _).1, (hpart _ _).2, hs, Prog.run_pure]

variable {d align start length}

/-- Between two aligned offsets `vs_read` is one read of the driver. -/
theorem vsReadVal_mid {r : ℕ → ℤ → ℤ × List UInt8} (hd : d ≠ .fnd)
    (hpre : vsPrelen align start = 0) (hpost : vsPostlen d align start length = 0)
    (hmid : vsMidlen d align start length ≠ 0) :
    vsReadVal d align start length r = r start (vsMidlen d align start length) := by
  have hbuf : (fit align []).drop align = [] := List.drop_eq_nil_of_le (length_fit _ _).le
  simp only [vsReadVal, if_neg hd, hpre, hpost, ne_eq, not_true_eq_false, if_false, if_true, hmid,
    not_false_eq_true, Nat.add_zero, Nat.sub_zero, hbuf, List.nil_append, Int.zero_add,
    lt_irrefl]
  split_ifs <;> rfl

end Body

section Call

variable (B : Board) (bad : ℕ → Bool) (rows : ℕ → Row) {nc : NandConfig}
variable (hn : B.nand.normal = some nc)
include hn

theorem nnd_align : B.align .nnd = nc.pagesize ∧ vsMask nc.pagesize = nc.pagesize - 1 ∧
    0 < nc.pagesize ∧ nc.pagesize ∣ 2 ^ 31 ∧ nc.pagesize ≤ 2 ^ 14 := by
  obtain ⟨hpage, _, _, _, h14, _⟩ := B.nand.block_of_normal hn
  have hle : nc.pagesize ≤ 2 ^ 14 := by
    rw [hpage]
    exact Nat.pow_le_pow_right (by norm_num) h14
  have hpos : 0 < nc.pagesize := by
    rw [hpage]
    exact Nat.two_pow_pos _
  refine ⟨?_, ?_, hpos, ?_, hle⟩
  · simp only [Board.align, nndVsAlign, NandCfg.getConfig, hn, Option.elim_some]
  · rw [vsMask, show ((nc.pagesize : ℤ) - 1) = ((nc.pagesize - 1 : ℕ) : ℤ) by omega,
      toU32_natCast (by omega)]
  · rw [hpage]
    exact pow_dvd_pow 2 (by omega)

/-- How many pages a read of `length` bytes takes. -/
def pageCount (nc : NandConfig) (length : ℕ) : ℕ := (length + (nc.pagesize - 1)) / nc.pagesize

/-- The length is forced up to whole pages. -/
theorem vsLength_nnd {length : ℕ} (hlt : length < 2 ^ 31) :
    vsLength .nnd nc.pagesize length = s32 (pageCount nc length * nc.pagesize : ℕ) := by
  obtain ⟨_, hmask, hpos, _, hle⟩ := nnd_align B hn
  obtain ⟨hpage, _⟩ := B.nand.block_of_normal hn
  rw [vsLength, if_pos rfl, hmask, ← Nat.cast_add, toU32_natCast (by omega), andNot_mask hpage,
    pageCount]
  have hdm := Nat.div_add_mod (length + (nc.pagesize - 1)) nc.pagesize
  rw [Nat.mul_comm]
  congr 2
  omega

/-- The length in whole pages is kept, or too long for the signed variable it is kept in. -/
theorem pageCount_range {length : ℕ} (hlt : length < 2 ^ 31) :
    s32 (pageCount nc length * nc.pagesize : ℕ) = (pageCount nc length * nc.pagesize : ℕ) ∧
        pageCount nc length * nc.pagesize < 2 ^ 31 ∨
      s32 (pageCount nc length * nc.pagesize : ℕ) = -2 ^ 31 ∧
        pageCount nc length * nc.pagesize = 2 ^ 31 := by
  obtain ⟨_, _, hpos, ⟨k, hk⟩, _⟩ := nnd_align B hn
  have hdm := Nat.div_mul_le_self (length + (nc.pagesize - 1)) nc.pagesize
  have hle : pageCount nc length ≤ k := by
    have h1 : pageCount nc length * nc.pagesize < (k + 1) * nc.pagesize := by
      rw [Nat.add_mul, Nat.one_mul, Nat.mul_comm k, ← hk]
      unfold pageCount
      omega
    exact Nat.lt_succ_iff.1 (Nat.lt_of_mul_lt_mul_right h1)
  rcases Nat.lt_or_eq_of_le hle with h | h
  · left
    have h1 : pageCount nc length * nc.pagesize < k * nc.pagesize :=
      Nat.mul_lt_mul_of_pos_right h hpos
    rw [Nat.mul_comm k, ← hk] at h1
    exact ⟨s32_of_range (by omega) (by omega), h1⟩
  · right
    rw [h, Nat.mul_comm k, ← hk]
    exact ⟨by decide, rfl⟩

/-- A call at the start of a page that does not fail reads its pages from there. -/
theorem nndCall_aligned {row length : ℕ} (h0 : 0 < length) (hlt : length < 2 ^ 31) :
    let out := Prog.run (flashStep B.pagesperblock bad)
      (vsReadBody .nnd nc.pagesize (row * nc.pagesize) length (nandRead B.nand .nnd)) rows
    0 ≤ out.val.1 → nndRows B bad rows nc (pageCount nc length) row = some out.val.2 := by
  obtain ⟨_, hmask, hpos, hdvd, hle⟩ := nnd_align B hn
  obtain ⟨hpage, _⟩ := B.nand.block_of_normal hn
  have hpre : vsPrelen nc.pagesize (row * nc.pagesize) = 0 := by
    have hx : row * nc.pagesize &&& (nc.pagesize - 1) = 0 := by
      rw [and_mask hpage, Nat.mul_mod_left]
    rw [vsPrelen, hmask, hx]
    rfl
  have hpost : vsPostlen .nnd nc.pagesize (row * nc.pagesize) length = 0 := by
    rw [vsPostlen, vsLength_nnd B hn hlt, hpre, hmask, and_mask hpage]
    rcases pageCount_range B hn hlt with ⟨h, h'⟩ | ⟨h, _⟩
    · rw [h, Int.natCast_zero, Int.sub_zero, toU32_natCast (by omega), Nat.mul_mod_left]
    · rw [h, show toU32 (-2 ^ 31 - ((0 : ℕ) : ℤ)) = 2 ^ 31 by decide]
      exact Nat.mod_eq_zero_of_dvd hdvd
  have hmid : vsMidlen .nnd nc.pagesize (row * nc.pagesize) length =
      s32 (pageCount nc length * nc.pagesize : ℕ) := by
    rw [vsMidlen, vsLength_nnd B hn hlt, hpre, hpost]
    rcases pageCount_range B hn hlt with ⟨h, h'⟩ | ⟨h, _⟩
    · simp only [h, Int.natCast_zero, Int.sub_zero]
    · rw [h]
      rfl
  have hcount : pageCount nc length ≠ 0 := by
    unfold pageCount
    exact (Nat.div_pos (by omega) hpos).ne'
  intro out hout
  have hmid0 : vsMidlen .nnd nc.pagesize (row * nc.pagesize) length ≠ 0 := by
    have := Nat.mul_pos (Nat.pos_of_ne_zero hcount) hpos
    rw [hmid]
    rcases pageCount_range B hn hlt with ⟨h, _⟩ | ⟨h, _⟩
    · rw [h]
      omega
    · rw [h]
      decide
  have hval := vsReadBody_run (flashStep B.pagesperblock bad) .nnd nc.pagesize
    (row * nc.pagesize) length (nnd_quiet B bad rows)
  rw [vsReadVal_mid (by decide) hpre hpost hmid0, hmid] at hval
  simp only [out, hval] at hout ⊢
  rcases pageCount_range B hn hlt with ⟨h, h'⟩ | ⟨h, _⟩
  · rw [h] at hout ⊢
    obtain ⟨_, hread⟩ := @nndVsRead_run B bad rows nc hn (pageCount nc length) row (by omega)
    rcases hrows : nndRows B bad rows nc (pageCount nc length) row with _ | ps
    · rw [hrows] at hread
      rw [hread] at hout
      exact absurd hout (by decide)
    · rw [hrows] at hread
      rw [hread]
  · rw [h] at hout
    have hneg := nndVsRead_neg B bad hn (by decide : (-2 ^ 31 : ℤ) < 0) (row * nc.pagesize) rows
    exact absurd hneg (not_lt.2 hout)

end Call

end InfotmUboot
