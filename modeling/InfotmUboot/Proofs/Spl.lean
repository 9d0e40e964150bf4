import InfotmUboot.Spl
import InfotmUboot.Proofs.NndRead

/-!
# The preloader's read against the driver's

`nread_skip_bad` and `nnd_vs_read` go through the same blocks of the same flash. Over an iROM that
reads a page or says that it cannot (`Irom.Reads`), `splLoop_run` says what a round of the
preloader does, and `spl_right_iff` when a read that it says succeeded is the driver's.
-/

namespace InfotmUboot

open Lib

section Retry

variable {R : RetryParam} {α σ : Type} {f : σ → FlashOp → FlashReply × σ} {s : σ}

/-- A call that leaves the flash as it is gives what it gives, however often it is tried. -/
theorem withRetry_run {gRetrylevel : R.Level} {ok : α → Bool} {call : Flash α}
    (h : (Prog.run f call s).env = s) :
    ∀ (n : ℕ) (retrylevel : R.Level),
      let out := Prog.run f (withRetry R gRetrylevel ok call n retrylevel) s
      out.val.1 = (Prog.run f call s).val ∧ out.env = s
  | 0, retrylevel => by
    simp only [withRetry, Prog.run_bind, Prog.run_pure]
    exact ⟨trivial, h⟩
  | n + 1, retrylevel => by
    simp only [withRetry, Prog.run_bind]
    split_ifs
    · exact ⟨rfl, h⟩
    · rw [h]
      exact withRetry_run h n _
    · exact ⟨rfl, h⟩

/-- How many levels are tried from one on before `g_retrylevel` comes round. -/
def levelsTo (gRetrylevel retrylevel : R.Level) : ℕ :=
  if retrylevel < gRetrylevel then gRetrylevel - retrylevel
  else R.gRetrylevelMax + 1 - retrylevel + gRetrylevel

theorem levelsTo_next {gRetrylevel retrylevel : R.Level}
    (h : RetryParam.next retrylevel ≠ gRetrylevel) :
    levelsTo gRetrylevel (RetryParam.next retrylevel) + 1 = levelsTo gRetrylevel retrylevel := by
  have hg := gRetrylevel.isLt
  have hr := retrylevel.isLt
  unfold RetryParam.next at h ⊢
  split_ifs at h ⊢ with hmax
  · have h0 : (gRetrylevel : ℕ) ≠ 0 := fun h0 => h (Fin.ext h0.symm)
    have hz : ((0 : R.Level) : ℕ) = 0 := rfl
    simp only [levelsTo, Fin.lt_def, hz]
    split_ifs <;> omega
  · have h0 : (retrylevel : ℕ) + 1 ≠ gRetrylevel := fun h0 => h (Fin.ext h0)
    simp only [levelsTo, Fin.lt_def]
    split_ifs <;> omega

theorem withRetry_levelsTo {gRetrylevel : R.Level} {ok : α → Bool} {call : Flash α} :
    ∀ (n m : ℕ) (retrylevel : R.Level), levelsTo gRetrylevel retrylevel ≤ n → n ≤ m →
      withRetry R gRetrylevel ok call m retrylevel = withRetry R gRetrylevel ok call n retrylevel
  | 0, m, retrylevel, hn, _ => by
    have hg := gRetrylevel.isLt
    have hr := retrylevel.isLt
    unfold levelsTo at hn
    simp only [Fin.lt_def] at hn
    split_ifs at hn <;> omega
  | n + 1, 0, retrylevel, _, hm => absurd hm (Nat.not_succ_le_zero n)
  | n + 1, m + 1, retrylevel, hn, hm => by
    simp only [withRetry]
    congr 1
    funext ret
    split_ifs with hret hround
    · rfl
    · exact withRetry_levelsTo n m _ (by have := levelsTo_next hround; omega) (by omega)
    · rfl

theorem levelsTo_le (gRetrylevel retrylevel : R.Level) :
    levelsTo gRetrylevel retrylevel ≤ R.gRetrylevelMax + 1 := by
  have hg := gRetrylevel.isLt
  have hr := retrylevel.isLt
  simp only [levelsTo, Fin.lt_def]
  split_ifs <;> omega

/-- The tries end because the levels have come round, not because their number is bounded. -/
theorem withRetry_fuel {gRetrylevel : R.Level} {ok : α → Bool} {call : Flash α} {n : ℕ}
    (hn : R.gRetrylevelMax + 1 ≤ n) (retrylevel : R.Level) :
    withRetry R gRetrylevel ok call n retrylevel =
      withRetry R gRetrylevel ok call (R.gRetrylevelMax + 1) retrylevel :=
  withRetry_levelsTo _ n retrylevel (levelsTo_le gRetrylevel retrylevel) hn

end Retry

section Read

variable (B : Board) (bad : ℕ → Bool) (rows : ℕ → Row) {nc : NandConfig}
variable (hn : B.nand.normal = some nc)

/-- The iROM tells the bad blocks of the flash, and at offsets `t` into a page of a good block it
reads that page or does not return a page's length. -/
structure Irom.Reads (irf : Irom) (nc : NandConfig) (t : ℕ) : Prop where
  isbad : ∀ b,
    let out := Prog.run (flashStep B.pagesperblock bad) (irf.vsIsbad (b * nc.blocksize)) rows
    out.env = rows ∧ (out.val = 0 ↔ bad b = false)
  page : ∀ row, bad (row / B.pagesperblock) = false →
    let out := Prog.run (flashStep B.pagesperblock bad)
      (irf.vsRead (row * nc.pagesize + t) nc.pagesize) rows
    out.env = rows ∧
      match pageBytes nc B.pagesperblock bad rows row with
      | some ps => out.val = ((nc.pagesize : ℤ), ps)
      | none => out.val.1 ≠ nc.pagesize

variable {irf : Irom} {R : RetryParam} {t : ℕ} (hirf : irf.Reads B bad rows nc t)
include hn hirf

theorem splIsbad_run {gRetrylevel : R.Level} (retrylevel : R.Level) (start : ℕ) :
    let out := Prog.run (flashStep B.pagesperblock bad)
      (withRetry R gRetrylevel (· = 0) (irf.vsIsbad (andNot start (nc.blocksize - 1)))
        (R.gRetrylevelMax + 1) retrylevel) rows
    out.env = rows ∧ (out.val.1 = 0 ↔ bad (start / nc.blocksize) = false) := by
  obtain ⟨_, hblk, _⟩ := B.nand.block_of_normal hn
  have hb : andNot start (nc.blocksize - 1) = start / nc.blocksize * nc.blocksize := by
    rw [andNot_mask hblk]
    have := Nat.div_add_mod' start nc.blocksize
    omega
  obtain ⟨henv, hval⟩ := hirf.isbad (start / nc.blocksize)
  obtain ⟨hret, henv'⟩ := @withRetry_run R ℤ _ _ rows gRetrylevel (· = 0) _ henv
    (R.gRetrylevelMax + 1) retrylevel
  rw [hb]
  exact ⟨henv', by rw [hret]; exact hval⟩

/-- The skip loop of the preloader is `seek`. -/
theorem splSkipBad_run {gRetrylevel : R.Level} :
    ∀ (k : ℕ) (retrylevel : R.Level) (start : ℕ),
      let out := Prog.run (flashStep B.pagesperblock bad)
        (splSkipBad irf R nc.blocksize gRetrylevel k retrylevel start) rows
      out.env = rows ∧
        out.val = (seek (fun o => bad (o / nc.blocksize)) nc.blocksize k start).map Prod.fst
  | 0, retrylevel, start => by
    obtain ⟨henv, hval⟩ := @splIsbad_run B bad rows nc hn irf R t hirf gRetrylevel retrylevel start
    simp only [splSkipBad, Prog.run_bind, Prog.run_pure, seek]
    refine ⟨henv, ?_⟩
    by_cases hbad : bad (start / nc.blocksize) = true
    · rw [if_pos (fun h0 => Bool.false_ne_true ((hval.1 h0).symm.trans hbad)), if_pos hbad]
      rfl
    · rw [if_neg (not_not.2 (hval.2 (eq_false_of_ne_true hbad))), if_neg hbad]
      rfl
  | k + 1, retrylevel, start => by
    obtain ⟨henv, hval⟩ := @splIsbad_run B bad rows nc hn irf R t hirf gRetrylevel retrylevel start
    simp only [splSkipBad, Prog.run_bind, seek]
    rw [henv]
    by_cases hbad : bad (start / nc.blocksize) = true
    · rw [if_pos (fun h0 => Bool.false_ne_true ((hval.1 h0).symm.trans hbad)), if_pos hbad]
      exact splSkipBad_run k _ (start + nc.blocksize)
    · rw [if_neg (not_not.2 (hval.2 (eq_false_of_ne_true hbad))), if_neg hbad]
      exact ⟨rfl, rfl⟩

/-- The pages that `remain_page` bytes of a good block take: all of them go to the buffer, and they
are the pages of the rows if these can be read. -/
theorem splReadPages_run {b : ℕ} (hgood : bad b = false) :
    ∀ (n r u : ℕ) (gRetrylevel retrylevel : R.Level) (data : List UInt8), r ≤ n →
      u + pageCount nc r ≤ B.pagesperblock →
      let row := b * B.pagesperblock + u
      let out := Prog.run (flashStep B.pagesperblock bad)
        (splReadPages irf R nc.pagesize n r (row * nc.pagesize + t) gRetrylevel retrylevel data)
          rows
      ∃ ds, out.env = rows ∧ out.val.1 = (row + pageCount nc r) * nc.pagesize + t ∧
        out.val.2.2.2 = data ++ ds ∧ ds.length = pageCount nc r * nc.pagesize ∧
        ∀ ps, readRows nc B.pagesperblock bad rows (List.range' row (pageCount nc r)) = some ps →
          ds = ps
  | n, 0, u, gRetrylevel, retrylevel, data, _, _ => by
    obtain ⟨_, _, hpos, _⟩ := nnd_align B hn
    have h0 : pageCount nc 0 = 0 := by
      unfold pageCount
      exact Nat.div_eq_of_lt (by omega)
    refine ⟨[], ?_⟩
    rcases n with _ | n <;> simp [splReadPages, h0, readRows]
  | n + 1, r + 1, u, gRetrylevel, retrylevel, data, hr, hin => by
    obtain ⟨_, _, hpos, _⟩ := nnd_align B hn
    obtain ⟨hppb, _⟩ := block_rows B hn
    obtain ⟨r', hr', hcount, hrem⟩ : ∃ r' ≤ n, pageCount nc (r + 1) = pageCount nc r' + 1 ∧
        (if ((r + 1 : ℕ) : ℤ) < nc.pagesize then 0 else ((r + 1 : ℕ) : ℤ) - nc.pagesize) = (r' : ℤ)
        := by
      refine ⟨r + 1 - nc.pagesize, by omega, ?_, by split_ifs <;> omega⟩
      unfold pageCount
      rcases Nat.lt_or_ge (r + 1) nc.pagesize with hlt | hge
      · rw [Nat.sub_eq_zero_of_le hlt.le, Nat.zero_add,
          show r + 1 + (nc.pagesize - 1) = r + nc.pagesize by omega, Nat.add_div_right _ hpos,
          Nat.div_eq_of_lt (by omega), Nat.div_eq_of_lt (by omega)]
      · rw [← Nat.add_div_right _ hpos]
        congr 1
        omega
    have hrow : (b * B.pagesperblock + u) / B.pagesperblock = b := by
      rw [Nat.mul_comm, Nat.mul_add_div hppb, Nat.div_eq_of_lt (by omega), Nat.add_zero]
    obtain ⟨henv, hpage⟩ := hirf.page (b * B.pagesperblock + u) (by rw [hrow]; exact hgood)
    obtain ⟨hret, henv'⟩ := @withRetry_run R (ℤ × List UInt8) _ _ rows gRetrylevel
      (fun ret => ret.1 = (nc.pagesize : ℤ)) _ henv (R.gRetrylevelMax + 1) retrylevel
    have hne : ¬((r + 1 : ℕ) : ℤ) = 0 := by omega
    have hnext : (b * B.pagesperblock + u) * nc.pagesize + t + nc.pagesize =
        (b * B.pagesperblock + (u + 1)) * nc.pagesize + t := by
      rw [← Nat.add_assoc, Nat.add_mul _ 1, Nat.one_mul]
      omega
    simp only [splReadPages, hne, if_false, Prog.run_bind, hrem]
    rw [henv', hret, hnext]
    set p := fit nc.pagesize (Prog.run (flashStep B.pagesperblock bad)
      (irf.vsRead ((b * B.pagesperblock + u) * nc.pagesize + t) nc.pagesize) rows).val.2 with hp
    obtain ⟨ds, hout, hstart, hdata, hlen, hds⟩ :=
      splReadPages_run hgood n r' (u + 1) _ 0 (data ++ p) hr' (by omega)
    refine ⟨p ++ ds, hout, ?_, ?_, ?_, ?_⟩
    · rw [hstart, hcount]
      ring
    · rw [hdata, List.append_assoc]
    · rw [List.length_append, hlen, hcount, hp, length_fit]
      ring
    · intro ps hps
      rw [hcount, List.range'_succ, readRows] at hps
      rcases hpg : pageBytes nc B.pagesperblock bad rows (b * B.pagesperblock + u) with _ | q
      · rw [hpg] at hps
        exact absurd hps (by simp)
      · rw [hpg] at hps hpage
        obtain ⟨qs, hqs, rfl⟩ := Option.map_eq_some_iff.1 hps
        dsimp only at hpage
        rw [hds qs hqs, hp, hpage, fit_of_length (length_pageBytes hpg)]

/-- One round of the preloader: it gives up, or it is left with the rest of the length behind the
pages of what the block has of it. -/
theorem splLoop_round (ht : t < nc.pagesize) {length : ℤ} {k L b u : ℕ} (hL : 0 < L)
    (hu : u < B.pagesperblock) (gRetrylevel : R.Level) (data : List UInt8) :
    let w := min (nc.blocksize - (u * nc.pagesize + t)) L
    let val (k start L : ℕ) (g : R.Level) (data : List UInt8) :=
      (Prog.run (flashStep B.pagesperblock bad)
        (nreadSkipBadLoop irf R nc length k start L g data) rows).val
    match seek (fun r => bad (r / 1)) 1 30 b with
    | none => (val (k + 1) ((b * B.pagesperblock + u) * nc.pagesize + t) L gRetrylevel data).1 = -1
    | some (c, _) => ∃ g ds,
        val (k + 1) ((b * B.pagesperblock + u) * nc.pagesize + t) L gRetrylevel data =
          val k ((c * B.pagesperblock + u + pageCount nc w) * nc.pagesize + t) (L - w) g
            (data ++ ds) ∧
        ds.length = pageCount nc w * nc.pagesize ∧
        ∀ ps, readRows nc B.pagesperblock bad rows
          (List.range' (c * B.pagesperblock + u) (pageCount nc w)) = some ps → ds = ps := by
  intro w val
  obtain ⟨hpage, hblk, _⟩ := B.nand.block_of_normal hn
  obtain ⟨hppb, hrows⟩ := block_rows B hn
  obtain ⟨_, _, hpos, _⟩ := nnd_align B hn
  have hleft : (B.pagesperblock - u) * nc.pagesize + u * nc.pagesize = nc.blocksize := by
    rw [← Nat.add_mul, Nat.sub_add_cancel hu.le, hrows]
  have hone : nc.pagesize ≤ (B.pagesperblock - u) * nc.pagesize :=
    Nat.le_mul_of_pos_left _ (by omega)
  have hoff (b : ℕ) : (b * B.pagesperblock + u) * nc.pagesize + t =
      b * nc.blocksize + (u * nc.pagesize + t) := by
    rw [hrows]
    ring
  have hne : ¬(L : ℤ) = 0 := by omega
  obtain ⟨henv, hskip⟩ := @splSkipBad_run B bad rows nc hn irf R t hirf gRetrylevel 30 gRetrylevel
    (b * nc.blocksize + (u * nc.pagesize + t))
  have hseek := @seek_shift bad 1 nc.blocksize (u * nc.pagesize + t) (by omega) 30 b
  rw [Nat.one_mul] at hseek
  rw [hseek] at hskip
  simp only [val, hoff b, nreadSkipBadLoop, hne, if_false, Prog.run_bind]
  rw [hskip, henv]
  rcases hs : seek (fun r => bad (r / 1)) 1 30 b with _ | ⟨c, j⟩
  · rfl
  · have hgood : bad c = false := by
      have := @seek_isGood (fun r => bad (r / 1)) _ _ _ c j hs
      rwa [Nat.div_one] at this
    have hw : min (nc.blocksize : ℤ) (min (nc.blocksize -
        (c * nc.blocksize + (u * nc.pagesize + t) &&& (nc.blocksize - 1) : ℕ)) L) = (w : ℤ) := by
      rw [and_mask hblk, Nat.mul_comm c, Nat.mul_add_mod, Nat.mod_eq_of_lt (by omega)]
      omega
    have hcount : u + pageCount nc w ≤ B.pagesperblock := by
      have h1 : w ≤ (B.pagesperblock - u) * nc.pagesize := by omega
      have h2 := Nat.div_le_div_right (c := nc.pagesize) (Nat.add_le_add_right h1 (nc.pagesize - 1))
      rw [Nat.mul_comm, Nat.mul_add_div hpos, Nat.div_eq_of_lt (by omega : nc.pagesize - 1 < _),
        Nat.add_zero] at h2
      unfold pageCount
      omega
    obtain ⟨ds, hout, hstart, hdata, hlen, hds⟩ := @splReadPages_run B bad rows nc hn irf R t hirf
      c hgood w w u gRetrylevel gRetrylevel data (le_refl w) hcount
    simp only [Option.map_some, hw, Int.natAbs_natCast, Prog.run_bind]
    rw [← hoff c]
    set out := Prog.run (flashStep B.pagesperblock bad) (splReadPages irf R nc.pagesize w w
      ((c * B.pagesperblock + u) * nc.pagesize + t) gRetrylevel gRetrylevel data) rows
    refine ⟨out.val.2.2.1, ds, ?_, hlen, hds⟩
    rw [hstart, hdata, hout, Nat.cast_sub (by omega)]

omit hn hirf in
/-- How many blocks the preloader reads from for `length` bytes: one up to the next block, and after
it one for every block less what its pages are shifted by. -/
def splBlocks (nc : NandConfig) (start length : ℕ) : ℕ :=
  if length = 0 then 0
  else
    let block := nc.blocksize - start % nc.pagesize
    1 + (length - (nc.blocksize - start % nc.blocksize) + (block - 1)) / block

omit hn hirf in
/-- A round takes the first of the blocks. -/
theorem splBlocks_next {start next L : ℕ} (hL : 0 < L) (hlt : start % nc.pagesize < nc.blocksize)
    (hp : next % nc.pagesize = start % nc.pagesize)
    (hb : nc.blocksize - start % nc.blocksize < L → next % nc.blocksize = start % nc.pagesize) :
    splBlocks nc start L =
      splBlocks nc next (L - min (nc.blocksize - start % nc.blocksize) L) + 1 := by
  obtain ⟨d, hd⟩ : ∃ d, d = nc.blocksize - start % nc.pagesize := ⟨_, rfl⟩
  unfold splBlocks
  rw [if_neg hL.ne', hp, ← hd]
  rcases Nat.lt_or_ge (nc.blocksize - start % nc.blocksize) L with h | h
  · rw [Nat.min_eq_left h.le, if_neg (by omega), hb h, ← hd]
    dsimp only
    obtain ⟨x, hx⟩ : ∃ x, x = L - (nc.blocksize - start % nc.blocksize) := ⟨_, rfl⟩
    rw [← hx]
    have hdpos : 0 < d := by omega
    rcases Nat.lt_or_ge x d with hxd | hxd
    · rw [Nat.sub_eq_zero_of_le hxd.le, Nat.zero_add, Nat.div_eq_of_lt (by omega : d - 1 < d),
        show x + (d - 1) = x - 1 + d by omega, Nat.add_div_right _ hdpos,
        Nat.div_eq_of_lt (by omega)]
    · rw [show x + (d - 1) = x - d + (d - 1) + d by omega, Nat.add_div_right _ hdpos]
      omega
  · rw [Nat.min_eq_right h, Nat.sub_self, if_pos rfl, Nat.sub_eq_zero_of_le h]
    dsimp only
    rw [Nat.zero_add, Nat.div_eq_of_lt (by omega)]

omit hn hirf in
theorem le_pageCount (hpos : 0 < nc.pagesize) (w : ℕ) : w ≤ pageCount nc w * nc.pagesize := by
  have h := Nat.div_add_mod (w + (nc.pagesize - 1)) nc.pagesize
  have hlt := Nat.mod_lt (w + (nc.pagesize - 1)) hpos
  rw [Nat.mul_comm] at h
  unfold pageCount
  omega

omit hn hirf in
/-- The pages that are left of a block from an offset in it on. -/
theorem pageCount_left (hrows : nc.blocksize = B.pagesperblock * nc.pagesize)
    (ht : t < nc.pagesize) {u : ℕ} (hu : u < B.pagesperblock) :
    pageCount nc (nc.blocksize - (u * nc.pagesize + t)) = B.pagesperblock - u := by
  have hleft : (B.pagesperblock - u) * nc.pagesize + u * nc.pagesize = nc.blocksize := by
    rw [← Nat.add_mul, Nat.sub_add_cancel hu.le, hrows]
  have hone : nc.pagesize ≤ (B.pagesperblock - u) * nc.pagesize :=
    Nat.le_mul_of_pos_left _ (by omega)
  have hsum : nc.blocksize - (u * nc.pagesize + t) + (nc.pagesize - 1) =
      nc.pagesize * (B.pagesperblock - u) + (nc.pagesize - 1 - t) := by
    rw [Nat.mul_comm nc.pagesize]
    omega
  rw [pageCount, hsum, Nat.mul_add_div (by omega), Nat.div_eq_of_lt (by omega), Nat.add_zero]

omit hn hirf in
theorem splLoop_done (length : ℤ) (k start : ℕ) (gRetrylevel : R.Level) (data : List UInt8) :
    nreadSkipBadLoop irf R nc length k start 0 gRetrylevel data = pure (length, data) := by
  rcases k with _ | k
  · rfl
  · rw [nreadSkipBadLoop, if_pos rfl]

/-- The preloader gives up if there are too many bad blocks before one of those it reads from, and
otherwise says that it succeeded. -/
theorem splLoop_val (ht : t < nc.pagesize) (length : ℤ) :
    ∀ (k L b u : ℕ) (gRetrylevel : R.Level) (data : List UInt8), L ≤ k → u < B.pagesperblock →
      let start := (b * B.pagesperblock + u) * nc.pagesize + t
      let out := Prog.run (flashStep B.pagesperblock bad)
        (nreadSkipBadLoop irf R nc length k start L gRetrylevel data) rows
      match walk bad 1 30 (splBlocks nc start L) b with
      | none => out.val.1 = -1
      | some _ => out.val.1 = length ∧ ∃ ds, out.val.2 = data ++ ds ∧ L ≤ ds.length
  | k, 0, b, u, gRetrylevel, data, _, _ => by
    rcases k with _ | k <;> simp [nreadSkipBadLoop, splBlocks, walk]
  | k + 1, L + 1, b, u, gRetrylevel, data, hk, hu => by
    obtain ⟨hppb, hrows⟩ := block_rows B hn
    have hpos : 0 < nc.pagesize := by omega
    have hleft : (B.pagesperblock - u) * nc.pagesize + u * nc.pagesize = nc.blocksize := by
      rw [← Nat.add_mul, Nat.sub_add_cancel hu.le, hrows]
    have hone : nc.pagesize ≤ (B.pagesperblock - u) * nc.pagesize :=
      Nat.le_mul_of_pos_left _ (by omega)
    have hpage (r : ℕ) : (r * nc.pagesize + t) % nc.pagesize = t := by
      rw [Nat.mul_add_mod_self_right, Nat.mod_eq_of_lt ht]
    have hblock (c v : ℕ) (hv : v < B.pagesperblock) :
        ((c * B.pagesperblock + v) * nc.pagesize + t) % nc.blocksize = v * nc.pagesize + t := by
      rw [hrows, mod_page hpos ht, Nat.mul_add_mod_self_right, Nat.mod_eq_of_lt hv]
    have hround := @splLoop_round B bad rows nc hn irf R t hirf ht length k (L + 1) b u
      (Nat.succ_pos L) hu gRetrylevel data
    dsimp only at hround ⊢
    obtain ⟨w, hw⟩ : ∃ w, w = min (nc.blocksize - (u * nc.pagesize + t)) (L + 1) := ⟨_, rfl⟩
    rw [← hw] at hround
    have hblocks (c : ℕ) : splBlocks nc ((b * B.pagesperblock + u) * nc.pagesize + t) (L + 1) =
        splBlocks nc ((c * B.pagesperblock + u + pageCount nc w) * nc.pagesize + t) (L + 1 - w) + 1
        := by
      have h := @splBlocks_next nc ((b * B.pagesperblock + u) * nc.pagesize + t)
        ((c * B.pagesperblock + u + pageCount nc w) * nc.pagesize + t) (L + 1) (Nat.succ_pos L)
      rw [hblock b u hu, hpage, hpage, ← hw] at h
      refine h (by omega) rfl fun hlt => ?_
      rw [hw, Nat.min_eq_left hlt.le, pageCount_left B hrows ht hu,
        show c * B.pagesperblock + u + (B.pagesperblock - u) = (c + 1) * B.pagesperblock + 0 by
          rw [Nat.add_mul]; omega, hblock _ 0 hppb, Nat.zero_mul, Nat.zero_add]
    rcases hs : seek (fun r => bad (r / 1)) 1 30 b with _ | ⟨c, j⟩
    · rw [hs] at hround
      rw [hblocks b, walk, hs]
      exact hround
    · rw [hs] at hround
      obtain ⟨g, ds, hval, hlen, _⟩ := hround
      have hds := le_pageCount hpos w
      rw [hblocks c, walk, hs, hval]
      have hdata : ∀ ds', L + 1 - w ≤ ds'.length → L + 1 ≤ (ds ++ ds').length := fun ds' h => by
        rw [List.length_append]
        omega
      rcases Nat.eq_zero_or_pos (L + 1 - w) with h0 | hrest
      · rw [h0, Int.natCast_zero, splLoop_done]
        exact ⟨rfl, ds, rfl, by omega⟩
      · have hnext : c * B.pagesperblock + u + pageCount nc w = (c + 1) * B.pagesperblock + 0 := by
          rw [hw, Nat.min_eq_left (by omega), pageCount_left B hrows ht hu, Nat.add_mul]
          omega
        have ih := splLoop_val ht length k (L + 1 - w) (c + 1) 0 g (data ++ ds) (by omega) hppb
        rw [hnext]
        dsimp only at ih ⊢
        rcases hwalk : walk bad 1 30
          (splBlocks nc (((c + 1) * B.pagesperblock + 0) * nc.pagesize + t) (L + 1 - w)) (c + 1)
          with _ | cs
        · rw [hwalk] at ih
          exact ih
        · rw [hwalk] at ih
          obtain ⟨hret, ds', hout, hlen'⟩ := ih
          exact ⟨hret, ds ++ ds', by rw [hout, List.append_assoc], hdata ds' hlen'⟩

/-- What is read in whole pages, from the start of a page or within one block, are the pages that
the driver reads, if they can be read and the preloader does not give up. -/
theorem splLoop_rows (ht : t < nc.pagesize) (length : ℤ) :
    ∀ (k n b u : ℕ) (gRetrylevel : R.Level) (data ps : List UInt8), n * nc.pagesize ≤ k →
      u < B.pagesperblock → (t = 0 ∨ u + n < B.pagesperblock) →
      let start := (b * B.pagesperblock + u) * nc.pagesize + t
      let out := Prog.run (flashStep B.pagesperblock bad)
        (nreadSkipBadLoop irf R nc length k start (n * nc.pagesize : ℕ) gRetrylevel data) rows
      out.val.1 ≠ -1 → nndRows B bad rows nc n (b * B.pagesperblock + u) = some ps →
        out.val.2 = data ++ ps
  | k, 0, b, u, gRetrylevel, data, ps, _, _, _ => by
    intro start out _ hps
    simp only [nndRows, walk, Option.bind_some, readRows, Option.some.injEq] at hps
    simp only [out, Nat.zero_mul, Int.natCast_zero, splLoop_done, ← hps, List.append_nil,
      Prog.run_pure]
  | 0, n + 1, b, u, gRetrylevel, data, ps, hk, hu, hin => by
    have := Nat.le_mul_of_pos_left nc.pagesize (by omega : 0 < n + 1)
    omega
  | k + 1, n + 1, b, u, gRetrylevel, data, ps, hk, hu, hin => by
    obtain ⟨hppb, hrows⟩ := block_rows B hn
    have hpos : 0 < nc.pagesize := by omega
    have hleft : (B.pagesperblock - u) * nc.pagesize + u * nc.pagesize = nc.blocksize := by
      rw [← Nat.add_mul, Nat.sub_add_cancel hu.le, hrows]
    obtain ⟨a, ha⟩ : ∃ a, a = min (B.pagesperblock - u) (n + 1) := ⟨_, rfl⟩
    have hw : min (nc.blocksize - (u * nc.pagesize + t)) ((n + 1) * nc.pagesize) =
        a * nc.pagesize := by
      rcases hin with rfl | hin
      · rw [ha, Nat.add_zero, ← hleft, Nat.add_sub_cancel, Nat.mul_min_mul_right]
      · have h := Nat.mul_le_mul_right nc.pagesize
          (show n + 1 + 1 ≤ B.pagesperblock - u by omega)
        rw [Nat.add_mul (n + 1) 1, Nat.one_mul] at h
        rw [ha, Nat.min_eq_right (by omega), Nat.min_eq_right (by omega)]
    have hcount : pageCount nc (a * nc.pagesize) = a := by
      rw [pageCount, Nat.mul_comm, Nat.mul_add_div hpos, Nat.div_eq_of_lt (by omega), Nat.add_zero]
    have hround := @splLoop_round B bad rows nc hn irf R t hirf ht length k ((n + 1) * nc.pagesize)
      b u (Nat.mul_pos (Nat.succ_pos n) hpos) hu gRetrylevel data
    dsimp only at hround
    rw [hw, hcount] at hround
    intro start out hout hps
    rcases hs : seek (fun r => bad (r / 1)) 1 30 b with _ | ⟨c, j⟩
    · rw [hs] at hround
      exact absurd hround hout
    · rw [hs] at hround
      obtain ⟨g, ds, hval, _, hds⟩ := hround
      have hseek := @seek_shift bad 1 B.pagesperblock u hu 31 b
      rw [seek_more 1 hs, Nat.one_mul, Option.map_some] at hseek
      have hrow := @nndRows_block B bad rows nc n _ _ _ hppb hseek
      have hmod : (c * B.pagesperblock + u) % B.pagesperblock = u := by
        rw [Nat.mul_add_mod_self_right, Nat.mod_eq_of_lt hu]
      dsimp only at hrow
      rw [hmod, ← ha, hps] at hrow
      rcases hrs : readRows nc B.pagesperblock bad rows (List.range' (c * B.pagesperblock + u) a)
        with _ | qs
      · rw [hrs] at hrow
        exact absurd hrow (by simp)
      · rw [hrs, Option.bind_some] at hrow
        obtain ⟨ps', hps', hpsq⟩ := Option.map_eq_some_iff.1 hrow.symm
        have hsub : (n + 1) * nc.pagesize - a * nc.pagesize = (n + 1 - a) * nc.pagesize :=
          (Nat.sub_mul _ _ _).symm
        simp only [out, start] at hout ⊢
        rw [hval, hds qs hrs, hsub] at hout ⊢
        rw [← hpsq, ← List.append_assoc]
        rcases Nat.eq_zero_or_pos (n + 1 - a) with h0 | hrest
        · rw [h0, nndRows, walk, Option.bind_some, readRows, Option.some.injEq] at hps'
          rw [h0, Nat.zero_mul, Int.natCast_zero, splLoop_done, ← hps', List.append_nil]
          rfl
        · have hle : (n + 1 - a) * nc.pagesize ≤ n * nc.pagesize :=
            Nat.mul_le_mul_right _ (by omega)
          have hk' : n * nc.pagesize + nc.pagesize ≤ k + 1 := by
            rwa [Nat.add_mul, Nat.one_mul] at hk
          have hnext : c * B.pagesperblock + u + a = (c + 1) * B.pagesperblock + 0 := by
            rw [Nat.add_mul]
            omega
          rw [hnext] at hout hps' ⊢
          exact splLoop_rows ht length k (n + 1 - a) (c + 1) 0 g (data ++ qs) ps' (by omega) hppb
            (hin.imp_right fun h => by omega) hout hps'

omit hirf in
/-- A read of the driver puts whole pages in the buffer. It fills it only if the part of the first
block is made of whole pages as well. -/
theorem nndVsReadLoop_length (length : ℤ) :
    ∀ (k start L : ℕ) (data : List UInt8), L ≤ k → L < 2 ^ 32 →
      let out := Prog.run (flashStep B.pagesperblock bad)
        (nndVsReadLoop B.nand nc length k start L data) rows
      out.val.1 = -1 ∨ ∃ ds, out.val = (length, data ++ ds) ∧ nc.pagesize ∣ ds.length ∧
        ds.length ≤ L ∧ (ds.length = L → nc.pagesize ∣ min (nc.blocksize - start % nc.blocksize) L)
  | k, start, 0, data, _, _ => by
    refine Or.inr ⟨[], ?_, by simp, by simp, by simp⟩
    rcases k with _ | k <;> simp [nndVsReadLoop]
  | 0, start, L + 1, data, hk, _ => absurd hk (Nat.not_succ_le_zero L)
  | k + 1, start, L + 1, data, hk, hlt => by
    obtain ⟨hpage, hblk, _⟩ := B.nand.block_of_normal hn
    have hBpos : 0 < nc.blocksize := by
      rw [hblk]
      exact Nat.two_pow_pos _
    have hne : ¬((L + 1 : ℕ) : ℤ) = 0 := by omega
    obtain ⟨hval, henv⟩ := nndSkipBad_run B bad rows hn 31 start
    simp only [nndVsReadLoop, hne, if_false, Prog.run_bind]
    rw [hval, henv]
    rcases hs : seek (fun o => bad (o / nc.blocksize)) nc.blocksize 31 start with _ | ⟨s, j⟩
    · exact Or.inl rfl
    · obtain ⟨i, hi⟩ := seek_stride _ _ 31 start s j hs
      have hmod : s % nc.blocksize = start % nc.blocksize := by
        rw [hi, Nat.add_mul_mod_self_right]
      have hmlt := Nat.mod_lt start hBpos
      obtain ⟨w, hw⟩ : ∃ w, w = min (nc.blocksize - start % nc.blocksize) (L + 1) := ⟨_, rfl⟩
      have hwz : min (nc.blocksize : ℤ)
          (min (nc.blocksize - (s &&& (nc.blocksize - 1) : ℕ)) (L + 1 : ℕ)) = (w : ℤ) := by
        rw [and_mask hblk, hmod]
        omega
      obtain ⟨henv', hread⟩ := @baseVsReadRetry_run B bad rows nc hn s w (by omega)
        (nc.attempts - 1)
      simp only [Option.map_some, hwz, Prog.run_bind]
      set out := Prog.run (flashStep B.pagesperblock bad)
        (baseVsReadRetry B.nand nc s w (nc.attempts - 1)) rows
      rcases hrs : readRows nc B.pagesperblock bad rows
        (List.range' (s / nc.pagesize) (w / nc.pagesize)) with _ | ps
      · rw [hrs] at hread
        simp only [hread, if_true]
        exact Or.inl rfl
      · rw [hrs] at hread
        have hlen := length_readRows hrs
        rw [List.length_range'] at hlen
        have hwlen := Nat.div_mul_le_self w nc.pagesize
        have hfail : ¬(ps.length : ℤ) = -1 := by omega
        have hrest : ((L + 1 : ℕ) : ℤ) - w = (L + 1 - w : ℕ) := by omega
        simp only [hread, hfail, if_false, hrest, henv']
        rcases nndVsReadLoop_length length k ((s : ℤ) + w).toNat (L + 1 - w) (data ++ ps)
          (by omega) (by omega) with h | ⟨ds, hout, hdvd, hle, _⟩
        · exact Or.inl h
        · refine Or.inr ⟨ps ++ ds, ?_, ?_, ?_, fun hfull => ?_⟩
          · rw [hout, List.append_assoc]
          · rw [List.length_append, hlen]
            exact Nat.dvd_add (Nat.dvd_mul_left _ _) hdvd
          · rw [List.length_append]
            omega
          · rw [List.length_append] at hfull
            rw [← hw]
            exact ⟨w / nc.pagesize, by rw [Nat.mul_comm]; omega⟩

omit hn hirf in
theorem splLoop_neg (length : ℤ) :
    ∀ (k start : ℕ) (remain : ℤ) (gRetrylevel : R.Level) (data : List UInt8) (rows : ℕ → Row),
      let out := Prog.run (flashStep B.pagesperblock bad)
        (nreadSkipBadLoop irf R nc length k start remain gRetrylevel data) rows
      out.val.1 = length ∨ out.val.1 = -1
  | 0, start, remain, g, data, rows => Or.inl rfl
  | k + 1, start, remain, g, data, rows => by
    unfold nreadSkipBadLoop
    by_cases h0 : remain = 0
    · rw [if_pos h0]
      exact Or.inl rfl
    · rw [if_neg h0]
      simp only [Prog.run_bind_val]
      rcases (Prog.run (flashStep B.pagesperblock bad)
        (splSkipBad irf R nc.blocksize g 30 g start) rows).val with _ | s
      · exact Or.inr rfl
      · simp only [Prog.run_bind_val]
        exact splLoop_neg length k _ _ _ _ _

end Read

section Right

variable (B : Board) (bad : ℕ → Bool) (rows : ℕ → Row) (nc : NandConfig)

/-- Every page of the range, in the good blocks from its first one on, can be read. -/
def PagesReadable (start length : ℕ) : Prop :=
  ∃ rs, walk bad B.pagesperblock 31 (pageCount nc length) (start / nc.pagesize) = some rs ∧
    ∀ r ∈ rs, (pageBytes nc B.pagesperblock bad rows r).isSome

/-- If the preloader says that it read the range, the driver reads the same bytes and no page of the
range is beyond repair. -/
def SplRight (irf : Irom) {R : RetryParam} (gRetrylevel : R.Level) (start : ℕ) (length : ℤ) :
    Prop :=
  let spl := (Prog.run (flashStep B.pagesperblock bad)
    (nreadSkipBad irf R nc gRetrylevel start length) rows).val
  let driver := (Prog.run (flashStep B.pagesperblock bad) (nndVsRead B.nand start length) rows).val
  0 ≤ spl.1 →
    driver = (length, spl.2.take length.toNat) ∧ PagesReadable B bad rows nc start length.toNat

/-- The range is made of whole pages that can be read, or there are more bad blocks in a row than
the preloader passes over. -/
def SplClean (start : ℕ) (length : ℤ) : Prop :=
  length < 0 ∨ walk bad 1 30 (splBlocks nc start length.toNat) (start / nc.blocksize) = none ∨
    nc.pagesize ∣ length.toNat ∧
      (nc.pagesize ∣ start ∨ start % nc.blocksize + length.toNat ≤ nc.blocksize) ∧
      PagesReadable B bad rows nc start length.toNat

variable {B bad rows nc}

theorem readRows_isSome : ∀ rs : List ℕ,
    (∃ ps, readRows nc B.pagesperblock bad rows rs = some ps) ↔
      ∀ r ∈ rs, (pageBytes nc B.pagesperblock bad rows r).isSome
  | [] => by simp [readRows]
  | r :: rs => by
    rw [readRows]
    rcases hp : pageBytes nc B.pagesperblock bad rows r with _ | p
    · simp [hp]
    · simp [hp, ← readRows_isSome rs]

theorem pagesReadable_iff (hpos : 0 < nc.pagesize) {start n : ℕ} :
    PagesReadable B bad rows nc start (n * nc.pagesize) ↔
      ∃ ps, nndRows B bad rows nc n (start / nc.pagesize) = some ps := by
  have hcount : pageCount nc (n * nc.pagesize) = n := by
    rw [pageCount, Nat.mul_comm, Nat.mul_add_div hpos, Nat.div_eq_of_lt (by omega), Nat.add_zero]
  rw [PagesReadable, hcount, nndRows]
  rcases walk bad B.pagesperblock 31 n (start / nc.pagesize) with _ | rs
  · simp
  · simp [readRows_isSome]

/-- An offset, by its block, its page in the block and the rest. -/
theorem offset_parts (hpos : 0 < nc.pagesize)
    (hrows : nc.blocksize = B.pagesperblock * nc.pagesize) (hppb : 0 < B.pagesperblock)
    (start : ℕ) :
    ∃ u < B.pagesperblock,
      start = (start / nc.blocksize * B.pagesperblock + u) * nc.pagesize + start % nc.pagesize ∧
      start / nc.blocksize * B.pagesperblock + u = start / nc.pagesize ∧
      start % nc.blocksize = u * nc.pagesize + start % nc.pagesize := by
  obtain ⟨u, hu⟩ : ∃ u, u = start % nc.blocksize / nc.pagesize := ⟨_, rfl⟩
  have hmod : start % nc.blocksize % nc.pagesize = start % nc.pagesize := by
    rw [hrows, Nat.mod_mul_left_mod]
  have hlt : start % nc.blocksize < B.pagesperblock * nc.pagesize := by
    rw [hrows]
    exact Nat.mod_lt _ (Nat.mul_pos hppb hpos)
  have h1 := Nat.div_add_mod' (start % nc.blocksize) nc.pagesize
  have h2 := Nat.div_add_mod' start nc.blocksize
  rw [← hu, hmod] at h1
  have h3 : start = (start / nc.blocksize * B.pagesperblock + u) * nc.pagesize +
      start % nc.pagesize := by
    rw [Nat.add_mul, Nat.mul_assoc, ← hrows]
    omega
  have h4 : start / nc.blocksize * B.pagesperblock + u = start / nc.pagesize := by
    conv_rhs => rw [h3]
    rw [Nat.mul_comm _ nc.pagesize, Nat.mul_add_div hpos, Nat.div_eq_of_lt (Nat.mod_lt _ hpos),
      Nat.add_zero]
  refine ⟨u, ?_, h3, h4, h1.symm⟩
  rw [hu]
  exact Nat.div_lt_of_lt_mul (by rwa [Nat.mul_comm])

theorem spl_right_iff (hn : B.nand.normal = some nc) {irf : Irom} {start : ℕ}
    (hirf : irf.Reads B bad rows nc (start % nc.pagesize)) {R : RetryParam}
    (gRetrylevel : R.Level) {length : ℤ} (hlt : length < 2 ^ 31) :
    SplRight B bad rows nc irf gRetrylevel start length ↔
      SplClean B bad rows nc start length := by
  obtain ⟨hppb, hrows⟩ := block_rows B hn
  obtain ⟨_, _, hpos, _⟩ := nnd_align B hn
  have ht := Nat.mod_lt start hpos
  obtain ⟨u, hu, hstart, hrow, hmod⟩ := offset_parts hpos hrows hppb start
  rcases lt_or_ge length 0 with hneg | hnonneg
  · refine iff_of_true (fun hok => ?_) (Or.inl hneg)
    have h := @splLoop_neg B bad nc irf R length length.natAbs start length gRetrylevel [] rows
    unfold nreadSkipBad at hok
    omega
  · obtain ⟨L, rfl⟩ := Int.eq_ofNat_of_zero_le hnonneg
    have hval := splLoop_val B bad rows hn hirf ht L L L (start / nc.blocksize) u gRetrylevel []
      (le_refl L) hu
    have hrun : nreadSkipBad irf R nc gRetrylevel start L =
        nreadSkipBadLoop irf R nc L L start L gRetrylevel [] := rfl
    have hdrv : nndVsRead B.nand start L = nndVsReadLoop B.nand nc L L start L [] := by
      simp only [nndVsRead, NandCfg.getConfig, hn, Int.natAbs_natCast]
    dsimp only at hval
    rw [← hstart] at hval
    simp only [SplRight, SplClean, Int.toNat_natCast, hrun, hdrv]
    set spl := Prog.run (flashStep B.pagesperblock bad)
      (nreadSkipBadLoop irf R nc L L start L gRetrylevel []) rows with hspl
    rcases hwalk : walk bad 1 30 (splBlocks nc start L) (start / nc.blocksize) with _ | cs
    · rw [hwalk] at hval
      refine iff_of_true (fun h0 => ?_) (Or.inr (Or.inl rfl))
      omega
    · rw [hwalk] at hval
      obtain ⟨hret, ds, hds, hlen⟩ := hval
      rw [List.nil_append] at hds
      constructor
      · intro h
        obtain ⟨hd, hread⟩ := h (by rw [hret]; omega)
        rcases nndVsReadLoop_length B bad rows hn L L start L [] (le_refl L) (by omega)
          with hfail | ⟨ps, hps, hdvd, _, hfull⟩
        · rw [hd] at hfail
          omega
        · have hpsl : ps.length = L := by
            rw [hd, Prod.mk.injEq, List.nil_append, hds] at hps
            rw [← hps.2, List.length_take]
            omega
          rw [hpsl] at hdvd
          refine Or.inr (Or.inr ⟨hdvd, ?_, hread⟩)
          have hfirst := hfull hpsl
          have hBpos : 0 < nc.blocksize := hrows ▸ Nat.mul_pos hppb hpos
          have hmlt := Nat.mod_lt start hBpos
          rcases Nat.lt_or_ge (nc.blocksize - start % nc.blocksize) L with hcross | hin
          · left
            rw [Nat.min_eq_left hcross.le] at hfirst
            have hB : nc.pagesize ∣ nc.blocksize := hrows ▸ Nat.dvd_mul_left _ _
            have hm := (Nat.dvd_sub_iff_right hmlt.le hB).1 hfirst
            exact (Nat.dvd_mod_iff hB).1 hm
          · exact Or.inr (by omega)
      · rintro (hneg | hnone | ⟨⟨n, hL⟩, hin, hread⟩) h0
        · omega
        · exact absurd hnone (by simp)
        · rw [Nat.mul_comm] at hL
          subst hL
          rw [pagesReadable_iff hpos, ← hrow] at hread
          obtain ⟨ps, hps⟩ := hread
          have hshift : start % nc.pagesize = 0 ∨ u + n < B.pagesperblock := by
            rcases hin with hdvd | hin
            · exact Or.inl (Nat.mod_eq_zero_of_dvd hdvd)
            · rcases Nat.eq_zero_or_pos (start % nc.pagesize) with h | h
              · exact Or.inl h
              · refine Or.inr (Nat.lt_of_mul_lt_mul_right (a := nc.pagesize) ?_)
                rw [Nat.add_mul, ← hrows]
                omega
          have hspl' := splLoop_rows B bad rows hn hirf ht ((n * nc.pagesize : ℕ) : ℤ)
            (n * nc.pagesize) n (start / nc.blocksize) u gRetrylevel [] ps (le_refl _) hu hshift
          have hnd := @nndVsReadLoop_run B bad rows nc hn ((n * nc.pagesize : ℕ) : ℤ) _ ht
            (n * nc.pagesize) n (start / nc.blocksize * B.pagesperblock + u) []
            (Nat.le_mul_of_pos_right n hpos) (by omega)
            (by rwa [Nat.mul_add_mod_self_right, Nat.mod_eq_of_lt hu])
          dsimp only at hspl' hnd
          rw [← hstart] at hspl' hnd
          rw [hps] at hnd
          have hne : spl.val.1 ≠ -1 := by omega
          have hout := hspl' hne hps
          rw [List.nil_append] at hout
          have hpsl := length_nndRows B bad rows hps
          rw [hnd.2, List.nil_append, hout, List.take_of_length_le hpsl.le]
          exact ⟨rfl, (pagesReadable_iff hpos).2 ⟨ps, by rw [← hrow]; exact hps⟩⟩

/-- An iROM that asks the flash as the drivers do. -/
def driverIrom (N : NandCfg) (nc : NandConfig) : Irom where
  vsIsbad := nndVsIsbad N
  vsRead := fun start length => baseVsRead N nc start length false

theorem driverIrom_reads (hn : B.nand.normal = some nc) {t : ℕ} (ht : t < nc.pagesize) :
    (driverIrom B.nand nc).Reads B bad rows nc t where
  isbad := fun b => by
    obtain ⟨_, hblk, _⟩ := B.nand.block_of_normal hn
    obtain ⟨hval, henv⟩ := nndVsIsbad_run B bad hn (b * nc.blocksize) rows
    rw [Nat.mul_div_cancel _ (hblk ▸ Nat.two_pow_pos _)] at hval
    refine ⟨henv, ?_⟩
    simp only [driverIrom, hval]
    rcases bad b <;> simp
  page := fun row _ => by
    obtain ⟨_, _, hpos, _, hle⟩ := nnd_align B hn
    obtain ⟨henv, hread⟩ := @baseVsReadRetry_run B bad rows nc hn (row * nc.pagesize + t)
      nc.pagesize (by omega) 0
    rw [Nat.mul_comm, Nat.mul_add_div hpos, Nat.div_eq_of_lt ht, Nat.add_zero, Nat.div_self hpos]
      at hread
    refine ⟨henv, ?_⟩
    simp only [driverIrom]
    rw [Nat.mul_comm]
    rcases hp : pageBytes nc B.pagesperblock bad rows row with _ | p
    · simp only [List.range'_one, readRows, hp] at hread
      rw [baseVsReadRetry] at hread
      dsimp only
      omega
    · have hlen := length_pageBytes hp
      simp only [List.range'_one, readRows, hp, Option.map_some, List.append_nil, hlen] at hread
      rw [baseVsReadRetry] at hread
      exact hread

end Right

/-- The pages of the board, and the retry of a chip that needs none. -/
def slcConfig : NandConfig := ⟨16, 0x800, 0x20000, 0, 0, 0, 5⟩

def noRetry : RetryParam := ⟨0, 0⟩

theorem spl_right_iff_items :
    SplRight slcBoard (fun b => b == 128) (fun _ => .erased) slcConfig
      (driverIrom slcNand slcConfig) (0 : noRetry.Level) 0x1000000 0x4000 :=
  (spl_right_iff rfl (@driverIrom_reads slcBoard _ _ _ rfl _ (by decide)) (0 : noRetry.Level)
    (by decide)).2 (Or.inr (Or.inr ⟨by decide, Or.inl (by decide), List.range' (129 * 64) 8,
      by decide, by decide⟩))

/-- The items, on pages that the ECC cannot mend. -/
theorem spl_reads_unfixed :
    ¬SplRight slcBoard (fun _ => false) (fun _ => .unfixed) slcConfig
      (driverIrom slcNand slcConfig) (0 : noRetry.Level) 0x1000000 0x4000 := by
  intro h
  have hspl : (Prog.run (flashStep slcBoard.pagesperblock fun _ => false)
      (nreadSkipBad (driverIrom slcNand slcConfig) noRetry slcConfig 0 0x1000000 0x4000)
      fun _ => .unfixed).val.1 = 0x4000 := by decide
  have hdriver : (Prog.run (flashStep slcBoard.pagesperblock fun _ => false)
      (nndVsRead slcNand 0x1000000 0x4000) fun _ => .unfixed).val.1 = -1 := by decide
  have hret := congrArg Prod.fst (h (by rw [hspl]; decide)).1
  exact absurd (hdriver.symm.trans hret) (by decide)

end InfotmUboot
