import InfotmUboot.Proofs.Fill
import InfotmUboot.Proofs.NndRead

/-!
# Reading back what was burnt

The burn loop skips bad blocks outside the driver, `nnd_vs_read` inside. From a block boundary both
go through the same good pages, so what a burn left a read gives back (`burn_read_back`).
-/

namespace InfotmUboot

open Lib

section Stream

variable {nc : NandConfig} {ppb : ℕ} {bad : ℕ → Bool} {rows : ℕ → Row}

/-- A page the driver wrote reads back as the data it was made of. -/
theorem pageBytes_written {row pos : ℕ} {data : List UInt8}
    (hrow : rows row =
      .page .normal (normalPage nc false data pos).1 (normalPage nc false data pos).2) :
    pageBytes nc ppb bad rows row = some (fit nc.pagesize (data.drop pos)) := by
  have hspare : (fit (nc.sysinfosize + 4) (normalPage nc false data pos).2).getD 1 0 = 0x00 := by
    simp [fit, normalPage]
  have hmain : fit nc.pagesize (normalPage nc false data pos).1 = fit nc.pagesize (data.drop pos) :=
    fit_of_length (length_fit _ _)
  simp only [pageBytes, flashStep, hrow, hspare, hmain]
  simp

/-- Rows that hold a stream page by page read as the stream. -/
theorem readRows_stream {stream : List UInt8} :
    ∀ {rs : List ℕ} {k : ℕ}, (k + rs.length) * nc.pagesize ≤ stream.length →
      (∀ j r, rs[j]? = some r → pageBytes nc ppb bad rows r =
        some (fit nc.pagesize (stream.drop ((k + j) * nc.pagesize)))) →
      readRows nc ppb bad rows rs =
        some ((stream.drop (k * nc.pagesize)).take (rs.length * nc.pagesize))
  | [], k, _, _ => by
    simp [readRows]
  | r :: rs, k, hlen, hpages => by
    have hr := hpages 0 r rfl
    rw [List.length_cons, show k + (rs.length + 1) = k + 1 + rs.length by omega] at hlen
    have ih := readRows_stream (k := k + 1) hlen fun j r' hj => by
      have h := hpages (j + 1) r' hj
      rwa [show k + (j + 1) = k + 1 + j by omega] at h
    have hroom : nc.pagesize ≤ (stream.drop (k * nc.pagesize)).length := by
      rw [Nat.add_mul, Nat.add_mul, Nat.one_mul] at hlen
      rw [List.length_drop]
      omega
    have hfit : fit nc.pagesize (stream.drop (k * nc.pagesize)) =
        (stream.drop (k * nc.pagesize)).take nc.pagesize := by
      rw [fit, Nat.sub_eq_zero_of_le hroom, List.replicate_zero, List.append_nil]
    rw [Nat.add_zero, hfit] at hr
    rw [readRows, hr, ih]
    dsimp only
    rw [Option.map_some, Option.some.injEq, List.length_cons, Nat.add_mul rs.length, Nat.one_mul,
      Nat.add_comm (rs.length * nc.pagesize), List.take_add, List.drop_drop, Nat.add_mul,
      Nat.one_mul]

end Stream

section Back

variable (B : Board) (bad : ℕ → Bool) {σ : Type} {other : σ → Op → Reply × σ} {dI : Dev} {img : Mem}
variable (S : Source other dI img) (desc : IusDesc) {idI : ℤ} (max : ℕ)
variable (hI : Dev.ofId idI = some dI) (htype : desc.type ≠ IUS_DESC_STNF)

/-- What the nnd reader finds on rows a burn filled. -/
theorem nndRows_filled {nc : NandConfig} (hn : B.nand.normal = some nc) {rows : ℕ → Row}
    {stream : List UInt8} {f n N : ℕ} (hnN : n ≤ N) (hlen : N * nc.pagesize ≤ stream.length)
    (hfill : ∀ j < N, ∃ g, f ≤ g ∧ bad g = false ∧
      goods bad g = goods bad f + j / B.pagesperblock ∧
      rows (g * B.pagesperblock + j % B.pagesperblock) =
        .page .normal (normalPage nc false stream (j * nc.pagesize)).1
          (normalPage nc false stream (j * nc.pagesize)).2)
    {ps : List UInt8} (hps : nndRows B bad rows nc n (f * B.pagesperblock) = some ps) :
    ps = stream.take (n * nc.pagesize) := by
  obtain ⟨hppb, _⟩ := block_rows B hn
  obtain ⟨rs, hrs, hread⟩ := Option.bind_eq_some_iff.1 hps
  have hwalk : walk bad B.pagesperblock 31 n (f * B.pagesperblock + 0 % B.pagesperblock) =
      some rs := by
    rw [Nat.zero_mod, Nat.add_zero]
    exact hrs
  obtain ⟨hlenrs, hget⟩ := walk_get 31 hppb (le_refl f) (by rw [Nat.zero_div, Nat.add_zero])
    (fun h => absurd (Nat.zero_mod _) h) hwalk
  have hmul : n * nc.pagesize ≤ N * nc.pagesize := Nat.mul_le_mul_right _ hnN
  have h := @readRows_stream nc B.pagesperblock bad rows stream rs 0
    (by rw [hlenrs, Nat.zero_add]; omega) fun j r hj => by
      obtain ⟨hlt, _⟩ := List.getElem?_eq_some_iff.1 hj
      rw [hlenrs] at hlt
      obtain ⟨g, _, hg, hgoods, hjr⟩ := hget j hlt
      rw [Nat.zero_add] at hgoods hjr
      obtain ⟨g', _, hg', hgoods', hrow⟩ := hfill j (by omega)
      rw [goods_inj bad hg' hg (hgoods'.trans hgoods.symm)] at hrow
      rw [hj, Option.some.injEq] at hjr
      rw [Nat.zero_add, hjr]
      exact pageBytes_written hrow
  rw [hread, Option.some.injEq, hlenrs, Nat.zero_mul, List.drop_zero] at h
  exact h

omit S in
/-- A burn to `nnd` has room for every page of a read of its length. -/
theorem pageCount_rounds {nc : NandConfig} (hn : B.nand.normal = some nc) {m : ℕ} (hm : 0 < m)
    (htype : desc.type ≠ IUS_DESC_STNF)
    (hstep : (burnConf B desc idI Dev.nnd.id false).step = m * nc.pagesize) :
    pageCount nc desc.len ≤ rounds B desc idI Dev.nnd.id * m := by
  obtain ⟨_, _, hpos, _⟩ := nnd_align B hn
  have hO : Dev.ofId Dev.nnd.id = some .nnd := Dev.ofId_id .nnd
  have hremain : remainOf B desc idI Dev.nnd.id = desc.len := by
    unfold remainOf burnRemain
    rw [vsIsDevice_of_ofId Dev.nnd.id hO, if_neg (by simp), if_neg htype]
  have hchunks : desc.len ≤ rounds B desc idI Dev.nnd.id * (m * nc.pagesize) := by
    rw [rounds, hremain, hstep, chunks]
    have hstep0 : 0 < m * nc.pagesize := Nat.mul_pos hm hpos
    have h := Nat.lt_div_mul_add hstep0 (a := desc.len + (m * nc.pagesize - 1))
    omega
  rw [← Nat.mul_assoc] at hchunks
  unfold pageCount
  refine Nat.lt_succ_iff.1 ((Nat.div_lt_iff_lt_mul hpos).2 ?_)
  rw [Nat.succ_mul]
  omega

include hI htype in
/-- What a burn to `nnd` that reports success was given is what a `vs_read` of its length there
gives back, if it reports success too. -/
theorem burn_read_back (hoffo : B.blocksize .nnd ∣ desc.offo) (hlen : desc.len < 2 ^ 31)
    (buf : Mem) (bufAt : ℕ) (rows : ℕ → Row) (s : σ) :
    let out := Prog.run (nandStep B bad other)
      (burnImageLoop B desc idI Dev.nnd.id max buf bufAt) ⟨rows, [], s⟩
    let back := Prog.run (nandStep B bad other) (vsRead (some .nnd) desc.offo desc.len) out.env
    out.val = 0 → 0 ≤ back.val.1 →
      back.val.2.take desc.len = (S.stream B desc idI Dev.nnd.id s).take desc.len ∧
        (secureImage desc img = false →
          back.val.2.take desc.len = img.load desc.offi desc.len) := by
  intro out back hout hback
  have hO : Dev.ofId Dev.nnd.id = some .nnd := Dev.ofId_id .nnd
  have hstnf : desc.type = IUS_DESC_STNF → Dev.nnd.id = DEV_FND := fun h => absurd h htype
  have href : ¬(idI = Dev.nnd.id ∨ burnRefusal B desc idI Dev.nnd.id ≠ none) := fun h =>
    (burnImageLoop_refused (nandStep B bad other) B desc idI Dev.nnd.id max buf bufAt h _).1 hout
  rw [not_or, not_not] at href
  rcases hn : B.nand.normal with _ | nc
  · obtain ⟨nc, hnc⟩ := burnConfig_of_not_refused B desc idI Dev.nnd.id hO rfl href.2
    unfold burnConfig at hnc
    rw [vsIsDevice_of_ofId Dev.nnd.id hO] at hnc
    simp [NandCfg.getConfig, hn] at hnc
  have hv : B.view .nnd =
      some ⟨.normal, normalPage nc false, normalUnit nc false, B.nand.nndPageShift⟩ := by
    simp only [Board.view, hn, Option.map_some]
  obtain ⟨q, m, r, rows', hW, hppb, hblk, hunit, hstep, hval, hrows⟩ := burn_placed B bad S desc
    max hI hO hv hstnf hoffo href.1 href.2 (fun h => absurd h (by decide)) buf bufAt ⟨rows, [], s⟩
  have hok : r.2 = true := by
    by_contra hno
    rw [if_neg hno] at hval
    exact absurd (hval.symm.trans hout) (by decide)
  obtain ⟨halign, _, hpos, _⟩ := nnd_align B hn
  obtain ⟨hpage, _⟩ := B.nand.block_of_normal hn
  have hnu : normalUnit nc false = nc.pagesize := by simp [normalUnit]
  rw [hnu] at hunit
  rw [← hpage] at hstep hblk
  have hpieces : ∀ bs ∈ S.payload (secureImage desc img)
      (burnConf B desc idI Dev.nnd.id false).unit (rounds B desc idI Dev.nnd.id)
      (if secureImage desc img then S.init else S.engine s) desc.offi,
      bs.length = m * nc.pagesize := fun bs hbs => by
    rw [← hunit]
    exact length_of_mem_payload S _ _ _ _ _ bs hbs
  have hstream : (S.stream B desc idI Dev.nnd.id s).length =
      rounds B desc idI Dev.nnd.id * m * nc.pagesize := by
    rw [Source.stream, List.length_flatten, List.map_congr_left hpieces, List.map_const',
      List.sum_replicate_nat, length_payload, Nat.mul_assoc]
  rcases Nat.eq_zero_or_pos desc.len with h0 | h0
  · simp [h0]
  have hoff : desc.offo = desc.offo / B.blocksize .nnd * B.pagesperblock * nc.pagesize := by
    rw [Nat.mul_assoc, hppb, Nat.mul_assoc, ← hblk, Nat.div_mul_cancel hoffo]
  have hread : back.val = (Prog.run (flashStep B.pagesperblock bad) (vsReadBody .nnd nc.pagesize
      (desc.offo / B.blocksize .nnd * B.pagesperblock * nc.pagesize) desc.len
      (nandRead B.nand .nnd)) out.env.rows).val := by
    have hz : ¬(desc.len : ℤ) = 0 := by exact_mod_cast h0.ne'
    rw [← hoff]
    simp only [back, vsRead, show Dev.nnd.entry.read = true from rfl, not_true_eq_false, if_false,
      hz, Prog.run_bind, Prog.run_op, Prog.run_pure, nandStep, nandProg,
      show Dev.nnd.isNand = true from rfl, if_true, halign]
  rw [hread] at hback ⊢
  have hcall := nndCall_aligned B bad out.env.rows hn h0 hlen hback
  have hps := nndRows_filled B bad hn (pageCount_rounds B desc hn hW.m_pos htype hstep)
    hstream.ge (fun j hj => by
      obtain ⟨g, hfg, _, hg, hgoods, hrow⟩ := hW.filled B hv hppb hok (by rwa [hnu]) rows' hj
      rw [← hrows, hnu] at hrow
      exact ⟨g, hfg, hg, hgoods, hrow⟩) hcall
  have hle : desc.len ≤ pageCount nc desc.len * nc.pagesize := by
    have h := Nat.lt_div_mul_add hpos (a := desc.len + (nc.pagesize - 1))
    unfold pageCount
    omega
  rw [hps, List.take_take, Nat.min_eq_left hle]
  refine ⟨rfl, fun hplain => ?_⟩
  rw [Source.stream, hplain, payload_plain, Mem.take_load]
  rw [hunit, ← Nat.mul_assoc]
  exact le_trans hle (Nat.mul_le_mul_right _ (pageCount_rounds B desc hn hW.m_pos htype hstep))

end Back

/-- The read of what `pastBad` burnt. -/
def pastBadRead : Prog.Out Op Reply (World Unit) (ℤ × List UInt8) :=
  Prog.run (nandStep slcBoard (fun b => b == 0) zeroMedia)
    (vsRead (some .nnd) chunkDesc.offo chunkDesc.len) pastBad.env

theorem burn_read_back_past_bad :
    pastBadRead.val.2.take chunkDesc.len =
        (zeroSource.stream slcBoard chunkDesc Dev.mmc0.id Dev.nnd.id ()).take chunkDesc.len ∧
      (secureImage chunkDesc (fun _ => 0) = false → pastBadRead.val.2.take chunkDesc.len =
        Mem.load (fun _ => 0) chunkDesc.offi chunkDesc.len) := by
  have hburn : pastBad.val = 0 := by decide +kernel
  unfold pastBadRead pastBad
  exact burn_read_back slcBoard (fun b => b == 0) zeroSource chunkDesc 0x80000 (Dev.ofId_id .mmc0)
    (by decide) (by decide) (by decide) (fun _ => 0) 0 (fun _ => .erased) () hburn
    (by decide +kernel)

end InfotmUboot
