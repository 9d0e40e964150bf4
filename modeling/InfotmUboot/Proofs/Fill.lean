import InfotmUboot.Proofs.Payload

/-!
# The image on the flash

A burn whose driver calls succeed keeps to the good blocks of its region and, when it reports
success, leaves the image on them in order (`burn_fills`).
-/

namespace InfotmUboot

open Lib

section Layout

theorem budget_mul (leeway : ℤ) {skip : ℕ} (hs : 0 < skip) :
    budget leeway skip = 0 ∨ ((budget leeway skip * skip : ℕ) : ℤ) < leeway := by
  unfold budget
  rcases le_or_gt ((leeway - 1) / (skip : ℤ)) 0 with h | h
  · left
    omega
  · right
    have h1 := Int.ediv_mul_le (leeway - 1) (by omega : (skip : ℤ) ≠ 0)
    have h2 : (((leeway - 1) / (skip : ℤ)).toNat : ℤ) = (leeway - 1) / (skip : ℤ) :=
      Int.toNat_of_nonneg h.le
    push_cast
    rw [h2]
    omega

theorem lt_chunks {t remain step : ℕ} (hs : 0 < step) (ht : t < chunks remain step) :
    t * step < remain := by
  have h1 := (Nat.le_div_iff_mul_le hs).1 ht
  rw [Nat.succ_mul] at h1
  omega

/-- The chunks that fit a region of whole blocks go to blocks of it. -/
theorem block_region {q step f t g remain max : ℕ} (hq : 0 < q) (hstep : 0 < step)
    (hle : remain ≤ max) (hmax : q * step ∣ max) (ht : t < chunks remain step)
    (hg : g ≤ f + t / q + budget (s32 (max - remain)) (q * step)) :
    (g + 1) * (q * step) ≤ f * (q * step) + max := by
  have hblk : 0 < q * step := Nat.mul_pos hq hstep
  obtain ⟨M, rfl⟩ := hmax
  have hchunk : t / q * (q * step) < remain := by
    have h1 := lt_chunks hstep ht
    have h2 : t / q * q * step ≤ t * step := Nat.mul_le_mul_right _ (Nat.div_mul_le_self t q)
    rw [Nat.mul_assoc] at h2
    omega
  have hroom : (t / q + budget (s32 ((q * step * M : ℕ) - remain)) (q * step)) * (q * step) <
      q * step * M := by
    have hs := s32_le (z := (q * step * M : ℕ) - remain) (by omega)
    rw [Nat.add_mul]
    rcases budget_mul (s32 ((q * step * M : ℕ) - remain)) hblk with h0 | hlt
    · rw [h0, Nat.zero_mul, Nat.add_zero]
      omega
    · omega
  rw [Nat.mul_comm (q * step) M] at hroom ⊢
  have hM := Nat.lt_of_mul_lt_mul_right hroom
  rw [← Nat.add_mul]
  refine Nat.mul_le_mul_right _ ?_
  rw [Nat.mul_comm (q * step) M] at hg
  omega

end Layout

section Conf

variable (B : Board) (desc : IusDesc) (idI idO : ℤ) {d : Dev} {v : NandView}
variable (hO : Dev.ofId idO = some d) (hv : B.view d = some v)
include hO hv

/-- The block size the burn skips by is that of the device. -/
theorem burnConf_blocksize (href : burnRefusal B desc idI idO = none) (enc : Bool) :
    (burnConf B desc idI idO enc).skip = B.blocksize d := by
  have hnand := view_isNand B hv
  obtain ⟨nc, hn⟩ := view_normal B hv
  obtain ⟨cfg, hcfg⟩ := burnConfig_of_not_refused B desc idI idO hO hnand href
  simp only [burnConf, burnIsNand_of_ofId idO hO, hnand, if_true, hcfg, Option.elim_some]
  unfold burnConfig at hcfg
  rw [vsIsDevice_of_ofId idO hO] at hcfg
  by_cases hbnd : d = .bnd
  · simp only [hbnd, decide_true, if_true, NandCfg.getConfig] at hcfg
    rw [Board.blocksize, if_pos hbnd, B.nand.boot_block cfg hcfg, hn]
    rfl
  · simp only [hbnd, decide_false, Bool.false_eq_true, if_false, NandCfg.getConfig] at hcfg
    rw [Board.blocksize, if_neg hbnd, hcfg, Option.elim_some, Nat.shiftRight_zero]

/-- A round moves the target by whole pages and brings the data of each, unless an image of another
type goes to `fnd`. -/
theorem burnConf_pages (hstnf : desc.type = IUS_DESC_STNF → d = .fnd)
    (hfnd : d = .fnd → desc.type = IUS_DESC_STNF) (enc : Bool) :
    ∃ m, 0 < m ∧ (burnConf B desc idI idO enc).unit = m * v.unit ∧
      (burnConf B desc idI idO enc).step = m * 2 ^ v.shift := by
  obtain ⟨nc, hn⟩ := view_normal B hv
  obtain ⟨hpage, _, hsys, _, h14, _⟩ := B.nand.block_of_normal hn
  have hwhole {k : ℕ} (hk : k ≤ 14) : 2 ^ 14 = 2 ^ (14 - k) * 2 ^ k := by
    rw [← pow_add, Nat.sub_add_cancel hk]
  cases d
  case bnd =>
    have ht : desc.type ≠ IUS_DESC_STNF := fun h => absurd (hstnf h) (by decide)
    unfold Board.view at hv
    rcases hb : B.nand.boot with _ | bc
    · simp [hb] at hv
    · simp only [hb, hn, Option.some.injEq] at hv
      obtain ⟨hbpage, _⟩ := B.nand.boot_page bc hb
      have hsize := B.nand.size_shift bc hb
      refine ⟨2 ^ (14 - B.nand.bndPageShift), Nat.two_pow_pos _, ?_⟩
      simp only [burnConf, ht, if_false, ← hv, hbpage]
      exact ⟨hwhole (by omega), hwhole (by omega)⟩
  case nnd =>
    have ht : desc.type ≠ IUS_DESC_STNF := fun h => absurd (hstnf h) (by decide)
    simp only [Board.view, hn, Option.map_some, Option.some.injEq] at hv
    refine ⟨2 ^ (14 - B.nand.nndPageShift), Nat.two_pow_pos _, ?_⟩
    simp only [burnConf, ht, if_false, ← hv, normalUnit, hpage, Bool.false_eq_true, Nat.add_zero]
    exact ⟨hwhole h14, hwhole h14⟩
  case fnd =>
    have ht := hfnd rfl
    simp only [Board.view, hn, Option.map_some, Option.some.injEq] at hv
    refine ⟨1, Nat.one_pos, ?_⟩
    simp only [burnConf, ht, if_true, vsAlign_of_ofId B idO hO, Board.align, fndVsAlign, nndVsAlign,
      fndAlign, NandCfg.getConfig, hn, Option.elim_some, ← hv, normalUnit, Nat.one_mul]
    exact ⟨trivial, hpage⟩
  all_goals exact absurd hv (by simp [Board.view])

end Conf

section Pages

variable (B : Board) {d : Dev} {v : NandView} (hv : B.view d = some v)
include hv

theorem view_unit_pos : 0 < v.unit := by
  obtain ⟨nc, hn⟩ := view_normal B hv
  obtain ⟨hpage, _⟩ := B.nand.block_of_normal hn
  cases d
  case bnd =>
    unfold Board.view at hv
    rcases hb : B.nand.boot with _ | bc
    · simp [hb] at hv
    · simp only [hb, hn, Option.some.injEq] at hv
      rw [← hv]
      dsimp only
      rw [(B.nand.boot_page bc hb).1]
      exact Nat.two_pow_pos _
  case nnd =>
    simp only [Board.view, hn, Option.map_some, Option.some.injEq] at hv
    rw [← hv]
    dsimp only [normalUnit]
    rw [hpage]
    exact Nat.add_pos_left (Nat.two_pow_pos _) _
  case fnd =>
    simp only [Board.view, hn, Option.map_some, Option.some.injEq] at hv
    rw [← hv]
    dsimp only [normalUnit]
    rw [hpage]
    exact Nat.add_pos_left (Nat.two_pow_pos _) _
  all_goals exact absurd hv (by simp [Board.view])

/-- A chunk of another image is no whole number of pages on `fnd`. -/
theorem fnd_unit_not_dvd (hd : d = .fnd) : ¬v.unit ∣ 2 ^ 14 := by
  obtain ⟨nc, hn⟩ := view_normal B hv
  obtain ⟨hpage, _, hsys, h11, h14, _⟩ := B.nand.block_of_normal hn
  subst hd
  simp only [Board.view, hn, Option.map_some, Option.some.injEq] at hv
  rw [← hv]
  simp only [normalUnit, if_true, hpage, hsys]
  generalize B.nand.nndPageShift = k at *
  interval_cases k <;> decide

/-- A page is made of the data from its position on. -/
theorem view_page_append {data data' rest : List UInt8} {pos pos' : ℕ}
    (h : data'.drop pos' = data.drop pos ++ rest) (hlen : v.unit ≤ (data.drop pos).length) :
    v.page data' pos' = v.page data pos := by
  have hnormal {nc : NandConfig} {extra : Bool} (hu : v.unit = normalUnit nc extra) :
      normalPage nc extra data' pos' = normalPage nc extra data pos := by
    rw [hu, normalUnit] at hlen
    have hmain : fit nc.pagesize (data'.drop pos') = fit nc.pagesize (data.drop pos) := by
      rw [h, fit_append _ (le_trans (Nat.le_add_right _ _) hlen)]
    cases extra
    · simp only [normalPage, hmain, Bool.false_eq_true, if_false]
    · rw [if_pos rfl] at hlen
      have hspare : fit nc.sysinfosize (data'.drop (pos' + nc.pagesize)) =
          fit nc.sysinfosize (data.drop (pos + nc.pagesize)) := by
        rw [← List.drop_drop, h, List.drop_append_of_le_length (by omega), ← List.drop_drop,
          fit_append _ (by rw [List.length_drop]; omega)]
      simp only [normalPage, hmain, hspare]
  obtain ⟨nc, hn⟩ := view_normal B hv
  cases d
  case bnd =>
    unfold Board.view at hv
    rcases hb : B.nand.boot with _ | bc
    · simp [hb] at hv
    · simp only [hb, hn, Option.some.injEq] at hv
      rw [← hv] at hlen ⊢
      dsimp only [bootPage] at hlen ⊢
      rw [h, fit_append _ hlen]
  case nnd =>
    simp only [Board.view, hn, Option.map_some, Option.some.injEq] at hv
    rw [← hv] at hnormal ⊢
    exact hnormal rfl
  case fnd =>
    simp only [Board.view, hn, Option.map_some, Option.some.injEq] at hv
    rw [← hv] at hnormal ⊢
    exact hnormal rfl
  all_goals exact absurd hv (by simp [Board.view])

/-- The pages of a write at the start of a page. -/
theorem pages_of_write {X m : ℕ} {bs : List UInt8} (hm : bs.length = m * v.unit) :
    B.pages (d, X * 2 ^ v.shift, bs) = (List.range m).map fun i =>
      (X + i, .page v.type (v.page bs (i * v.unit)).1 (v.page bs (i * v.unit)).2) := by
  rw [Board.pages, hv, Option.elim_some, NandView.pages, hm,
    Nat.mul_div_cancel _ (view_unit_pos B hv), Nat.shiftRight_eq_div_pow,
    Nat.mul_div_cancel _ (Nat.two_pow_pos _)]

end Pages

section Flatten

/-- In a concatenation of pieces of one length, what follows a position is the rest of its piece
first. -/
theorem drop_flatten_pieces {unit : ℕ} :
    ∀ {ps : List (List UInt8)} {t k : ℕ} {bs : List UInt8}, (∀ p ∈ ps, p.length = unit) →
      ps[t]? = some bs → k ≤ unit →
      ∃ rest, ps.flatten.drop (t * unit + k) = bs.drop k ++ rest
  | [], _, _, _, _, h, _ => by simp at h
  | p :: ps, 0, k, bs, hlen, h, hk => by
    rw [List.getElem?_cons_zero, Option.some.injEq] at h
    subst h
    have hp := hlen p List.mem_cons_self
    refine ⟨ps.flatten, ?_⟩
    rw [List.flatten_cons, Nat.zero_mul, Nat.zero_add, List.drop_append_of_le_length (by omega)]
  | p :: ps, t + 1, k, bs, hlen, h, hk => by
    rw [List.getElem?_cons_succ] at h
    have hp := hlen p List.mem_cons_self
    obtain ⟨rest, hrest⟩ := drop_flatten_pieces (fun q hq => hlen q (List.mem_cons_of_mem p hq)) h
      hk
    refine ⟨rest, ?_⟩
    rw [List.flatten_cons, Nat.add_mul, Nat.one_mul, ← hrest,
      show t * unit + unit + k = p.length + (t * unit + k) by omega, List.drop_append,
      List.drop_eq_nil_of_le (by omega), Nat.add_sub_cancel_left, List.nil_append]

end Flatten

section Writes

variable (B : Board) {d : Dev} {v : NandView} (hv : B.view d = some v)
variable {bad : ℕ → Bool} {q m n f K : ℕ} {P : List (List UInt8)}
variable {W : List (Dev × ℕ × List UInt8)}

/-- What the loop writes, against a map of bad blocks: its chunks of `m` pages lie where `place` has
them, `q` to a block, and bring the pieces of `P`. -/
structure PlacedWrites (W : List (Dev × ℕ × List UInt8)) (d : Dev) (v : NandView) (bad : ℕ → Bool)
    (q m n f K : ℕ) (P : List (List UInt8)) (r : List ℕ × Bool) : Prop where
  q_pos : 0 < q
  m_pos : 0 < m
  layout : r = place (fun x => bad (x / (q * (m * 2 ^ v.shift)))) (q * (m * 2 ^ v.shift))
    (m * 2 ^ v.shift) n K (f * (q * (m * 2 ^ v.shift)))
  starts : W.map (fun w => (w.1, w.2.1, w.2.2.length)) = r.1.map fun o => (d, o, m * v.unit)
  pieces : W.map (fun w => w.2.2) <+: P

variable {r : List ℕ × Bool} (hW : PlacedWrites W d v bad q m n f K P r)
include hW

/-- Write number `t` brings piece `t`, to where the good block number `t / q` has its chunk
`t % q`. -/
theorem PlacedWrites.get {t : ℕ} {w : Dev × ℕ × List UInt8} (hw : W[t]? = some w) :
    ∃ g, t < n ∧ f ≤ g ∧ g ≤ f + t / q + K ∧ bad g = false ∧
      goods bad g = goods bad f + t / q ∧
      w.1 = d ∧ w.2.1 = (g * (q * m) + t % q * m) * 2 ^ v.shift ∧ w.2.2.length = m * v.unit ∧
      P[t]? = some w.2.2 := by
  have hstep : 0 < m * 2 ^ v.shift := Nat.mul_pos hW.m_pos (Nat.two_pow_pos _)
  have hstart : (r.1.map fun o => (d, o, m * v.unit))[t]? = some (w.1, w.2.1, w.2.2.length) := by
    rw [← hW.starts, List.getElem?_map, hw]
    rfl
  rw [List.getElem?_map, Option.map_eq_some_iff] at hstart
  obtain ⟨x, hx, heq⟩ := hstart
  rw [Prod.mk.injEq, Prod.mk.injEq] at heq
  obtain ⟨hd, hx', hlen⟩ := heq
  rw [hW.layout] at hx
  obtain ⟨ht, hplace⟩ := (place_get hW.q_pos hstep _ _ _ _ reaches_zero t x).1 hx
  rw [Nat.zero_add] at hplace
  obtain ⟨g, hfg, hg, hgoods, hgk, rfl⟩ := hplace
  refine ⟨g, ht, hfg, hgk, hg, hgoods, hd.symm, ?_, hlen.symm, ?_⟩
  · rw [← hx']
    ring
  · have hdata : (W.map fun w => w.2.2)[t]? = some w.2.2 := by
      rw [List.getElem?_map, hw]
      rfl
    obtain ⟨hlt, hget⟩ := List.getElem?_eq_some_iff.1 hdata
    rw [← hget]
    exact List.prefix_iff_getElem?.1 hW.pieces t hlt

theorem PlacedWrites.length_le : W.length ≤ n ∧ (r.2 = true → W.length = n) := by
  have hlen := congrArg List.length hW.starts
  rw [List.length_map, List.length_map] at hlen
  rw [hlen, hW.layout]
  exact place_length _ _ _ _ _ _

include hv

/-- No row is written twice. -/
theorem PlacedWrites.nodup : ((B.pagesOf W).map Prod.fst).Nodup := by
  have hrows {w : Dev × ℕ × List UInt8} (hw : w ∈ W) :
      ∃ X, w.2.1 = X * 2 ^ v.shift ∧ (B.pages w).map Prod.fst = (List.range m).map (X + ·) := by
    obtain ⟨t, hget⟩ := List.mem_iff_getElem?.1 hw
    obtain ⟨g, _, _, _, _, _, hd, hstart, hlen, _⟩ := hW.get hget
    obtain ⟨d', s, bs⟩ := w
    dsimp only at hd hstart hlen
    subst hd hstart
    refine ⟨_, rfl, ?_⟩
    rw [pages_of_write B hv hlen, List.map_map]
    rfl
  have hpair : W.Pairwise fun a b => a.2.1 + m * 2 ^ v.shift ≤ b.2.1 := by
    have hstarts : W.map (fun w => w.2.1) = r.1 := by
      have h := congrArg (List.map fun x : Dev × ℕ × ℕ => x.2.1) hW.starts
      rw [List.map_map, List.map_map] at h
      exact h.trans (List.map_id _)
    have h := place_pairwise (fun x => bad (x / (q * (m * 2 ^ v.shift))))
      (q * (m * 2 ^ v.shift)) (m * 2 ^ v.shift) n K (f * (q * (m * 2 ^ v.shift)))
    rw [← hW.layout, ← hstarts] at h
    exact List.pairwise_map.1 h
  rw [Board.pagesOf, List.map_flatMap]
  refine List.nodup_flatMap.2 ⟨fun w hw => ?_, ?_⟩
  · obtain ⟨X, _, hX⟩ := hrows hw
    rw [hX]
    exact (List.nodup_map_iff fun i j h => Nat.add_left_cancel h).2 List.nodup_range
  · refine hpair.imp_of_mem fun {a b} ha hb hab => ?_
    obtain ⟨X, hX, hXr⟩ := hrows ha
    obtain ⟨Y, hY, hYr⟩ := hrows hb
    have hXY : X + m ≤ Y := by
      rw [hX, hY, ← Nat.add_mul] at hab
      exact Nat.le_of_mul_le_mul_right hab (Nat.two_pow_pos _)
    simp only [Function.onFun, hXr, hYr]
    intro row h1 h2
    obtain ⟨i, hi, rfl⟩ := List.mem_map.1 h1
    obtain ⟨j, _, hj⟩ := List.mem_map.1 h2
    have := List.mem_range.1 hi
    omega

variable (hppb : B.pagesperblock = q * m)
include hppb

/-- Every page that is programmed is in a good block of the region. -/
theorem PlacedWrites.region {max : ℕ}
    (hregion : ∀ t < n, ∀ g ≤ f + t / q + K,
      (g + 1) * (q * (m * 2 ^ v.shift)) ≤ f * (q * (m * 2 ^ v.shift)) + max)
    {p : ℕ × Row} (hp : p ∈ B.pagesOf W) :
    f * (q * (m * 2 ^ v.shift)) ≤ p.1 * 2 ^ v.shift ∧
      (p.1 + 1) * 2 ^ v.shift ≤ f * (q * (m * 2 ^ v.shift)) + max ∧
      bad (p.1 / B.pagesperblock) = false := by
  obtain ⟨w, hw, hp⟩ := List.mem_flatMap.1 hp
  obtain ⟨t, hget⟩ := List.mem_iff_getElem?.1 hw
  obtain ⟨g, ht, hfg, hgk, hg, _, hd, hstart, hlen, _⟩ := hW.get hget
  have hregion := hregion t ht g hgk
  obtain ⟨d', s, bs⟩ := w
  dsimp only at hd hstart hlen
  subst hd hstart
  rw [pages_of_write B hv hlen] at hp
  obtain ⟨i, hi, rfl⟩ := List.mem_map.1 hp
  have hi' := List.mem_range.1 hi
  have hin : t % q * m + i < q * m := by
    have h1 : (t % q + 1) * m ≤ q * m := Nat.mul_le_mul_right _ (Nat.mod_lt t hW.q_pos)
    rw [Nat.add_mul, Nat.one_mul] at h1
    omega
  dsimp only
  rw [← Nat.mul_assoc q m] at hregion ⊢
  refine ⟨?_, le_trans ?_ hregion, ?_⟩
  · rw [← Nat.mul_assoc f]
    refine Nat.mul_le_mul_right _ ?_
    have := Nat.mul_le_mul_right (q * m) hfg
    omega
  · rw [← Nat.mul_assoc (g + 1)]
    refine Nat.mul_le_mul_right _ ?_
    rw [Nat.add_mul, Nat.one_mul]
    omega
  · rw [hppb, Nat.add_assoc, Nat.mul_comm g, Nat.mul_add_div (Nat.zero_lt_of_lt hin),
      Nat.div_eq_of_lt hin, Nat.add_zero]
    exact hg

/-- If all chunks were written, page `j` of the pieces is on page `j` of the good blocks. -/
theorem PlacedWrites.filled (hok : r.2 = true) (hP : ∀ bs ∈ P, bs.length = m * v.unit)
    (rows : ℕ → Row) {j : ℕ} (hj : j < n * m) :
    ∃ g, f ≤ g ∧ g ≤ f + j / m / q + K ∧ bad g = false ∧
      goods bad g = goods bad f + j / B.pagesperblock ∧
      program rows (B.pagesOf W) (g * B.pagesperblock + j % B.pagesperblock) =
        .page v.type (v.page P.flatten (j * v.unit)).1 (v.page P.flatten (j * v.unit)).2 := by
  have hm := hW.m_pos
  have ht : j / m < W.length := by
    rw [hW.length_le.2 hok]
    exact Nat.div_lt_of_lt_mul (by rwa [Nat.mul_comm])
  obtain ⟨g, _, hfg, hgk, hg, hgoods, hd, hstart, hlen, hpiece⟩ :=
    hW.get (List.getElem?_eq_getElem ht)
  have hmem := List.getElem_mem ht
  generalize W[j / m] = w at hd hstart hlen hpiece hmem
  obtain ⟨d', s, bs⟩ := w
  dsimp only at hd hstart hlen hpiece
  subst hd hstart
  have hdiv : j / (q * m) = j / m / q := by rw [Nat.mul_comm, Nat.div_div_eq_div_mul]
  have hmod : j % (q * m) = j / m % q * m + j % m := by
    rw [Nat.mul_comm q m, Nat.mod_mul, Nat.add_comm, Nat.mul_comm m]
  refine ⟨g, hfg, hgk, hg, by rw [hgoods, hppb, hdiv], ?_⟩
  have hpage : (g * (q * m) + j / m % q * m + j % m,
      Row.page v.type (v.page bs (j % m * v.unit)).1 (v.page bs (j % m * v.unit)).2) ∈
        B.pagesOf W := by
    refine List.mem_flatMap.2 ⟨_, hmem, ?_⟩
    rw [pages_of_write B hv hlen]
    exact List.mem_map.2 ⟨j % m, List.mem_range.2 (Nat.mod_lt _ hm), rfl⟩
  have hrow := program_of_mem rows (hW.nodup B hv) hpage
  dsimp only at hrow
  rw [hppb, hmod, ← Nat.add_assoc, hrow]
  have hpos : j * v.unit = j / m * (m * v.unit) + j % m * v.unit := by
    rw [← Nat.mul_assoc, ← Nat.add_mul, Nat.mul_comm (j / m) m, Nat.div_add_mod]
  have hroom : (j % m + 1) * v.unit ≤ m * v.unit :=
    Nat.mul_le_mul_right _ (Nat.mod_lt _ hm)
  rw [Nat.add_mul, Nat.one_mul] at hroom
  obtain ⟨rest, hrest⟩ := drop_flatten_pieces hP hpiece (k := j % m * v.unit) (by omega)
  rw [← hpos] at hrest
  rw [view_page_append B hv hrest (by rw [List.length_drop]; omega)]

end Writes

section Burn

variable (B : Board) (bad : ℕ → Bool)

/-- Every write took all the data it was given. -/
def AllWritten (log : List (Op × Reply)) : Prop :=
  ∀ x ∈ log, ∀ d s bs, x.1 = .write d s bs → x.2.ret = bs.length

/-- Pages are programmed in good blocks of the region only. -/
def KeepsRegion (v : NandView) (offo max : ℕ) (ps : List (ℕ × Row)) : Prop :=
  ∀ p ∈ ps, offo ≤ p.1 * 2 ^ v.shift ∧ (p.1 + 1) * 2 ^ v.shift ≤ offo + max ∧
    bad (p.1 / B.pagesperblock) = false

/-- The first `n` pages of the good blocks of the region hold the pages of `stream` in order. -/
def Filled (d : Dev) (v : NandView) (offo max n : ℕ) (stream : List UInt8) (rows : ℕ → Row) :
    Prop :=
  ∀ j < n, ∃ g, offo / B.blocksize d ≤ g ∧ (g + 1) * B.blocksize d ≤ offo + max ∧
    bad g = false ∧ goods bad g = goods bad (offo / B.blocksize d) + j / B.pagesperblock ∧
    rows (g * B.pagesperblock + j % B.pagesperblock) =
      .page v.type (v.page stream (j * v.unit)).1 (v.page stream (j * v.unit)).2

variable {σ : Type} {other : σ → Op → Reply × σ} {dI : Dev} {img : Mem} (S : Source other dI img)

/-- The image as it is burnt: encrypted if its header asks for it, in whole rounds. -/
def Source.stream (desc : IusDesc) (idI idO : ℤ) (s : σ) : List UInt8 :=
  (S.payload (secureImage desc img) (burnConf B desc idI idO false).unit (rounds B desc idI idO)
    (if secureImage desc img then S.init else S.engine s) desc.offi).flatten

variable (desc : IusDesc) {idI idO : ℤ} {d : Dev} {v : NandView} (max : ℕ)
variable (hI : Dev.ofId idI = some dI) (hO : Dev.ofId idO = some d) (hv : B.view d = some v)
variable (hstnf : desc.type = IUS_DESC_STNF → idO = DEV_FND)
include hI hO hv hstnf

/-- The writes of a burn that is not refused, with the result and what they leave on the flash. -/
theorem burn_placed (hoffo : B.blocksize d ∣ desc.offo) (hne : idI ≠ idO)
    (href : burnRefusal B desc idI idO = none) (hfnd : d = .fnd → desc.type = IUS_DESC_STNF)
    (buf : Mem) (bufAt : ℕ) (w : World σ) :
    let out := Prog.run (nandStep B bad other) (burnImageLoop B desc idI idO max buf bufAt) w
    ∃ q m r rows, PlacedWrites (writeOps out.log) d v bad q m (rounds B desc idI idO)
        (desc.offo / B.blocksize d)
        (budget (s32 (max - remainOf B desc idI idO)) (B.blocksize d))
        (S.payload (secureImage desc img) (burnConf B desc idI idO false).unit
          (rounds B desc idI idO)
          (if secureImage desc img then S.init else S.engine w.other) desc.offi) r ∧
      B.pagesperblock = q * m ∧ B.blocksize d = q * (m * 2 ^ v.shift) ∧
      (burnConf B desc idI idO false).unit = m * v.unit ∧
      (burnConf B desc idI idO false).step = m * 2 ^ v.shift ∧
      out.val = (if r.2 = true then 0 else -EBADBLK) ∧
      out.env.rows = program rows (B.pagesOf (writeOps out.log)) := by
  have hnand := view_isNand B hv
  obtain ⟨a, _, hppb, hblk⟩ := view_blocks B hv
  obtain ⟨m, hm, hunit, hstep⟩ :=
    burnConf_pages B desc idI idO hO hv (fnd_of_stnf desc idO hO hstnf) hfnd false
  have hskip := burnConf_blocksize B desc idI idO hO hv href false
  obtain ⟨hisbad, _, _, ⟨q, hq⟩⟩ := burnConf_geometry B desc idI idO hO
    (fnd_of_stnf desc idO hO hstnf) href false
  rw [hstep] at hq
  have hqblk : B.blocksize d = q * (m * 2 ^ v.shift) := hskip.symm.trans hq
  have hqpos : 0 < q := by
    rcases Nat.eq_zero_or_pos q with h0 | h0
    · rw [h0, Nat.zero_mul, hblk] at hqblk
      exact absurd hqblk (Nat.two_pow_pos _).ne'
    · exact h0
  have hqm : B.pagesperblock = q * m := by
    refine Nat.eq_of_mul_eq_mul_right (Nat.two_pow_pos v.shift) ?_
    rw [Nat.mul_assoc q, ← hqblk, hblk, hppb, pow_add]
  obtain ⟨hval, hstarts, _⟩ := burnImageLoop_place (nandStep B bad other) B desc idI idO max buf
    bufAt hO (staticBad_view B bad other hv) hstnf hne href w
  rw [burnImageLoop_run (nandStep B bad other) B desc idI idO max buf bufAt hne href w] at *
  obtain ⟨hsec, hengine⟩ := burnPrelude_secure S B bad desc max buf bufAt hI hO hnand w
  set r := Prog.run (nandStep B bad other) (burnPrelude desc idI idO max buf bufAt) w
  have hops : writeOps r.log = [] :=
    burnPrelude_writeOps (nandStep B bad other) desc idI idO max buf bufAt w
  set c := burnConf B desc idI idO r.val.1 with hc
  set p := burnStart B desc idI idO max r.val.2 bufAt
  have hsteppos : 0 < c.step := by
    rw [show c.step = m * 2 ^ v.shift from hstep]
    exact Nat.mul_pos hm (Nat.two_pow_pos _)
  have hunitpos : c.unit ≠ 0 := by
    rw [show c.unit = m * v.unit from hunit]
    exact (Nat.mul_pos hm (view_unit_pos B hv)).ne'
  have hwrites : (burnConf B desc idI idO false).Writes d := by
    refine ⟨?_, hunitpos⟩
    cases d <;> first | rfl | exact absurd hnand (by decide)
  have henc : c.encrypt = true → c.unit = c.step := fun he => by
    have hsec' : secureImage desc img = true := hsec.symm.trans he
    have ht : desc.type ≠ IUS_DESC_STNF := by
      intro ht
      simp [secureImage, ht, IUS_DESC_STNF, IUS_DESC_STNB, IUS_DESC_STRW] at hsec'
    simp only [hc, burnConf, ht, if_false]
  have hpieces := burnLoop_payload S B bad c hI hunitpos henc hO hnand hisbad hsteppos
    (burnRemain B desc (Dev.ofId idI) idO) p r.env (le_refl _)
  have hrows := run_rows B bad other (burnLoop_noErase c
    (burnRemain B desc (Dev.ofId idI) idO) p) r.env
  set l := Prog.run (nandStep B bad other)
    (burnLoop c (burnRemain B desc (Dev.ofId idI) idO) p) r.env
  have hlog : writeOps (r.log ++ l.log) = writeOps l.log := by
    rw [writeOps_append, hops, List.nil_append]
  refine ⟨q, m, _, r.env.rows, ⟨hqpos, hm, ?_, ?_, ?_⟩, hqm, hqblk, hunit, hstep, hval, ?_⟩
  · rw [hq, hstep, hqblk, ← hqblk, Nat.div_mul_cancel hoffo]
  · rw [← hunit]
    exact hstarts hwrites
  · rw [hlog]
    have hn : chunks p.remain c.step = rounds B desc idI idO := rfl
    have hcenc : c.encrypt = secureImage desc img := hsec
    rw [hn, hengine, hcenc] at hpieces
    exact hpieces
  · rw [hlog]
    exact hrows

omit hI hO hv hstnf in
/-- A write op of a run took what the driver reports. -/
theorem write_took {α : Type} (p : Strat α) (w : World σ)
    (hall : AllWritten (Prog.run (nandStep B bad other) p w).log) (hv : B.view d = some v)
    {x : Dev × ℕ × List UInt8}
    (hx : x ∈ writeOps (Prog.run (nandStep B bad other) p w).log) (hd : x.1 = d) :
    v.unit ∣ x.2.2.length := by
  obtain ⟨y, hy, heq⟩ := List.mem_filterMap.1 hx
  split at heq
  · rename_i d' s bs hop
    rw [Option.some.injEq] at heq
    subst heq
    dsimp only at hd ⊢
    subst hd
    obtain ⟨w', hw'⟩ := Prog.run_log_reply (nandStep B bad other) p w y hy
    have hret := hall y hy _ _ _ hop
    obtain ⟨hval, _⟩ := nandStep_write B bad other w' d' (view_isNand B hv) s bs
    rw [hw', hop, hval, hv, Option.elim_some] at hret
    exact ⟨bs.length / v.unit, by rw [Nat.mul_comm]; exact_mod_cast hret.symm⟩
  · exact absurd heq (by simp)

omit hI in
/-- Against the flash itself the writes of the burn take all their data, unless an image of another
type goes to `fnd`. -/
theorem burn_allWritten (hfnd : d = .fnd → desc.type = IUS_DESC_STNF) (buf : Mem) (bufAt : ℕ)
    (w : World σ) :
    AllWritten
      (Prog.run (nandStep B bad other) (burnImageLoop B desc idI idO max buf bufAt) w).log := by
  intro x hx d' s bs hop
  have hmem : (d', s, bs) ∈ writeOps
      (Prog.run (nandStep B bad other) (burnImageLoop B desc idI idO max buf bufAt) w).log :=
    List.mem_filterMap.2 ⟨x, hx, by rw [hop]⟩
  by_cases href : idI = idO ∨ burnRefusal B desc idI idO ≠ none
  · rw [(burnImageLoop_refused (nandStep B bad other) B desc idI idO max buf bufAt href w).2]
      at hmem
    exact absurd hmem List.not_mem_nil
  · rw [not_or, not_not] at href
    obtain ⟨m, hm, hunit, _⟩ :=
      burnConf_pages B desc idI idO hO hv (fnd_of_stnf desc idO hO hstnf) hfnd false
    obtain ⟨_, hstarts, _⟩ := burnImageLoop_place (nandStep B bad other) B desc idI idO max buf
      bufAt hO (staticBad_view B bad other hv) hstnf href.1 href.2 w
    have hwrites : (burnConf B desc idI idO false).Writes d := by
      refine ⟨?_, by rw [hunit]; exact (Nat.mul_pos hm (view_unit_pos B hv)).ne'⟩
      have hnand := view_isNand B hv
      cases d <;> first | rfl | exact absurd hnand (by decide)
    have hmem' := List.mem_map_of_mem (f := fun w => (w.1, w.2.1, w.2.2.length)) hmem
    rw [hstarts hwrites] at hmem'
    obtain ⟨o, _, heq⟩ := List.mem_map.1 hmem'
    rw [Prod.mk.injEq, Prod.mk.injEq] at heq
    obtain ⟨hd, _, hlen⟩ := heq
    dsimp only at hd hlen
    subst hd
    obtain ⟨w', hw'⟩ := Prog.run_log_reply (nandStep B bad other) _ w x hx
    obtain ⟨hval, _⟩ := nandStep_write B bad other w' d (view_isNand B hv) s bs
    rw [hw', hop, hval, hv, Option.elim_some, ← hlen, hunit,
      Nat.mul_div_cancel _ (view_unit_pos B hv)]

/-- An image with calls that all succeed keeps to the good blocks of its region, and if the burn
reports success it is there, page by page, none lost, doubled or written over. -/
theorem burn_fills (hoffo : B.blocksize d ∣ desc.offo) (hmax : B.blocksize d ∣ max)
    (hfit : remainOf B desc idI idO ≤ max) (buf : Mem) (bufAt : ℕ) (rows : ℕ → Row) (s : σ)
    (hall : AllWritten (Prog.run (nandStep B bad other)
      (burnImageLoop B desc idI idO max buf bufAt) ⟨rows, [], s⟩).log) :
    let out := Prog.run (nandStep B bad other) (burnImageLoop B desc idI idO max buf bufAt)
      ⟨rows, [], s⟩
    KeepsRegion B bad v desc.offo max (programmed out.env.trace) ∧
      (out.val = 0 → Filled B bad d v desc.offo max
        (rounds B desc idI idO * ((burnConf B desc idI idO false).unit / v.unit))
        (S.stream B desc idI idO s) out.env.rows) := by
  have htrace := run_programmed B bad other (burnImageLoop B desc idI idO max buf bufAt)
    ⟨rows, [], s⟩
  dsimp only
  rw [show programmed [] = [] from rfl, List.nil_append] at htrace
  rw [htrace]
  by_cases href : idI = idO ∨ burnRefusal B desc idI idO ≠ none
  · obtain ⟨hval, hops⟩ := burnImageLoop_refused (nandStep B bad other) B desc idI idO max buf bufAt
      href ⟨rows, [], s⟩
    rw [hops]
    exact ⟨fun p hp => absurd hp List.not_mem_nil, fun h0 => absurd h0 hval⟩
  · rw [not_or, not_not] at href
    by_cases hfnd : d = .fnd → desc.type = IUS_DESC_STNF
    · obtain ⟨q, m, r, rows', hW, hppb, hblk, hunit, hstep, hval, hrows⟩ := burn_placed B bad S desc
        max hI hO hv hstnf hoffo href.1 href.2 hfnd buf bufAt ⟨rows, [], s⟩
      have hregion : ∀ t < rounds B desc idI idO, ∀ g ≤ desc.offo / B.blocksize d + t / q +
          budget (s32 (max - remainOf B desc idI idO)) (B.blocksize d),
          (g + 1) * (q * (m * 2 ^ v.shift)) ≤
            desc.offo / B.blocksize d * (q * (m * 2 ^ v.shift)) + max := fun t ht g hg => by
        rw [rounds, hstep] at ht
        rw [hblk] at hg hmax ⊢
        exact block_region hW.q_pos (Nat.mul_pos hW.m_pos (Nat.two_pow_pos _)) hfit hmax ht hg
      have hf : desc.offo / B.blocksize d * (q * (m * 2 ^ v.shift)) = desc.offo := by
        rw [← hblk, Nat.div_mul_cancel hoffo]
      set out := Prog.run (nandStep B bad other) (burnImageLoop B desc idI idO max buf bufAt)
        ⟨rows, [], s⟩
      refine ⟨fun p hp => ?_, fun h0 => ?_⟩
      · have h := hW.region B hv hppb hregion hp
        rwa [hf] at h
      · have hok : r.2 = true := by
          by_contra hno
          rw [hval, if_neg hno] at h0
          exact absurd h0 (by decide)
        intro j hj
        rw [hunit, Nat.mul_div_cancel _ (view_unit_pos B hv)] at hj
        have hlen : ∀ bs ∈ S.payload (secureImage desc img) (burnConf B desc idI idO false).unit
            (rounds B desc idI idO) (if secureImage desc img then S.init else S.engine s) desc.offi,
            bs.length = m * v.unit := fun bs hbs => by
          rw [← hunit]
          exact length_of_mem_payload S _ _ _ _ _ bs hbs
        obtain ⟨g, hfg, hgk, hg, hgoods, hrow⟩ := hW.filled B hv hppb hok hlen rows' hj
        have hg' := hregion (j / m) (Nat.div_lt_of_lt_mul (by rwa [Nat.mul_comm])) g hgk
        rw [hf, ← hblk] at hg'
        rw [← hrows] at hrow
        exact ⟨g, hfg, hg', hg, hgoods, hrow⟩
    · -- a chunk of another image is no whole number of pages on `fnd`: there is no chunk at all
      rw [Classical.not_imp] at hfnd
      obtain ⟨hd, ht⟩ := hfnd
      obtain ⟨hval, hstarts, _⟩ := burnImageLoop_place (nandStep B bad other) B desc idI idO max buf
        bufAt hO (staticBad_view B bad other hv) hstnf href.1 href.2 ⟨rows, [], s⟩
      have hunit : (burnConf B desc idI idO false).unit = 2 ^ 14 := by
        simp only [burnConf, ht, if_false]
        rfl
      have hwrites : (burnConf B desc idI idO false).Writes d := by
        refine ⟨?_, by rw [hunit]; exact (Nat.two_pow_pos _).ne'⟩
        rw [hd]
        rfl
      have hmap := hstarts hwrites
      have hnil : writeOps (Prog.run (nandStep B bad other)
          (burnImageLoop B desc idI idO max buf bufAt) ⟨rows, [], s⟩).log = [] := by
        refine List.eq_nil_iff_forall_not_mem.2 fun x hx => ?_
        have hx' := List.mem_map_of_mem (f := fun w => (w.1, w.2.1, w.2.2.length)) hx
        rw [hmap] at hx'
        obtain ⟨o, _, heq⟩ := List.mem_map.1 hx'
        rw [Prod.mk.injEq, Prod.mk.injEq] at heq
        have hdvd := write_took B bad _ _ hall hv hx heq.1.symm
        rw [← heq.2.2, hunit] at hdvd
        exact fnd_unit_not_dvd B hv hd hdvd
      rw [hnil] at hmap ⊢
      refine ⟨fun p hp => absurd hp List.not_mem_nil, fun h0 => ?_⟩
      rw [h0] at hval
      split_ifs at hval with hok
      · have hlen := (place_length _ _ _ _ _ _).2 hok
        rw [List.map_nil, eq_comm, List.map_eq_nil_iff] at hmap
        rw [hmap, List.length_nil] at hlen
        rw [← hlen]
        intro j hj
        rw [Nat.zero_mul] at hj
        exact absurd hj (Nat.not_lt_zero j)
      · exact absurd hval (by decide)

end Burn

/-- A chunk for `nnd` and its region of four blocks. -/
def chunkDesc : IusDesc := ⟨0x44000000, 0, 0x80000, 0x4000⟩

def slcNnd : NandView := ⟨.normal, normalPage ⟨16, 0x800, 0x20000, 0, 0, 0, 5⟩ false, 0x800, 11⟩

/-- Its burn onto a flash whose first block is bad. -/
def pastBad : Prog.Out Op Reply (World Unit) ℤ :=
  Prog.run (nandStep slcBoard (fun b => b == 0) zeroMedia)
    (burnImageLoop slcBoard chunkDesc Dev.mmc0.id Dev.nnd.id 0x80000 (fun _ => 0) 0)
    ⟨fun _ => .erased, [], ()⟩

theorem burn_fills_past_bad :
    KeepsRegion slcBoard (fun b => b == 0) slcNnd 0 0x80000 (programmed pastBad.env.trace) ∧
      (pastBad.val = 0 → Filled slcBoard (fun b => b == 0) .nnd slcNnd 0 0x80000
        (rounds slcBoard chunkDesc Dev.mmc0.id Dev.nnd.id *
          ((burnConf slcBoard chunkDesc Dev.mmc0.id Dev.nnd.id false).unit / 0x800))
        (zeroSource.stream slcBoard chunkDesc Dev.mmc0.id Dev.nnd.id ()) pastBad.env.rows) :=
  burn_fills slcBoard (fun b => b == 0) zeroSource chunkDesc 0x80000 (Dev.ofId_id .mmc0)
    (Dev.ofId_id .nnd) (v := slcNnd) rfl (fun ht => absurd ht (by decide)) (by decide) (by decide)
    (by decide) (fun _ => 0) 0 (fun _ => .erased) ()
    (burn_allWritten slcBoard _ chunkDesc _ (Dev.ofId_id .nnd) (v := slcNnd) rfl
      (fun ht => absurd ht (by decide)) (fun hd => absurd hd (by decide)) _ _ _)

end InfotmUboot
