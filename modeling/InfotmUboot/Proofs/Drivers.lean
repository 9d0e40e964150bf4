import InfotmUboot.Proofs.BurnRun

/-!
# Runs of the NAND drivers

What a storage call on a NAND device does to the flash: a write programs one page after the other
(`nandStep_write`), reads and bad marks leave the flash alone, and only an erase clears pages. From
it, what a whole program leaves on the flash (`run_programmed`, `run_rows`).
-/

namespace InfotmUboot

open Lib

section View

/-- How a NAND device lays its data out: the pages it programs, the data each takes and the shift
from an offset to a row. -/
structure NandView where
  type : NandCfgType
  page : List UInt8 → ℕ → List UInt8 × List UInt8
  unit : ℕ
  shift : ℕ

/-- The rows a write programs, and what it leaves there. -/
def NandView.pages (v : NandView) (start : ℕ) (data : List UInt8) : List (ℕ × Row) :=
  (List.range (data.length / v.unit)).map fun i =>
    ((start >>> v.shift) + i,
      .page v.type (v.page data (i * v.unit)).1 (v.page data (i * v.unit)).2)

variable (B : Board)

def Board.view : Dev → Option NandView
  | .bnd =>
    match B.nand.boot, B.nand.normal with
    | some bc, some _ => some ⟨.boot, bootPage bc, bc.pagesize, B.nand.bndPageShift⟩
    | _, _ => none
  | .nnd =>
    B.nand.normal.map fun nc =>
      ⟨.normal, normalPage nc false, normalUnit nc false, B.nand.nndPageShift⟩
  | .fnd =>
    B.nand.normal.map fun nc =>
      ⟨.normal, normalPage nc true, normalUnit nc true, B.nand.nndPageShift⟩
  | _ => none

def Board.pages (w : Dev × ℕ × List UInt8) : List (ℕ × Row) :=
  (B.view w.1).elim [] fun v => v.pages w.2.1 w.2.2

theorem nandWrite_view {d : Dev} (start : ℕ) (data : List UInt8) :
    nandWrite B.nand d start data =
      match B.view d with
      | some v =>
        vsWriteLoop v.type (v.page data) v.unit (data.length / v.unit) (start >>> v.shift) 0 0
      | none => pure (-1) := by
  cases d
  · simp only [nandWrite, bndVsWrite, Board.view, NandCfg.getConfig]
    rcases B.nand.boot with _ | bc
    · rfl
    · rcases B.nand.normal with _ | nc <;> rfl
  · simp only [nandWrite, nndVsWrite, baseVsWrite, Board.view, NandCfg.getConfig]
    rcases B.nand.normal with _ | nc <;> rfl
  · simp only [nandWrite, fndVsWrite, baseVsWrite, Board.view, NandCfg.getConfig]
    rcases B.nand.normal with _ | nc <;> rfl
  all_goals rfl

end View

section Program

/-- The rows after pages were programmed one after the other. -/
def program (rows : ℕ → Row) (ps : List (ℕ × Row)) : ℕ → Row :=
  ps.foldl (fun rows p r => if r = p.1 then p.2 else rows r) rows

@[simp]
theorem program_nil (rows : ℕ → Row) : program rows [] = rows := rfl

theorem program_append (rows : ℕ → Row) (ps qs : List (ℕ × Row)) :
    program rows (ps ++ qs) = program (program rows ps) qs :=
  List.foldl_append

/-- A row no page goes to keeps what it holds. -/
theorem program_of_notMem {r : ℕ} :
    ∀ {ps : List (ℕ × Row)} (rows : ℕ → Row), (∀ p ∈ ps, p.1 ≠ r) → program rows ps r = rows r
  | [], _, _ => rfl
  | p :: ps, rows, h => by
    have h1 : r ≠ p.1 := (h p List.mem_cons_self).symm
    have h2 := program_of_notMem (fun r => if r = p.1 then p.2 else rows r)
      fun q hq => h q (List.mem_cons_of_mem p hq)
    exact h2.trans (if_neg h1)

/-- Among pages for different rows each finds its row. -/
theorem program_of_mem {p : ℕ × Row} :
    ∀ {ps : List (ℕ × Row)} (rows : ℕ → Row), (ps.map Prod.fst).Nodup → p ∈ ps →
      program rows ps p.1 = p.2
  | q :: ps, rows, hnd, hp => by
    rw [List.map_cons, List.nodup_cons] at hnd
    rcases List.mem_cons.1 hp with rfl | hp
    · have h := program_of_notMem (fun r => if r = p.1 then p.2 else rows r)
        fun q hq heq => hnd.1 (List.mem_map.2 ⟨q, hq, heq⟩)
      exact h.trans (if_pos rfl)
    · exact program_of_mem (fun r => if r = q.1 then q.2 else rows r) hnd.2 hp

/-- The rows programmed in a trace, and what was left there. -/
def programmed (trace : List (FlashOp × FlashReply)) : List (ℕ × Row) :=
  trace.filterMap fun x =>
    match x.1 with
    | .writePage type row main spare => some (row, .page type main spare)
    | _ => none

@[simp]
theorem programmed_append (t t' : List (FlashOp × FlashReply)) :
    programmed (t ++ t') = programmed t ++ programmed t' :=
  List.filterMap_append

theorem programmed_eq_nil {t : List (FlashOp × FlashReply)}
    (ht : ∀ x ∈ t, ∀ ty row m s, x.1 ≠ .writePage ty row m s) : programmed t = [] := by
  refine List.filterMap_eq_nil_iff.2 fun x hx => ?_
  have hx' := ht x hx
  split
  · rename_i ty row m s heq
    exact absurd heq (hx' ty row m s)
  · rfl

variable (ppb : ℕ) (bad : ℕ → Bool)

theorem vsWriteLoop_run (type : NandCfgType) (page : ℕ → List UInt8 × List UInt8) (step : ℕ) :
    ∀ (n row pos : ℕ) (ret : ℤ) (rows : ℕ → Row),
      let out := Prog.run (flashStep ppb bad) (vsWriteLoop type page step n row pos ret) rows
      let ps := (List.range n).map fun i =>
        (row + i, Row.page type (page (pos + i * step)).1 (page (pos + i * step)).2)
      out.val = ret + n * step ∧ out.env = program rows ps ∧ programmed out.log = ps
  | 0, row, pos, ret, rows => by simp [vsWriteLoop, programmed]
  | n + 1, row, pos, ret, rows => by
    obtain ⟨hval, henv, hlog⟩ := vsWriteLoop_run type page step n (row + 1) (pos + step)
      (ret + step) (flashStep ppb bad rows (.writePage type row (page pos).1 (page pos).2)).2
    have hps : (List.range (n + 1)).map (fun i =>
          (row + i, Row.page type (page (pos + i * step)).1 (page (pos + i * step)).2)) =
        (row, .page type (page pos).1 (page pos).2) :: (List.range n).map fun i =>
          (row + 1 + i, Row.page type (page (pos + step + i * step)).1
            (page (pos + step + i * step)).2) := by
      rw [List.range_succ_eq_map, List.map_cons, List.map_map, Nat.zero_mul, Nat.add_zero]
      refine congrArg _ (List.map_congr_left fun i _ => ?_)
      have h1 : pos + (i + 1) * step = pos + step + i * step := by
        rw [Nat.add_mul, Nat.one_mul]
        omega
      have h2 : row + (i + 1) = row + 1 + i := by omega
      simp only [Function.comp_apply, Nat.succ_eq_add_one, h1, h2]
    simp only [vsWriteLoop, Prog.run_bind, Prog.run_op]
    have hret : (flashStep ppb bad rows
        (.writePage type row (page pos).1 (page pos).2)).1.ret = 0 := rfl
    simp only [hret, ne_eq, not_true_eq_false, if_false]
    rw [hps]
    refine ⟨?_, ?_, ?_⟩
    · rw [hval]
      push_cast
      ring
    · rw [henv]
      rfl
    · rw [programmed_append, hlog]
      rfl

end Program

section Asks

variable (N : NandCfg)

/-- The flash operations that leave the flash as it is. -/
def FlashOp.Quiet (o : FlashOp) : Prop := (∃ row, o = .isbad row) ∨ ∃ type row, o =
    .readPage type row

theorem nndVsIsbad_asks (offset : ℕ) :
    (nndVsIsbad N offset).Asks fun o => ∃ row, o = .isbad row := by
  unfold nndVsIsbad
  rcases N.getConfig .normal with _ | nc
  · exact Prog.asks_pure _
  · exact Prog.Asks.bind ((Prog.asks_op _).2 ⟨_, rfl⟩) fun _ => Prog.asks_pure _

theorem nandIsbad_asks (d : Dev) (offset : ℕ) :
    (nandIsbad N d offset).Asks fun o => ∃ row, o = .isbad row := by
  cases d
  case bnd => exact nndVsIsbad_asks N _
  case nnd => exact nndVsIsbad_asks N _
  case fnd => exact nndVsIsbad_asks N _
  all_goals exact Prog.asks_pure _

/-- A round of the erase: the bad mark unless it scrubs, and the erase of a block that is good. -/
theorem baseVsEraseLoop_succ (nc : NandConfig) (scrub : Bool) (n row start : ℕ) (ret : ℤ) :
    baseVsEraseLoop N nc scrub (n + 1) row start ret =
      (if scrub then pure 0 else nndVsIsbad N start) >>= fun b =>
        (if b = 0 then
          Prog.op (.erase row) >>= fun r => pure (if r.ret ≠ 0 then -1 else ret)
        else pure ret) >>= fun ret' =>
          baseVsEraseLoop N nc scrub n (row + nc.pagesperblock) (start + nc.blocksize) ret' := by
  rw [baseVsEraseLoop]
  by_cases hs : scrub = true
  · simp only [hs, if_true, pure_bind, bind_assoc]
  · simp only [hs, Bool.false_eq_true, if_false]
    congr 1
    funext b
    by_cases hb : b = 0
    · simp only [hb, if_true, bind_assoc, pure_bind]
    · simp only [hb, if_false, pure_bind]

theorem baseVsEraseLoop_asks (nc : NandConfig) (scrub : Bool) :
    ∀ (n row start : ℕ) (ret : ℤ),
      (baseVsEraseLoop N nc scrub n row start ret).Asks fun o =>
        (∃ row, o = .isbad row) ∨ ∃ row, o = .erase row
  | 0, _, _, _ => Prog.asks_pure _
  | n + 1, row, start, ret => by
    rw [baseVsEraseLoop_succ]
    refine Prog.Asks.bind ?_ fun b => Prog.Asks.bind ?_ fun _ =>
      baseVsEraseLoop_asks nc scrub n _ _ _
    · split_ifs
      · exact Prog.asks_pure _
      · exact (nndVsIsbad_asks N start).mono fun o ho => Or.inl ho
    · split_ifs
      · exact Prog.Asks.bind ((Prog.asks_op _).2 (Or.inr ⟨_, rfl⟩)) fun _ => Prog.asks_pure _
      · exact Prog.asks_pure _

theorem baseVsErase_asks (start size : ℕ) (scrub : Bool) :
    (baseVsErase N start size scrub).Asks fun o =>
      (∃ row, o = .isbad row) ∨ ∃ row, o = .erase row := by
  unfold baseVsErase
  rcases N.getConfig .normal with _ | nc
  · exact Prog.asks_pure _
  · exact baseVsEraseLoop_asks N nc scrub _ _ _ _

theorem nandErase_asks (d : Dev) (start size : ℕ) :
    (nandErase N d start size).Asks fun o => (∃ row, o = .isbad row) ∨ ∃ row, o = .erase row := by
  cases d
  case bnd => exact baseVsErase_asks N _ _ _
  case nnd => exact baseVsErase_asks N _ _ _
  case fnd =>
    simp only [nandErase, fndVsErase]
    rcases N.getConfig .normal with _ | nc
    · exact Prog.asks_pure _
    · exact baseVsErase_asks N _ _ _
  all_goals exact Prog.asks_pure _

theorem baseVsReadLoop_asks (nc : NandConfig) (extra : Bool) :
    ∀ (n row : ℕ) (ret : ℤ) (data : List UInt8),
      (baseVsReadLoop nc extra n row ret data).Asks FlashOp.Quiet
  | 0, _, _, _ => Prog.asks_pure _
  | n + 1, row, ret, data => by
    unfold baseVsReadLoop
    refine Prog.Asks.bind ((Prog.asks_op _).2 (Or.inr ⟨_, _, rfl⟩)) fun r => ?_
    refine Prog.Asks.ite (fun _ => Prog.asks_pure _) fun _ => ?_
    exact Prog.Asks.ite (fun _ => Prog.asks_pure _) fun _ => baseVsReadLoop_asks nc extra n _ _ _

theorem baseVsReadRetry_asks (nc : NandConfig) (start : ℕ) (length : ℤ) :
    ∀ n : ℕ, (baseVsReadRetry N nc start length n).Asks FlashOp.Quiet
  | 0 => baseVsReadLoop_asks nc false _ _ _ _
  | n + 1 => by
    unfold baseVsReadRetry
    refine Prog.Asks.bind (baseVsReadLoop_asks nc false _ _ _ _) fun r => ?_
    split_ifs
    · exact baseVsReadRetry_asks nc start length n
    · exact Prog.asks_pure _

theorem nndSkipBad_asks (block : ℕ) :
    ∀ skip start : ℕ, (nndSkipBad N block skip start).Asks FlashOp.Quiet
  | 0, start => by
    unfold nndSkipBad
    exact Prog.Asks.bind ((nndVsIsbad_asks N _).mono fun o ho => Or.inl ho) fun _ =>
      Prog.asks_pure _
  | skip + 1, start => by
    unfold nndSkipBad
    refine Prog.Asks.bind ((nndVsIsbad_asks N _).mono fun o ho => Or.inl ho) fun b => ?_
    split_ifs
    · exact nndSkipBad_asks block skip _
    · exact Prog.asks_pure _

theorem nndVsReadLoop_asks (nc : NandConfig) (length : ℤ) :
    ∀ (n start : ℕ) (remain : ℤ) (data : List UInt8),
      (nndVsReadLoop N nc length n start remain data).Asks FlashOp.Quiet
  | 0, _, _, _ => Prog.asks_pure _
  | n + 1, start, remain, data => by
    unfold nndVsReadLoop
    split_ifs with h0
    · exact Prog.asks_pure _
    · refine Prog.Asks.bind (nndSkipBad_asks N _ _ _) fun s => ?_
      rcases s with _ | s
      · exact Prog.asks_pure _
      · refine Prog.Asks.bind (baseVsReadRetry_asks N nc _ _ _) fun r => ?_
        split_ifs
        · exact Prog.asks_pure _
        · exact nndVsReadLoop_asks nc length n _ _ _

theorem bndVsReadLoop_asks (bc : NandConfig) :
    ∀ (n row : ℕ) (cnt : ℤ) (data : List UInt8),
      (bndVsReadLoop bc n row cnt data).Asks FlashOp.Quiet
  | 0, _, _, _ => Prog.asks_pure _
  | n + 1, row, cnt, data => by
    unfold bndVsReadLoop
    refine Prog.Asks.bind ((Prog.asks_op _).2 (Or.inr ⟨_, _, rfl⟩)) fun r => ?_
    refine Prog.Asks.ite (fun _ => Prog.asks_pure _) fun _ => ?_
    exact Prog.Asks.ite (fun _ => bndVsReadLoop_asks bc n _ _ _)
      fun _ => bndVsReadLoop_asks bc n _ _ _

theorem nandRead_asks (d : Dev) (start : ℕ) (length : ℤ) :
    (nandRead N d start length).Asks FlashOp.Quiet := by
  cases d
  case bnd =>
    simp only [nandRead, bndVsRead]
    rcases N.getConfig .boot with _ | bc
    · exact Prog.asks_pure _
    · exact bndVsReadLoop_asks bc _ _ _ _
  case nnd =>
    simp only [nandRead, nndVsRead]
    rcases N.getConfig .normal with _ | nc
    · exact Prog.asks_pure _
    · exact nndVsReadLoop_asks N nc _ _ _ _ _
  case fnd =>
    simp only [nandRead, fndVsRead]
    rcases N.getConfig .normal with _ | nc
    · exact Prog.asks_pure _
    · exact baseVsReadLoop_asks nc true _ _ _ _
  all_goals exact Prog.asks_pure _

/-- `vs_read` asks what the `read` of the driver asks. -/
theorem vsReadBody_asks {O R : Type} {P : O → Prop} (d : Dev) (align start : ℕ) (length : ℤ)
    {read : ℕ → ℤ → Prog O R (ℤ × List UInt8)} (hread : ∀ s n, (read s n).Asks P) :
    (vsReadBody d align start length read).Asks P := by
  have hpart {c : Prop} [Decidable c] (s : ℕ) (n : ℤ) : (vsReadPart c (read s n)).Asks P :=
    Prog.Asks.ite (fun _ => hread s n) fun _ => Prog.asks_pure _
  unfold vsReadBody
  refine Prog.Asks.ite (fun _ => hread _ _) fun _ => Prog.Asks.bind (hpart _ _) fun head => ?_
  refine Prog.Asks.ite (fun _ => Prog.asks_pure _) fun _ => ?_
  refine Prog.Asks.bind (hpart _ _) fun mid => ?_
  refine Prog.Asks.ite (fun _ => Prog.asks_pure _) fun _ => ?_
  refine Prog.Asks.ite (fun _ => Prog.asks_pure _) fun _ => ?_
  refine Prog.Asks.bind (hread _ _) fun tail => ?_
  exact Prog.Asks.ite (fun _ => Prog.asks_pure _) fun _ => Prog.asks_pure _

end Asks

section Step

variable (B : Board) (bad : ℕ → Bool) {σ : Type} (other : σ → Op → Reply × σ)

/-- A driver program that only reads leaves the flash as it is. -/
theorem quiet_run (ppb : ℕ) {α : Type} {p : Flash α} (hp : p.Asks FlashOp.Quiet) (rows : ℕ → Row) :
    (Prog.run (flashStep ppb bad) p rows).env = rows ∧
      programmed (Prog.run (flashStep ppb bad) p rows).log = [] := by
  constructor
  · refine hp.env (I := fun r => r = rows) (fun r o ho hr => ?_) rfl
    rcases ho with ⟨row, rfl⟩ | ⟨type, row, rfl⟩
    · exact hr
    · simp only [flashStep]
      rcases r row <;> exact hr
  · refine programmed_eq_nil fun x hx ty row m s heq => ?_
    rcases hp.log _ _ x hx with ⟨row', h⟩ | ⟨type, row', h⟩
    · rw [h] at heq
      exact absurd heq (by simp)
    · rw [h] at heq
      exact absurd heq (by simp)

theorem nandStep_write (w : World σ) (d : Dev) (hd : d.isNand = true) (start : ℕ)
    (data : List UInt8) :
    let q := nandStep B bad other w (.write d start data)
    q.1.ret = (B.view d).elim (-1 : ℤ) (fun v => (data.length / v.unit * v.unit : ℕ)) ∧
      q.2.rows = program w.rows (B.pages (d, start, data)) ∧
      programmed q.2.trace = programmed w.trace ++ B.pages (d, start, data) := by
  simp only [nandStep, nandProg, hd, if_true, Prog.run_bind, Prog.run_pure, List.append_nil,
    nandWrite_view, Board.pages, programmed_append]
  rcases B.view d with _ | v
  · exact ⟨rfl, rfl, rfl⟩
  · obtain ⟨hval, henv, hlog⟩ := vsWriteLoop_run B.pagesperblock bad v.type (v.page data) v.unit
      (data.length / v.unit) (start >>> v.shift) 0 0 w.rows
    simp only [Nat.zero_add] at henv hlog
    refine ⟨?_, henv, congrArg _ hlog⟩
    rw [hval]
    push_cast
    rw [Int.zero_add]
    rfl

theorem nandStep_other (w : World σ) (o : Op) (ho : nandProg B o = none) :
    nandStep B bad other w o = ((other w.other o).1, { w with other := (other w.other o).2 }) := by
  simp only [nandStep, ho]

/-- A call on a NAND device leaves the other devices alone. -/
theorem nandStep_nand (w : World σ) {o : Op} (ho : (nandProg B o).isSome = true) :
    (nandStep B bad other w o).2.other = w.other := by
  obtain ⟨p, hp⟩ := Option.isSome_iff_exists.1 ho
  simp only [nandStep, hp]

/-- The write half of a round asks nothing of the other devices. -/
theorem burnPlace_other (c : BurnConf) {d : Dev} (hO : Dev.ofId c.idO = some d)
    (hd : d.isNand = true) (p : BurnPos) (w : World σ) :
    (Prog.run (nandStep B bad other) (burnPlace c p) w).env.other = w.other := by
  refine (burnPlace_asks c p).env (I := fun w' : World σ => w'.other = w.other)
    (fun w' o ho hw => ?_) rfl
  obtain ⟨d', hd', ho⟩ := ho
  rw [hO] at hd'
  rw [nandStep_nand B bad other w' ?_, hw]
  rcases ho with ⟨x, rfl⟩ | ⟨x, bs, rfl⟩
  · rw [nandProg, ← Option.some.inj hd', if_pos hd]
    rfl
  · rw [nandProg, ← Option.some.inj hd', if_pos hd]
    rfl

/-- A storage call that is no write leaves nothing on the flash, and one that is no erase either
leaves it as it is. -/
theorem nandStep_quiet (w : World σ) (o : Op) (ho : ∀ d s bs, o ≠ .write d s bs) :
    programmed (nandStep B bad other w o).2.trace = programmed w.trace ∧
      ((∀ d s n, o ≠ .erase d s n) → (nandStep B bad other w o).2.rows = w.rows) := by
  rcases hp : nandProg B o with _ | p
  · rw [nandStep_other B bad other w o hp]
    exact ⟨rfl, fun _ => rfl⟩
  · simp only [nandStep, hp, programmed_append]
    have hquiet : (∀ d s n, o ≠ .erase d s n) → p.Asks FlashOp.Quiet := fun he => by
      unfold nandProg at hp
      split at hp
      · split_ifs at hp
        rw [← Option.some.inj hp]
        exact vsReadBody_asks _ _ _ _ (nandRead_asks _ _)
      · exact absurd rfl (ho _ _ _)
      · exact absurd rfl (he _ _ _)
      · split_ifs at hp
        rw [← Option.some.inj hp]
        exact Prog.Asks.bind ((nandIsbad_asks _ _ _).mono fun o ho => Or.inl ho) fun _ =>
          Prog.asks_pure _
      · exact absurd hp (by simp)
    by_cases he : ∀ d s n, o ≠ .erase d s n
    · obtain ⟨h1, h2⟩ := quiet_run bad B.pagesperblock (hquiet he) w.rows
      exact ⟨by rw [h2, List.append_nil], fun _ => h1⟩
    · refine ⟨?_, fun he' => absurd he' he⟩
      push Not at he
      obtain ⟨d, s, n, rfl⟩ := he
      have hlog : programmed (Prog.run (flashStep B.pagesperblock bad) p w.rows).log = [] := by
        simp only [nandProg] at hp
        split_ifs at hp
        have hp' : p.Asks fun o => (∃ row, o = .isbad row) ∨ ∃ row, o = .erase row := by
          rw [← Option.some.inj hp]
          exact Prog.Asks.bind (nandErase_asks _ _ _ _) fun _ => Prog.asks_pure _
        refine programmed_eq_nil fun x hx ty row m bs heq => ?_
        rcases hp'.log _ _ x hx with ⟨row', h⟩ | ⟨row', h⟩
        · rw [h] at heq
          exact absurd heq (by simp)
        · rw [h] at heq
          exact absurd heq (by simp)
      rw [hlog, List.append_nil]

/-- The pages of the writes to NAND devices. -/
def Board.pagesOf (ws : List (Dev × ℕ × List UInt8)) : List (ℕ × Row) := ws.flatMap B.pages

/-- A storage call programs the pages of its write, if it is one. -/
theorem nandStep_pages (w : World σ) (o : Op) (r : Reply) :
    programmed (nandStep B bad other w o).2.trace =
        programmed w.trace ++ B.pagesOf (writeOps [(o, r)]) ∧
      ((∀ d s n, o ≠ .erase d s n) → (nandStep B bad other w o).2.rows =
        program w.rows (B.pagesOf (writeOps [(o, r)]))) := by
  by_cases ho : ∃ d s bs, o = .write d s bs
  · obtain ⟨d, s, bs, rfl⟩ := ho
    have hw : B.pagesOf (writeOps [(.write d s bs, r)]) = B.pages (d, s, bs) :=
      List.append_nil _
    rw [hw]
    by_cases hd : d.isNand = true
    · obtain ⟨_, hrows, htrace⟩ := nandStep_write B bad other w d hd s bs
      exact ⟨htrace, fun _ => hrows⟩
    · have hp : nandProg B (.write d s bs) = none := if_neg hd
      have hv : B.view d = none := by
        cases d <;> first | rfl | exact absurd rfl hd
      rw [nandStep_other B bad other w _ hp, Board.pages, hv]
      exact ⟨(List.append_nil _).symm, fun _ => rfl⟩
  · push Not at ho
    have hw : writeOps [(o, r)] = [] := by
      refine List.filterMap_cons_none ?_
      rcases o with _ | _ | _ | _
      all_goals first | rfl | exact absurd rfl (ho _ _ _)
    obtain ⟨htrace, hrows⟩ := nandStep_quiet B bad other w o ho
    rw [hw]
    exact ⟨htrace.trans (List.append_nil _).symm, hrows⟩

theorem pagesOf_cons (x : Op × Reply) (l : List (Op × Reply)) :
    B.pagesOf (writeOps (x :: l)) = B.pagesOf (writeOps [x]) ++ B.pagesOf (writeOps l) := by
  rw [Board.pagesOf, Board.pagesOf, Board.pagesOf, ← List.flatMap_append, ← writeOps_append]
  rfl

/-- What a program programs is the pages of its writes. -/
theorem run_programmed {α : Type} (p : Strat α) (w : World σ) :
    programmed (Prog.run (nandStep B bad other) p w).env.trace =
      programmed w.trace ++ B.pagesOf (writeOps (Prog.run (nandStep B bad other) p w).log) := by
  induction p generalizing w with
  | done a => simp [Prog.run, Board.pagesOf]
  | ask o k ih =>
    simp only [Prog.run]
    rw [ih, (nandStep_pages B bad other w o (nandStep B bad other w o).1).1, List.append_assoc,
      ← pagesOf_cons]

/-- If it erases nothing, its pages are what it leaves on the flash. -/
theorem run_rows {α : Type} {p : Strat α} (hp : p.Asks fun o => ∀ d s n, o ≠ .erase d s n)
    (w : World σ) :
    (Prog.run (nandStep B bad other) p w).env.rows =
      program w.rows (B.pagesOf (writeOps (Prog.run (nandStep B bad other) p w).log)) := by
  induction p generalizing w with
  | done a => simp [Prog.run, Board.pagesOf]
  | ask o k ih =>
    simp only [Prog.run]
    rw [ih _ (hp.2 _), (nandStep_pages B bad other w o (nandStep B bad other w o).1).2 hp.1,
      ← program_append, ← pagesOf_cons]

end Step

section Blocks

variable (B : Board)

/-- The block size of a NAND device, in its own offsets. -/
def Board.blocksize (d : Dev) : ℕ :=
  B.nand.normal.elim 0 (·.blocksize) >>> (if d = .bnd then B.nand.bndSizeShift else 0)

/-- Blocks of a view are whole numbers of its pages, and the same rows in every view. -/
theorem view_blocks {d : Dev} {v : NandView} (hv : B.view d = some v) :
    ∃ m, 6 ≤ m ∧ B.pagesperblock = 2 ^ m ∧ B.blocksize d = 2 ^ (m + v.shift) := by
  have hnormal {nc : NandConfig} (hn : B.nand.normal = some nc) :
      B.pagesperblock = 2 ^ (B.nand.nndBlockShift - B.nand.nndPageShift) := by
    obtain ⟨hpage, hblk, _, _, _, h6, _⟩ := B.nand.block_of_normal hn
    rw [Board.pagesperblock, hn, Option.elim_some, NandConfig.pagesperblock, hblk, hpage,
      Nat.pow_div (by omega) (by norm_num)]
  have hnnd {nc : NandConfig} (hn : B.nand.normal = some nc) {d : Dev} (hd : d ≠ .bnd)
      (hs : v.shift = B.nand.nndPageShift) :
      ∃ m, 6 ≤ m ∧ B.pagesperblock = 2 ^ m ∧ B.blocksize d = 2 ^ (m + v.shift) := by
    obtain ⟨_, hblk, _, _, _, h6, _⟩ := B.nand.block_of_normal hn
    refine ⟨B.nand.nndBlockShift - B.nand.nndPageShift, by omega, hnormal hn, ?_⟩
    rw [Board.blocksize, hn, Option.elim_some, if_neg hd, Nat.shiftRight_zero, hblk, hs,
      Nat.sub_add_cancel (by omega)]
  cases d
  case bnd =>
    unfold Board.view at hv
    rcases hb : B.nand.boot with _ | bc
    · simp [hb] at hv
    · rcases hn : B.nand.normal with _ | nc
      · simp [hb, hn] at hv
      · simp only [hb, hn, Option.some.injEq] at hv
        obtain ⟨_, hblk, _, _, _, h6, _⟩ := B.nand.block_of_normal hn
        have hsize := B.nand.size_shift bc hb
        refine ⟨B.nand.nndBlockShift - B.nand.nndPageShift, by omega, hnormal hn, ?_⟩
        rw [Board.blocksize, hn, Option.elim_some, if_pos rfl, hblk, Nat.shiftRight_eq_div_pow,
          Nat.pow_div (by omega) (by norm_num), ← hv]
        exact congrArg _ (by dsimp only; omega)
  case nnd =>
    obtain ⟨nc, hn, rfl⟩ := Option.map_eq_some_iff.1 hv
    exact hnnd hn (by decide) rfl
  case fnd =>
    obtain ⟨nc, hn, rfl⟩ := Option.map_eq_some_iff.1 hv
    exact hnnd hn (by decide) rfl
  all_goals exact absurd hv (by simp [Board.view])

theorem view_isNand {d : Dev} {v : NandView} (hv : B.view d = some v) : d.isNand = true := by
  cases d <;> first | rfl | exact absurd hv (by simp [Board.view])

theorem view_normal {d : Dev} {v : NandView} (hv : B.view d = some v) :
    ∃ nc, B.nand.normal = some nc := by
  cases d
  case bnd =>
    unfold Board.view at hv
    rcases hn : B.nand.normal with _ | nc
    · rcases hb : B.nand.boot with _ | bc <;> simp [hb, hn] at hv
    · exact ⟨nc, rfl⟩
  case nnd =>
    obtain ⟨nc, hn, _⟩ := Option.map_eq_some_iff.1 hv
    exact ⟨nc, hn⟩
  case fnd =>
    obtain ⟨nc, hn, _⟩ := Option.map_eq_some_iff.1 hv
    exact ⟨nc, hn⟩
  all_goals exact absurd hv (by simp [Board.view])

variable (bad : ℕ → Bool) {σ : Type} (other : σ → Op → Reply × σ)

theorem nndVsIsbad_run {nc : NandConfig} (hn : B.nand.normal = some nc) (o : ℕ)
    (rows : ℕ → Row) :
    let out := Prog.run (flashStep B.pagesperblock bad) (nndVsIsbad B.nand o) rows
    out.val = (if bad (o / nc.blocksize) then 1 else 0) ∧ out.env = rows := by
  obtain ⟨hpage, hblk, _, _, _, h6, _⟩ := B.nand.block_of_normal hn
  have hrow : (andNot o (nc.blocksize - 1) >>> B.nand.nndPageShift) / B.pagesperblock =
      o / nc.blocksize := by
    rw [andNot_mask hblk, Nat.shiftRight_eq_div_pow, Nat.div_div_eq_div_mul, Board.pagesperblock,
      hn, Option.elim_some, NandConfig.pagesperblock, ← hpage,
      Nat.mul_div_cancel' (by rw [hpage, hblk]; exact pow_dvd_pow 2 (by omega))]
    have hmod := Nat.div_add_mod o nc.blocksize
    rw [show o - o % nc.blocksize = nc.blocksize * (o / nc.blocksize) by omega,
      Nat.mul_div_cancel_left _ (by rw [hblk]; exact Nat.two_pow_pos _)]
  simp only [nndVsIsbad, NandCfg.getConfig, hn, Prog.run_bind, Prog.run_op, Prog.run_pure,
    flashStep, hrow]
  exact ⟨trivial, trivial⟩

/-- The bad marks of a view are the block map, at its own block size. -/
theorem staticBad_view {d : Dev} {v : NandView} (hv : B.view d = some v) :
    StaticBad (nandStep B bad other) d fun o => bad (o / B.blocksize d) := by
  intro w o
  obtain ⟨nc, hn⟩ := view_normal B hv
  have hnand := view_isNand B hv
  have hval : (nandStep B bad other w (.isbad d o)).1.ret =
      if bad (o / B.blocksize d) then 1 else 0 := by
    simp only [nandStep, nandProg, hnand, if_true, Prog.run_bind, Prog.run_pure]
    obtain ⟨hbnd, _⟩ := nndVsIsbad_run B bad hn (o <<< B.nand.bndSizeShift) w.rows
    obtain ⟨hnnd, _⟩ := nndVsIsbad_run B bad hn o w.rows
    cases d
    case bnd =>
      refine hbnd.trans ?_
      obtain ⟨_, hblk, _, _, _, h6, _⟩ := B.nand.block_of_normal hn
      unfold Board.view at hv
      rcases hb : B.nand.boot with _ | bc
      · simp [hb] at hv
      · have hsize := B.nand.size_shift bc hb
        rw [Board.blocksize, hn, Option.elim_some, if_pos rfl, Nat.shiftRight_eq_div_pow,
          Nat.shiftLeft_eq, hblk, Nat.pow_div (by omega) (by norm_num),
          show B.nand.nndBlockShift =
            B.nand.nndBlockShift - B.nand.bndSizeShift + B.nand.bndSizeShift by omega,
          Nat.pow_add, Nat.mul_div_mul_right _ _ (Nat.two_pow_pos _), Nat.add_sub_cancel]
    case nnd =>
      simp only [Board.blocksize, hn, Option.elim_some, reduceCtorEq, if_false,
        Nat.shiftRight_zero]
      exact hnnd
    case fnd =>
      simp only [Board.blocksize, hn, Option.elim_some, reduceCtorEq, if_false,
        Nat.shiftRight_zero]
      exact hnnd
    all_goals exact absurd hnand (by decide)
  rw [hval]
  by_cases hbad : bad (o / B.blocksize d) = true
  · simp [hbad]
  · simp [hbad]

end Blocks

end InfotmUboot
