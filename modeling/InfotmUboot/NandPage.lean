import InfotmUboot.Ecc
import InfotmUboot.NandUtil

/-!
# NAND pages with software ECC

`nand_read` and `nand_write` of `nand_base.c` for data without out-of-band bytes. A chip with a
16-bit bus gives whole words. A page is kept in `databuf` after a part of it was read on chips with
small pages. What a page holds can change by itself between the calls.
-/

namespace InfotmUboot

open Lib

def EIO : ℤ := 5

structure NandPage where
  data : List UInt8
  oob : List UInt8

structure NandChip where
  writesize : ℕ
  oobsize : ℕ
  subpagesize : ℕ
  /-- `mtd->size` -/
  size : ℕ
  eccpos : List ℕ
  writeProtected : Bool
  /-- `NAND_BUSWIDTH_16` -/
  busWidth16 : Bool

namespace NandChip

variable (c : NandChip)

/-- `chip->ecc.steps` -/
def steps : ℕ := c.writesize / 256

/-- `chip->ecc.total` -/
def total : ℕ := c.steps * 3

/-- `NAND_SUBPAGE_READ` -/
def subpageRead : Bool := 512 < c.writesize

def busw : ℕ := if c.busWidth16 then 2 else 1

/-- How many of `len` bytes `read_buf` gets. -/
def wordLen (len : ℕ) : ℕ := len / c.busw * c.busw

end NandChip

/-- `mtd->ecc_stats` -/
structure EccStats where
  failed : ℕ
  corrected : ℕ
  deriving DecidableEq, Repr

structure NandState where
  pages : ℕ → NandPage
  pagebuf : Option ℕ
  databuf : Mem
  oobPoi : Mem
  stats : EccStats

section Steps

/-- The code of each step. -/
def eccCalc : ℕ → List UInt8 → List UInt8
  | 0, _ => []
  | n + 1, p => nandCalculateEcc p ++ eccCalc n (p.drop 256)

def eccCount (st : EccStats) (stat : ℤ) : EccStats :=
  if stat < 0 then { st with failed := st.failed + 1 }
  else { st with corrected := st.corrected + stat.toNat }

/-- The correction of each step. -/
def eccCorrect : ℕ → List UInt8 → List UInt8 → List UInt8 → EccStats → List UInt8 × EccStats
  | 0, p, _, _, st => (p, st)
  | n + 1, p, eccCode, eccCalc, st =>
    let (stat, dat) := nandCorrectData (p.take 256) eccCode eccCalc
    let (rest, st) :=
      eccCorrect n (p.drop 256) (eccCode.drop 3) (eccCalc.drop 3) (eccCount st stat)
    (dat ++ rest, st)

end Steps

section Read

variable (c : NandChip)

/-- `nand_read_page_swecc`: the page, and what it leaves in `oob_poi`. -/
def nandReadPageSwecc (page : NandPage) (oobPoi : Mem) (st : EccStats) :
    List UInt8 × Mem × EccStats :=
  let buf := page.data.take c.writesize
  let oobPoi := oobPoi.store 0 (page.oob.take (c.wordLen c.oobsize))
  let eccCode := (c.eccpos.take c.total).map oobPoi
  let (buf, st) := eccCorrect c.steps buf eccCode (eccCalc c.steps buf) st
  (buf, oobPoi, st)

/-- `nand_read_subpage` of `readlen` bytes at `dataOffs` of a page, which go to their place in
`bufpoi`. Code bytes in one run are read alone. -/
def nandReadSubpage (page : NandPage) (dataOffs readlen : ℕ) (bufpoi oobPoi : Mem) (st : EccStats) :
    Mem × Mem × EccStats :=
  let startStep := dataOffs / 256
  let endStep := (dataOffs + readlen - 1) / 256
  let numSteps := endStep - startStep + 1
  let p := (page.data.drop (startStep * 256)).take (numSteps * 256)
  let pos := (c.eccpos.drop (startStep * 3)).take (numSteps * 3)
  let gaps := (pos.zip pos.tail).any fun ab => ab.1 + 1 ≠ ab.2
  let firstPos := c.eccpos.getD (startStep * 3) 0
  let nextPos := c.eccpos.getD ((startStep + numSteps) * 3) 0
  let alignedPos := firstPos - firstPos % c.busw
  let alignedLen := numSteps * 3 + (if firstPos % c.busw ≠ 0 then 1 else 0) +
    (if nextPos % c.busw ≠ 0 then 1 else 0)
  let oobPoi :=
    if gaps then oobPoi.store 0 (page.oob.take (c.wordLen c.oobsize))
    else oobPoi.store alignedPos ((page.oob.drop alignedPos).take (c.wordLen alignedLen))
  let eccCode := pos.map oobPoi
  let (dat, st) := eccCorrect numSteps p eccCode (eccCalc numSteps p) st
  (bufpoi.store (startStep * 256) dat, oobPoi, st)

/-- One page of `nand_do_read_ops`: the bytes from `col` on. -/
def readPagePart (realpage col bytes : ℕ) (s : NandState) : List UInt8 × NandState :=
  if s.pagebuf = some realpage then (s.databuf.load col bytes, s)
  else if bytes = c.writesize then
    let (buf, oobPoi, stats) := nandReadPageSwecc c (s.pages realpage) s.oobPoi s.stats
    (buf, { s with oobPoi, stats })
  else if c.subpageRead then
    let (databuf, oobPoi, stats) :=
      nandReadSubpage c (s.pages realpage) col bytes s.databuf s.oobPoi s.stats
    (databuf.load col bytes, { s with databuf, oobPoi, stats })
  else
    let (buf, oobPoi, stats) := nandReadPageSwecc c (s.pages realpage) s.oobPoi s.stats
    let databuf := s.databuf.store 0 buf
    (databuf.load col bytes, { s with pagebuf := some realpage, databuf, oobPoi, stats })

/-- The loop of `nand_do_read_ops`, with no more rounds than bytes are left. -/
def readOpsLoop : ℕ → ℕ → ℕ → ℕ → NandState → List UInt8 × NandState
  | 0, _, _, _, s => ([], s)
  | n + 1, realpage, col, readlen, s =>
    let bytes := min (c.writesize - col) readlen
    let (buf, s) := readPagePart c realpage col bytes s
    if readlen - bytes = 0 then (buf, s)
    else
      let (rest, s) := readOpsLoop n (realpage + 1) 0 (readlen - bytes) s
      (buf ++ rest, s)

/-- `nand_do_read_ops` -/
def nandDoReadOps (start len : ℕ) (s : NandState) : ℤ × List UInt8 × NandState :=
  let stats := s.stats
  let (buf, s) := readOpsLoop c len (start / c.writesize) (start % c.writesize) len s
  let ret := if s.stats.failed - stats.failed ≠ 0 then -EBADMSG
    else if s.stats.corrected - stats.corrected ≠ 0 then -EUCLEAN else 0
  (ret, buf, s)

/-- `nand_read` -/
def mtdNandRead (start len : ℕ) (s : NandState) : ℤ × List UInt8 × NandState :=
  if start + len > c.size then (-EINVAL, [], s)
  else if len = 0 then (0, [], s)
  else nandDoReadOps c start len s

end Read

section Write

variable (c : NandChip)

/-- Programming can only clear bits. -/
def programPage (old new : NandPage) : NandPage :=
  ⟨List.zipWith (· &&& ·) old.data new.data, List.zipWith (· &&& ·) old.oob new.oob⟩

/-- The page that `nand_write_page_swecc` sends. -/
def nandWritePageSwecc (oobPoi buf : List UInt8) : NandPage :=
  let eccCalc := eccCalc c.steps buf
  let oobPoi := (List.range c.total).foldl
    (fun oob i => oob.set (c.eccpos.getD i 0) (eccCalc.getD i 0)) oobPoi
  ⟨buf, oobPoi⟩

/-- The loop of `nand_do_write_ops`, with no more rounds than bytes are left. The pages for which
`fails` has something are not programmed but left so. -/
def writeOpsLoop (fails : ℕ → Option NandPage) :
    ℕ → ℕ → ℕ → List UInt8 → List UInt8 → NandState → ℤ × NandState
  | 0, _, _, _, _, s => (0, s)
  | n + 1, realpage, column, buf, oobPoi, s =>
    let part := column ≠ 0 ∨ buf.length < c.writesize - 1
    let bytes := if part then min (c.writesize - column) buf.length else c.writesize
    let databuf := List.replicate column 0xff ++ buf.take bytes ++
      List.replicate (c.writesize - column - bytes) 0xff
    let s := if part then { s with pagebuf := none, databuf := s.databuf.store 0 databuf } else s
    let wbuf := if part then databuf else buf.take c.writesize
    let page := nandWritePageSwecc c oobPoi wbuf
    match fails realpage with
    | some junk => (- EIO, { s with pages := Function.update s.pages realpage junk })
    | none =>
      let pages := Function.update s.pages realpage (programPage (s.pages realpage) page)
      let s := { s with pages }
      if buf.length - bytes = 0 then (0, s)
      else writeOpsLoop fails n (realpage + 1) 0 (buf.drop bytes) page.oob s

/-- `nand_do_write_ops` -/
def nandDoWriteOps (fails : ℕ → Option NandPage) (start : ℕ) (buf : List UInt8) (s : NandState) :
    ℤ × NandState :=
  if buf.length = 0 then (0, s)
  else if start % c.subpagesize ≠ 0 ∨ buf.length % c.subpagesize ≠ 0 then (-EINVAL, s)
  else if c.writeProtected then (- EIO, s)
  else
    -- the number of the page is shifted as an `int`
    let cached : Bool := match s.pagebuf with
      | none => false
      | some page =>
        (start : ℤ) ≤ s32 (page * c.writesize : ℕ) ∧
          s32 (page * c.writesize : ℕ) < (start : ℤ) + buf.length
    let s := if cached then { s with pagebuf := none } else s
    writeOpsLoop c fails buf.length (start / c.writesize) (start % c.writesize) buf
      (List.replicate c.oobsize 0xff) s

/-- `nand_write` -/
def mtdNandWrite (fails : ℕ → Option NandPage) (start : ℕ) (buf : List UInt8) (s : NandState) :
    ℤ × NandState :=
  if start + buf.length > c.size then (-EINVAL, s)
  else nandDoWriteOps c fails start buf s

end Write

end InfotmUboot
