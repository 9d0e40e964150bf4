import InfotmUboot.Lib.Word

/-!
# Logical memory blocks

The tables of memory regions and of reserved regions that `lmb.c` keeps. Addresses and sizes have 32
bits, and so have the counts. A table is an array of `MAX_LMB_REGIONS + 1` entries; the one loop
that can leave it, that of `lmb_remove_region` on a count of 0, has no result.
-/

namespace InfotmUboot

open Lib

def MAX_LMB_REGIONS : ℕ := 8

def LMB_ALLOC_ANYWHERE : ℕ := 0

structure LmbProperty where
  base : ℕ
  size : ℕ
  deriving DecidableEq, Repr

structure LmbRegion where
  cnt : ℕ
  region : ℕ → LmbProperty

structure Lmb where
  memory : LmbRegion
  reserved : LmbRegion

def LmbRegion.set (rgn : LmbRegion) (i : ℕ) (r : LmbProperty) : LmbRegion :=
  { rgn with region := fun j => if j = i then r else rgn.region j }

/-- `a - b` in 32 bits -/
def sub32 (a b : ℕ) : ℕ := toU32 (a - b)

section Addrs

variable (base1 size1 base2 size2 : ℕ)

def lmbAddrsOverlap : Bool := base1 < u32 (base2 + size2) ∧ base2 < u32 (base1 + size1)

def lmbAddrsAdjacent : ℤ :=
  if base2 = u32 (base1 + size1) then 1 else if base1 = u32 (base2 + size2) then -1 else 0

end Addrs

/-- The dummy entry that a table begins with. -/
def LmbRegion.init (rgn : LmbRegion) : LmbRegion := { rgn.set 0 ⟨0, 0⟩ with cnt := 1 }

def lmbInit (lmb : Lmb) : Lmb := ⟨lmb.memory.init, lmb.reserved.init⟩

section Table

variable (rgn : LmbRegion)

def lmbRegionsAdjacent (r1 r2 : ℕ) : ℤ :=
  lmbAddrsAdjacent (rgn.region r1).base (rgn.region r1).size (rgn.region r2).base
    (rgn.region r2).size

/-- The entries behind `i` move down, `n` of them. -/
def removeLoop : ℕ → ℕ → LmbRegion → LmbRegion
  | 0, _, rgn => rgn
  | n + 1, i, rgn => removeLoop n (i + 1) (rgn.set i (rgn.region (i + 1)))

def lmbRemoveRegion (r : ℕ) : Option LmbRegion :=
  if rgn.cnt = 0 then none
  else some { removeLoop (rgn.cnt - 1 - r) r rgn with cnt := rgn.cnt - 1 }

def lmbCoalesceRegions (r1 r2 : ℕ) : Option LmbRegion :=
  let a := rgn.region r1
  lmbRemoveRegion (rgn.set r1 ⟨a.base, u32 (a.size + (rgn.region r2).size)⟩) r2

variable (base size : ℕ)

/-- The first loop of `lmb_add_region`, over `n` entries: nothing if the region is there, else the
table, the index and `coalesced`. -/
def addLoop : ℕ → ℕ → Option (LmbRegion × ℕ × ℤ)
  | 0, i => some (rgn, i, 0)
  | n + 1, i =>
    let r := rgn.region i
    if r.base = base ∧ r.size = size then none
    else
      let adjacent := lmbAddrsAdjacent base size r.base r.size
      if adjacent > 0 then some (rgn.set i ⟨sub32 r.base size, u32 (r.size + size)⟩, i, 1)
      else if adjacent < 0 then some (rgn.set i ⟨r.base, u32 (r.size + size)⟩, i, 1)
      else addLoop n (i + 1)

/-- The second loop, from the entry below `n` downwards. -/
def insertLoop : ℕ → LmbRegion → LmbRegion
  | 0, rgn => rgn
  | i + 1, rgn =>
    if base < (rgn.region i).base then insertLoop i (rgn.set (i + 1) (rgn.region i))
    else rgn.set (i + 1) ⟨base, size⟩

def lmbInsert : LmbRegion :=
  let rgn := insertLoop base size rgn.cnt rgn
  let rgn := if base < (rgn.region 0).base then rgn.set 0 ⟨base, size⟩ else rgn
  { rgn with cnt := rgn.cnt + 1 }

def lmbAddRegion : Option (ℤ × LmbRegion) :=
  if rgn.cnt = 1 ∧ (rgn.region 0).size = 0 then some (0, rgn.set 0 ⟨base, size⟩)
  else
    match addLoop rgn base size rgn.cnt 0 with
    | none => some (0, rgn)
    | some (rgn, i, coalesced) =>
      if i < sub32 rgn.cnt 1 ∧ lmbRegionsAdjacent rgn i (i + 1) ≠ 0 then
        (lmbCoalesceRegions rgn i (i + 1)).map fun rgn => (coalesced + 1, rgn)
      else if coalesced ≠ 0 then some (coalesced, rgn)
      else if rgn.cnt ≥ MAX_LMB_REGIONS then some (-1, rgn)
      else some (0, lmbInsert rgn base size)

/-- The region that `[base, stop)` belongs to, among `n` from `i` on. -/
def freeLoop (stop : ℕ) : ℕ → ℕ → Option ℕ
  | 0, _ => none
  | n + 1, i =>
    let r := rgn.region i
    if r.base ≤ base ∧ stop ≤ u32 (r.base + r.size) then some i else freeLoop stop n (i + 1)

/-- `lmb_free` on the table of reserved regions -/
def lmbFreeRegion : Option (ℤ × LmbRegion) :=
  let stop := u32 (base + size)
  match freeLoop rgn base stop rgn.cnt 0 with
  | none => some (-1, rgn)
  | some i =>
    let r := rgn.region i
    let rgnend := u32 (r.base + r.size)
    if r.base = base ∧ rgnend = stop then (lmbRemoveRegion rgn i).map fun rgn => (0, rgn)
    else if r.base = base then some (0, rgn.set i ⟨stop, sub32 r.size size⟩)
    else if rgnend = stop then some (0, rgn.set i ⟨r.base, sub32 r.size size⟩)
    else lmbAddRegion (rgn.set i ⟨r.base, sub32 base r.base⟩) stop (sub32 rgnend stop)

/-- `lmb_overlaps_region`, over `n` entries from `i` on -/
def overlapsLoop : ℕ → ℕ → Option ℕ
  | 0, _ => none
  | n + 1, i =>
    let r := rgn.region i
    if lmbAddrsOverlap base size r.base r.size then some i else overlapsLoop n (i + 1)

def lmbOverlapsRegion : Option ℕ := overlapsLoop rgn base size rgn.cnt 0

end Table

section Lmb

variable (lmb : Lmb)

def lmbAdd (base size : ℕ) : Option (ℤ × Lmb) :=
  (lmbAddRegion lmb.memory base size).map fun r => (r.1, { lmb with memory := r.2 })

def lmbReserve (base size : ℕ) : Option (ℤ × Lmb) :=
  (lmbAddRegion lmb.reserved base size).map fun r => (r.1, { lmb with reserved := r.2 })

def lmbFree (base size : ℕ) : Option (ℤ × Lmb) :=
  (lmbFreeRegion lmb.reserved base size).map fun r => (r.1, { lmb with reserved := r.2 })

def lmbAlignDown (addr size : ℕ) : ℕ := andNot addr (sub32 size 1)

def lmbAlignUp (addr size : ℕ) : ℕ := andNot (u32 (addr + sub32 size 1)) (sub32 size 1)

variable (size align maxAddr : ℕ)

/-- The search down one memory region from `base` on: the block that is free, if there is one. -/
def allocWhile (lmbbase : ℕ) : ℕ → ℕ → Option (Option ℕ)
  | 0, _ => none
  | n + 1, base =>
    if base ≠ 0 ∧ lmbbase ≤ base then
      match lmbOverlapsRegion lmb.reserved base size with
      | none => some (some base)
      | some j =>
        let resBase := (lmb.reserved.region j).base
        if resBase < size then some none
        else allocWhile lmbbase n (lmbAlignDown (sub32 resBase size) align)
    else some none

/-- Where the search in a memory region begins, if it is searched. -/
def allocStart (r : LmbProperty) : Option ℕ :=
  if r.size < size then none
  else if maxAddr = LMB_ALLOC_ANYWHERE then
    some (lmbAlignDown (sub32 (u32 (r.base + r.size)) size) align)
  else if r.base < maxAddr then
    some (lmbAlignDown (sub32 (min (u32 (r.base + r.size)) maxAddr) size) align)
  else none

/-- The memory regions from the one below `n` downwards. -/
def allocLoop : ℕ → Option (ℕ × Lmb)
  | 0 => some (0, lmb)
  | i + 1 =>
    let r := lmb.memory.region i
    match allocStart size align maxAddr r with
    | none => allocLoop i
    | some base =>
      match allocWhile lmb size align r.base (base + 1) base with
      | none => none
      | some none => allocLoop i
      | some (some base) =>
        match lmbAddRegion lmb.reserved base (lmbAlignUp size align) with
        | none => none
        | some (rc, rgn) => some (if rc < 0 then 0 else base, { lmb with reserved := rgn })

/-- `__lmb_alloc_base` -/
def lmbAllocBase : Option (ℕ × Lmb) := allocLoop lmb size align maxAddr lmb.memory.cnt

end Lmb

end InfotmUboot
