import InfotmUboot.Yaffs
import Mathlib.Data.List.Forall2

/-!
# What `yaffs_conv` puts out

The conversion as a list of calls of `put_page`, and what the pages handed over denote: the objects
of the stream, their data pages merged by `iodiv`. The group that the end of the stream leaves
behind is put out as its first page says, so the last object comes out right only if no such group
is left or that page says all (`yaffs_conv_objects`).
-/

namespace InfotmUboot

open Lib

/-- What the rounds of the conversion work on. -/
structure ConvState where
  buf : Mem
  p : ℕ
  sub : ℕ
  bytes : ℕ

section Calls

variable (conv : YaffsConvInfo)

/-- A round as the calls of `put_page` it makes, each with the buffer and the address of its
page. -/
def convRound (c : ConvState) : List (Mem × ℕ) × ConvState :=
  if conv.im = conv.om then ([(c.buf, c.p)], c)
  else if chunkId c.buf (c.p + conv.im) = 0 then
    if c.sub ≠ 0 then
      let buf := pageFit conv c.buf (some 0) (some c.p)
      let buf := setChunkId buf conv.om (chunkNo conv buf conv.om)
      let buf := setByteCount buf conv.om c.bytes
      ([(buf, 0), (buf, c.p)], ⟨buf, 0, 0, 0⟩)
    else
      let buf := pageFit conv c.buf (some c.p) none
      ([(buf, c.p)], { c with buf })
  else
    let buf := if c.sub = 0 then pageFit conv c.buf none (some 0) else c.buf
    let tag := c.p + conv.im
    if c.sub + 1 = conv.iodiv then
      let buf := setChunkId buf tag (chunkNo conv buf tag)
      let buf := setByteCount buf tag (u32 (byteCount buf tag + c.bytes))
      ([(buf, 0)], ⟨buf, 0, 0, 0⟩)
    else ([], ⟨buf, c.p + conv.im, c.sub + 1, u32 (c.bytes + byteCount buf tag)⟩)

def convRun : List (List UInt8) → ConvState → List (Mem × ℕ) × ConvState
  | [], c => ([], c)
  | page :: pages, c =>
    let r := convRound conv { c with buf := c.buf.store c.p page }
    let r' := convRun pages r.2
    (r.1 ++ r'.1, r'.2)

/-- The pages that are left when the stream ends. -/
def convLast (c : ConvState) : List (Mem × ℕ) :=
  if c.sub ≠ 0 then [(pageFit conv c.buf (some 0) (some c.p), 0)] else []

def putCalls (pages : List (List UInt8)) (buf : Mem) : List (Mem × ℕ) :=
  let r := convRun conv pages ⟨buf, 0, 0, 0⟩
  r.1 ++ convLast conv r.2

variable (B : Board)

def yaffsPuts : List (Mem × ℕ) → YaffsPos → Strat YaffsPos
  | [], pos => pure pos
  | (buf, a) :: calls, pos => do
    let (_, pos) ← yaffsPutPage B buf a pos
    yaffsPuts calls pos

/-- A stream as the source of its pages. -/
def nextPage : List (List UInt8) → Mem → ℕ → Strat (ℤ × Mem × List (List UInt8))
  | [], buf, _ => pure (-1, buf, [])
  | page :: pages, buf, a => pure (0, buf.store a page, pages)

def ConvState.at {γ : Type} (c : ConvState) (pos : YaffsPos) (src : γ) : YaffsState γ :=
  ⟨c.buf, c.p, c.sub, c.bytes, pos, src⟩

theorem yaffsPuts_append : ∀ (as bs : List (Mem × ℕ)) (pos : YaffsPos),
    yaffsPuts B (as ++ bs) pos = yaffsPuts B as pos >>= yaffsPuts B bs
  | [], bs, pos => by
    rw [List.nil_append, yaffsPuts, pure_bind]
  | (buf, a) :: as, bs, pos => by
    rw [List.cons_append, yaffsPuts, yaffsPuts, bind_assoc]
    exact congrArg _ (funext fun r => yaffsPuts_append as bs r.2)

theorem yaffsRound_calls {γ : Type} (c : ConvState) (pos : YaffsPos) (src : γ) :
    yaffsRound B conv (c.at pos src) =
      yaffsPuts B (convRound conv c).1 pos >>= fun pos' =>
        pure ((convRound conv c).2.at pos' src) := by
  rw [yaffsRound, convRound]
  change (if conv.im = conv.om then _ else if chunkId c.buf (c.p + conv.im) = 0 then
    if c.sub ≠ 0 then _ else _ else _) = _
  by_cases hone : conv.im = conv.om
  · simp only [if_pos hone, yaffsPut, yaffsPuts, bind_assoc, pure_bind]
    rfl
  · by_cases hheader : chunkId c.buf (c.p + conv.im) = 0
    · by_cases hsub : c.sub ≠ 0
      · simp only [if_neg hone, if_pos hheader, if_pos hsub, yaffsPut, yaffsPuts, bind_assoc,
          pure_bind]
        rfl
      · simp only [if_neg hone, if_pos hheader, if_neg hsub, yaffsPut, yaffsPuts, bind_assoc,
          pure_bind]
        rfl
    · simp only [if_neg hone, if_neg hheader]
      by_cases hfull : c.sub + 1 = conv.iodiv
      · have hfull' : (c.at pos src).sub + 1 = conv.iodiv := hfull
        simp only [if_pos hfull, if_pos hfull', yaffsPut, yaffsPuts, bind_assoc, pure_bind]
        rfl
      · have hfull' : ¬(c.at pos src).sub + 1 = conv.iodiv := hfull
        simp only [if_neg hfull, if_neg hfull', yaffsPuts, pure_bind]
        rfl

/-- The loop over a stream makes the calls of its rounds. -/
theorem yaffsConvLoop_calls : ∀ (pages : List (List UInt8)) {n : ℕ} (c : ConvState)
    (pos : YaffsPos),
    pages.length < n →
    yaffsConvLoop B conv nextPage n (c.at pos pages) =
      yaffsPuts B (convRun conv pages c).1 pos >>= fun pos' =>
        pure (some ((convRun conv pages c).2.at pos' []))
  | _, 0, _, _, hn => absurd hn (Nat.not_lt_zero _)
  | [], n + 1, c, pos, _ => rfl
  | page :: pages, n + 1, c, pos, hn => by
    have hround := yaffsRound_calls conv B { c with buf := c.buf.store c.p page } pos pages
    have hloop := fun c' pos' =>
      yaffsConvLoop_calls pages (n := n) c' pos' (Nat.lt_of_succ_lt_succ hn)
    rw [yaffsConvLoop]
    change (yaffsRound B conv (ConvState.at { c with buf := c.buf.store c.p page } pos pages) >>=
      fun s' => yaffsConvLoop B conv nextPage n s') = _
    simp only [hround, bind_assoc, pure_bind, hloop, convRun, yaffsPuts_append]

theorem yaffsConv_calls (pages : List (List UInt8)) (buf : Mem) {fuel : ℕ} (pos : YaffsPos)
    (hfuel : pages.length < fuel) :
    yaffsConv B conv nextPage fuel ⟨buf, 0, 0, 0, pos, pages⟩ =
      yaffsPuts B (putCalls conv pages buf) pos >>= fun _ => pure (some 0) := by
  have hloop := yaffsConvLoop_calls conv B pages ⟨buf, 0, 0, 0⟩ pos hfuel
  rw [yaffsConv]
  change (yaffsConvLoop B conv nextPage fuel (ConvState.at ⟨buf, 0, 0, 0⟩ pos pages) >>= _) = _
  rw [hloop, putCalls, yaffsPuts_append]
  simp only [bind_assoc, pure_bind]
  refine congrArg _ (funext fun pos' => ?_)
  rw [convLast]
  change (if (convRun conv pages ⟨buf, 0, 0, 0⟩).2.sub ≠ 0 then _ else _) = _
  split_ifs with hsub
  · simp only [yaffsPut, yaffsPuts, bind_assoc, pure_bind]
    rfl
  · rfl

end Calls

section Tag

/-- The tag of a page. -/
structure YaffsTag where
  sequenceNumber : ℕ
  objectId : ℕ
  chunkId : ℕ
  byteCount : ℕ

def YaffsTag.bytes (t : YaffsTag) : List UInt8 :=
  bytes32 t.sequenceNumber ++ bytes32 t.objectId ++ bytes32 t.chunkId ++ bytes32 t.byteCount

def tagAt (m : Mem) (x : ℕ) : YaffsTag :=
  ⟨m.get32 x, m.get32 (x + 4), chunkId m x, byteCount m x⟩

variable (m : Mem) {a b n x : ℕ} {bs : List UInt8}

theorem load_store_apart (h : a + n ≤ b ∨ b + bs.length ≤ a) :
    (m.store b bs).load a n = m.load a n := by
  refine Mem.load_congr fun i hi => ?_
  rcases h with h | h
  · exact Mem.store_of_lt _ _ (by omega)
  · exact Mem.store_of_ge _ _ (by omega)

theorem get32_store_apart (h : a + 4 ≤ b ∨ b + bs.length ≤ a) :
    (m.store b bs).get32 a = m.get32 a := by
  have hbyte : ∀ i < 4, m.store b bs (a + i) = m (a + i) := by
    intro i hi
    rcases h with h | h
    · exact Mem.store_of_lt _ _ (by omega)
    · exact Mem.store_of_ge _ _ (by omega)
  have h0 := hbyte 0 (by decide)
  rw [Nat.add_zero] at h0
  simp only [Mem.get32, Mem.get16, Nat.add_assoc, Nat.reduceAdd, h0, hbyte 1 (by decide),
    hbyte 2 (by decide), hbyte 3 (by decide)]

theorem tagAt_store_apart (h : x + 16 ≤ b ∨ b + bs.length ≤ x) :
    tagAt (m.store b bs) x = tagAt m x := by
  simp only [tagAt, chunkId, byteCount]
  rw [get32_store_apart m (by omega), get32_store_apart m (by omega),
    get32_store_apart m (by omega), get32_store_apart m (by omega)]

theorem get32_congr {m m' : Mem} {a a' : ℕ} (h : ∀ i < 4, m (a + i) = m' (a' + i)) :
    m.get32 a = m'.get32 a' := by
  have h0 := h 0 (by decide)
  rw [Nat.add_zero, Nat.add_zero] at h0
  simp only [Mem.get32, Mem.get16, Nat.add_assoc, Nat.reduceAdd, h0, h 1 (by decide),
    h 2 (by decide), h 3 (by decide)]

theorem tagAt_memcpy (dst src : ℕ) : tagAt (memcpy m dst src 16) dst = tagAt m src := by
  have hbyte : ∀ k < 13, ∀ i < 4, memcpy m dst src 16 (dst + k + i) = m (src + k + i) := by
    intro k hk i hi
    rw [memcpy, Nat.add_assoc, Mem.store_add m dst _ (by rw [Mem.length_load]; omega),
      Mem.getElem_load, Nat.add_assoc]
  have h0 := get32_congr (hbyte 0 (by decide))
  rw [Nat.add_zero, Nat.add_zero] at h0
  simp only [tagAt, chunkId, byteCount, h0, get32_congr (hbyte 4 (by decide)),
    get32_congr (hbyte 8 (by decide)), get32_congr (hbyte 12 (by decide))]

theorem tagAt_setChunkId (v : ℕ) :
    tagAt (setChunkId m x v) x = { tagAt m x with chunkId := v % 2 ^ 32 } := by
  simp only [tagAt, chunkId, byteCount, setChunkId, Mem.get32_store]
  rw [get32_store_apart m (Or.inl (by omega)), get32_store_apart m (Or.inl (by omega)),
    get32_store_apart m (Or.inr (by rw [length_bytes32]))]

theorem tagAt_setByteCount (v : ℕ) :
    tagAt (setByteCount m x v) x = { tagAt m x with byteCount := v % 2 ^ 32 } := by
  simp only [tagAt, chunkId, byteCount, setByteCount, Mem.get32_store]
  rw [get32_store_apart m (Or.inl (by omega)), get32_store_apart m (Or.inl (by omega)),
    get32_store_apart m (Or.inl (by omega))]

/-- All fields of a tag are words. -/
def YaffsTag.Words (t : YaffsTag) : Prop :=
  t.sequenceNumber < 2 ^ 32 ∧ t.objectId < 2 ^ 32 ∧ t.chunkId < 2 ^ 32 ∧ t.byteCount < 2 ^ 32

theorem tagAt_store {t : YaffsTag} (ht : t.Words) : tagAt (m.store x t.bytes) x = t := by
  obtain ⟨h1, h2, h3, h4⟩ := ht
  rw [YaffsTag.bytes, Mem.store_append, Mem.store_append, Mem.store_append]
  simp only [List.length_append, length_bytes32, Nat.reduceAdd, tagAt, chunkId, byteCount]
  rw [get32_store_apart _ (Or.inl (by omega)), get32_store_apart _ (Or.inl (by omega)),
    get32_store_apart _ (Or.inl (by omega)), Mem.get32_store,
    get32_store_apart _ (Or.inl (by omega)), get32_store_apart _ (Or.inl (by omega)),
    Mem.get32_store, get32_store_apart _ (Or.inl (by omega)), Mem.get32_store, Mem.get32_store,
    Nat.mod_eq_of_lt h1, Nat.mod_eq_of_lt h2, Nat.mod_eq_of_lt h3, Nat.mod_eq_of_lt h4]

end Tag

section Objects

/-- A data page of an object: its main bytes, of which `byteCount` count. -/
structure DataPage where
  main : List UInt8
  sequenceNumber : ℕ
  byteCount : ℕ
  length_main : main.length = 2048
  sequence_lt : sequenceNumber < 2 ^ 32
  count_le : byteCount ≤ 2048

def DataPage.tag (d : DataPage) (objectId n : ℕ) : YaffsTag :=
  ⟨d.sequenceNumber, objectId, n, d.byteCount⟩

def DataPage.page (d : DataPage) (objectId n : ℕ) : List UInt8 := d.main ++ (d.tag objectId n).bytes

/-- An object of a legal stream: its header page and its data pages, all full up to the last one. -/
structure YaffsObject where
  objectId : ℕ
  header : List UInt8
  sequenceNumber : ℕ
  byteCount : ℕ
  data : List DataPage
  object_lt : objectId < 2 ^ 32
  length_header : header.length = 2048
  sequence_lt : sequenceNumber < 2 ^ 32
  count_lt : byteCount < 2 ^ 32
  data_lt : data.length < 2 ^ 32
  full : ∀ d ∈ data.dropLast, d.byteCount = 2048

def YaffsObject.tag (o : YaffsObject) : YaffsTag := ⟨o.sequenceNumber, o.objectId, 0, o.byteCount⟩

/-- The data pages of an object, numbered from 1. -/
def YaffsObject.dataPages (o : YaffsObject) : List (List UInt8) :=
  o.data.mapIdx fun i d => d.page o.objectId (i + 1)

/-- The pages of an object in the stream. -/
def YaffsObject.pages (o : YaffsObject) : List (List UInt8) :=
  (o.header ++ o.tag.bytes) :: o.dataPages

def yaffsStream (objs : List YaffsObject) : List (List UInt8) := objs.flatMap YaffsObject.pages

/-- What a page denotes. -/
structure PageView where
  objectId : ℕ
  chunkId : ℕ
  byteCount : ℕ
  data : List UInt8

/-- The page at `a` of the pages put out. -/
def pageView (conv : YaffsConvInfo) (m : Mem) (a : ℕ) : PageView :=
  let t := tagAt m (a + conv.om)
  ⟨t.objectId, t.chunkId, t.byteCount,
    (m.load a conv.om).take (if t.chunkId = 0 then 2048 else t.byteCount)⟩

/-- The bytes of some data pages. -/
def groupData (group : List DataPage) : List UInt8 := group.flatMap fun d => d.main.take d.byteCount

def groupCount (group : List DataPage) : ℕ := (group.map DataPage.byteCount).sum

/-- A group of data pages as the `n`th page of an object. -/
def groupView (objectId n : ℕ) (group : List DataPage) : PageView :=
  ⟨objectId, n, groupCount group, groupData group⟩

def YaffsObject.headerView (o : YaffsObject) : PageView := ⟨o.objectId, 0, o.byteCount, o.header⟩

/-- Group `g` of an object's data pages. -/
def YaffsObject.group (o : YaffsObject) (k g : ℕ) : List DataPage := (o.data.drop (g * k)).take k

/-- The first `n` groups of an object. -/
def YaffsObject.groupViews (o : YaffsObject) (k n : ℕ) : List PageView :=
  (List.range n).map fun g => groupView o.objectId (g + 1) (o.group k g)

/-- What an object comes to in pages that hold `k` of its data pages: the header, and the groups
with the numbers 1, 2, 3, … -/
def YaffsObject.merged (o : YaffsObject) (k : ℕ) : List PageView :=
  o.headerView :: o.groupViews k ((o.data.length + (k - 1)) / k)

/-- The sizes are those of 2K pages that are merged into pages of `iodiv` of them, with a spare that
holds a tag. -/
structure YaffsConvInfo.Sized (conv : YaffsConvInfo) : Prop where
  im : conv.im = 2048
  is : conv.is = 16
  om : conv.om = conv.iodiv * 2048
  oo : conv.oo = conv.om + conv.os
  iodiv_pos : 1 ≤ conv.iodiv
  tag_le : 16 ≤ conv.os
  spare_le : conv.os + 16 ≤ 2048
  om_lt : conv.om < 2 ^ 31

theorem length_tag (t : YaffsTag) : t.bytes.length = 16 := rfl

theorem length_page (d : DataPage) (objectId n : ℕ) : (d.page objectId n).length = 2064 := by
  rw [DataPage.page, List.length_append, d.length_main, length_tag]

/-- A page in the buffer: its main bytes and its tag. -/
theorem page_load (m : Mem) (p : ℕ) {main : List UInt8} (hmain : main.length = 2048)
    (t : YaffsTag) :
    (m.store p (main ++ t.bytes)).load p 2048 = main := by
  rw [Mem.store_append, load_store_apart _ (Or.inl (by omega))]
  conv_lhs => rw [← hmain]
  exact Mem.load_store_same m p main

theorem page_tag (m : Mem) (p : ℕ) {main : List UInt8} (hmain : main.length = 2048) {t : YaffsTag}
    (ht : t.Words) : tagAt (m.store p (main ++ t.bytes)) (p + 2048) = t := by
  rw [Mem.store_append, hmain]
  exact tagAt_store _ ht

theorem groupCount_le : ∀ group : List DataPage, groupCount group ≤ group.length * 2048
  | [] => le_refl _
  | d :: group => by
    have := groupCount_le group
    have := d.count_le
    simp only [groupCount, List.map_cons, List.sum_cons, List.length_cons] at *
    omega

theorem groupCount_concat (group : List DataPage) (d : DataPage) :
    groupCount (group ++ [d]) = groupCount group + d.byteCount := by
  simp [groupCount]

/-- The bytes that count are the first ones if all pages up to the last one are full. -/
theorem take_groupMain : ∀ {group : List DataPage}, (∀ d ∈ group.dropLast, d.byteCount = 2048) →
    (group.flatMap DataPage.main).take (groupCount group) = groupData group
  | [], _ => rfl
  | [d], _ => by simp [groupCount, groupData]
  | d :: d' :: group, h => by
    have hd : d.byteCount = d.main.length := by
      rw [d.length_main]
      exact h d List.mem_cons_self
    have ih : _ = groupData (d' :: group) :=
      take_groupMain fun x hx => h x (List.mem_cons_of_mem _ hx)
    have hmain : (d :: d' :: group).flatMap DataPage.main =
        d.main ++ (d' :: group).flatMap DataPage.main := rfl
    have hdata : groupData (d :: d' :: group) =
        d.main.take d.byteCount ++ groupData (d' :: group) := rfl
    have hcount : groupCount (d :: d' :: group) = d.main.length + groupCount (d' :: group) := by
      rw [← hd]
      rfl
    rw [hmain, hdata, hcount, ← ih, List.take_length_add_append, hd, List.take_length]

end Objects

section Rounds

variable {conv : YaffsConvInfo} (hconv : conv.Sized)

/-- A group of data pages of an object waits in the buffer, `first` the number of its first page. -/
structure Waiting (conv : YaffsConvInfo) (objectId first : ℕ) (group : List DataPage)
    (c : ConvState) : Prop where
  p : c.p = group.length * 2048
  sub : c.sub = group.length
  bytes : c.bytes = groupCount group
  main : c.buf.load 0 (group.length * 2048) = group.flatMap DataPage.main
  tag : ∀ d, group.head? = some d → tagAt c.buf conv.oo = d.tag objectId first

theorem waiting_none (objectId first : ℕ) (buf : Mem) : Waiting conv objectId first []
    ⟨buf, 0, 0, 0⟩ :=
  ⟨rfl, rfl, rfl, rfl, fun _ h => absurd h nofun⟩

variable {objectId first : ℕ} {group : List DataPage} {c : ConvState}

def views (conv : YaffsConvInfo) (calls : List (Mem × ℕ)) : List PageView :=
  calls.map fun r => pageView conv r.1 r.2

/-- The buffer with the next data page of the group in it. -/
structure Gathered (conv : YaffsConvInfo) (objectId first : ℕ) (group : List DataPage)
    (d : DataPage)
    (p : ℕ) (buf : Mem) : Prop where
  main : buf.load 0 ((group ++ [d]).length * 2048) = (group ++ [d]).flatMap DataPage.main
  last : tagAt buf (p + conv.im) = d.tag objectId (first + group.length)
  tag : ∀ d', (group ++ [d]).head? = some d' → tagAt buf conv.oo = d'.tag objectId first

include hconv

theorem Waiting.gather (hw : Waiting conv objectId first group c) (d : DataPage)
    (hobject : objectId < 2 ^ 32) (hn : first + group.length < 2 ^ 32)
    (hlt : group.length < conv.iodiv) :
    let buf := c.buf.store c.p (d.page objectId (first + group.length))
    Gathered conv objectId first group d c.p
      (if c.sub = 0 then pageFit conv buf none (some 0) else buf) := by
  intro buf
  have hom := hconv.om
  have hoo := hconv.oo
  have hos := hconv.tag_le
  have hp := hw.p
  have hroom : group.length * 2048 + 2048 ≤ conv.om := by omega
  have hwords : (d.tag objectId (first + group.length)).Words :=
    ⟨d.sequence_lt, hobject, hn, lt_of_le_of_lt d.count_le (by decide)⟩
  have hlen := length_page d objectId (first + group.length)
  have hnew : buf.load c.p 2048 = d.main := page_load c.buf c.p d.length_main _
  have hmain : buf.load 0 ((group ++ [d]).length * 2048) =
      (group ++ [d]).flatMap DataPage.main := by
    rw [List.length_append, List.length_singleton, Nat.succ_mul, Mem.load_add, List.flatMap_append,
      load_store_apart c.buf (Or.inl (by omega)), hw.main, Nat.zero_add, ← hp,
      hnew, List.flatMap_singleton]
  have hlast : tagAt buf (c.p + 2048) = d.tag objectId (first + group.length) :=
    page_tag c.buf c.p d.length_main hwords
  rw [← hconv.im] at hlast
  by_cases hg : group = []
  · have hnil : group.length = 0 := List.length_eq_zero_iff.2 hg
    have hsub : c.sub = 0 := hw.sub.trans hnil
    have hspare : (buf.load (0 + conv.im) conv.is).length = 16 := by
      rw [Mem.length_load, hconv.is]
    rw [if_pos hsub, pageFit, memcpy]
    refine ⟨?_, ?_, fun d' hd' => ?_⟩
    · refine (load_store_apart buf (Or.inl ?_)).trans hmain
      rw [List.length_append, List.length_singleton, hnil]
      omega
    · rw [tagAt_store_apart buf (Or.inl (by rw [hconv.im]; omega))]
      exact hlast
    · rw [hg] at hd'
      obtain rfl := Option.some.inj hd'
      rw [hp, hnil] at hlast
      rw [Nat.zero_add, hconv.is, ← memcpy, tagAt_memcpy]
      rw [Nat.zero_mul] at hlast
      exact hlast
  · have hpos := List.length_pos_of_ne_nil hg
    have hsub : c.sub ≠ 0 := by
      rw [hw.sub]
      omega
    rw [if_neg hsub]
    refine ⟨hmain, hlast, fun d' hd' => ?_⟩
    rw [List.head?_append_of_ne_nil _ hg] at hd'
    rw [tagAt_store_apart c.buf (Or.inr (by omega))]
    exact hw.tag d' hd'

theorem im_ne_om (hmany : 2 ≤ conv.iodiv) : conv.im ≠ conv.om := by
  have him := hconv.im
  have hom := hconv.om
  omega

omit hconv in
/-- The number of the group that a page is in. -/
theorem chunkNo_eq (conv : YaffsConvInfo) {m : Mem} {x n : ℕ} (hx : chunkId m x = n) (hpos : 0 < n)
    (hn : n < 2 ^ 32) :
    chunkNo conv m x % 2 ^ 32 = (n - 1) / conv.iodiv + 1 := by
  have hle : (n - 1) / conv.iodiv ≤ n - 1 := Nat.div_le_self _ _
  have hword : u32 (n + (2 ^ 32 - 1)) = n - 1 := by
    rw [u32]
    omega
  rw [chunkNo]
  change (u32 (chunkId m x + (2 ^ 32 - 1)) / conv.iodiv + 1) % 2 ^ 32 = _
  rw [hx, hword]
  exact Nat.mod_eq_of_lt (by omega)

/-- A round with a data page: it is the group's, and the group goes out if it is full. -/
theorem Waiting.round (hw : Waiting conv objectId first group c) (d : DataPage)
    (hobject : objectId < 2 ^ 32) (hpos : 0 < first) (hn : first + group.length < 2 ^ 32)
    (hmany : 2 ≤ conv.iodiv) (hlt : group.length < conv.iodiv) :
    ∃ buf, Gathered conv objectId first group d c.p buf ∧
      convRound conv { c with buf := c.buf.store c.p (d.page objectId (first + group.length)) } =
        let tag := c.p + conv.im
        if c.sub + 1 = conv.iodiv then
          let buf := setChunkId buf tag (chunkNo conv buf tag)
          let buf := setByteCount buf tag (u32 (byteCount buf tag + c.bytes))
          ([(buf, 0)], ⟨buf, 0, 0, 0⟩)
        else ([], ⟨buf, c.p + conv.im, c.sub + 1, u32 (c.bytes + byteCount buf tag)⟩) := by
  refine ⟨_, hw.gather hconv d hobject hn hlt, ?_⟩
  have hwords : (d.tag objectId (first + group.length)).Words :=
    ⟨d.sequence_lt, hobject, hn, lt_of_le_of_lt d.count_le (by decide)⟩
  have hchunk : chunkId (c.buf.store c.p (d.page objectId (first + group.length)))
      (c.p + conv.im) = first + group.length := by
    rw [hconv.im]
    exact congrArg YaffsTag.chunkId (page_tag c.buf c.p d.length_main hwords)
  rw [convRound, if_neg (im_ne_om hconv hmany), if_neg (by rw [hchunk]; omega)]

/-- A data page that does not fill the group joins it. -/
theorem Waiting.joins (hw : Waiting conv objectId first group c) (d : DataPage)
    (hobject : objectId < 2 ^ 32) (hpos : 0 < first) (hn : first + group.length < 2 ^ 32)
    (hmany : 2 ≤ conv.iodiv) (hlt : group.length + 1 < conv.iodiv) :
    let r := convRound conv
      { c with buf := c.buf.store c.p (d.page objectId (first + group.length)) }
    r.1 = [] ∧ Waiting conv objectId first (group ++ [d]) r.2 := by
  obtain ⟨buf, hg, hr⟩ := hw.round hconv d hobject hpos hn hmany (by omega)
  have hfull : c.sub + 1 ≠ conv.iodiv := by
    rw [hw.sub]
    omega
  have hle := groupCount_le (group ++ [d])
  have hom := hconv.om
  have hlim := hconv.om_lt
  rw [groupCount_concat, List.length_append, List.length_singleton] at hle
  have hcount : byteCount buf (c.p + conv.im) = d.byteCount := congrArg YaffsTag.byteCount hg.last
  intro r
  rw [show r = _ from hr]
  simp only [if_neg hfull, hcount]
  refine ⟨trivial, ?_, ?_, ?_, hg.main, hg.tag⟩
  · rw [List.length_append, List.length_singleton, Nat.succ_mul, ← hw.p, hconv.im]
  · rw [List.length_append, List.length_singleton, hw.sub]
  · dsimp only
    rw [hw.bytes, groupCount_concat, u32]
    exact Nat.mod_eq_of_lt (by omega)

/-- What a page with the group's bytes shows, given its tag. -/
theorem pageView_group {m : Mem} {group : List DataPage} {t : YaffsTag}
    (htag : tagAt m conv.om = t) (hle : group.length ≤ conv.iodiv)
    (hmain : m.load 0 (group.length * 2048) = group.flatMap DataPage.main)
    (hchunk : t.chunkId ≠ 0) (hcount : t.byteCount ≤ group.length * 2048) :
    pageView conv m 0 = ⟨t.objectId, t.chunkId, t.byteCount,
      (group.flatMap DataPage.main).take t.byteCount⟩ := by
  have hom := hconv.om
  have hroom : group.length * 2048 ≤ conv.om := by
    rw [hom]
    exact Nat.mul_le_mul_right _ hle
  rw [pageView, Nat.zero_add, htag, if_neg hchunk, ← hmain, Mem.take_load _ _ (by omega),
    Mem.take_load _ _ hcount]

/-- The data page that fills the group puts it out. -/
theorem Waiting.fills (hw : Waiting conv objectId first group c) (d : DataPage)
    (hobject : objectId < 2 ^ 32) (hpos : 0 < first) (hn : first + group.length < 2 ^ 32)
    (hmany : 2 ≤ conv.iodiv) (hlen : group.length + 1 = conv.iodiv)
    (hfull : ∀ x ∈ group, x.byteCount = 2048) (next : ℕ) :
    let r := convRound conv
      { c with buf := c.buf.store c.p (d.page objectId (first + group.length)) }
    views conv r.1 =
        [groupView objectId ((first + group.length - 1) / conv.iodiv + 1) (group ++ [d])] ∧
      Waiting conv objectId next [] r.2 := by
  obtain ⟨buf, hg, hr⟩ := hw.round hconv d hobject hpos hn hmany (by omega)
  have hsub : c.sub + 1 = conv.iodiv := by
    rw [hw.sub]
    omega
  have hle := groupCount_le (group ++ [d])
  have hom := hconv.om
  have hlim := hconv.om_lt
  have htag : c.p + conv.im = conv.om := by
    rw [hw.p, hconv.im, hom, ← hlen, Nat.succ_mul]
  have hlast := hg.last
  rw [groupCount_concat, List.length_append, List.length_singleton] at hle
  intro r
  rw [show r = _ from hr]
  simp only [if_pos hsub]
  rw [htag] at hlast ⊢
  have hno := chunkNo_eq conv (congrArg YaffsTag.chunkId hlast) (by
    change 0 < first + group.length
    omega) hn
  set buf1 := setChunkId buf conv.om (chunkNo conv buf conv.om) with hbuf1
  have htag1 : tagAt buf1 conv.om =
      { d.tag objectId (first + group.length) with
        chunkId := (first + group.length - 1) / conv.iodiv + 1 } := by
    rw [hbuf1, tagAt_setChunkId, hlast, hno]
    rfl
  have hcount : byteCount buf1 conv.om = d.byteCount := congrArg YaffsTag.byteCount htag1
  have hsum : u32 (byteCount buf1 conv.om + c.bytes) = groupCount (group ++ [d]) := by
    rw [hcount, hw.bytes, groupCount_concat, u32, Nat.mod_eq_of_lt (by omega), Nat.add_comm]
  rw [hsum]
  set buf2 := setByteCount buf1 conv.om (groupCount (group ++ [d])) with hbuf2
  have htag2 : tagAt buf2 conv.om = ⟨d.sequenceNumber, objectId,
      (first + group.length - 1) / conv.iodiv + 1, groupCount (group ++ [d])⟩ := by
    rw [hbuf2, tagAt_setByteCount, htag1, groupCount_concat, Nat.mod_eq_of_lt (by omega)]
    rfl
  have hsize : (group ++ [d]).length = conv.iodiv := by
    rw [List.length_append, List.length_singleton, hlen]
  have hmain : buf2.load 0 ((group ++ [d]).length * 2048) =
      (group ++ [d]).flatMap DataPage.main := by
    rw [hbuf2, setByteCount, load_store_apart _ (Or.inl (by rw [hsize]; omega)), hbuf1, setChunkId,
      load_store_apart _ (Or.inl (by rw [hsize]; omega))]
    exact hg.main
  refine ⟨?_, waiting_none _ _ _⟩
  rw [views, List.map_singleton, pageView_group hconv htag2 hsize.le hmain (Nat.succ_ne_zero _)
    (groupCount_le _), take_groupMain (by rwa [List.dropLast_concat])]
  rfl

/-- The tag of a waiting group goes behind its pages. -/
theorem Waiting.fit (hw : Waiting conv objectId first group c) {d : DataPage}
    (hd : group.head? = some d) (hlt : group.length < conv.iodiv) {page : List UInt8}
    (hpage : page.length = 2064) :
    let buf := c.buf.store c.p page
    let m := pageFit conv buf (some 0) (some c.p)
    tagAt m conv.om = d.tag objectId first ∧
      m.load 0 (group.length * 2048) = group.flatMap DataPage.main ∧
      m.load c.p 2048 = buf.load c.p 2048 ∧ tagAt m (c.p + conv.om) =
        tagAt buf (c.p + conv.im) := by
  intro buf m
  have hom := hconv.om
  have hoo := hconv.oo
  have hos := hconv.tag_le
  have hspare := hconv.spare_le
  have hp := hw.p
  have hpos : 0 < group.length := by
    rcases group with _ | ⟨x, xs⟩
    · exact absurd hd nofun
    · exact Nat.succ_pos _
  have hroom : group.length * 2048 + 2048 ≤ conv.om := by omega
  have hlen (m' : Mem) (a : ℕ) : (m'.load a conv.is).length = 16 := by
    rw [Mem.length_load, hconv.is]
  have hm : m = memcpy (memcpy buf (c.p + conv.om) (c.p + conv.im) conv.is) conv.om conv.oo
      conv.is := by
    simp only [m, pageFit, Nat.zero_add]
  refine ⟨?_, ?_, ?_, ?_⟩
  · rw [hm, hconv.is, tagAt_memcpy, memcpy, ← hconv.is,
      tagAt_store_apart _ (Or.inl (by omega)), tagAt_store_apart _ (Or.inr (by omega))]
    exact hw.tag d hd
  · rw [hm, memcpy, load_store_apart _ (Or.inl (by omega)), memcpy,
      load_store_apart _ (Or.inl (by omega)), load_store_apart _ (Or.inl (by omega))]
    exact hw.main
  · rw [hm, memcpy, load_store_apart _ (Or.inl (by omega)), memcpy,
      load_store_apart _ (Or.inl (by omega))]
  · rw [hm, memcpy, tagAt_store_apart _ (Or.inr (by rw [hlen]; omega)), hconv.is, tagAt_memcpy]

/-- A header in the buffer, with its tag where the page put out has it. -/
theorem pageView_header (o : YaffsObject) {m : Mem} {p : ℕ} (hmany : 2 ≤ conv.iodiv)
    (hmain : m.load p 2048 = o.header) (htag : tagAt m (p + conv.om) = o.tag) :
    pageView conv m p = o.headerView := by
  have hom := hconv.om
  rw [pageView, htag]
  change PageView.mk o.objectId 0 o.byteCount ((m.load p conv.om).take 2048) = _
  rw [Mem.take_load _ _ (by omega), hmain]
  rfl

omit hconv in
theorem YaffsObject.tag_words (o : YaffsObject) : o.tag.Words :=
  ⟨o.sequence_lt, o.object_lt, by change 0 < _; decide, o.count_lt⟩

/-- The views of a group that goes out when the next header comes. -/
def pending (conv : YaffsConvInfo) (objectId first : ℕ) (group : List DataPage) : List PageView :=
  if group = [] then [] else [groupView objectId ((first - 1) / conv.iodiv + 1) group]

theorem convRound_header (hmany : 2 ≤ conv.iodiv) (hchunk : chunkId c.buf (c.p + conv.im) = 0) :
    convRound conv c =
      if c.sub ≠ 0 then
        let buf := pageFit conv c.buf (some 0) (some c.p)
        let buf := setChunkId buf conv.om (chunkNo conv buf conv.om)
        let buf := setByteCount buf conv.om c.bytes
        ([(buf, 0), (buf, c.p)], ⟨buf, 0, 0, 0⟩)
      else
        let buf := pageFit conv c.buf (some c.p) none
        ([(buf, c.p)], { c with buf }) := by
  rw [convRound, if_neg (im_ne_om hconv hmany), if_pos hchunk]

/-- A header puts out the group that waits and goes out after it. -/
theorem Waiting.header (hw : Waiting conv objectId first group c) (o : YaffsObject)
    (hpos : 0 < first) (hn : first + group.length ≤ 2 ^ 32)
    (hmany : 2 ≤ conv.iodiv) (hlt : group.length < conv.iodiv)
    (hfull : ∀ x ∈ group.dropLast, x.byteCount = 2048) (next : ℕ) :
    let r := convRound conv { c with buf := c.buf.store c.p (o.header ++ o.tag.bytes) }
    views conv r.1 = pending conv objectId first group ++ [o.headerView] ∧
      Waiting conv o.objectId next [] r.2 := by
  have hom := hconv.om
  have hp := hw.p
  have hpage : (o.header ++ o.tag.bytes).length = 2064 := by
    rw [List.length_append, o.length_header, length_tag]
  have hmain := page_load c.buf c.p o.length_header o.tag
  have htag := page_tag c.buf c.p o.length_header o.tag_words
  rw [← hconv.im] at htag
  have hchunk : chunkId (c.buf.store c.p (o.header ++ o.tag.bytes)) (c.p + conv.im) = 0 :=
    congrArg YaffsTag.chunkId htag
  intro r
  by_cases hg : group = []
  · have hsub : ¬c.sub ≠ 0 := by
      rw [hw.sub, hg]
      exact not_not.2 rfl
    have hp0 : c.p = 0 := by
      rw [hp, hg]
      rfl
    rw [show r = _ from convRound_header hconv hmany hchunk, if_neg hsub, pending, if_pos hg]
    refine ⟨?_, ?_⟩
    · rw [views, List.map_singleton, pageView_header hconv o hmany]
      · rfl
      · rw [pageFit, memcpy, load_store_apart _ (Or.inl (by omega))]
        exact hmain
      · rw [pageFit, hconv.is, tagAt_memcpy]
        exact htag
    · have hc : c.sub = 0 := not_not.1 hsub
      have hbytes : c.bytes = 0 := by
        rw [hw.bytes, hg]
        rfl
      rw [hp0, hc, hbytes]
      exact waiting_none _ _ _
  · have hne := List.length_pos_of_ne_nil hg
    obtain ⟨d, hd⟩ : ∃ d, group.head? = some d := by
      rcases group with _ | ⟨d, ds⟩
      · exact absurd rfl hg
      · exact ⟨d, rfl⟩
    have hsub : c.sub ≠ 0 := by
      rw [hw.sub]
      omega
    obtain ⟨hf1, hf2, hf3, hf4⟩ := hw.fit hconv hd hlt hpage
    have hle := groupCount_le group
    have hlim := hconv.om_lt
    rw [show r = _ from convRound_header hconv hmany hchunk, if_pos hsub, pending, if_neg hg]
    dsimp only
    set m := pageFit conv (c.buf.store c.p (o.header ++ o.tag.bytes)) (some 0) (some c.p)
    have hno := chunkNo_eq conv (congrArg YaffsTag.chunkId hf1) hpos (by
      change first < 2 ^ 32
      omega)
    set m1 := setChunkId m conv.om (chunkNo conv m conv.om) with hm1
    set m2 := setByteCount m1 conv.om c.bytes with hm2
    have htag2 : tagAt m2 conv.om =
        ⟨d.sequenceNumber, objectId, (first - 1) / conv.iodiv + 1, groupCount group⟩ := by
      rw [hm2, tagAt_setByteCount, hm1, tagAt_setChunkId, hf1, hno, hw.bytes,
        Nat.mod_eq_of_lt (by omega)]
      rfl
    have hload : ∀ a n, a + n ≤ conv.om → m2.load a n = m.load a n := by
      intro a n han
      rw [hm2, setByteCount, load_store_apart _ (Or.inl (by omega)), hm1, setChunkId,
        load_store_apart _ (Or.inl (by omega))]
    refine ⟨?_, waiting_none _ _ _⟩
    rw [views, List.map_cons, List.map_singleton,
      pageView_group hconv htag2 hlt.le (by rw [hload _ _ (by omega)]; exact hf2)
        (Nat.succ_ne_zero _) hle, take_groupMain hfull, pageView_header hconv o hmany]
    · rfl
    · rw [hload _ _ (by omega), hf3]
      exact hmain
    · rw [hm2, setByteCount, tagAt_store_apart _ (Or.inr (by rw [length_bytes32]; omega)), hm1,
        setChunkId, tagAt_store_apart _ (Or.inr (by rw [length_bytes32]; omega)), hf4]
      exact htag

/-- What the group at the end of the stream goes out as: its first page's tag is left as it is. -/
def lastView (objectId first : ℕ) (group : List DataPage) : List PageView :=
  match group with
  | [] => []
  | d :: _ => [⟨objectId, first, d.byteCount, d.main.take d.byteCount⟩]

theorem Waiting.last (hw : Waiting conv objectId first group c) (hpos : 0 < first)
    (hlt : group.length < conv.iodiv) :
    views conv (convLast conv c) = lastView objectId first group := by
  rcases group with _ | ⟨d, ds⟩
  · have hsub : c.sub = 0 := hw.sub
    rw [convLast, if_neg (not_not.2 hsub)]
    rfl
  · have hsub : c.sub ≠ 0 := by
      rw [hw.sub]
      exact Nat.succ_ne_zero _
    obtain ⟨hf1, hf2, _, _⟩ := hw.fit hconv rfl hlt (Mem.length_load c.buf c.p 2064)
    rw [Mem.store_load_same] at hf1 hf2
    have hcount : d.byteCount ≤ (d :: ds).length * 2048 := by
      have := d.count_le
      rw [List.length_cons]
      omega
    rw [convLast, if_pos hsub, views, List.map_singleton,
      pageView_group hconv hf1 hlt.le hf2 (by change first ≠ 0; omega) hcount]
    change [PageView.mk objectId first d.byteCount
      (((d :: ds).flatMap DataPage.main).take d.byteCount)] = _
    rw [List.flatMap_cons, List.take_append_of_le_length
      (show d.byteCount ≤ d.main.length by rw [d.length_main]; exact d.count_le)]
    rfl

end Rounds

section Runs

variable {conv : YaffsConvInfo}

theorem convRun_append : ∀ (ps qs : List (List UInt8)) (c : ConvState),
    convRun conv (ps ++ qs) c =
      ((convRun conv ps c).1 ++ (convRun conv qs (convRun conv ps c).2).1,
        (convRun conv qs (convRun conv ps c).2).2)
  | [], qs, c => rfl
  | p :: ps, qs, c => by
    simp only [List.cons_append, convRun, convRun_append ps qs, List.append_assoc]

theorem convRun_singleton (p : List UInt8) (c : ConvState) :
    convRun conv [p] c = convRound conv { c with buf := c.buf.store c.p p } := by
  simp only [convRun, List.append_nil]

theorem views_append (as bs : List (Mem × ℕ)) :
    views conv (as ++ bs) = views conv as ++ views conv bs := List.map_append

/-- The data pages of an object that are in no full group yet after `j` of them. -/
def YaffsObject.rest (o : YaffsObject) (k j : ℕ) : List DataPage :=
  (o.data.drop (j / k * k)).take (j % k)

variable (o : YaffsObject) {k j : ℕ}

theorem div_mul_add_mod (j k : ℕ) : j / k * k + j % k = j := by
  rw [Nat.mul_comm, Nat.div_add_mod]

theorem YaffsObject.length_rest (hj : j ≤ o.data.length) : (o.rest k j).length = j % k := by
  have := div_mul_add_mod j k
  rw [YaffsObject.rest, List.length_take, List.length_drop]
  omega

theorem YaffsObject.rest_subset : ∀ d ∈ o.rest k j, d ∈ o.data.take j := by
  intro d hd
  rw [YaffsObject.rest, List.take_drop, div_mul_add_mod] at hd
  exact List.mem_of_mem_drop hd

theorem YaffsObject.rest_concat (hj : j < o.data.length) :
    (o.data.drop (j / k * k)).take (j % k + 1) = o.rest k j ++ [o.data[j]] := by
  have hdm := div_mul_add_mod j k
  rw [List.take_add_one, YaffsObject.rest, List.getElem?_drop, hdm, List.getElem?_eq_getElem hj]
  rfl

/-- All pages before the last one are full. -/
theorem YaffsObject.full_before (hj : j < o.data.length) : ∀ d ∈ o.data.take j, d.byteCount =
    2048 := by
  intro d hd
  refine o.full d ?_
  rw [List.dropLast_eq_take]
  exact List.take_subset_take_left o.data (by omega) hd

theorem YaffsObject.take_dataPages (hj : j < o.data.length) :
    o.dataPages.take (j + 1) = o.dataPages.take j ++ [o.data[j].page o.objectId (j + 1)] := by
  have hlen : j < o.dataPages.length := by rwa [dataPages, List.length_mapIdx]
  rw [List.take_add_one, List.getElem?_eq_getElem hlen, Option.toList_some]
  simp only [dataPages, List.getElem_mapIdx]

theorem YaffsObject.groupViews_succ (k n : ℕ) :
    o.groupViews k (n + 1) = o.groupViews k n ++ [groupView o.objectId (n + 1) (o.group k n)] := by
  rw [groupViews, List.range_succ, List.map_append, List.map_singleton, ← groupViews]

/-- A run over data pages puts out the full groups, and the pages after them wait. -/
theorem run_data (hconv : conv.Sized) (hmany : 2 ≤ conv.iodiv) {c : ConvState}
    (hw : Waiting conv o.objectId 1 [] c) : ∀ {j : ℕ}, j ≤ o.data.length →
    views conv (convRun conv (o.dataPages.take j) c).1 = o.groupViews conv.iodiv (j / conv.iodiv) ∧
      Waiting conv o.objectId (j / conv.iodiv * conv.iodiv + 1) (o.rest conv.iodiv j)
        (convRun conv (o.dataPages.take j) c).2
  | 0, _ => by
    rw [List.take_zero, Nat.zero_div, Nat.zero_mul, YaffsObject.rest, Nat.zero_mod]
    exact ⟨rfl, hw⟩
  | j + 1, hj => by
    obtain ⟨hviews, hwait⟩ := run_data hconv hmany hw (Nat.le_of_succ_le hj)
    have hlen := o.length_rest (k := conv.iodiv) (Nat.le_of_succ_le hj)
    have hdm := div_mul_add_mod j conv.iodiv
    have hmod := Nat.mod_lt j hconv.iodiv_pos
    have hlim := o.data_lt
    have hno : j / conv.iodiv * conv.iodiv + 1 + (o.rest conv.iodiv j).length = j + 1 := by omega
    have hconcat := o.rest_concat (k := conv.iodiv) hj
    rw [o.take_dataPages hj, convRun_append, convRun_singleton]
    by_cases hfull : j % conv.iodiv + 1 = conv.iodiv
    · have hdvd : conv.iodiv ∣ j + 1 := by
        refine ⟨j / conv.iodiv + 1, ?_⟩
        rw [Nat.mul_add, Nat.mul_comm, Nat.mul_one]
        omega
      obtain ⟨h1, h2⟩ := hwait.fills hconv o.data[j] o.object_lt (Nat.succ_pos _) (by omega) hmany
        (by omega) (fun d hd => o.full_before hj d (o.rest_subset d hd))
        ((j + 1) / conv.iodiv * conv.iodiv + 1)
      rw [hno] at h1 h2
      have hsplit : (j + 1) / conv.iodiv = j / conv.iodiv + 1 := by
        rw [Nat.succ_div, if_pos hdvd]
      refine ⟨?_, ?_⟩
      · rw [views_append, hviews, h1, hsplit, o.groupViews_succ, YaffsObject.group,
          ← hconcat, hfull]
        rfl
      · rw [YaffsObject.rest, Nat.mod_eq_zero_of_dvd hdvd, List.take_zero]
        exact h2
    · have hdvd : ¬conv.iodiv ∣ j + 1 := by
        intro hd
        have := Nat.mod_eq_zero_of_dvd hd
        rw [Nat.add_mod, Nat.mod_eq_of_lt hmany, Nat.mod_eq_of_lt (by omega)] at this
        omega
      have hnext : (j + 1) % conv.iodiv = j % conv.iodiv + 1 := by
        rw [Nat.add_mod, Nat.mod_eq_of_lt hmany, Nat.mod_eq_of_lt (by omega)]
      obtain ⟨h1, h2⟩ := hwait.joins hconv o.data[j] o.object_lt (Nat.succ_pos _) (by omega) hmany
        (by omega)
      rw [hno] at h1 h2
      have hsplit : (j + 1) / conv.iodiv = j / conv.iodiv := by
        rw [Nat.succ_div, if_neg hdvd]
        rfl
      refine ⟨?_, ?_⟩
      · rw [views_append, hviews, h1, hsplit]
        exact List.append_nil _
      · rw [YaffsObject.rest, hsplit, hnext, hconcat]
        exact h2

/-- The group that an object leaves in the buffer. -/
def YaffsObject.left (o : YaffsObject) (k : ℕ) : List DataPage := o.rest k o.data.length

/-- The number of the first page of that group. -/
def YaffsObject.leftFirst (o : YaffsObject) (k : ℕ) : ℕ := o.data.length / k * k + 1

theorem YaffsObject.length_left (k : ℕ) : (o.left k).length = o.data.length % k :=
  o.length_rest (le_refl _)

theorem YaffsObject.left_full (k : ℕ) : ∀ d ∈ (o.left k).dropLast, d.byteCount = 2048 := by
  intro d hd
  have hdm := div_mul_add_mod o.data.length k
  rcases Nat.eq_zero_or_pos (o.data.length % k) with h0 | hpos
  · rw [left, rest, h0, List.take_zero] at hd
    exact absurd hd List.not_mem_nil
  · refine o.full d ?_
    rw [left, rest, List.take_drop, hdm, List.take_length, List.dropLast_eq_take, List.length_drop,
      List.take_drop] at hd
    rw [List.dropLast_eq_take]
    exact List.take_subset_take_left o.data (by omega) (List.mem_of_mem_drop hd)

/-- What an object leaves: the header and the full groups are out, the rest waits. -/
theorem run_object (hconv : conv.Sized) (hmany : 2 ≤ conv.iodiv) {c : ConvState}
    {objectId first : ℕ} {group : List DataPage} (hw : Waiting conv objectId first group c)
    (hpos : 0 < first) (hn : first + group.length ≤ 2 ^ 32) (hlt : group.length < conv.iodiv)
    (hfull : ∀ x ∈ group.dropLast, x.byteCount = 2048) :
    views conv (convRun conv o.pages c).1 = pending conv objectId first group ++
        o.headerView :: o.groupViews conv.iodiv (o.data.length / conv.iodiv) ∧
      Waiting conv o.objectId (o.leftFirst conv.iodiv) (o.left conv.iodiv)
        (convRun conv o.pages c).2 := by
  obtain ⟨h1, h2⟩ := hw.header hconv o hpos hn hmany hlt hfull 1
  obtain ⟨h3, h4⟩ := run_data o hconv hmany h2 (le_refl _)
  have hall : o.dataPages.take o.data.length = o.dataPages := by
    rw [List.take_of_length_le]
    rw [YaffsObject.dataPages, List.length_mapIdx]
  rw [hall] at h3 h4
  refine ⟨?_, h4⟩
  rw [YaffsObject.pages, convRun, views_append, h1, h3, List.append_assoc, List.singleton_append]

/-- What comes out after an object's header and full groups, up to the end of the stream. -/
def tailViews (conv : YaffsConvInfo) (objectId first : ℕ) (group : List DataPage) :
    List YaffsObject → List PageView
  | [] => lastView objectId first group
  | o :: objs => pending conv objectId first group ++
      (o.headerView :: o.groupViews conv.iodiv (o.data.length / conv.iodiv)) ++
      tailViews conv o.objectId (o.leftFirst conv.iodiv) (o.left conv.iodiv) objs

theorem run_objects (hconv : conv.Sized) (hmany : 2 ≤ conv.iodiv) :
    ∀ (objs : List YaffsObject) {c : ConvState} {objectId first : ℕ} {group : List DataPage},
      Waiting conv objectId first group c → 0 < first → first + group.length ≤ 2 ^ 32 →
      group.length < conv.iodiv → (∀ x ∈ group.dropLast, x.byteCount = 2048) →
      let r := convRun conv (yaffsStream objs) c
      views conv (r.1 ++ convLast conv r.2) = tailViews conv objectId first group objs
  | [], c, _, _, _, hw, hpos, _, hlt, _ => hw.last hconv hpos hlt
  | o :: objs, c, objectId, first, group, hw, hpos, hn, hlt, hfull => by
    obtain ⟨h1, h2⟩ := run_object o hconv hmany hw hpos hn hlt hfull
    have hdm := div_mul_add_mod o.data.length conv.iodiv
    have hlen := o.length_left conv.iodiv
    have hlim := o.data_lt
    have ih := run_objects hconv hmany objs h2 (Nat.succ_pos _)
      (by rw [hlen, YaffsObject.leftFirst]; omega)
      (by rw [hlen]; exact Nat.mod_lt _ hconv.iodiv_pos) (o.left_full conv.iodiv)
    intro r
    have hr : r = convRun conv (o.pages ++ yaffsStream objs) c := rfl
    rw [hr, convRun_append, List.append_assoc, views_append, h1, ih, tailViews]

/-- The group that is left goes out as it should at the end of the stream only if it is empty, or if
it is all of the object and its first page has all its bytes. -/
def YaffsObject.Fits (o : YaffsObject) (k : ℕ) : Prop :=
  o.data.length % k = 0 ∨
    o.data.length < k ∧ groupCount o.data = (o.data.head?.map DataPage.byteCount).getD 0

theorem lastView_iff (hmany : 2 ≤ conv.iodiv) :
    lastView o.objectId (o.leftFirst conv.iodiv) (o.left conv.iodiv) =
      pending conv o.objectId (o.leftFirst conv.iodiv) (o.left conv.iodiv) ↔ o.Fits conv.iodiv := by
  have hlen := o.length_left conv.iodiv
  have hno : (o.leftFirst conv.iodiv - 1) / conv.iodiv = o.data.length / conv.iodiv := by
    rw [YaffsObject.leftFirst, Nat.add_sub_cancel, Nat.mul_div_cancel _ (by omega)]
  rcases hleft : o.left conv.iodiv with _ | ⟨d, ds⟩
  · rw [hleft] at hlen
    exact iff_of_true rfl (Or.inl hlen.symm)
  · rw [hleft, List.length_cons] at hlen
    rw [pending, if_neg (List.cons_ne_nil _ _), lastView, hno, groupView, ← hleft]
    have hdiv : o.leftFirst conv.iodiv = o.data.length / conv.iodiv + 1 ↔
        o.data.length < conv.iodiv := by
      rw [YaffsObject.leftFirst, Nat.add_right_cancel_iff, ← Nat.div_eq_zero_iff_lt (by omega)]
      constructor
      · intro h
        by_contra hne
        have := Nat.mul_le_mul_left (o.data.length / conv.iodiv) hmany
        omega
      · intro h
        rw [h, Nat.zero_mul]
    have hall : o.data.length < conv.iodiv → o.left conv.iodiv = o.data := by
      intro hlt
      rw [YaffsObject.left, YaffsObject.rest, Nat.div_eq_of_lt hlt, Nat.mod_eq_of_lt hlt,
        Nat.zero_mul, List.drop_zero, List.take_length]
    rw [YaffsObject.Fits, or_iff_right (by omega), List.cons.injEq, PageView.mk.injEq]
    constructor
    · rintro ⟨⟨_, hfirst, hcount, _⟩, _⟩
      have hlt := hdiv.1 hfirst
      rw [hall hlt] at hcount hleft
      refine ⟨hlt, ?_⟩
      rw [← hcount, hleft]
      rfl
    · rintro ⟨hlt, hcount⟩
      have hdata := take_groupMain (o.left_full conv.iodiv)
      rw [hall hlt] at hleft hdata ⊢
      rw [hcount, hleft] at hdata
      change ((d :: ds).flatMap DataPage.main).take d.byteCount = _ at hdata
      rw [List.flatMap_cons,
        List.take_append_of_le_length (by rw [d.length_main]; exact d.count_le)] at hdata
      refine ⟨⟨rfl, hdiv.2 hlt, ?_, ?_⟩, rfl⟩
      · rw [hcount, hleft]
        rfl
      · rw [hdata, hleft]

theorem merged_eq (hpos : 1 ≤ conv.iodiv) :
    o.merged conv.iodiv =
      (o.headerView :: o.groupViews conv.iodiv (o.data.length / conv.iodiv)) ++
        pending conv o.objectId (o.leftFirst conv.iodiv) (o.left conv.iodiv) := by
  have hdm := Nat.div_add_mod o.data.length conv.iodiv
  have hmod := Nat.mod_lt o.data.length hpos
  have hlen := o.length_left conv.iodiv
  rw [YaffsObject.merged, pending, List.cons_append]
  by_cases h0 : o.data.length % conv.iodiv = 0
  · have hround : (o.data.length + (conv.iodiv - 1)) / conv.iodiv = o.data.length / conv.iodiv := by
      refine Nat.div_eq_of_lt_le ?_ ?_
      · rw [Nat.mul_comm]
        omega
      · rw [Nat.add_mul, Nat.mul_comm]
        omega
    rw [hround, if_pos (List.length_eq_zero_iff.1 (hlen.trans h0)), List.append_nil]
  · have hround : (o.data.length + (conv.iodiv - 1)) / conv.iodiv =
        o.data.length / conv.iodiv + 1 := by
      refine Nat.div_eq_of_lt_le ?_ ?_
      · rw [Nat.add_mul, Nat.mul_comm]
        omega
      · rw [Nat.add_mul, Nat.add_mul, Nat.mul_comm]
        omega
    have hgroup : o.group conv.iodiv (o.data.length / conv.iodiv) = o.left conv.iodiv := by
      have hrest : (o.data.drop (o.data.length / conv.iodiv * conv.iodiv)).length =
          o.data.length % conv.iodiv := by
        rw [List.length_drop, Nat.mul_comm]
        omega
      rw [YaffsObject.group, YaffsObject.left, YaffsObject.rest, List.take_of_length_le (by omega),
        List.take_of_length_le (by omega)]
    have hne : o.left conv.iodiv ≠ [] := by
      intro h
      rw [h] at hlen
      exact h0 hlen.symm
    rw [hround, o.groupViews_succ, hgroup, if_neg hne, YaffsObject.leftFirst, Nat.add_sub_cancel,
      Nat.mul_div_cancel _ hpos]

theorem tailViews_iff (hmany : 2 ≤ conv.iodiv) : ∀ (objs : List YaffsObject) (o : YaffsObject),
    (o.headerView :: o.groupViews conv.iodiv (o.data.length / conv.iodiv)) ++
        tailViews conv o.objectId (o.leftFirst conv.iodiv) (o.left conv.iodiv) objs =
      (o :: objs).flatMap (YaffsObject.merged · conv.iodiv) ↔
    ∀ l, (o :: objs).getLast? = some l → l.Fits conv.iodiv
  | [], o => by
    rw [tailViews, List.flatMap_singleton, merged_eq o (by omega), List.append_cancel_left_eq,
      lastView_iff o hmany]
    constructor
    · rintro h l hl
      obtain rfl := Option.some.inj hl
      exact h
    · intro h
      exact h o rfl
  | o' :: objs, o => by
    rw [tailViews, List.flatMap_cons, merged_eq o (by omega), ← List.append_assoc,
      ← List.append_assoc, List.append_assoc _ (o'.headerView :: _), List.append_cancel_left_eq,
      tailViews_iff hmany objs o', List.getLast?_cons_cons]

end Runs

section Single

variable {conv : YaffsConvInfo} (hconv : conv.Sized) (hone : conv.iodiv = 1)
include hconv hone

/-- Pages of the size that comes in go out as they are. -/
theorem run_single : ∀ (pages : List (List UInt8)) (buf : Mem) {vs : List PageView},
    List.Forall₂ (fun page v => ∀ m : Mem, pageView conv (m.store 0 page) 0 = v) pages vs →
    views conv (convRun conv pages ⟨buf, 0, 0, 0⟩).1 = vs ∧
      (convRun conv pages ⟨buf, 0, 0, 0⟩).2.sub = 0
  | [], _, _, .nil => ⟨rfl, rfl⟩
  | page :: pages, buf, v :: vs, .cons h hs => by
    have hsame : conv.im = conv.om := by
      rw [hconv.im, hconv.om, hone]
    obtain ⟨h1, h2⟩ := run_single pages (buf.store 0 page) hs
    rw [convRun, convRound, if_pos hsame]
    refine ⟨?_, h2⟩
    rw [views_append, h1, views, List.map_singleton, h]
    rfl

theorem pageView_single {main : List UInt8} (hmain : main.length = 2048) {t : YaffsTag}
    (ht : t.Words) (m : Mem) : pageView conv (m.store 0 (main ++ t.bytes)) 0 =
      ⟨t.objectId, t.chunkId, t.byteCount, main.take (if t.chunkId = 0 then 2048
        else t.byteCount)⟩ := by
  have hom : conv.om = 2048 := by
    rw [hconv.om, hone]
  have htag := page_tag m 0 hmain ht
  rw [Nat.zero_add] at htag
  rw [pageView, hom, Nat.zero_add, htag, page_load m 0 hmain]

theorem views_single (o : YaffsObject) :
    List.Forall₂ (fun page v => ∀ m : Mem, pageView conv (m.store 0 page) 0 = v) o.pages
      (o.merged conv.iodiv) := by
  have hgroup : ∀ i (hi : i < o.data.length), o.group 1 i = [o.data[i]] := by
    intro i hi
    rw [YaffsObject.group, Nat.mul_one, List.drop_eq_getElem_cons hi]
    rfl
  rw [hone, YaffsObject.merged, Nat.sub_self, Nat.add_zero, Nat.div_one]
  refine .cons (fun m => ?_) (List.forall₂_iff_get.2 ⟨?_, fun i h1 h2 m => ?_⟩)
  · rw [pageView_single hconv hone o.length_header o.tag_words]
    change PageView.mk o.objectId 0 o.byteCount (o.header.take 2048) = _
    rw [← o.length_header, List.take_length]
    rfl
  · rw [YaffsObject.dataPages, List.length_mapIdx, YaffsObject.groupViews, List.length_map,
      List.length_range]
  · have hi : i < o.data.length := by
      rwa [YaffsObject.dataPages, List.length_mapIdx] at h1
    have hlim := o.data_lt
    have hwords : (o.data[i].tag o.objectId (i + 1)).Words :=
      ⟨o.data[i].sequence_lt, o.object_lt, by change i + 1 < _; omega,
        lt_of_le_of_lt o.data[i].count_le (by decide)⟩
    have hpage := pageView_single hconv hone o.data[i].length_main hwords m
    simp only [List.get_eq_getElem, YaffsObject.dataPages, YaffsObject.groupViews,
      List.getElem_mapIdx, List.getElem_map, List.getElem_range, hgroup i hi]
    rw [DataPage.page, hpage]
    simp only [DataPage.tag, Nat.succ_ne_zero, if_false, groupView, groupCount, groupData,
      List.map_singleton, List.sum_singleton, List.flatMap_singleton]

theorem putCalls_single (objs : List YaffsObject) (buf : Mem) :
    views conv (putCalls conv (yaffsStream objs) buf) =
      objs.flatMap (YaffsObject.merged · conv.iodiv) := by
  have hall : List.Forall₂ (fun page v => ∀ m : Mem, pageView conv (m.store 0 page) 0 = v)
      (yaffsStream objs) (objs.flatMap (YaffsObject.merged · conv.iodiv)) := by
    induction objs with
    | nil => exact .nil
    | cons o objs ih => exact List.rel_append (views_single hconv hone o) ih
  obtain ⟨h1, h2⟩ := run_single hconv hone (yaffsStream objs) buf hall
  rw [putCalls, convLast, if_neg (not_not.2 h2), List.append_nil, h1]

end Single

section Objects

/-- The pages put out denote the objects of the stream exactly if its last object fits. -/
theorem putCalls_iff {conv : YaffsConvInfo} (hconv : conv.Sized) (objs : List YaffsObject)
    (buf : Mem) :
    views conv (putCalls conv (yaffsStream objs) buf) =
        objs.flatMap (YaffsObject.merged · conv.iodiv) ↔
      ∀ o, objs.getLast? = some o → o.Fits conv.iodiv := by
  rcases Nat.lt_or_ge 1 conv.iodiv with hmany | hle
  · rcases objs with _ | ⟨o, objs⟩
    · exact iff_of_true rfl fun o ho => absurd ho nofun
    · have hrun := run_objects hconv hmany (o :: objs) (waiting_none o.objectId 1 buf) Nat.one_pos
        (by decide) hconv.iodiv_pos fun x hx => absurd hx List.not_mem_nil
      rw [putCalls, hrun, ← tailViews_iff hmany objs o, tailViews, pending, if_pos rfl,
        List.nil_append]
  · have hone : conv.iodiv = 1 := le_antisymm hle hconv.iodiv_pos
    refine iff_of_true (putCalls_single hconv hone objs buf) fun o _ => Or.inl ?_
    rw [hone, Nat.mod_one]

/-- `yaffs_conv` over a stream of objects makes the calls of `put_page` whose pages denote the
objects again exactly if the last object of the stream leaves no group of data pages behind, or one
that is all of it with all bytes in the first page. -/
theorem yaffs_conv_objects (conv : YaffsConvInfo) (hconv : conv.Sized) (objs : List YaffsObject)
    (buf : Mem) :
    (∀ (B : Board) (fuel : ℕ) (pos : YaffsPos), (yaffsStream objs).length < fuel →
      yaffsConv B conv nextPage fuel ⟨buf, 0, 0, 0, pos, yaffsStream objs⟩ =
        yaffsPuts B (putCalls conv (yaffsStream objs) buf) pos >>= fun _ => pure (some 0)) ∧
    (views conv (putCalls conv (yaffsStream objs) buf) =
        objs.flatMap (YaffsObject.merged · conv.iodiv) ↔
      ∀ o, objs.getLast? = some o → o.Fits conv.iodiv) :=
  ⟨fun B _ pos hfuel => yaffsConv_calls conv B (yaffsStream objs) buf pos hfuel,
    putCalls_iff hconv objs buf⟩

/-- The sizes of `yaffs_burn` on a chip with pages of `n` times 2048 bytes and 16 spare ones. -/
theorem yaffsInfo_sized (B : Board) {c : NandConfig} (hc : B.nand.getConfig .normal = some c)
    {n : ℕ}
    (hn : 1 ≤ n) (hpage : c.pagesize = n * 2048) (hspare : c.sysinfosize = 16)
    (hlim : c.pagesize < 2 ^ 31) : (yaffsInfo B).Sized := by
  have hom : (yaffsInfo B).om = c.pagesize := by
    simp only [yaffsInfo, fndVsAlign, nndVsAlign, hc, Option.elim_some]
  have hoo : (yaffsInfo B).oo = c.pagesize + 16 := by
    simp only [yaffsInfo, fndAlign, hc, Option.elim_some, hspare]
  have hos : (yaffsInfo B).os = 16 := by
    change (yaffsInfo B).oo - (yaffsInfo B).om = 16
    rw [hom, hoo, Nat.add_sub_cancel_left]
  have hiodiv : (yaffsInfo B).iodiv = n := by
    change (yaffsInfo B).om / 2048 = n
    rw [hom, hpage, Nat.mul_div_cancel _ (by decide)]
  exact ⟨rfl, rfl, by rw [hom, hiodiv, hpage], by rw [hom, hos, hoo], by rw [hiodiv]; exact hn,
    by rw [hos], by rw [hos]; decide, by rw [hom]; exact hlim⟩

theorem word_pos : 0 < 2 ^ 32 := by decide

def blankPage (n : ℕ) : List UInt8 := List.replicate n 0

def dataFull : DataPage :=
  ⟨blankPage 2048, 1, 2048, List.length_replicate, by decide, le_refl _⟩

/-- An object of `n` full data pages. -/
def objectFull (n : ℕ) (hn : n < 2 ^ 32) : YaffsObject where
  objectId := 257
  header := blankPage 2048
  sequenceNumber := 1
  byteCount := 0
  data := List.replicate n dataFull
  object_lt := by decide
  length_header := List.length_replicate
  sequence_lt := by decide
  count_lt := word_pos
  data_lt := by rwa [List.length_replicate]
  full := by
    intro d hd
    rw [List.dropLast_replicate] at hd
    rw [(List.mem_replicate.1 hd).2]
    rfl

/-- Pages of 8K with the spare of a tag. -/
def convQuarter : YaffsConvInfo := ⟨8192, 16, 8208, 2048, 16, 2064, 4⟩

theorem convQuarter_sized : convQuarter.Sized :=
  ⟨rfl, rfl, rfl, rfl, by decide, by decide, by decide, by decide⟩

theorem yaffs_conv_objects_five :
    views convQuarter (putCalls convQuarter
        (yaffsStream [objectFull 5 (by decide), objectFull 4 (by decide)]) fun _ => 0) =
      [objectFull 5 (by decide), objectFull 4 (by decide)].flatMap (YaffsObject.merged · 4) := by
  refine (yaffs_conv_objects convQuarter convQuarter_sized _ _).2.2 fun o ho => Or.inl ?_
  obtain rfl := Option.some.inj ho
  rfl

/-- Two pages at the end of the stream go out as the first of them. -/
theorem yaffs_conv_loses : ¬∀ (conv : YaffsConvInfo), conv.Sized → ∀ (objs : List YaffsObject)
    (buf : Mem), views conv (putCalls conv (yaffsStream objs) buf) =
      objs.flatMap (YaffsObject.merged · conv.iodiv) := by
  intro h
  have hfits := (putCalls_iff convQuarter_sized [objectFull 2 (by decide)] fun _ => 0).1
    (h convQuarter convQuarter_sized _ _) _ rfl
  rcases hfits with h0 | ⟨_, hcount⟩
  · exact absurd h0 (by decide)
  · exact absurd hcount (by decide)

end Objects



end InfotmUboot
