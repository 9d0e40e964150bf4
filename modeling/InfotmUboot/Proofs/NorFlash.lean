import InfotmUboot.NorFlash
import InfotmUboot.Lib.Trace

/-!
# What `flash_write` hands to the banks

The range is looked up at its two ends, and the banks between them are taken in the order of the
table. What the calls of `write_buff` are is right if these banks hold the range one after the other
and no sector of it is protected, or if a check turns the range down (`nor_flash_write_right_iff`).
-/

namespace InfotmUboot

open Lib

namespace FlashInfo

variable (info : FlashInfo)

def Holds (a : ℕ) : Prop := info.known = true ∧ info.start 0 ≤ a ∧ a < info.start 0 + info.size

def sectorEnd (i : ℕ) : ℕ :=
  if i + 1 = info.sectorCount then info.start 0 + info.size else info.start (i + 1)

/-- A bank with sectors one after the other, inside of the addresses. -/
structure Valid : Prop where
  size_pos : 0 < info.size
  size_lt : info.size < 2 ^ 32
  top : info.start 0 + info.size ≤ 2 ^ 32
  sectors : 0 < info.sectorCount
  few : info.sectorCount ≤ 2 ^ 15
  ordered : ∀ i < info.sectorCount, info.start i < info.sectorEnd i

end FlashInfo

/-- The table of the banks: those that are known do not overlap. -/
structure FlashBanks where
  banks : List FlashInfo
  start_lt : ∀ b ∈ banks, b.start 0 < 2 ^ 32
  valid : ∀ b ∈ banks, b.known = true → b.Valid
  disjoint : ∀ (i j : ℕ) (b c : FlashInfo), banks[i]? = some b → banks[j]? = some c → i ≠ j →
    ∀ a, b.Holds a → ¬c.Holds a

/-- What `flash_write` is asked for: a count that is not zero, with what is to be written. -/
structure FlashRequest where
  addr : ℕ
  data : List UInt8
  addr_lt : addr < 2 ^ 32
  nonempty : data ≠ []
  data_lt : data.length < 2 ^ 32

namespace FlashBanks

variable (F : FlashBanks)

/-- The address is one of the bank with this number. -/
def Inside (bank a : ℕ) : Prop := ∃ b, F.banks[bank]? = some b ∧ b.Holds a

/-- No sector at the address is protected. -/
def Free (a : ℕ) : Prop :=
  ∀ b ∈ F.banks, b.Holds a → ∀ i < b.sectorCount, b.start i ≤ a → a < b.sectorEnd i → b.protect i =
    0

end FlashBanks

/-- The calls are of the bytes of `data`, one after the other and from `addr` on. -/
def Passed : ℕ → List BufWrite → List UInt8 → Prop
  | _, [], data => data = []
  | addr, c :: cs, data =>
    c.addr = addr ∧ ∃ rest, data = c.data ++ rest ∧ Passed (u32 (addr + c.data.length)) cs rest

/-- What is promised of a run of `flash_write`. -/
structure NorRunRight (F : FlashBanks) (q : FlashRequest) (ret : FlashWriteEnd)
    (log : List (BufWrite × ℤ)) : Prop where
  inside : ∀ x ∈ log, ∀ t < x.1.data.length,
    F.Inside x.1.bank (x.1.addr + t) ∧ F.Free (x.1.addr + t)
  refused : ret = .errInval ∨ ret = .errProtected → log = []
  whole : ret = .errOk → Passed q.addr (log.map Prod.fst) q.data

def NorWriteRight (F : FlashBanks) (q : FlashRequest) : Prop :=
  ∀ {σ : Type} (h : σ → BufWrite → ℤ × σ),
    Prog.Traces h (flashWrite F.banks q.data q.addr) (NorRunRight F q)

/-- The banks hold `n` bytes from `a` on, each from where the one before it ends; a bank that ends
just there is passed over. -/
def Reach : List FlashInfo → ℕ → ℕ → Prop
  | [], _, n => n = 0
  | b :: bs, a, n =>
    n = 0 ∨ if b.bEnd = a then Reach bs a n
      else b.Holds a ∧ Reach bs b.bEnd (n - (b.start 0 + b.size - a))

def FlashRequest.stop (q : FlashRequest) : ℕ := u32 (q.addr + q.data.length + (2 ^ 32 - 1))

/-- An end of the range is in no bank; or a protected sector is found; or the banks hold the range
one after the other, and nothing of it is protected. -/
def NorWriteFits (F : FlashBanks) (q : FlashRequest) : Prop :=
  ∀ first last, addr2info F.banks q.addr = some first → addr2info F.banks q.stop = some last →
    (∃ b ∈ bankSlice F.banks first last, b.isProtected q.addr q.stop = true) ∨
      Reach (bankSlice F.banks first last) q.addr q.data.length ∧
        ∀ t < q.data.length, F.Free (u32 (q.addr + t))

section Banks

variable {F : FlashBanks}

/-- The entries of a slice are those of the table. -/
def Slice (F : FlashBanks) (infos : List FlashInfo) (bank : ℕ) : Prop :=
  ∀ k b, infos[k]? = some b → F.banks[bank + k]? = some b

theorem Slice.tail {info : FlashInfo} {infos : List FlashInfo} {bank : ℕ}
    (h : Slice F (info :: infos) bank) : Slice F infos (bank + 1) := fun k b hk => by
  rw [Nat.add_assoc, Nat.add_comm 1]
  exact h (k + 1) b hk

theorem slice_bankSlice (first last : ℕ) : Slice F (bankSlice F.banks first last) first :=
  fun k b hk => by
    unfold bankSlice at hk
    rw [List.getElem?_take] at hk
    split_ifs at hk
    rwa [List.getElem?_drop] at hk

theorem Slice.head {info : FlashInfo} {infos : List FlashInfo} {bank : ℕ}
    (h : Slice F (info :: infos) bank) : F.banks[bank]? = some info := h 0 info rfl

variable {b : FlashInfo} {a : ℕ}

theorem FlashInfo.Holds.lt (hb : b.Valid) (h : b.Holds a) : a < 2 ^ 32 := by
  have := hb.top
  obtain ⟨-, -, h⟩ := h
  omega

/-- What `flash_write` takes for the length of the rest of a bank. -/
theorem FlashInfo.Holds.rest (hb : b.Valid) (h : b.Holds a) :
    u32 (b.bEnd + (2 ^ 32 - a)) = b.start 0 + b.size - a := by
  have h1 := hb.top
  have h2 := hb.size_lt
  obtain ⟨-, h3, h4⟩ := h
  unfold bEnd u32
  omega

end Banks

section Write

variable {F : FlashBanks} {σ : Type} {h : σ → BufWrite → ℤ × σ}

/-- A call hands over nothing but unprotected bytes of its bank. -/
def CallRight (F : FlashBanks) (c : BufWrite) : Prop :=
  ∀ t < c.data.length, F.Inside c.bank (c.addr + t) ∧ F.Free (c.addr + t)

/-- What a run of the last loop leaves. -/
def WriteRight (F : FlashBanks) (addr : ℕ) (data : List UInt8) (ret : FlashWriteEnd)
    (log : List (BufWrite × ℤ)) : Prop :=
  (∀ x ∈ log, CallRight F x.1) ∧ ret ≠ .errInval ∧ ret ≠ .errProtected ∧
    (ret = .errOk → Passed addr (log.map Prod.fst) data)

/-- The loop's first step where the bank ends just at the address. -/
theorem rest_zero {b : FlashInfo} {addr : ℕ} (ha : addr < 2 ^ 32) (hb : b.bEnd = addr) :
    u32 (b.bEnd + (2 ^ 32 - addr)) = 0 := by
  unfold u32
  omega

theorem Slice.valid {info : FlashInfo} {infos : List FlashInfo} {bank a : ℕ}
    (hs : Slice F (info :: infos) bank) (hh : info.Holds a) : info.Valid :=
  F.valid info (List.mem_of_getElem? hs.head) hh.1

/-- One step of the loop hands over what the bank holds, and leaves a range that the others hold. -/
theorem reach_step {b : FlashInfo} {infos : List FlashInfo} {bank addr : ℕ} {data : List UInt8}
    (hs : Slice F (b :: infos) bank) (ha : addr < 2 ^ 32) (h0 : data.length ≠ 0)
    (hreach : Reach (b :: infos) addr data.length)
    (hfree : ∀ t < data.length, F.Free (u32 (addr + t))) {len : ℕ}
    (hlen : len = min (u32 (b.bEnd + (2 ^ 32 - addr))) data.length) :
    CallRight F ⟨bank, addr, data.take len⟩ ∧
      Reach infos (u32 (addr + len)) (data.drop len).length := by
  rw [List.length_drop]
  have hreach := hreach.resolve_left h0
  split_ifs at hreach with hend
  · rw [rest_zero ha hend, Nat.zero_min] at hlen
    subst hlen
    refine ⟨fun t ht => absurd ht (by simp), ?_⟩
    rwa [Nat.add_zero, u32_of_lt ha, Nat.sub_zero]
  obtain ⟨hh, hreach⟩ := hreach
  have hv := hs.valid hh
  have htop := hv.top
  have hsize := hv.size_lt
  rw [hh.rest hv] at hlen
  obtain ⟨hk, hlo, hhi⟩ := hh
  constructor
  · intro t ht
    have ht : t < min len data.length := by rwa [List.length_take] at ht
    refine ⟨⟨b, hs.head, hk, by simp only; omega, by simp only; omega⟩, ?_⟩
    have hf := hfree t (by omega)
    rwa [u32_of_lt (by omega)] at hf
  · rcases le_total data.length (b.start 0 + b.size - addr) with hle | hle
    · rw [hlen, min_eq_right hle, Nat.sub_self]
      cases infos <;> simp [Reach]
    · rw [hlen, min_eq_left hle, show addr + (b.start 0 + b.size - addr) = b.start 0 + b.size by
        omega]
      exact hreach

/-- The address of a byte behind a piece. -/
theorem u32_add_u32 (a n t : ℕ) : u32 (u32 (a + n) + t) = u32 (a + (n + t)) := by
  unfold u32
  omega

theorem writeBanks_right : ∀ (infos : List FlashInfo) (bank addr : ℕ) (data : List UInt8),
    Slice F infos bank → addr < 2 ^ 32 → Reach infos addr data.length →
      (∀ t < data.length, F.Free (u32 (addr + t))) →
        Prog.Traces h (writeBanks infos bank addr data) (WriteRight F addr data)
  | [], _, addr, data, _, _, hreach, _ =>
    Prog.traces_pure ⟨fun _ hx => absurd hx List.not_mem_nil, nofun, nofun,
      fun _ => List.length_eq_zero_iff.1 hreach⟩
  | b :: infos, bank, addr, data, hs, ha, hreach, hfree => by
    refine Prog.Traces.ite (fun h0 => ?_) fun h0 => ?_
    · exact Prog.traces_pure ⟨fun _ hx => absurd hx List.not_mem_nil, nofun, nofun,
        fun _ => List.length_eq_zero_iff.1 h0⟩
    have hle := min_le_right (u32 (b.bEnd + (2 ^ 32 - addr))) data.length
    obtain ⟨hcall, hrest⟩ := reach_step hs ha h0 hreach hfree rfl
    generalize min (u32 (b.bEnd + (2 ^ 32 - addr))) data.length = len at hle hcall hrest
    have hone (r : ℤ) : ∀ x ∈ [(BufWrite.mk bank addr (data.take len), r)], CallRight F x.1 :=
      fun x hx => by
        rw [List.mem_singleton.1 hx]
        exact hcall
    have hfree' : ∀ t < (data.drop len).length, F.Free (u32 (u32 (addr + len) + t)) := by
      intro t ht
      rw [List.length_drop] at ht
      rw [u32_add_u32]
      exact hfree (len + t) (by omega)
    refine Prog.Traces.bind (S := fun r l => l = [(⟨bank, addr, data.take len⟩, r)])
      (Prog.traces_op fun _ => rfl) ?_
    rintro r _ rfl
    refine Prog.Traces.ite (fun _ => Prog.traces_pure ?_) fun _ => ?_
    · exact ⟨by simpa using hone r, nofun, nofun, nofun⟩
    refine (writeBanks_right infos (bank + 1) _ _ hs.tail (u32_lt _) hrest hfree').mono ?_
    rintro ret l ⟨hcalls, hinval, hprot, hpass⟩
    refine ⟨fun x hx => ?_, hinval, hprot, fun hok => ?_⟩
    · rcases List.mem_append.1 hx with hx | hx
      · exact hone r x hx
      · exact hcalls x hx
    · refine ⟨rfl, data.drop len, (List.take_append_drop len data).symm, ?_⟩
      rw [List.length_take_of_le hle]
      exact hpass hok

end Write

section Zero

variable {F : FlashBanks}

/-- A driver that never fails. -/
def goodDriver (_ : Unit) (_ : BufWrite) : ℤ × Unit := (0, ())

/-- If the calls of a run without failures are right, the banks hold the range. -/
theorem reach_of_run : ∀ (infos : List FlashInfo) (bank addr : ℕ) (data : List UInt8),
    Slice F infos bank → addr < 2 ^ 32 → data.length < 2 ^ 32 →
      Prog.Traces goodDriver (writeBanks infos bank addr data) fun ret l => ret = .errOk ∧
        ((∀ x ∈ l, CallRight F x.1) → Passed addr (l.map Prod.fst) data →
          Reach infos addr data.length)
  | [], _, addr, data, _, _, _ =>
    Prog.traces_pure ⟨rfl, fun _ hpass => List.length_eq_zero_iff.2 hpass⟩
  | b :: infos, bank, addr, data, hs, ha, hdata => by
    refine Prog.Traces.ite (fun h0 => Prog.traces_pure ⟨rfl, fun _ _ => .inl h0⟩) fun h0 => ?_
    have hle := min_le_right (u32 (b.bEnd + (2 ^ 32 - addr))) data.length
    have hmin : min (u32 (b.bEnd + (2 ^ 32 - addr))) data.length = 0 → b.bEnd = addr := by
      intro hz
      have hu : b.bEnd < 2 ^ 32 := u32_lt _
      unfold u32 at hz
      omega
    generalize hlen : min (u32 (b.bEnd + (2 ^ 32 - addr))) data.length = len at hle hmin
    refine Prog.Traces.bind (S := fun r l => r = 0 ∧ l = [(⟨bank, addr, data.take len⟩, r)])
      (Prog.traces_op fun _ => ⟨rfl, rfl⟩) ?_
    rintro _ _ ⟨rfl, rfl⟩
    refine Prog.Traces.ite (fun h0 => absurd rfl h0) fun _ => ?_
    refine (reach_of_run infos (bank + 1) (u32 (addr + len)) (data.drop len) hs.tail (u32_lt _)
      (by rw [List.length_drop]; omega)).mono ?_
    rintro ret l ⟨hok, hrest⟩
    refine ⟨hok, fun hcalls hpass => .inr ?_⟩
    obtain ⟨-, rest, hdata', hpass⟩ := hpass
    obtain rfl : rest = data.drop len := by
      have := congrArg (List.drop len) hdata'
      rw [List.drop_append, List.length_take_of_le hle] at this
      simpa using this.symm
    rw [List.length_take_of_le hle] at hpass
    have hreach := hrest (fun x hx => hcalls x (List.mem_append_right _ hx)) hpass
    rw [List.length_drop] at hreach
    have hcall := hcalls _ (List.mem_append_left _ (List.mem_singleton.2 rfl))
    split_ifs with hend
    · rw [rest_zero ha hend, Nat.zero_min] at hlen
      subst hlen
      rwa [Nat.add_zero, u32_of_lt ha, Nat.sub_zero] at hreach
    · have hpos : len ≠ 0 := fun hz => hend (hmin hz)
      obtain ⟨⟨c, hc, hh⟩, -⟩ := hcall 0 (by rw [List.length_take_of_le hle]; omega)
      obtain rfl : c = b := Option.some.inj (hc.symm.trans hs.head)
      have hv := hs.valid hh
      rw [Nat.add_zero] at hh
      rw [hh.rest hv] at hlen
      refine ⟨hh, ?_⟩
      obtain ⟨-, hlo, hhi⟩ := hh
      rcases le_total data.length (c.start 0 + c.size - addr) with hle' | hle'
      · rw [Nat.sub_eq_zero_of_le hle']
        cases infos <;> simp [Reach]
      · rw [min_eq_left hle'] at hlen
        rw [← hlen, show addr + (c.start 0 + c.size - addr) = c.start 0 + c.size by omega] at hreach
        exact hreach

theorem FlashBanks.Inside.lt {bank a : ℕ} (h : F.Inside bank a) : a < 2 ^ 32 := by
  obtain ⟨b, hb, hh⟩ := h
  exact hh.lt (F.valid b (List.mem_of_getElem? hb) hh.1)

/-- What right calls hand over lies in no protected sector. -/
theorem Passed.free : ∀ {cs : List BufWrite} {addr : ℕ} {data : List UInt8}, Passed addr cs data →
    (∀ c ∈ cs, CallRight F c) → ∀ t < data.length, F.Free (u32 (addr + t))
  | [], _, _, rfl, _, _, ht => absurd ht (Nat.not_lt_zero _)
  | c :: cs, _, _, ⟨rfl, rest, rfl, hpass⟩, hcalls, t, ht => by
    rcases lt_or_ge t c.data.length with hlt | hge
    · obtain ⟨hin, hfree⟩ := hcalls c List.mem_cons_self t hlt
      rwa [u32_of_lt hin.lt]
    · rw [List.length_append] at ht
      have hrest := hpass.free (fun d hd => hcalls d (List.mem_cons_of_mem _ hd))
        (t - c.data.length) (by omega)
      rwa [u32_add_u32, Nat.add_sub_cancel' hge] at hrest

end Zero

section Right

variable {F : FlashBanks} {q : FlashRequest}

theorem FlashRequest.length_ne (q : FlashRequest) : ¬q.data.length = 0 :=
  fun h0 => q.nonempty (List.length_eq_zero_iff.1 h0)

theorem flashWrite_inside {first last : ℕ} (hfirst : addr2info F.banks q.addr = some first)
    (hlast : addr2info F.banks q.stop = some last) : flashWrite F.banks q.data q.addr =
      if (bankSlice F.banks first last).any (·.isProtected q.addr q.stop) then
        pure FlashWriteEnd.errProtected
      else writeBanks (bankSlice F.banks first last) first q.addr q.data := by
  rw [FlashRequest.stop] at hlast
  simp only [flashWrite, if_neg q.length_ne, hfirst, hlast, FlashRequest.stop]
  rfl

theorem flashWrite_outside (hout : ∀ first, addr2info F.banks q.addr = some first →
    addr2info F.banks q.stop = none) :
    flashWrite F.banks q.data q.addr = pure FlashWriteEnd.errInval := by
  simp only [flashWrite, if_neg q.length_ne]
  rcases hfirst : addr2info F.banks q.addr with _ | first
  · rfl
  · have hlast := hout first hfirst
    rw [FlashRequest.stop] at hlast
    rw [hlast]

theorem norRunRight_nil {ret : FlashWriteEnd} (hret : ret ≠ .errOk) : NorRunRight F q
    ret [] where
  inside _ hx := absurd hx List.not_mem_nil
  refused _ := rfl
  whole h0 := absurd h0 hret

theorem norRight_of_fits (hfits : NorWriteFits F q) : NorWriteRight F q := by
  intro σ h
  rcases hfirst : addr2info F.banks q.addr with _ | first
  · rw [flashWrite_outside fun first h0 => absurd (hfirst.symm.trans h0) (by simp)]
    exact Prog.traces_pure (norRunRight_nil nofun)
  rcases hlast : addr2info F.banks q.stop with _ | last
  · rw [flashWrite_outside fun _ _ => hlast]
    exact Prog.traces_pure (norRunRight_nil nofun)
  rw [flashWrite_inside hfirst hlast]
  refine Prog.Traces.ite (fun _ => Prog.traces_pure (norRunRight_nil nofun)) fun hno => ?_
  obtain ⟨hreach, hfree⟩ := (hfits first last hfirst hlast).resolve_left fun ⟨b, hb, hprot⟩ =>
    hno (List.any_eq_true.2 ⟨b, hb, hprot⟩)
  refine (writeBanks_right _ first q.addr q.data (slice_bankSlice first last) q.addr_lt hreach
    hfree).mono ?_
  rintro ret l ⟨hcalls, hinval, hprot, hpass⟩
  exact {
    inside := hcalls
    refused := fun h0 => h0.elim (fun h1 => absurd h1 hinval) fun h1 => absurd h1 hprot
    whole := hpass }

theorem norFits_of_right (hright : NorWriteRight F q) : NorWriteFits F q := by
  intro first last hfirst hlast
  refine or_iff_not_imp_left.2 fun hno => ?_
  have hrun := hright goodDriver
  rw [flashWrite_inside hfirst hlast, if_neg fun h0 => hno (List.any_eq_true.1 h0)] at hrun
  obtain ⟨hok, hreach⟩ := reach_of_run _ first q.addr q.data (slice_bankSlice first last) q.addr_lt
    q.data_lt ()
  obtain ⟨hinside, -, hwhole⟩ := hrun ()
  have hpass := hwhole hok
  refine ⟨hreach hinside hpass, hpass.free fun c hc => ?_⟩
  obtain ⟨x, hx, rfl⟩ := List.mem_map.1 hc
  exact hinside x hx

/-- `flash_write` is right, whatever `write_buff` returns, exactly if an end of the range is in no
bank, a check finds a protected sector, or the banks in the order of the table hold the range and no
sector of it is protected. -/
theorem nor_flash_write_right_iff (F : FlashBanks) (q : FlashRequest) :
    NorWriteRight F q ↔ NorWriteFits F q :=
  ⟨norFits_of_right, norRight_of_fits⟩

/-- A bank at the top of the addresses, with two sectors of which the last is protected. -/
def topBank : FlashInfo where
  known := true
  size := 0x100000
  sectorCount := 2
  start i := 0xfff00000 + 0x80000 * i
  protect i := i

def topBanks : FlashBanks where
  banks := [topBank]
  start_lt b hb := by
    rw [List.mem_singleton.1 hb]
    decide
  valid b hb _ := by
    rw [List.mem_singleton.1 hb]
    exact ⟨by decide, by decide, by decide, by decide, by decide, by decide⟩
  disjoint i j b c hb hc hne := by
    have hi := (List.getElem?_eq_some_iff.1 hb).1
    have hj := (List.getElem?_eq_some_iff.1 hc).1
    simp only [List.length_singleton] at hi hj
    omega

/-- A write of one byte into the protected sector. -/
def topRequest : FlashRequest where
  addr := 0xfff80000
  data := [0]
  addr_lt := by decide
  nonempty := by decide
  data_lt := by decide

theorem nor_flash_write_top_sector : ¬NorWriteRight topBanks topRequest := by
  intro h
  rcases norFits_of_right h 0 0 (by decide) (by decide) with ⟨b, hb, hprot⟩ | ⟨-, hfree⟩
  · rw [show bankSlice topBanks.banks 0 0 = [topBank] from rfl, List.mem_singleton] at hb
    rw [hb] at hprot
    exact absurd hprot (by decide)
  · have h1 := hfree 0 (by decide) topBank (List.mem_singleton.2 rfl)
      ⟨rfl, by decide, by decide⟩ 1 (by decide) (by decide) (by decide)
    exact absurd h1 (by decide)

end Right

end InfotmUboot
