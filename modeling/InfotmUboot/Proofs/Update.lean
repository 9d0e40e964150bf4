import InfotmUboot.Update
import InfotmUboot.Proofs.CmdFlash

/-!
# The protection around an update

The range is clipped to each bank in turn and stays clipped, so only sectors of the first bank are
unprotected; and an error behind that leaves them so. What is promised of every run is kept only
where there is nothing to unprotect (`updateRight_iff`).
-/

namespace InfotmUboot

open Lib

section Quiet

variable (real : Bool) (prot bank : ℕ)

/-- No flag is saved that would be changed. -/
def SavedBank.Quiet (b : SavedBank) : Prop := ∀ j, b.saved j ≠ 1

theorem SavedBank.save_info (b : SavedBank) (f l i : ℕ) : (b.save f l i).info = b.info := by
  unfold save
  split_ifs <;> rfl

/-- Without a flag to change in the range, the loop over the sectors asks nothing. -/
theorem updateSects_quiet {f l : ℕ} : ∀ (n i : ℕ) (b : SavedBank), b.Quiet →
    (prot = 0 → ∀ j < i + n, f ≤ b.info.start j → b.info.start j ≤ l → b.info.protect j ≠ 1) →
    ∃ b', updateSects real prot bank f l n i b = pure (0, b') ∧ b'.info = b.info ∧ b'.Quiet
  | 0, _, b, hb, _ => ⟨b, rfl, rfl, hb⟩
  | n + 1, i, b, hb, hflag => by
    have hsaved : (if prot = 0 then b.save f l i else b).Quiet := by
      split_ifs with h0
      · unfold SavedBank.save
        split_ifs with hin
        · intro j
          by_cases hj : j = i
          · subst hj
            simpa using hflag h0 j (by omega) hin.1 hin.2
          · simpa [Function.update_of_ne hj] using hb j
        · exact hb
      · exact hb
    have hinfo : (if prot = 0 then b.save f l i else b).info = b.info := by
      split_ifs
      · exact b.save_info f l i
      · rfl
    rw [updateSects, if_neg (hsaved i)]
    obtain ⟨b', heq, hb', hq⟩ := updateSects_quiet n (i + 1) _ hsaved (by
      rw [hinfo]
      exact fun h0 j hj => hflag h0 j (by omega))
    exact ⟨b', heq, hb'.trans hinfo, hq⟩

/-- No sector that starts in the range has a flag to change, as the range is clipped from bank to
bank. -/
def QuietBanks : List FlashInfo → ℕ → ℕ → Prop
  | [], _, _ => True
  | b :: bs, f, l =>
    b.sectorCount = 0 ∨ (∀ j < b.sectorCount, max f (b.start 0) ≤ b.start j →
        b.start j ≤ min l b.bLast → b.protect j ≠ 1)
      ∧ QuietBanks bs (max f (b.start 0)) (min l b.bLast)

theorem clip_first (b : FlashInfo) (f : ℕ) :
    (if f < b.start 0 then b.start 0 else f) = max f (b.start 0) := by
  split_ifs <;> omega

theorem clip_last (b : FlashInfo) (l : ℕ) :
    (if b.bLast < l then b.bLast else l) = min l b.bLast := by
  split_ifs <;> omega

theorem updateBanks_quiet : ∀ (bs : List SavedBank) (bank f l : ℕ), (∀ b ∈ bs, b.Quiet) →
    (prot = 0 → QuietBanks (bs.map SavedBank.info) f l) →
    ∃ bs', updateBanks real prot bank bs f l = pure (0, bs')
      ∧ bs'.map SavedBank.info = bs.map SavedBank.info ∧ ∀ b ∈ bs', b.Quiet
  | [], _, _, _, _, _ => ⟨[], rfl, rfl, by simp⟩
  | b :: bs, bank, f, l, hsaved, hflag => by
    have hhead := hsaved b List.mem_cons_self
    have htail : ∀ c ∈ bs, c.Quiet := fun c hc => hsaved c (List.mem_cons_of_mem _ hc)
    rw [updateBanks, clip_first, clip_last]
    by_cases h0 : b.info.sectorCount = 0
    · rw [if_pos h0]
      exact ⟨b :: bs, rfl, rfl, hsaved⟩
    · rw [if_neg h0]
      obtain ⟨b', heq, hinfo, hq⟩ := updateSects_quiet real prot bank b.info.sectorCount 0 b hhead
        fun hp j hj => ((hflag hp).resolve_left h0).1 j (by omega)
      obtain ⟨bs', heqs, hinfos, hqs⟩ := updateBanks_quiet bs (bank + 1) _ _ htail
        fun hp => ((hflag hp).resolve_left h0).2
      dsimp only
      rw [heq, pure_bind]
      dsimp only
      rw [if_neg (not_not.2 rfl), heqs, pure_bind]
      refine ⟨b' :: bs', rfl, by rw [List.map_cons, hinfo, hinfos, List.map_cons], fun c hc => ?_⟩
      rcases List.mem_cons.1 hc with rfl | hc
      · exact hq
      · exact hqs c hc

end Quiet

/-- The table of the banks, where a bank that does not exist has no sectors. -/
structure UpdateTable extends FlashBanks where
  exists_iff : ∀ b ∈ banks, b.known = true ↔ b.sectorCount ≠ 0

section Table

variable (T : UpdateTable) {f l : ℕ}

theorem quietBanks_outside {lo hi : ℕ} : ∀ (bs : List FlashInfo) (f l : ℕ),
    (∀ b ∈ bs, ∀ i < b.sectorCount, ¬(lo ≤ b.start i ∧ b.start i ≤ hi)) → lo ≤ f → l ≤ hi →
    QuietBanks bs f l
  | [], _, _, _, _, _ => trivial
  | b :: bs, f, l, hout, hf, hl =>
    .inr ⟨fun j hj hlo hhi => absurd ⟨by omega, by omega⟩ (hout b List.mem_cons_self j hj),
      quietBanks_outside bs _ _ (fun c hc => hout c (List.mem_cons_of_mem _ hc)) (by omega)
        (by omega)⟩

/-- A sector of another bank does not start in the first bank. -/
theorem UpdateTable.outside {b : FlashInfo} {bs : List FlashInfo} (hbs : T.banks = b :: bs)
    (hb : b.sectorCount ≠ 0) (c : FlashInfo) (hc : c ∈ bs) (i : ℕ) (hi : i < c.sectorCount) :
    ¬(b.start 0 ≤ c.start i ∧ c.start i ≤ b.bLast) := by
  rintro ⟨hlo, hhi⟩
  have hbm : b ∈ T.banks := hbs ▸ List.mem_cons_self
  have hcm : c ∈ T.banks := hbs ▸ List.mem_cons_of_mem _ hc
  have hbk := (T.exists_iff b hbm).2 hb
  have hck := (T.exists_iff c hcm).2 (by omega)
  have hbv := T.valid b hbm hbk
  have hcv := T.valid c hcm hck
  obtain ⟨k, hk⟩ := List.mem_iff_getElem?.1 hc
  have hbLast := hbv.bLast_succ
  refine T.disjoint 0 (k + 1) b c (by rw [hbs]; rfl) (by rw [hbs]; exact hk) (by omega) (c.start i)
    ⟨hbk, hlo, by omega⟩ ⟨hck, hcv.start_zero_le hi, ?_⟩
  exact (hcv.ordered i hi).trans_le (hcv.sectorEnd_le hi)

/-- No sector of the first bank that starts in the range has the flag 1. -/
def HeadFree (f l : ℕ) : Prop :=
  ∀ b, T.banks.head? = some b → ∀ i < b.sectorCount, f ≤ b.start i → b.start i ≤ l →
    b.protect i ≠ 1

variable {T} in
theorem HeadFree.quiet (h : HeadFree T f l) : QuietBanks T.banks f l := by
  rcases hbs : T.banks with _ | ⟨b, bs⟩
  · trivial
  · by_cases h0 : b.sectorCount = 0
    · exact .inl h0
    · refine .inr ⟨fun j hj hlo hhi => h b (by rw [hbs]; rfl) j hj (by omega) (by omega), ?_⟩
      exact quietBanks_outside bs _ _ (T.outside hbs h0) (by omega) (by omega)

end Table

section Range

variable (T : UpdateTable)

/-- What an update is asked to write: a destination and the bytes. -/
structure UpdateRequest where
  first : ℕ
  source : List UInt8

variable (q : UpdateRequest)

/-- The end of the destination range, rounded to the end of its sector. -/
def UpdateRequest.last? : Option ℕ :=
  flashSectRoundb T.banks (u32 (q.first + q.source.length + (2 ^ 32 - 1)))

/-- The sector has an address of the range. -/
def SectorMeets (banks : List FlashInfo) (f l bank i : ℕ) : Prop :=
  ∃ b a, banks[bank]? = some b ∧ f ≤ a ∧ a ≤ l ∧ b.InSector i a

/-- A call that erases or writes. -/
def UpdateOp.Changes : UpdateOp → Prop
  | .erase _ => True
  | .write _ => True
  | _ => False

/-- What is promised of a run: every flag is left as it was, only sectors of the range are
unprotected, and before the flash is changed all of these are that are protected. -/
structure UpdateRight (out : ℕ × List FlashInfo) (log : List (UpdateOp × ℤ)) : Prop where
  kept : out.2.map FlashInfo.protect = T.banks.map FlashInfo.protect
  only : ∀ c r, (.protect c, r) ∈ log → c.prot = 0 → ∃ l, q.last? T = some l ∧
    SectorMeets T.banks q.first l c.bank c.sect
  all : ∀ pre e post, log = pre ++ e :: post → e.1.Changes → ∀ l, q.last? T = some l →
    ∀ bank b i, T.banks[bank]? = some b → SectorMeets T.banks q.first l bank i → b.protect i ≠ 0 →
      ∃ r, (.protect ⟨bank, i, 0⟩, r) ∈ pre

/-- `flash_sect_erase` takes the range. -/
def SectsPlanned (banks : List FlashInfo) (f l : ℕ) : Prop :=
  (fillSectRanges banks f l).count ≠ 0 ∧ (fillSectRanges banks f l).rcode = 0

/-- The range is refused at once; or there is nothing in the first bank to unprotect, and if the
range can be erased nothing in it is protected. -/
def UpdateClear : Prop :=
  ∀ l, q.last? T = some l → q.first < l → HeadFree T q.first l ∧
    (SectsPlanned T.banks q.first l → ∀ bank b i, T.banks[bank]? = some b →
      SectorMeets T.banks q.first l bank i → b.protect i = 0)

end Range

section Clear

variable {T : UpdateTable} {q : UpdateRequest} {σ : Type} (h : σ → UpdateOp → ℤ × σ)

/-- The calls of a log are of the driver. -/
def OnlyDriver (log : List (UpdateOp × ℤ)) : Prop := ∀ x ∈ log, x.1.Changes

theorem flashSectErase_changes (banks : List FlashInfo) (f l : ℕ) :
    Prog.Traces h ((flashSectErase banks f l).mapOp .erase) fun ret log =>
      OnlyDriver log ∧ (SectsPlanned banks f l ∨ log = [] ∧ 0 < ret) := by
  refine Prog.Traces.mapOp (Prog.Traces.ite (fun hplan => ?_) fun hplan => ?_)
  · refine (eraseRanges_traces _ _ 0).mono fun ret log _ => ⟨fun x hx => ?_, .inl hplan⟩
    obtain ⟨y, -, rfl⟩ := List.mem_map.1 hx
    exact trivial
  · refine Prog.Traces.ite (fun hcode => Prog.traces_pure ?_) fun hcode => Prog.traces_pure ?_
    · exact ⟨by simp [OnlyDriver], .inr ⟨rfl, by simp⟩⟩
    · exact ⟨by simp [OnlyDriver], .inr ⟨rfl, by omega⟩⟩

theorem mapOp_write_changes {α : Type} (p : Prog BufWrite ℤ α) :
    Prog.Traces h (p.mapOp .write) fun _ log => OnlyDriver log := by
  refine Prog.Traces.mapOp fun s x hx => ?_
  obtain ⟨y, -, rfl⟩ := List.mem_map.1 hx
  exact trivial

theorem map_info_saved (g : FlashInfo → SavedBank) (hg : ∀ info, (g info).info = info)
    (banks : List FlashInfo) : (banks.map g).map SavedBank.info = banks := by
  rw [List.map_map]
  exact (List.map_congr_left fun info _ => hg info).trans (List.map_id _)

/-- The banks as the first phase gets them, with zeros in the memory for the flags. -/
def freshBanks (banks : List FlashInfo) : List SavedBank :=
  (banks.map fun info => ⟨info, fun _ => 0⟩ : List SavedBank).map fun b =>
    { b with saved := fun _ => 0 }

theorem freshBanks_info (banks : List FlashInfo) :
    (freshBanks banks).map SavedBank.info = banks := by
  rw [freshBanks, List.map_map]
  exact map_info_saved _ (fun _ => rfl) banks

/-- With nothing to unprotect, the first phase asks for memory only, and leaves nothing for the
second to do. -/
theorem updateFlashProtect_quiet (real : Bool) {l : ℕ} (hfree : HeadFree T q.first l) :
    Prog.Traces h (updateFlashProtect real 0 (T.banks.map fun info => ⟨info, fun _ => 0⟩) q.first l)
      fun out log => (∃ s, log = [(.calloc, (h s .calloc).1)] ∧ ((h s .calloc).1 ≠ 0 → out.1 = 0))
        ∧ out.2.map SavedBank.info = T.banks ∧ (out.1 ≠ 0 ∨ ∀ b ∈ out.2, b.Quiet) := by
  refine Prog.Traces.bind
    (S := fun r log => ∃ s, log = [(.calloc, (h s .calloc).1)] ∧ r = (h s .calloc).1)
    (Prog.traces_op fun s => ⟨s, rfl, rfl⟩) ?_
  rintro _ _ ⟨s, rfl, rfl⟩
  refine Prog.Traces.ite (fun h0 => ?_) fun h0 => ?_
  · exact Prog.traces_pure ⟨⟨s, rfl, fun hne => absurd h0 hne⟩, map_info_saved _ (fun _ => rfl) _,
      .inl Nat.one_ne_zero⟩
  · obtain ⟨bs', heq, hinfo, hq⟩ := updateBanks_quiet real 0 (freshBanks T.banks) 0 q.first l
      (by simp [freshBanks, SavedBank.Quiet])
      (fun _ => by rw [freshBanks_info]; exact hfree.quiet)
    rw [freshBanks] at heq
    rw [heq]
    exact Prog.traces_pure ⟨⟨s, rfl, fun _ => rfl⟩, hinfo.trans (freshBanks_info _), .inr hq⟩

theorem updateRight_of_clear (real : Bool) (hclear : UpdateClear T q) :
    Prog.Traces h (updateFlash real T.banks q.first q.source) (UpdateRight T q) := by
  unfold updateFlash
  rcases hlast : q.last? T with _ | l
  · rw [UpdateRequest.last?] at hlast
    rw [hlast]
    exact Prog.traces_pure ⟨rfl, by simp, by simp⟩
  · have hlast' := hlast
    rw [UpdateRequest.last?] at hlast'
    rw [hlast']
    refine Prog.Traces.ite (fun hle => Prog.traces_pure ⟨rfl, by simp, by simp⟩) fun hlt => ?_
    obtain ⟨hfree, hflags⟩ := hclear l hlast (by omega)
    -- what is logged so far: the memory, and calls of the driver for a range that can be erased
    have hright : ∀ (code : ℕ) {bs : List SavedBank} (r : ℤ) {log : List (UpdateOp × ℤ)},
        bs.map SavedBank.info = T.banks → OnlyDriver log →
        (SectsPlanned T.banks q.first l ∨ log = []) →
        UpdateRight T q (code, bs.map SavedBank.info) ((.calloc, r) :: log) := by
      intro code bs r log hinfo hdriver hplan
      refine ⟨by rw [hinfo], fun c r' hm => ?_, fun pre e post hsplit he l' hl' bank b i hb
        hmeet hne =>
        ?_⟩
      · rcases List.mem_cons.1 hm with heq | hm
        · simp at heq
        · exact absurd (hdriver _ hm) (by simp [UpdateOp.Changes])
      · obtain rfl := Option.some.inj (hlast.symm.trans hl')
        rcases hplan with hplan | rfl
        · exact absurd (hflags hplan bank b i hb hmeet) hne
        · have hmem : e ∈ [((.calloc, r) : UpdateOp × ℤ)] := by
            rw [hsplit]
            simp
          obtain rfl := List.mem_singleton.1 hmem
          exact absurd he (by simp [UpdateOp.Changes])
    refine (updateFlashProtect_quiet h real hfree).bind ?_
    rintro ⟨code, bs⟩ _ ⟨⟨s, rfl, -⟩, hinfo, hquiet⟩
    dsimp only at hinfo hquiet ⊢
    refine Prog.Traces.ite (fun _ => Prog.traces_pure ?_) fun hcode => ?_
    · exact hright 1 _ hinfo (by simp [OnlyDriver]) (.inr rfl)
    have hquiet := hquiet.resolve_left fun hne => hcode (Nat.pos_of_ne_zero hne)
    rw [hinfo]
    refine (flashSectErase_changes h T.banks q.first l).bind fun ret l1 hl1 => ?_
    refine Prog.Traces.ite (fun _ => Prog.traces_pure ?_) fun hret => ?_
    · rw [← hinfo]
      exact hright 1 _ hinfo (by simpa using hl1.1) (by simpa using hl1.2.imp_right And.left)
    have hplan := hl1.2.resolve_right fun hno => hret hno.2
    refine (mapOp_write_changes h _).bind fun w l2 hl2 => ?_
    have hdriver : OnlyDriver (l1 ++ l2) := fun x hx =>
      (List.mem_append.1 hx).elim (hl1.1 x) (hl2 x)
    refine Prog.Traces.ite (fun _ => Prog.traces_pure ?_) fun _ => ?_
    · rw [← hinfo]
      simpa using hright 1 _ hinfo hdriver (.inl hplan)
    obtain ⟨bs', heq, hinfo', -⟩ := updateBanks_quiet real 1 bs 0 q.first l hquiet (by simp)
    have hprot : updateFlashProtect real 1 bs q.first l = pure (0, bs') := by
      rw [updateFlashProtect, if_neg Nat.one_ne_zero, heq]
    rw [hprot, pure_bind]
    refine Prog.Traces.ite (fun _ => Prog.traces_pure ?_) fun _ => Prog.traces_pure ?_
    · simpa using hright 1 _ (hinfo'.trans hinfo) hdriver (.inl hplan)
    · simpa using hright 0 _ (hinfo'.trans hinfo) hdriver (.inl hplan)

end Clear

section Broken

variable {σ : Type} {h : σ → UpdateOp → ℤ × σ}

/-- A range of sectors is erased somewhere. -/
def RangePlanned (ranges : List (Option ℕ × Option ℕ)) : Prop := ∃ r ∈ ranges, r.1.isSome = true

theorem rangePlanned_of_count : ∀ (banks : List FlashInfo) (f l : ℕ),
    (fillSectRanges banks f l).count ≠ 0 → RangePlanned (fillSectRanges banks f l).ranges
  | [], _, _, hcount => absurd rfl hcount
  | b :: bs, f, l, hcount => by
    obtain ⟨r, heq⟩ | heq | ⟨-, s, t, f', heq⟩ := fill_step b bs f l
    · rw [heq] at hcount
      exact absurd rfl hcount
    · rw [heq] at hcount ⊢
      simp only [SectPlan.next, Nat.zero_add] at hcount
      obtain ⟨x, hx, hsome⟩ := rangePlanned_of_count bs f l hcount
      exact ⟨x, List.mem_cons_of_mem _ hx, hsome⟩
    · rw [heq]
      exact ⟨_, List.mem_cons_self, rfl⟩

/-- The first range is erased, and if that fails the erasing ends. -/
theorem eraseRanges_first {h : σ → SectErase → ℤ × σ} :
    ∀ (ranges : List (Option ℕ × Option ℕ)) (bank : ℕ), RangePlanned ranges →
    Prog.Traces h (eraseRanges bank ranges) fun ret log =>
      ∃ c r post, log = (c, r) :: post ∧ (r ≠ 0 → ret = r)
  | [], _, hsome => by simp [RangePlanned] at hsome
  | (none, t) :: ranges, bank, hsome => by
    obtain ⟨x, hx, hx'⟩ := hsome
    rcases List.mem_cons.1 hx with rfl | hx
    · simp at hx'
    · exact eraseRanges_first ranges (bank + 1) ⟨x, hx, hx'⟩
  | (some s, t) :: ranges, bank, _ => by
    refine Prog.Traces.bind (S := fun r l => l = [(⟨bank, s, t⟩, r)])
      (Prog.traces_op fun _ => rfl) ?_
    rintro r _ rfl
    refine Prog.Traces.ite (fun hr => fun _ => ?_) fun hr => Prog.traces_pure ?_
    · exact ⟨_, r, _, rfl, fun hne => absurd hr hne⟩
    · exact ⟨_, r, [], rfl, fun _ => rfl⟩

/-- A driver that cannot erase. -/
def failErase (s : Unit) : UpdateOp → ℤ × Unit
  | .calloc => (1, s)
  | .protect _ => (0, s)
  | .erase _ => (1, s)
  | .write _ => (0, s)

theorem flashSectErase_fails (banks : List FlashInfo) (f l : ℕ) :
    Prog.Traces failErase ((flashSectErase banks f l).mapOp .erase) fun ret _ => 0 < ret := by
  refine Prog.Traces.mapOp (Prog.Traces.ite (fun hplan => ?_) fun hplan => ?_)
  · have hreply : Prog.Traces (fun s o => failErase s (.erase o))
        (eraseRanges 0 (fillSectRanges banks f l).ranges) fun _ log => ∀ x ∈ log, x.2 = 1 := by
      intro s x hx
      obtain ⟨_, hr⟩ := Prog.run_log_reply _ _ s x hx
      exact hr
    refine ((eraseRanges_first _ 0 (rangePlanned_of_count banks f l hplan.1)).and hreply).mono ?_
    rintro ret log ⟨⟨c, r, post, rfl, hret⟩, hlog⟩
    obtain rfl : r = 1 := hlog (c, r) List.mem_cons_self
    rw [hret one_ne_zero]
    exact one_pos
  · refine Prog.Traces.ite (fun hcode => Prog.traces_pure one_pos) fun hcode => Prog.traces_pure ?_
    omega

/-- The flags that are set in the range are cleared, and none is set. -/
theorem updateSects_opens (real : Bool) (bank : ℕ) {f l : ℕ} : ∀ (n i : ℕ) (b : SavedBank),
    Prog.Traces failErase (updateSects real 0 bank f l n i b) fun out _ =>
      (∀ j, b.info.protect j = 0 → out.2.info.protect j = 0) ∧
      ∀ j, i ≤ j → j < i + n → f ≤ b.info.start j → b.info.start j ≤ l → b.info.protect j = 1 →
        out.2.info.protect j = 0
  | 0, i, b => Prog.traces_pure ⟨fun _ h0 => h0, fun j hlo hhi => by omega⟩
  | n + 1, i, b => by
    have hinfo := b.save_info f l i
    rw [updateSects, if_pos rfl]
    refine Prog.Traces.ite (fun hset => ?_) fun hset => ?_
    · refine Prog.Traces.bind (S := fun r _ => r = 0) (Prog.traces_op fun _ => rfl) ?_
      rintro r log rfl
      refine Prog.Traces.ite (fun hreal => absurd rfl hreal.2) fun _ => ?_
      refine (updateSects_opens real bank n (i + 1) _).mono ?_
      rintro out _ ⟨hzero, hopen⟩
      simp only [SavedBank.setProtect, hinfo] at hzero hopen
      have hstep : ∀ j, b.info.protect j = 0 ∨ j = i → out.2.info.protect j = 0 := fun j hj =>
        hzero j (by
          by_cases hji : j = i
          · rw [hji, Function.update_self]
          · rw [Function.update_of_ne hji]
            exact hj.resolve_right hji)
      refine ⟨fun j h0 => hstep j (.inl h0), fun j hlo hhi hf hl hone => ?_⟩
      by_cases hji : j = i
      · exact hstep j (.inr hji)
      · exact hopen j (by omega) (by omega) hf hl (by rwa [Function.update_of_ne hji])
    · refine (updateSects_opens real bank n (i + 1) _).mono ?_
      rintro out _ ⟨hzero, hopen⟩
      rw [hinfo] at hzero hopen
      refine ⟨hzero, fun j hlo hhi hf hl hone => ?_⟩
      by_cases hji : j = i
      · subst hji
        simp [SavedBank.save, hf, hl, hone] at hset
      · exact hopen j (by omega) (by omega) hf hl hone

/-- The flag of this sector of the first bank is clear. -/
def HeadOpened (i : ℕ) (banks : List FlashInfo) : Prop :=
  ∃ b, banks.head? = some b ∧ b.protect i = 0

variable {T : UpdateTable} {q : UpdateRequest}

theorem updateBanks_opens (real : Bool) {b : FlashInfo} {bs : List FlashInfo} {i l : ℕ}
    (hbs : T.banks = b :: bs) (hi : i < b.sectorCount) (hf : q.first ≤ b.start i)
    (hl : b.start i ≤ l) (hone : b.protect i = 1) :
    Prog.Traces failErase (updateBanks real 0 0 (freshBanks T.banks) q.first l) fun out _ =>
      HeadOpened i (out.2.map SavedBank.info) := by
  have hv := T.valid b (hbs ▸ List.mem_cons_self) ((T.exists_iff b (hbs ▸ List.mem_cons_self)).2
    (by omega))
  have hstart := hv.start_zero_le hi
  have hend : b.start i ≤ b.bLast := by
    have hbLast := hv.bLast_succ
    have hlt := (hv.ordered i hi).trans_le (hv.sectorEnd_le hi)
    omega
  rw [hbs, freshBanks, List.map_cons, List.map_cons, updateBanks, clip_first, clip_last]
  refine Prog.Traces.ite (fun h0 => absurd h0 (by dsimp only; omega)) fun _ => ?_
  refine (updateSects_opens real 0 b.sectorCount 0 _).bind ?_
  rintro ⟨ret, b'⟩ _ ⟨-, hopen⟩
  have hopened : b'.info.protect i = 0 :=
    hopen i i.zero_le (by omega) (by dsimp only; omega) (by dsimp only; omega) hone
  refine Prog.Traces.ite (fun _ => Prog.traces_pure ⟨_, rfl, hopened⟩) fun _ => ?_
  exact Prog.Traces.bind (S := fun _ _ => True) (fun _ => trivial) fun _ _ _ =>
    Prog.traces_pure ⟨_, rfl, hopened⟩

/-- An update that fails to erase leaves the sector unprotected. -/
theorem updateFlash_opens (real : Bool) {b : FlashInfo} {bs : List FlashInfo} {i l : ℕ}
    (hlast : q.last? T = some l) (hlt : q.first < l) (hbs : T.banks = b :: bs)
    (hi : i < b.sectorCount) (hf : q.first ≤ b.start i) (hl : b.start i ≤ l)
    (hone : b.protect i = 1) :
    Prog.Traces failErase (updateFlash real T.banks q.first q.source) fun out _ =>
      HeadOpened i out.2 := by
  rw [UpdateRequest.last?] at hlast
  rw [updateFlash, hlast]
  refine Prog.Traces.ite (fun hle => absurd hlt (by omega)) fun _ => ?_
  refine Prog.Traces.bind (S := fun out _ => HeadOpened i (out.2.map SavedBank.info)) ?_ ?_
  · rw [updateFlashProtect, if_pos rfl]
    refine Prog.Traces.bind (S := fun r _ => r = 1) (Prog.traces_op fun _ => rfl) ?_
    rintro _ _ rfl
    refine Prog.Traces.ite (fun h0 => absurd h0 one_ne_zero) fun _ => ?_
    exact updateBanks_opens real hbs hi hf hl hone
  · rintro ⟨ret, bs'⟩ _ hopened
    refine Prog.Traces.ite (fun _ => Prog.traces_pure hopened) fun _ => ?_
    refine (flashSectErase_fails _ _ _).bind fun ret _ hret => ?_
    exact Prog.Traces.ite (fun _ => Prog.traces_pure hopened) fun hno => absurd hret hno

/-- An update of a range that can be erased, where nothing of it is unprotected. -/
theorem updateFlash_erases (real : Bool) {l : ℕ} (hlast : q.last? T = some l) (hlt : q.first < l)
    (hfree : HeadFree T q.first l) (hplan : SectsPlanned T.banks q.first l) :
    Prog.Traces failErase (updateFlash real T.banks q.first q.source) fun _ log =>
      ∃ r c r' post, log = (.calloc, r) :: (.erase c, r') :: post := by
  rw [UpdateRequest.last?] at hlast
  rw [updateFlash, hlast]
  refine Prog.Traces.ite (fun hle => absurd hlt (by omega)) fun _ => ?_
  refine Prog.Traces.bind (S := fun out log => out.1 = 0 ∧ out.2.map SavedBank.info = T.banks
    ∧ ∃ r, log = [(.calloc, r)]) ?_ ?_
  · refine (updateFlashProtect_quiet failErase real hfree).mono ?_
    rintro out _ ⟨⟨s, rfl, hret⟩, hinfo, -⟩
    exact ⟨hret one_ne_zero, hinfo, _, rfl⟩
  · rintro ⟨ret, bs'⟩ _ ⟨hret, hinfo, r, rfl⟩
    refine Prog.Traces.ite (fun hpos => absurd hret (Nat.pos_iff_ne_zero.1 hpos)) fun _ => ?_
    dsimp only at hinfo ⊢
    rw [hinfo]
    refine Prog.Traces.bind (S := fun _ log => ∃ c r' post, log = (.erase c, r') :: post) ?_ ?_
    · refine Prog.Traces.mapOp (Prog.Traces.ite (fun _ => ?_) fun hno => absurd hplan hno)
      refine (eraseRanges_first _ 0 (rangePlanned_of_count _ _ _ hplan.1)).mono ?_
      rintro _ _ ⟨c, r', post, rfl, -⟩
      exact ⟨c, r', _, rfl⟩
    · rintro ret' _ ⟨c, r', post, rfl⟩ s
      exact ⟨r, c, r', _, rfl⟩

theorem updateClear_of_right (real : Bool)
    (hright : Prog.Traces failErase (updateFlash real T.banks q.first q.source)
      (UpdateRight T q)) : UpdateClear T q := by
  intro l hlast hlt
  have hfree : HeadFree T q.first l := fun b hb i hi hf hl hone => by
    obtain ⟨bs, hbs⟩ := List.head?_eq_some_iff.1 hb
    obtain ⟨b', hb', hzero⟩ := updateFlash_opens real hlast hlt hbs hi hf hl hone ()
    have hkept := congrArg List.head? (hright ()).kept
    rw [List.head?_map, List.head?_map, hb', hb] at hkept
    have hflag := congrFun (Option.some.inj hkept) i
    omega
  refine ⟨hfree, fun hplan bank b i hb hmeet => ?_⟩
  by_contra hne
  obtain ⟨r, c, r', post, hlog⟩ := updateFlash_erases real hlast hlt hfree hplan ()
  obtain ⟨_, hmem⟩ := (hright ()).all [(.calloc, r)] _ post hlog trivial l hlast bank b i
    hb hmeet hne
  simp at hmem

/-- The protection is right in every run if and only if there is nothing to unprotect. -/
theorem updateRight_iff (T : UpdateTable) (q : UpdateRequest) (real : Bool) :
    (∀ {σ : Type} (h : σ → UpdateOp → ℤ × σ),
      Prog.Traces h (updateFlash real T.banks q.first q.source) (UpdateRight T q))
    ↔ UpdateClear T q :=
  ⟨fun hright => updateClear_of_right real (hright failErase),
    fun hclear _ h => updateRight_of_clear h real hclear⟩

theorem oneProtected_start_lt (b : FlashInfo)
    (hb : b ∈ [{ oneSector with protect := fun _ => 1 }]) : b.start 0 < 2 ^ 32 := by
  obtain rfl := List.mem_singleton.1 hb
  simp [oneSector]

theorem oneProtected_exists_iff (b : FlashInfo)
    (hb : b ∈ [{ oneSector with protect := fun _ => 1 }]) :
    b.known = true ↔ b.sectorCount ≠ 0 := by
  obtain rfl := List.mem_singleton.1 hb
  simp [oneSector]

/-- One bank with one sector, which is protected. -/
def oneProtected : UpdateTable where
  banks := [{ oneSector with protect := fun _ => 1 }]
  start_lt := oneProtected_start_lt
  valid b hb _ := by
    obtain rfl := List.mem_singleton.1 hb
    exact { oneSector_valid with ordered := oneSector_valid.ordered }
  disjoint i j b c hi hj hij := by
    have := (List.getElem?_eq_some_iff.1 hi).1
    have := (List.getElem?_eq_some_iff.1 hj).1
    simp at *
    omega
  exists_iff := oneProtected_exists_iff

/-- The sector cannot be erased, and stays unprotected. -/
theorem updateRight_erase_fails : ¬Prog.Traces failErase
    (updateFlash false oneProtected.banks 0 [0]) (UpdateRight oneProtected ⟨0, [0]⟩) :=
      fun hright => by
  obtain ⟨hfree, -⟩ := updateClear_of_right false hright 0xff rfl (by simp)
  exact hfree _ rfl 0 Nat.one_pos (Nat.zero_le _) (Nat.zero_le _) rfl

end Broken

end InfotmUboot
