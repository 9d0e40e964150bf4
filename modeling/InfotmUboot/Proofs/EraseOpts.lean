import InfotmUboot.EraseOpts
import InfotmUboot.Lib.Trace
import Mathlib.Algebra.Order.Ring.Nat
import Mathlib.Tactic.Ring

/-!
# What an erase with options reports

The loop visits each block of the range once, and only a failed check ends it. So a result of 0 says
nothing of the erases and the writes (`eraseOptsRight_iff`). The check function is put back by every
run.
-/

namespace InfotmUboot

open Lib

/-- The replies of a device, by the address: a run asks each once. A check that does not fail tells
the bad blocks, and what is not aligned to a block is not erased. -/
structure EraseWorld (d : EraseDevice) where
  bad : ℕ → Bool
  isbad : ℕ → ℤ
  erase : ℕ → ℤ
  writeOob : ℕ → ℤ
  check : ∀ a, 0 ≤ isbad a → (0 < isbad a ↔ bad (a / d.erasesize) = true)
  aligned : ∀ a, erase a = 0 → d.erasesize ∣ a

section World

variable {d : EraseDevice} (w : EraseWorld d) (opts : EraseOptions)

def EraseWorld.reply : EraseOp → ℤ
  | .blockIsbad a => w.isbad a
  | .erase a => w.erase a
  | .writeOob a => w.writeOob a
  | .dropBbt => 0
  | .scanBbt => 0

def EraseWorld.handle (_ : Unit) (o : EraseOp) : ℤ × Unit := (w.reply o, ())

variable (d) in
/-- The address is one of the loop from `addr` on. -/
def Visited (addr a : ℕ) : Prop :=
  ∃ k, a = addr + k * d.erasesize ∧ a < opts.offset + d.eraseLength opts

/-- A block that the loop takes for a good one. -/
def EraseWorld.Passes (a : ℕ) : Prop := opts.scrub = true ∨ w.isbad a = 0

/-- What a run of the loop leaves. -/
structure EraseLoop (addr : ℕ) (ret : ℤ) (log : List (EraseOp × ℤ)) : Prop where
  code : ret = 0 ∧ (opts.scrub = false → ∀ a, Visited d opts addr a → 0 ≤ w.isbad a) ∨
    ret = -1 ∧ opts.scrub = false ∧ ∃ a, Visited d opts addr a ∧ w.isbad a < 0
  erase : ∀ a r, (.erase a, r) ∈ log → Visited d opts addr a ∧ r = w.erase a ∧ w.Passes opts a
  oob : ∀ a r, (.writeOob a, r) ∈ log →
    Visited d opts addr a ∧ r = w.writeOob a ∧ 8 ≤ d.oobavail
  all : ret = 0 → ∀ a, Visited d opts addr a → w.Passes opts a → (.erase a, w.erase a) ∈ log
    ∧ (w.erase a = 0 → opts.jffs2 = true → 8 ≤ d.oobavail → (.writeOob a, w.writeOob a) ∈ log)

variable {opts} {addr a : ℕ} {ret : ℤ} {log : List (EraseOp × ℤ)}

theorem visited_self (h : addr < opts.offset + d.eraseLength opts) : Visited d opts addr addr :=
  ⟨0, by rw [Nat.zero_mul, Nat.add_zero], h⟩

theorem visited_next (h : Visited d opts (addr + d.erasesize) a) : Visited d opts addr a := by
  obtain ⟨k, hk, hlt⟩ := h
  exact ⟨k + 1, by rw [hk]; ring, hlt⟩

theorem visited_cases (h : Visited d opts addr a) :
    a = addr ∨ Visited d opts (addr + d.erasesize) a := by
  obtain ⟨_ | k, hk, hlt⟩ := h
  · exact .inl (by rw [hk, Nat.zero_mul, Nat.add_zero])
  · exact .inr ⟨k, by rw [hk]; ring, hlt⟩

variable {w}

/-- The loop goes on behind a block with `pre` in the log. -/
theorem EraseLoop.cons (h : EraseLoop w opts (addr + d.erasesize) ret log)
    (hlt : addr < opts.offset + d.eraseLength opts) {pre : List (EraseOp × ℤ)}
    (hcheck : opts.scrub = false → 0 ≤ w.isbad addr)
    (herase : ∀ a r, (.erase a, r) ∈ pre → a = addr ∧ r = w.erase a ∧ w.Passes opts a)
    (hoob : ∀ a r, (.writeOob a, r) ∈ pre → a = addr ∧ r = w.writeOob a ∧ 8 ≤ d.oobavail)
    (hall : w.Passes opts addr → (.erase addr, w.erase addr) ∈ pre
      ∧ (w.erase addr = 0 → opts.jffs2 = true → 8 ≤ d.oobavail →
        (.writeOob addr, w.writeOob addr) ∈ pre)) :
    EraseLoop w opts addr ret (pre ++ log) := by
  have hself := visited_self hlt
  refine ⟨?_, fun a r hm => ?_, fun a r hm => ?_, fun h0 a ha hp => ?_⟩
  · obtain ⟨h0, hno⟩ | ⟨h1, hs, a, ha, hneg⟩ := h.code
    · refine .inl ⟨h0, fun hs a ha => ?_⟩
      rcases visited_cases ha with rfl | ha
      · exact hcheck hs
      · exact hno hs a ha
    · exact .inr ⟨h1, hs, a, visited_next ha, hneg⟩
  · rcases List.mem_append.1 hm with hm | hm
    · obtain ⟨rfl, hr⟩ := herase a r hm
      exact ⟨hself, hr⟩
    · obtain ⟨ha, hr⟩ := h.erase a r hm
      exact ⟨visited_next ha, hr⟩
  · rcases List.mem_append.1 hm with hm | hm
    · obtain ⟨rfl, hr⟩ := hoob a r hm
      exact ⟨hself, hr⟩
    · obtain ⟨ha, hr⟩ := h.oob a r hm
      exact ⟨visited_next ha, hr⟩
  · rcases visited_cases ha with rfl | ha
    · obtain ⟨he, ho⟩ := hall hp
      exact ⟨List.mem_append_left _ he, fun h1 h2 h3 => List.mem_append_left _ (ho h1 h2 h3)⟩
    · obtain ⟨he, ho⟩ := h.all h0 a ha hp
      exact ⟨List.mem_append_right _ he, fun h1 h2 h3 => List.mem_append_right _ (ho h1 h2 h3)⟩

/-- The erase of a block, and the write of its cleanmarker. -/
structure EraseVisit (w : EraseWorld d) (opts : EraseOptions) (addr : ℕ)
    (log : List (EraseOp × ℤ)) : Prop where
  erase : ∀ a r, (.erase a, r) ∈ log → a = addr ∧ r = w.erase a
  oob : ∀ a r, (.writeOob a, r) ∈ log → a = addr ∧ r = w.writeOob a ∧ 8 ≤ d.oobavail
  all : (.erase addr, w.erase addr) ∈ log
    ∧ (w.erase addr = 0 → opts.jffs2 = true → 8 ≤ d.oobavail →
      (.writeOob addr, w.writeOob addr) ∈ log)

theorem eraseOptsBlock_visit : Prog.Traces w.handle (d.eraseOptsBlock opts addr)
    fun _ log => EraseVisit w opts addr log := by
  refine Prog.Traces.bind (S := fun r l => r = w.erase addr ∧ l = [(.erase addr, w.erase addr)])
    (Prog.traces_op fun _ => ⟨rfl, rfl⟩) ?_
  rintro _ _ ⟨rfl, rfl⟩
  refine Prog.Traces.ite (fun hc => ?_) fun hc => ?_
  · refine Prog.Traces.bind (S := fun _ l => l = [(.writeOob addr, w.writeOob addr)])
      (Prog.traces_op fun _ => rfl) ?_
    rintro _ _ rfl
    refine Prog.traces_pure ⟨fun a r hm => ?_, fun a r hm => ?_, by simp, by simp⟩
    · obtain ⟨rfl, rfl⟩ : a = addr ∧ r = w.erase addr := by simpa using hm
      exact ⟨rfl, rfl⟩
    · obtain ⟨rfl, rfl⟩ : a = addr ∧ r = w.writeOob addr := by simpa using hm
      exact ⟨rfl, rfl, hc.2.2⟩
  · refine Prog.traces_pure ⟨fun a r hm => ?_, fun a r hm => ?_, by simp, ?_⟩
    · obtain ⟨rfl, rfl⟩ : a = addr ∧ r = w.erase addr := by simpa using hm
      exact ⟨rfl, rfl⟩
    · simp at hm
    · exact fun h1 h2 h3 => absurd ⟨h1, h2, h3⟩ hc

variable (w opts)

theorem eraseOptsLoop_right (addr : ℕ) :
    Prog.Traces w.handle (d.eraseOptsLoop opts addr) (EraseLoop w opts addr) := by
  rw [EraseDevice.eraseOptsLoop]
  have hpos := d.pos
  refine Prog.Traces.ite (fun hlt => ?_) fun hge => ?_
  · have hrest := eraseOptsLoop_right (addr + d.erasesize)
    have hvisit : w.Passes opts addr → ∀ pre, (∀ a r, (.erase a, r) ∉ pre) →
        (∀ a r, (.writeOob a, r) ∉ pre) → (opts.scrub = false → 0 ≤ w.isbad addr) →
        Prog.Traces w.handle (d.eraseOptsBlock opts addr >>= fun _ =>
          d.eraseOptsLoop opts (addr + d.erasesize)) fun ret log =>
            EraseLoop w opts addr ret (pre ++ log) := fun hp pre hpe hpo hcheck => by
      refine eraseOptsBlock_visit.bind fun _ l hl => hrest.mono fun ret log h => ?_
      rw [← List.append_assoc]
      refine h.cons hlt hcheck (fun a r hm => ?_) (fun a r hm => ?_) fun _ => ?_
      · obtain ⟨rfl, hr⟩ := hl.erase a r ((List.mem_append.1 hm).resolve_left (hpe a r))
        exact ⟨rfl, hr, hp⟩
      · exact hl.oob a r ((List.mem_append.1 hm).resolve_left (hpo a r))
      · exact ⟨List.mem_append_right _ hl.all.1,
          fun h1 h2 h3 => List.mem_append_right _ (hl.all.2 h1 h2 h3)⟩
    refine Prog.Traces.ite (fun hs => ?_) fun hs => ?_
    · exact hvisit (.inl hs) [] (by simp) (by simp) fun hs' => by simp [hs] at hs'
    · refine Prog.Traces.bind (S := fun r l => r = w.isbad addr ∧
        l = [(.blockIsbad addr, w.isbad addr)]) (Prog.traces_op fun _ => ⟨rfl, rfl⟩) ?_
      rintro _ _ ⟨rfl, rfl⟩
      refine Prog.Traces.ite (fun hbad => ?_) fun hbad => Prog.Traces.ite (fun hneg => ?_)
        fun hneg => ?_
      · refine hrest.mono fun ret log h => h.cons hlt (fun _ => hbad.le) (by simp) (by simp) ?_
        rintro (hs' | h0)
        · exact absurd hs' hs
        · exact absurd h0 hbad.ne'
      · refine Prog.traces_pure ⟨.inr ⟨rfl, by simpa using hs, addr, visited_self hlt, hneg⟩,
          by simp, by simp, fun h0 => by simp at h0⟩
      · exact hvisit (.inr (by omega)) _ (by simp) (by simp) fun _ => by omega
  · have hno : ∀ a, ¬Visited d opts addr a := by
      rintro a ⟨k, hk, hlt⟩
      exact hge (by omega)
    exact Prog.traces_pure ⟨.inl ⟨rfl, fun _ a ha => absurd ha (hno a)⟩, by simp, by simp,
      fun _ a ha => absurd ha (hno a)⟩
termination_by opts.offset + d.eraseLength opts - addr
decreasing_by omega

end World

section Blocks

variable {d : EraseDevice} (w : EraseWorld d) (opts : EraseOptions) (blockBad : BlockBad)

/-- The block has a byte of the range that is asked for. -/
def EraseOptions.Meets (d : EraseDevice) (b : ℕ) : Prop :=
  ∃ x, opts.offset ≤ x ∧ x < opts.offset + opts.length ∧ x / d.erasesize = b

/-- What is promised of a run. -/
structure EraseOptsRight (out : ℤ × BlockBad) (log : List (EraseOp × ℤ)) : Prop where
  erased : out.1 = 0 → ∀ b, opts.Meets d b → w.bad b = false →
    (∃ a, (.erase a, 0) ∈ log ∧ a / d.erasesize = b)
      ∧ (opts.jffs2 = true → ∃ a, (.writeOob a, 0) ∈ log ∧ a / d.erasesize = b)
  inside : ∀ a, (.erase a, 0) ∈ log → opts.Meets d (a / d.erasesize)
  restored : out.2 = blockBad

/-- A check fails on the way. -/
def EraseWorld.CheckFails : Prop :=
  opts.scrub = false ∧ ∃ a, Visited d opts opts.offset a ∧ w.isbad a < 0

/-- A block is not erased for a range of no bytes; and a check fails, or the offset is aligned,
nothing that is asked for a good block of the range fails, and there is room for a cleanmarker. -/
structure EraseOptsClear : Prop where
  empty : opts.length = 0 → w.Passes opts opts.offset → w.erase opts.offset ≠ 0
  clean : w.CheckFails opts ∨ ∀ b, opts.Meets d b → w.bad b = false →
    d.erasesize ∣ opts.offset ∧ w.erase (b * d.erasesize) = 0
      ∧ (opts.jffs2 = true → 8 ≤ d.oobavail ∧ w.writeOob (b * d.erasesize) = 0)

variable {w opts}

/-- The run is that of the loop, and puts the check function back. -/
theorem nandEraseOpts_loop : Prog.Traces w.handle (d.nandEraseOpts opts blockBad) fun out log =>
    out.2 = blockBad ∧ ∃ l, EraseLoop w opts opts.offset out.1 l
      ∧ (∀ a r, (.erase a, r) ∈ log ↔ (.erase a, r) ∈ l)
      ∧ ∀ a r, (.writeOob a, r) ∈ log ↔ (.writeOob a, r) ∈ l := by
  refine Prog.Traces.ite (fun hs => ?_) fun hs => ?_
  · refine Prog.Traces.bind (S := fun _ l => l = [(.dropBbt, 0)]) (Prog.traces_op fun _ => rfl) ?_
    rintro _ _ rfl
    refine (eraseOptsLoop_right w opts opts.offset).bind fun ret l hl => ?_
    obtain ⟨rfl, -⟩ := hl.code.resolve_right fun h => by simp [hs] at h
    refine Prog.Traces.ite (fun h0 => absurd rfl h0) fun _ => ?_
    refine Prog.Traces.bind (S := fun _ l => l = [(.scanBbt, 0)]) (Prog.traces_op fun _ => rfl) ?_
    rintro _ _ rfl
    exact Prog.traces_pure ⟨rfl, l, hl, by simp, by simp⟩
  · refine (eraseOptsLoop_right w opts opts.offset).bind fun ret l hl => ?_
    exact Prog.traces_pure ⟨rfl, l, hl, by simp, by simp⟩

theorem EraseWorld.passes_of_good {a : ℕ} (hfail : ¬w.CheckFails opts)
    (ha : Visited d opts opts.offset a) (hgood : w.bad (a / d.erasesize) = false) :
    w.Passes opts a := by
  by_cases hs : opts.scrub = true
  · exact .inl hs
  · have hneg : ¬w.isbad a < 0 := fun h => hfail ⟨by simpa using hs, a, ha, h⟩
    have hcheck := w.check a (by omega)
    rw [hgood] at hcheck
    simp only [Bool.false_eq_true, iff_false] at hcheck
    exact .inr (by omega)

/-- A block of the range is one of the loop where the offset is aligned. -/
theorem visited_of_meets {b : ℕ} (hdvd : d.erasesize ∣ opts.offset) (hb : opts.Meets d b) :
    Visited d opts opts.offset (b * d.erasesize) := by
  obtain ⟨x, hlo, hhi, rfl⟩ := hb
  obtain ⟨q, hq⟩ := hdvd
  have hpos := d.pos
  have hle : x / d.erasesize * d.erasesize ≤ x := Nat.div_mul_le_self x d.erasesize
  have hqx : q ≤ x / d.erasesize := (Nat.le_div_iff_mul_le hpos).2
    (by rw [Nat.mul_comm, ← hq]; exact hlo)
  refine ⟨x / d.erasesize - q, ?_, ?_⟩
  · rw [hq, Nat.mul_comm d.erasesize q, ← Nat.add_mul, Nat.add_sub_cancel' hqx]
  · unfold EraseDevice.eraseLength
    split_ifs <;> omega

/-- An address of the loop that is aligned, with the block that it is the first of. -/
theorem aligned_of_visited {a : ℕ} (ha : Visited d opts opts.offset a) (hdvd : d.erasesize ∣ a) :
    d.erasesize ∣ opts.offset ∧ a = a / d.erasesize * d.erasesize := by
  obtain ⟨k, hk, -⟩ := ha
  refine ⟨(Nat.dvd_add_left (Nat.dvd_mul_left d.erasesize k)).1 (hk ▸ hdvd), ?_⟩
  exact (Nat.div_mul_cancel hdvd).symm

theorem visited_of_short {a : ℕ} (ha : Visited d opts opts.offset a)
    (hshort : opts.length < d.erasesize) : a = opts.offset := by
  obtain ⟨_ | k, hk, hlt⟩ := ha
  · rw [hk, Nat.zero_mul, Nat.add_zero]
  · unfold EraseDevice.eraseLength at hlt
    rw [if_pos hshort, hk, Nat.succ_mul] at hlt
    omega

variable {blockBad} {out : ℤ × BlockBad} {log l : List (EraseOp × ℤ)}

theorem EraseOptsClear.right (hclear : EraseOptsClear w opts) (hout : out.2 = blockBad)
    (hl : EraseLoop w opts opts.offset out.1 l) (he : ∀ a r, (.erase a, r) ∈ log ↔ (.erase a, r) ∈
      l)
    (ho : ∀ a r, (.writeOob a, r) ∈ log ↔ (.writeOob a, r) ∈ l) :
    EraseOptsRight w opts blockBad out log := by
  refine ⟨fun h0 b hb hgood => ?_, fun a ha => ?_, hout⟩
  · have hfail : ¬w.CheckFails opts := fun ⟨hs, a, ha, hneg⟩ => by
      obtain ⟨-, hno⟩ | ⟨h1, -⟩ := hl.code
      · exact absurd (hno hs a ha) (by omega)
      · simp [h0] at h1
    obtain ⟨hdvd, herase, hoob⟩ := (hclear.clean.resolve_left hfail) b hb hgood
    have hvis := visited_of_meets hdvd hb
    have hdiv : b * d.erasesize / d.erasesize = b := Nat.mul_div_cancel b d.pos
    obtain ⟨hin, hmark⟩ := hl.all h0 _ hvis (w.passes_of_good hfail hvis
      (by rw [hdiv]; exact hgood))
    refine ⟨⟨_, (he _ _).2 (herase ▸ hin), hdiv⟩, fun hj => ?_⟩
    obtain ⟨hroom, hwrite⟩ := hoob hj
    exact ⟨_, (ho _ _).2 (hwrite ▸ hmark herase hj hroom), hdiv⟩
  · obtain ⟨hvis, hzero, hpass⟩ := hl.erase a 0 ((he a 0).1 ha)
    by_cases hshort : opts.length < d.erasesize
    · obtain rfl := visited_of_short hvis hshort
      have hne : opts.length ≠ 0 := fun h0 => hclear.empty h0 hpass hzero.symm
      exact ⟨opts.offset, le_rfl, by omega, rfl⟩
    · obtain ⟨k, hk, hlt⟩ := hvis
      unfold EraseDevice.eraseLength at hlt
      rw [if_neg hshort] at hlt
      exact ⟨a, by omega, hlt, rfl⟩

theorem eraseOptsClear_of_right (hright : EraseOptsRight w opts blockBad out log)
    (hl : EraseLoop w opts opts.offset out.1 l) (he : ∀ a r, (.erase a, r) ∈ log ↔ (.erase a, r) ∈
      l)
    (ho : ∀ a r, (.writeOob a, r) ∈ log ↔ (.writeOob a, r) ∈ l) : EraseOptsClear w opts := by
  have hpos := d.pos
  have hself : Visited d opts opts.offset opts.offset := visited_self <| by
    unfold EraseDevice.eraseLength
    split_ifs <;> omega
  have hcode : ¬w.CheckFails opts → out.1 = 0 := fun hfail => by
    obtain ⟨h0, -⟩ | ⟨-, hs, hneg⟩ := hl.code
    · exact h0
    · exact absurd ⟨hs, hneg⟩ hfail
  refine ⟨fun h0 hpass hzero => ?_, or_iff_not_imp_left.2 fun hfail b hb hgood => ?_⟩
  · have hfail : ¬w.CheckFails opts := fun ⟨hs, a, ha, hneg⟩ => by
      obtain rfl := visited_of_short ha (by omega)
      rcases hpass with hs' | h
      · simp [hs] at hs'
      · omega
    have hin := (hl.all (hcode hfail) _ hself hpass).1
    rw [hzero] at hin
    obtain ⟨x, hlo, hhi, -⟩ := hright.inside _ ((he _ _).2 hin)
    omega
  · obtain ⟨⟨a, ha, rfl⟩, hmark⟩ := hright.erased (hcode hfail) b hb hgood
    obtain ⟨hvis, hzero, -⟩ := hl.erase a 0 ((he a 0).1 ha)
    obtain ⟨hdvd, heq⟩ := aligned_of_visited hvis (w.aligned a hzero.symm)
    refine ⟨hdvd, heq ▸ hzero.symm, fun hj => ?_⟩
    obtain ⟨c, hc, hblock⟩ := hmark hj
    obtain ⟨⟨k, hk, -⟩, hwrite, hroom⟩ := hl.oob c 0 ((ho c 0).1 hc)
    have hcdvd : d.erasesize ∣ c := hk ▸ (Nat.dvd_add hdvd (Nat.dvd_mul_left d.erasesize k))
    rw [← hblock, Nat.div_mul_cancel hcdvd]
    exact ⟨hroom, hwrite.symm⟩

theorem eraseOptsRight_iff (w : EraseWorld d) (opts : EraseOptions) (blockBad : BlockBad) :
    Prog.Traces w.handle (d.nandEraseOpts opts blockBad) (EraseOptsRight w opts blockBad)
      ↔ EraseOptsClear w opts := by
  constructor
  · intro hright
    obtain ⟨-, l, hl, he, ho⟩ := nandEraseOpts_loop blockBad ()
    exact eraseOptsClear_of_right (hright ()) hl he ho
  · intro hclear
    refine (nandEraseOpts_loop blockBad).mono ?_
    rintro out log ⟨hout, l, hl, he, ho⟩
    exact hclear.right hout hl he ho

/-- Two blocks of 4 bytes, whose erases fail. -/
def wornWorld : EraseWorld ⟨4, 8, by omega⟩ where
  bad _ := false
  isbad _ := 0
  erase _ := -5
  writeOob _ := 0
  check _ _ := by simp
  aligned _ h := by simp at h

/-- A block that is not erased is not reported. -/
theorem eraseOptsRight_worn : ¬Prog.Traces wornWorld.handle
    (EraseDevice.nandEraseOpts ⟨4, 8, by omega⟩ ⟨0, 4, false, false⟩ .device)
    (EraseOptsRight wornWorld ⟨0, 4, false, false⟩ .device) := fun h => by
  obtain ⟨-, l, hl, he, ho⟩ := nandEraseOpts_loop (w := wornWorld) .device ()
  obtain ⟨-, ⟨-, a, -, hneg⟩ | hall⟩ := eraseOptsClear_of_right (h ()) hl he ho
  · simp [wornWorld] at hneg
  · have herase := (hall 0 ⟨0, le_rfl, by simp, by simp⟩ rfl).2.1
    simp [wornWorld] at herase

end Blocks

end InfotmUboot
