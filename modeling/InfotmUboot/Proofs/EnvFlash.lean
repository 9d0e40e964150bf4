import InfotmUboot.EnvFlash
import InfotmUboot.Proofs.ErasedCrc

/-!
# What a boot selects from NOR flash

Which sector `env_init` takes, what the repair of the flags by `env_relocate_spec` leaves, and what
a `saveenv` leaves when the power goes after any of its operations.
-/

namespace InfotmUboot

open Lib

structure NorEnv.Valid (c : NorEnv) : Prop where
  size_gt : 4 < c.size
  size_lt : c.size < 2 ^ 32
  default_le : c.defaultEnvironment.length ≤ c.size

section Select

variable (c : NorEnv)

/-- The sector a boot takes, if it takes one. -/
def NorEnv.selected (m : NorFlash) : Option Bool := (envInit c m).1

def NorEnv.dataOf (s : NorSector) : List UInt8 := s.data.load 0 c.size

/-- The data that a boot takes. -/
def NorEnv.current (m : NorFlash) : List UInt8 :=
  match c.selected m with
  | none => c.defaultEnv.data.load 0 c.size
  | some b => c.dataOf (m b)

/-- The flags that are ever written, or erased ones. -/
def FlagOk (f : UInt8) : Prop := f = ACTIVE_FLAG ∨ f = OBSOLETE_FLAG ∨ f = 0xff

instance (f : UInt8) : Decidable (FlagOk f) := inferInstanceAs (Decidable (_ ∨ _ ∨ _))

def NorEnv.FlagsOk (m : NorFlash) : Prop := ∀ b, c.crcOk (m b) = true → FlagOk (m b).flags

instance (m : NorFlash) : Decidable (c.FlagsOk m) :=
  inferInstanceAs (Decidable (∀ b, c.crcOk (m b) = true → FlagOk (m b).flags))

variable {c} {m : NorFlash} {b : Bool}

theorem selected_only (h : c.crcOk (m b) = true) (ho : c.crcOk (m !b) = false) :
    c.selected m = some b := by
  unfold NorEnv.selected envInit
  cases b
  · rw [if_pos ⟨h, ho⟩]
  · rw [if_neg fun hc => absurd (ho.symm.trans hc.1) Bool.false_ne_true, if_pos ⟨ho, h⟩]

theorem selected_none (h : c.crcOk (m b) = false) (ho : c.crcOk (m !b) = false) :
    c.selected m = none := by
  have h0 : ∀ b, c.crcOk (m b) = false := by
    intro x
    rcases Bool.eq_or_eq_not x b with rfl | rfl
    · exact h
    · exact ho
  unfold NorEnv.selected envInit
  simp [h0]

/-- With two copies, the flags decide. -/
theorem selected_both (h1 : c.crcOk (m false) = true) (h2 : c.crcOk (m true) = true) :
    c.selected m =
      if (m false).flags = ACTIVE_FLAG ∧ (m true).flags = OBSOLETE_FLAG then some false
      else if (m false).flags = OBSOLETE_FLAG ∧ (m true).flags = ACTIVE_FLAG then some true
      else if (m false).flags = (m true).flags then some false
      else if (m false).flags = 0xff then some false
      else if (m true).flags = 0xff then some true
      else none := by
  unfold NorEnv.selected envInit
  simp only [h1, h2, Bool.true_eq_false, and_false, false_and, if_false]
  split_ifs <;> rfl

theorem both_cases (h : c.crcOk (m b) = true) (ho : c.crcOk (m !b) = true) :
    c.crcOk (m false) = true ∧ c.crcOk (m true) = true := by
  cases b
  · exact ⟨h, ho⟩
  · exact ⟨ho, h⟩

/-- A copy with erased flags is newer than one with flags. -/
theorem selected_erased (h : c.crcOk (m b) = true) (hf : (m b).flags = 0xff)
    (hfo : (m !b).flags = ACTIVE_FLAG ∨ (m !b).flags = OBSOLETE_FLAG) : c.selected m = some b := by
  by_cases ho : c.crcOk (m !b) = true
  · obtain ⟨h1, h2⟩ := both_cases h ho
    rw [selected_both h1 h2]
    cases b
    · simp only [Bool.not_false] at hfo
      rcases hfo with hfo | hfo <;> rw [hf, hfo] <;> rfl
    · simp only [Bool.not_true] at hfo
      rcases hfo with hfo | hfo <;> rw [hf, hfo] <;> rfl
  · exact selected_only h (Bool.eq_false_iff.2 ho)

theorem selected_active (h : c.crcOk (m b) = true) (hf : (m b).flags = ACTIVE_FLAG)
    (hfo : (m !b).flags = OBSOLETE_FLAG) : c.selected m = some b := by
  by_cases ho : c.crcOk (m !b) = true
  · obtain ⟨h1, h2⟩ := both_cases h ho
    rw [selected_both h1 h2]
    cases b
    · simp only [Bool.not_false] at hfo
      rw [hf, hfo]; rfl
    · simp only [Bool.not_true] at hfo
      rw [hf, hfo]; rfl
  · exact selected_only h (Bool.eq_false_iff.2 ho)

theorem selected_crcOk (h : c.selected m = some b) : c.crcOk (m b) = true := by
  by_contra hb
  have hb := Bool.eq_false_iff.2 hb
  by_cases ho : c.crcOk (m !b) = true
  · have := selected_only (m := m) (b := !b) ho (by rwa [Bool.not_not])
    rw [this, Option.some.injEq] at h
    exact Bool.not_ne_self b h
  · rw [selected_none hb (Bool.eq_false_iff.2 ho)] at h
    exact absurd h (by simp)

/-- A copy with a right checksum is enough for a boot to take one. -/
theorem selected_of_crcOk (hf : c.FlagsOk m) (h : c.crcOk (m b) = true) :
    ∃ b, c.selected m = some b := by
  by_cases ho : c.crcOk (m !b) = true
  · obtain ⟨h1, h2⟩ := both_cases h ho
    have hf1 := hf _ h1
    have hf2 := hf _ h2
    rw [selected_both h1 h2]
    rcases hf1 with hf1 | hf1 | hf1 <;> rcases hf2 with hf2 | hf2 | hf2 <;> rw [hf1, hf2]
    · exact ⟨false, rfl⟩
    · exact ⟨false, rfl⟩
    · exact ⟨true, rfl⟩
    · exact ⟨true, rfl⟩
    · exact ⟨false, rfl⟩
    · exact ⟨true, rfl⟩
    · exact ⟨false, rfl⟩
    · exact ⟨false, rfl⟩
    · exact ⟨false, rfl⟩
  · exact ⟨b, selected_only h (Bool.eq_false_iff.2 ho)⟩

/-- Of two obsolete copies the first is taken. -/
theorem selected_obsolete (h : c.selected m = some b) (ho : c.crcOk (m !b) = true)
    (hf : (m b).flags = OBSOLETE_FLAG) : b = false := by
  cases b
  · rfl
  · have h2 := selected_crcOk h
    have hne : OBSOLETE_FLAG ≠ ACTIVE_FLAG ∧ OBSOLETE_FLAG ≠ 0xff := by decide
    rw [Bool.not_true] at ho
    rw [selected_both ho h2, hf, if_neg (c := _ ∧ OBSOLETE_FLAG = ACTIVE_FLAG) fun hc => hne.1 hc.2,
      if_neg (c := OBSOLETE_FLAG = 0xff) hne.2] at h
    split_ifs at h <;> simp at h

end Select

section Repair

variable {c : NorEnv} {m : NorFlash} {b : Bool}

/-- Only the flags of one sector are other than before. -/
def withFlags (m : NorFlash) (b : Bool) (f : UInt8) : NorFlash :=
  Function.update m b { m b with flags := f }

@[simp]
theorem withFlags_same (f : UInt8) : (withFlags m b f) b = { m b with flags := f } :=
  Function.update_self ..

@[simp]
theorem withFlags_other (f : UInt8) : (withFlags m b f) (!b) = m !b :=
  Function.update_of_ne (Bool.not_ne_self b) ..

@[simp]
theorem withFlags_not (f : UInt8) : (withFlags m (!b) f) b = m b :=
  Function.update_of_ne (Bool.not_ne_self b).symm ..

theorem withFlags_crcOk (f : UInt8) (x : Bool) :
    c.crcOk ((withFlags m b f) x) = c.crcOk (m x) ∧
      c.dataOf ((withFlags m b f) x) = c.dataOf (m x) := by
  rcases Bool.eq_or_eq_not x b with rfl | rfl
  · rw [withFlags_same]; exact ⟨rfl, rfl⟩
  · rw [withFlags_other]; exact ⟨rfl, rfl⟩

theorem withFlags_flagsOk {f : UInt8} (h : c.FlagsOk m) (hf : c.crcOk (m b) = true → FlagOk f) :
    c.FlagsOk (withFlags m b f) := by
  intro x hx
  rw [(withFlags_crcOk f x).1] at hx
  rcases Bool.eq_or_eq_not x b with rfl | rfl
  · rw [withFlags_same]; exact hf hx
  · rw [withFlags_other]; exact h _ hx

/-- The repair of the copy not in use changes nothing for a boot. -/
theorem selected_repair_other (hf : c.FlagsOk m) (h : c.selected m = some b) :
    c.selected (withFlags m (!b) OBSOLETE_FLAG) = some b := by
  have hok := selected_crcOk h
  have hok' : c.crcOk ((withFlags m (!b) OBSOLETE_FLAG) b) = true := by
    rw [(withFlags_crcOk _ b).1, hok]
  have hflags : ((withFlags m (!b) OBSOLETE_FLAG) b).flags = (m b).flags := by
    rw [withFlags_not]
  have ho : ((withFlags m (!b) OBSOLETE_FLAG) (!b)).flags = OBSOLETE_FLAG := by
    rw [withFlags_same]
  rcases hf _ hok with hb | hb | hb
  · exact selected_active hok' (hflags.trans hb) ho
  · by_cases hother : c.crcOk (m !b) = true
    · have hfalse := selected_obsolete h hother hb
      subst hfalse
      have hother' : c.crcOk ((withFlags m (!false) OBSOLETE_FLAG) true) = true := by
        rw [(withFlags_crcOk _ true).1]; exact hother
      rw [selected_both hok' hother', hflags, hb]
      simp only [Bool.not_false] at ho ⊢
      rw [ho]
      rfl
    · refine selected_only hok' ?_
      rw [(withFlags_crcOk _ _).1]
      exact Bool.eq_false_iff.2 hother
  · exact selected_erased hok' (hflags.trans hb) (Or.inr ho)

/-- So does the repair of the copy in use, once the other is obsolete. -/
theorem selected_repair (h : c.selected m = some b)
    (ho : c.crcOk (m !b) = false ∨ (m !b).flags = OBSOLETE_FLAG) :
    c.selected (withFlags m b ACTIVE_FLAG) = some b := by
  have hok : c.crcOk ((withFlags m b ACTIVE_FLAG) b) = true := by
    rw [(withFlags_crcOk _ b).1, selected_crcOk h]
  rcases ho with ho | ho
  · refine selected_only hok ?_
    rw [(withFlags_crcOk _ _).1, ho]
  · refine selected_active hok (by rw [withFlags_same]) ?_
    rw [withFlags_other, ho]

/-- What holds after a repair, also one cut off: the same copy is taken, with the same data. -/
structure Repaired (c : NorEnv) (b : Bool) (m m' : NorFlash) : Prop where
  selected : c.selected m' = some b
  flagsOk : c.FlagsOk m'
  crcOk : ∀ x, c.crcOk (m' x) = c.crcOk (m x)
  data : ∀ x, c.dataOf (m' x) = c.dataOf (m x)

theorem Repaired.trans {m1 m2 m3 : NorFlash} (h1 : Repaired c b m1 m2) (h2 : Repaired c b m2 m3) :
    Repaired c b m1 m3 :=
  ⟨h2.selected, h2.flagsOk, fun x => (h2.crcOk x).trans (h1.crcOk x),
    fun x => (h2.data x).trans (h1.data x)⟩

theorem repaired_other (hf : c.FlagsOk m) (h : c.selected m = some b) :
    Repaired c b m (withFlags m (!b) OBSOLETE_FLAG) :=
  ⟨selected_repair_other hf h, withFlags_flagsOk hf fun _ => Or.inr (Or.inl rfl),
    fun x => (withFlags_crcOk _ x).1, fun x => (withFlags_crcOk _ x).2⟩

theorem repaired_self (hf : c.FlagsOk m) (h : c.selected m = some b)
    (ho : c.crcOk (m !b) = false ∨ (m !b).flags = OBSOLETE_FLAG) :
    Repaired c b m (withFlags m b ACTIVE_FLAG) :=
  ⟨selected_repair h ho, withFlags_flagsOk hf fun _ => Or.inl rfl,
    fun x => (withFlags_crcOk _ x).1, fun x => (withFlags_crcOk _ x).2⟩

theorem norRun_flags_obsolete (m : NorFlash) (b : Bool) :
    norRun c [(b, .writeFlags OBSOLETE_FLAG)] m = withFlags m b OBSOLETE_FLAG := by
  simp only [norRun, NorOp.apply, withFlags, OBSOLETE_FLAG, UInt8.and_zero]

theorem norRun_flags_active (h : (m b).flags &&& ACTIVE_FLAG = ACTIVE_FLAG) :
    norRun c [(b, .writeFlags ACTIVE_FLAG)] m = withFlags m b ACTIVE_FLAG := by
  simp only [norRun, NorOp.apply, withFlags, h]

theorem norRun_append (as bs : List (Bool × NorOp)) (m : NorFlash) :
    norRun c (as ++ bs) m = norRun c bs (norRun c as m) := by
  induction as generalizing m with
  | nil => rfl
  | cons a as ih => exact ih _

theorem untilCut_cases (cut : Option ℕ) {as bs : List (Bool × NorOp)} (ha : as.length ≤ 1)
    (hb : bs.length ≤ 1) : untilCut cut (as ++ bs) = [] ∨ untilCut cut (as ++ bs) = as ∨
      untilCut cut (as ++ bs) = as ++ bs := by
  rcases cut with _ | k
  · exact Or.inr (Or.inr rfl)
  · simp only [untilCut]
    by_cases h0 : k = 0
    · exact Or.inl (by rw [h0, List.take_zero])
    · by_cases h1 : k < as.length + bs.length
      · exact Or.inr (Or.inl (List.take_left' (by omega)))
      · exact Or.inr (Or.inr (List.take_of_length_le (by rw [List.length_append]; omega)))

/-- The first write of the repair, if there is one, and what it leaves of the other copy. -/
theorem repair_first (hf : c.FlagsOk m) (h : c.selected m = some b) {as : List (Bool × NorOp)}
    (has : as = if (m !b).flags ≠ OBSOLETE_FLAG ∧ c.crcOk (m !b) = true then
      [(!b, .writeFlags OBSOLETE_FLAG)] else []) :
    Repaired c b m (norRun c as m) ∧ (norRun c as m) b = m b ∧
      (c.crcOk ((norRun c as m) !b) = false ∨ ((norRun c as m) !b).flags = OBSOLETE_FLAG) := by
  subst has
  split_ifs with h1
  · rw [norRun_flags_obsolete]
    exact ⟨repaired_other hf h, withFlags_not _, Or.inr (by rw [withFlags_same])⟩
  · refine ⟨⟨h, hf, fun _ => rfl, fun _ => rfl⟩, rfl, ?_⟩
    rw [not_and_or, not_not] at h1
    rcases h1 with h1 | h1
    · exact Or.inr h1
    · exact Or.inl (Bool.eq_false_iff.2 h1)

/-- The second write, which makes the copy in use active, or leaves it obsolete. -/
theorem repair_second (hf : c.FlagsOk m) (h : c.selected m = some b)
    (ho : c.crcOk (m !b) = false ∨ (m !b).flags = OBSOLETE_FLAG) {bs : List (Bool × NorOp)}
    (hbs : bs = if (m b).flags ≠ ACTIVE_FLAG ∧ (m b).flags &&& ACTIVE_FLAG = ACTIVE_FLAG then
      [(b, .writeFlags ACTIVE_FLAG)] else []) :
    Repaired c b m (norRun c bs m) ∧ (((norRun c bs m) b).flags = ACTIVE_FLAG ∨
      ((norRun c bs m) b).flags = OBSOLETE_FLAG) := by
  subst hbs
  split_ifs with h1
  · rw [norRun_flags_active h1.2]
    exact ⟨repaired_self hf h ho, Or.inl (by rw [withFlags_same])⟩
  · refine ⟨⟨h, hf, fun _ => rfl, fun _ => rfl⟩, ?_⟩
    rcases hf _ (selected_crcOk h) with hb | hb | hb
    · exact Or.inl hb
    · exact Or.inr hb
    · rw [hb] at h1
      exact absurd (by decide) h1

/-- The repair by `env_relocate_spec`, wherever it is cut off, and what it leaves if it is not. -/
theorem repair_spec (hf : c.FlagsOk m) (h : c.selected m = some b) (cut : Option ℕ) :
    Repaired c b m (norRun c (untilCut cut (repairOps c b m)) m) ∧
      (cut = none → ((norRun c (repairOps c b m) m) b).flags = ACTIVE_FLAG ∨
        ((norRun c (repairOps c b m) m) b).flags = OBSOLETE_FLAG) := by
  have hself : Repaired c b m m := ⟨h, hf, fun _ => rfl, fun _ => rfl⟩
  unfold repairOps
  generalize has : (if (m !b).flags ≠ OBSOLETE_FLAG ∧ c.crcOk (m !b) = true then
    [(!b, NorOp.writeFlags OBSOLETE_FLAG)] else []) = as
  generalize hbs : (if (m b).flags ≠ ACTIVE_FLAG ∧ (m b).flags &&& ACTIVE_FLAG = ACTIVE_FLAG then
    [(b, NorOp.writeFlags ACTIVE_FLAG)] else []) = bs
  obtain ⟨hfirst, hsame, ho⟩ := repair_first hf h has.symm
  have hbs' : bs = if ((norRun c as m) b).flags ≠ ACTIVE_FLAG ∧
      ((norRun c as m) b).flags &&& ACTIVE_FLAG = ACTIVE_FLAG then
      [(b, .writeFlags ACTIVE_FLAG)] else [] := by
    rw [hsame, hbs]
  obtain ⟨hsecond, hflags⟩ := repair_second hfirst.flagsOk hfirst.selected ho hbs'
  have hla : as.length ≤ 1 := by
    rw [← has]; split_ifs <;> simp
  have hlb : bs.length ≤ 1 := by
    rw [← hbs]; split_ifs <;> simp
  refine ⟨?_, fun _ => by rwa [norRun_append]⟩
  rcases untilCut_cases cut hla hlb with hc | hc | hc <;> rw [hc]
  · exact hself
  · exact hfirst
  · rw [norRun_append]
    exact hfirst.trans hsecond

/-- With one right copy, whatever the flags, the repair is no more than the write that makes it
active. -/
theorem repair_alone (h : c.crcOk (m b) = true) (ho : c.crcOk (m !b) = false) (cut : Option ℕ) :
    c.selected (norRun c (untilCut cut (repairOps c b m)) m) = some b ∧
      c.dataOf ((norRun c (untilCut cut (repairOps c b m)) m) b) = c.dataOf (m b) := by
  have hfirst : ¬ ((m !b).flags ≠ OBSOLETE_FLAG ∧ c.crcOk (m !b) = true) := fun hc =>
    absurd (ho.symm.trans hc.2) Bool.false_ne_true
  unfold repairOps
  rw [if_neg hfirst]
  generalize hbs : (if (m b).flags ≠ ACTIVE_FLAG ∧ (m b).flags &&& ACTIVE_FLAG = ACTIVE_FLAG then
    [(b, NorOp.writeFlags ACTIVE_FLAG)] else []) = bs
  have hself : c.selected m = some b := selected_only h ho
  have hlen : bs.length ≤ 1 := by
    rw [← hbs]; split_ifs <;> simp
  have hrun : untilCut cut ([] ++ bs) = [] ∨ untilCut cut ([] ++ bs) = bs := by
    rcases untilCut_cases cut (List.length_nil.trans_le (Nat.zero_le 1)) hlen with hc | hc | hc
    · exact Or.inl hc
    · exact Or.inl hc
    · exact Or.inr hc
  rcases hrun with hc | hc <;> rw [hc]
  · exact ⟨hself, rfl⟩
  · rw [← hbs]
    split_ifs with h1
    · rw [norRun_flags_active h1.2]
      exact ⟨selected_repair hself (Or.inl ho), (withFlags_crcOk _ b).2⟩
    · exact ⟨hself, rfl⟩

end Repair

section Save

variable {c : NorEnv} (hc : c.Valid) {r : NorRam} {m m' : NorFlash}

/-- The new copy is active, the old one is obsolete. -/
structure Saved (c : NorEnv) (r : NorRam) (m m' : NorFlash) : Prop where
  crcOk : c.crcOk (m' r.flashAddr) = c.crcOk (m r.flashAddr)
  flags : (m' r.flashAddr).flags = OBSOLETE_FLAG
  newCrcOk : c.crcOk (m' !r.flashAddr) = true
  newFlags : (m' !r.flashAddr).flags = ACTIVE_FLAG
  newData : c.dataOf (m' !r.flashAddr) = r.env.data.load 0 c.size

/-- What a save may leave of the two sectors. -/
inductive SaveLeft (c : NorEnv) (r : NorRam) (m m' : NorFlash) : Prop where
  /-- nothing is done -/
  | same (h : m' = m)
  /-- the other copy is gone -/
  | erased (hkeep : m' r.flashAddr = m r.flashAddr) (hcrc : c.crcOk (m' !r.flashAddr) = false)
  /-- the new copy is there, with erased flags -/
  | written (hcrc : c.crcOk (m' r.flashAddr) = c.crcOk (m r.flashAddr))
      (hdata : c.dataOf (m' r.flashAddr) = c.dataOf (m r.flashAddr))
      (hflags : (m' r.flashAddr).flags = (m r.flashAddr).flags ∨
        (m' r.flashAddr).flags = OBSOLETE_FLAG)
      (hnew : c.crcOk (m' !r.flashAddr) = true) (hflag : (m' !r.flashAddr).flags = 0xff)
      (hdata' : c.dataOf (m' !r.flashAddr) = r.env.data.load 0 c.size)
  | saved (h : Saved c r m m')

@[simp]
theorem obsolete_and (x : UInt8) : x &&& OBSOLETE_FLAG = OBSOLETE_FLAG := UInt8.and_zero

@[simp]
theorem erased_and (x : UInt8) : 0xff &&& x = x := by
  rw [← UInt8.toNat_inj, UInt8.toNat_and, Nat.and_comm]
  exact (Nat.and_two_pow_sub_one_eq_mod _ 8).trans (Nat.mod_eq_of_lt x.toNat_lt)

theorem erased_and_crc {crc : ℕ} (h : crc < 2 ^ 32) : 0xffffffff &&& crc = crc := by
  rw [Nat.and_comm]
  exact (Nat.and_two_pow_sub_one_eq_mod _ 32).trans (Nat.mod_eq_of_lt h)

theorem load_writeMem {n : ℕ} (new : Mem) :
    (writeMem n (fun _ => 0xff) new).load 0 n = new.load 0 n := by
  refine Mem.load_congr fun i hi => ?_
  unfold writeMem
  rw [if_pos (by omega)]
  exact erased_and _

theorem crcOk_erased (hc : c.Valid) :
    c.crcOk ⟨0xffffffff, 0xff, fun _ => 0xff, fun _ => 0xff⟩ = false := by
  have h := crc_erased_ne hc.size_gt hc.size_lt
  have hload : Mem.load (fun _ => 0xff) 0 c.size = List.replicate c.size 0xff := by
    unfold Mem.load
    rw [List.map_const', List.length_range]
  unfold NorEnv.crcOk
  rw [hload]
  exact decide_eq_false h

/-- The data is there: either its checksum happens to be the erased word, or the copy is of no
use. -/
theorem save_left_data (hkeep : m' r.flashAddr = m r.flashAddr)
    (hnew : m' (!r.flashAddr) =
      ⟨0xffffffff, 0xff, writeMem c.size (fun _ => 0xff) r.env.data, fun _ => 0xff⟩) :
    SaveLeft c r m m' := by
  by_cases hcrc : c.crcOk (m' !r.flashAddr) = true
  · refine .written (by rw [hkeep]) (by rw [hkeep]) (Or.inl (by rw [hkeep])) hcrc (by rw [hnew]) ?_
    rw [hnew]
    exact load_writeMem _
  · exact .erased hkeep (Bool.eq_false_iff.2 hcrc)

/-- The checksum is there too. -/
theorem new_crcOk (hcrc : crc32 0 (r.env.data.load 0 c.size) = r.env.crc) {s : NorSector}
    (hs : s.crc = 0xffffffff &&& r.env.crc)
    (hdata : s.data = writeMem c.size (fun _ => 0xff) r.env.data) : c.crcOk s = true := by
  unfold NorEnv.crcOk
  rw [hdata, load_writeMem, hs, hcrc, erased_and_crc (hcrc ▸ crc32_lt _)]
  exact decide_eq_true rfl

/-- The last flags are written, and the rest of the sector may be. -/
theorem saved_of_rest (hcrc : crc32 0 (r.env.data.load 0 c.size) = r.env.crc)
    {ops : List (Bool × NorOp)} (h : ops = [] ∨ ∃ x, ops = [(!r.flashAddr, .writeRest x)]) :
    Saved c r m (norRun c ((saveenvOps c r m).take 5 ++ ops) m) := by
  rcases h with rfl | ⟨x, rfl⟩
  · refine ⟨?_, ?_, new_crcOk hcrc ?_ ?_, ?_, ?_⟩ <;> simp [saveenvOps, norRun, NorOp.apply]
    · rfl
    · exact load_writeMem _
  · refine ⟨?_, ?_, new_crcOk hcrc ?_ ?_, ?_, ?_⟩ <;> simp [saveenvOps, norRun, NorOp.apply]
    · rfl
    · exact load_writeMem _

/-- All but the first five operations are the one that restores the rest. -/
theorem saveenvOps_split (c : NorEnv) (r : NorRam) (m : NorFlash) (k : ℕ) :
    ∃ ops, (ops = [] ∨ ∃ x, ops = [(!r.flashAddr, NorOp.writeRest x)]) ∧
      (saveenvOps c r m).take (5 + k) = (saveenvOps c r m).take 5 ++ ops := by
  refine ⟨((saveenvOps c r m).drop 5).take k, ?_, List.take_add⟩
  unfold saveenvOps
  split_ifs
  · rcases k with _ | k
    · exact Or.inl rfl
    · exact Or.inr ⟨(m !r.flashAddr).rest, by simp⟩
  · exact Or.inl (by simp)

theorem save_done (hcrc : crc32 0 (r.env.data.load 0 c.size) = r.env.crc) :
    Saved c r m (norRun c (saveenvOps c r m) m) := by
  obtain ⟨ops, hops, htake⟩ := saveenvOps_split c r m (saveenvOps c r m).length
  rw [List.take_of_length_le (by omega)] at htake
  rw [htake]
  exact saved_of_rest hcrc hops

include hc in
/-- What is left after `k` operations. -/
theorem save_cut (k : ℕ)
    (hcrc : crc32 0 (r.env.data.load 0 c.size) = r.env.crc ∨ k ≤ 2) :
    SaveLeft c r m (norRun c ((saveenvOps c r m).take k) m) := by
  rcases Nat.lt_or_ge k 3 with hk | hk
  · interval_cases k
    · exact .same rfl
    · refine .erased (by simp [saveenvOps, norRun]) ?_
      have hnew : (norRun c ((saveenvOps c r m).take 1) m) (!r.flashAddr) =
          ⟨0xffffffff, 0xff, fun _ => 0xff, fun _ => 0xff⟩ := by
        simp [saveenvOps, norRun, NorOp.apply]
      rw [hnew]
      exact crcOk_erased hc
    · exact save_left_data (by simp [saveenvOps, norRun]) (by simp [saveenvOps, norRun,
        NorOp.apply])
  · have hright : crc32 0 (r.env.data.load 0 c.size) = r.env.crc :=
      hcrc.resolve_right (by omega)
    rcases Nat.lt_or_ge k 5 with hk' | hk'
    · interval_cases k
      · refine .written ?_ ?_ (Or.inl ?_) (new_crcOk hright ?_ ?_) ?_ ?_ <;>
          simp [saveenvOps, norRun, NorOp.apply]
        exact load_writeMem _
      · refine .written ?_ ?_ (Or.inr ?_) (new_crcOk hright ?_ ?_) ?_ ?_ <;>
          simp [saveenvOps, norRun, NorOp.apply]
        · rfl
        · rfl
        · exact load_writeMem _
    · obtain ⟨ops, hops, htake⟩ := saveenvOps_split c r m (k - 5)
      rw [show k = 5 + (k - 5) by omega, htake]
      exact .saved (saved_of_rest hright hops)

end Save

end InfotmUboot
