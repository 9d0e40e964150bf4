import InfotmUboot.Memsize
import InfotmUboot.Lib.Undo
import Mathlib.Algebra.Order.Ring.Nat
import Mathlib.Tactic.Ring

/-!
# What the probe leaves in the memory

The saved words take back the patterns, newest first, whatever cells the probed words are. Nothing
takes back the zero in the base word, which only comes back when a probed word is the same cell
(`getRamSize_iff`).
-/

namespace InfotmUboot

open Lib

/-- A memory: the word `i` is the cell `cell i`, and the cells in `holds` keep data, whatever the
others do. -/
structure Ram (σ : Type) where
  handle : σ → RamOp → ℤ × σ
  cell : ℕ → ℕ
  holds : ℕ → Prop
  word : σ → ℕ → ℤ
  read_val : ∀ s i, holds (cell i) → (handle s (.read i)).1 = word s (cell i)
  read_word : ∀ s i c, holds c → word (handle s (.read i)).2 c = word s c
  write_word : ∀ s i v c, holds c →
    word (handle s (.write i v)).2 c = if cell i = c then v else word s c

/-- `2 ^ s` words that are there again and again. -/
def Ram.Mirrored {σ : Type} (ram : Ram σ) (s : ℕ) : Prop :=
  (∀ i, ram.cell i = i % 2 ^ s) ∧ ∀ c < 2 ^ s, ram.holds c

/-- The zero that is written to the base word is not read back. -/
def Ram.BaseLost {σ : Type} (ram : Ram σ) : Prop :=
  ∀ s, (ram.handle (ram.handle s (.write 0 0)).2 (.read 0)).1 ≠ 0

section Saved

variable {σ : Type} (ram : Ram σ)

/-- The cell of the probed word `2 ^ j`. -/
def Ram.probe (j : ℕ) : ℕ := ram.cell (2 ^ j)

/-- The probed words have their old values in the list, and the list takes back their patterns. -/
theorem ramSave_run : ∀ (j : ℕ) (save : List ℤ) (st : σ),
    ((ramSave (2 ^ j / 2) save).run ram.handle st).val.length = save.length + j
      ∧ ∀ c, ram.holds c →
        undo ram.probe c 0 ((ramSave (2 ^ j / 2) save).run ram.handle st).val
            (ram.word ((ramSave (2 ^ j / 2) save).run ram.handle st).env c)
          = undo ram.probe c j save (ram.word st c)
  | 0, save, st => by
    have hzero : 2 ^ 0 / 2 = 0 := rfl
    rw [hzero, ramSave, if_pos rfl]
    exact ⟨rfl, fun _ _ => rfl⟩
  | j + 1, save, st => by
    have hhalf : 2 ^ (j + 1) / 2 = 2 ^ j := by rw [pow_succ]; omega
    have hpos : 2 ^ j ≠ 0 := (Nat.two_pow_pos j).ne'
    rw [hhalf, ramSave, if_neg hpos, Prog.run_ask_val, Prog.run_ask_env, Prog.run_ask_val,
      Prog.run_ask_env]
    obtain ⟨hlen, hundo⟩ := ramSave_run j ((ram.handle st (.read (2 ^ j))).1 :: save)
      (ram.handle (ram.handle st (.read (2 ^ j))).2 (.write (2 ^ j) (ramPattern (2 ^ j)))).2
    refine ⟨by rw [hlen, List.length_cons]; omega, fun c hc => ?_⟩
    rw [hundo c hc, ram.write_word _ _ _ c hc, ram.read_word _ _ c hc]
    refine undo_cons ram.probe c j save fun hplace => ?_
    have hhere : ram.holds (ram.cell (2 ^ j)) := by
      rw [show ram.cell (2 ^ j) = c from hplace]
      exact hc
    rw [ram.read_val _ _ hhere]
    exact congrArg _ hplace

/-- The cells that are not probed stay as they are. -/
theorem ramSave_else : ∀ (j : ℕ) (save : List ℤ) (st : σ) (c : ℕ), ram.holds c →
    (∀ k < j, ram.probe k ≠ c) →
    ram.word ((ramSave (2 ^ j / 2) save).run ram.handle st).env c = ram.word st c
  | 0, save, st, c, _, _ => by
    have hzero : 2 ^ 0 / 2 = 0 := rfl
    rw [hzero, ramSave, if_pos rfl]
    rfl
  | j + 1, save, st, c, hc, hne => by
    have hhalf : 2 ^ (j + 1) / 2 = 2 ^ j := by rw [pow_succ]; omega
    rw [hhalf, ramSave, if_neg (Nat.two_pow_pos j).ne', Prog.run_ask_env, Prog.run_ask_env]
    rw [ramSave_else j _ _ c hc fun k hk => hne k (Nat.lt_succ_of_lt hk), ram.write_word _ _ _ c hc,
      ram.read_word _ _ c hc]
    exact if_neg (hne j j.lt_succ_self)

/-- A cell that is probed once has its pattern afterwards. -/
theorem ramSave_pattern : ∀ (j i : ℕ) (save : List ℤ) (st : σ), i < j → ram.holds (ram.probe i) →
    (∀ k < i, ram.probe k ≠ ram.probe i) →
    ram.word ((ramSave (2 ^ j / 2) save).run ram.handle st).env (ram.probe i) = ramPattern (2 ^ i)
  | j + 1, i, save, st, hij, hc, hne => by
    have hhalf : 2 ^ (j + 1) / 2 = 2 ^ j := by rw [pow_succ]; omega
    rw [hhalf, ramSave, if_neg (Nat.two_pow_pos j).ne', Prog.run_ask_env, Prog.run_ask_env]
    rcases Nat.lt_succ_iff_lt_or_eq.1 hij with hlt | rfl
    · exact ramSave_pattern j i _ _ hlt hc hne
    · rw [ramSave_else ram i _ _ _ hc hne, ram.write_word _ _ _ _ hc]
      exact if_pos rfl

end Saved

section Restored

variable {σ : Type} (ram : Ram σ) (m : ℕ)

theorem two_pow_half {j m : ℕ} (hj : j < m) : 2 ^ j < 2 ^ m ∧ 2 ^ j * 2 = 2 ^ (j + 1) :=
  ⟨Nat.pow_lt_pow_right (by omega) hj, (pow_succ 2 j).symm⟩

theorem ramRestore_run : ∀ (save : List ℤ) (j : ℕ) (st : σ), save.length + j = m →
    ∀ c, ram.holds c →
      ram.word ((ramRestore (2 ^ m) (2 ^ j) save).run ram.handle st).env c
        = undo ram.probe c j save (ram.word st c)
  | [], _, _, _, _, _ => rfl
  | v :: save, j, st, hlen, c, hc => by
    rw [List.length_cons] at hlen
    obtain ⟨hlt, hnext⟩ := two_pow_half (show j < m by omega)
    rw [ramRestore, if_pos hlt, hnext, Prog.run_ask_env, ramRestore_run save (j + 1) _ (by omega) c
      hc, ram.write_word _ _ _ c hc]
    rfl

theorem ramCheck_run (maxsize : ℕ) : ∀ (save : List ℤ) (j : ℕ) (st : σ), save.length + j = m →
    ∀ c, ram.holds c →
      ram.word ((ramCheck maxsize (2 ^ m) (2 ^ j) save).run ram.handle st).env c
        = undo ram.probe c j save (ram.word st c)
  | [], _, _, _, _, _ => rfl
  | v :: save, j, st, hlen, c, hc => by
    rw [List.length_cons] at hlen
    obtain ⟨hlt, hnext⟩ := two_pow_half (show j < m by omega)
    have hword : ram.word (ram.handle (ram.handle st (.read (2 ^ j))).2 (.write (2 ^ j) v)).2 c
        = if ram.probe j = c then v else ram.word st c := by
      rw [ram.write_word _ _ _ c hc, ram.read_word _ _ c hc]
      rfl
    rw [ramCheck, if_pos hlt, hnext, Prog.run_ask_env, Prog.run_ask_env]
    split_ifs with hval
    · rw [Prog.run_bind_env, Prog.run_pure]
      rw [ramRestore_run ram m save (j + 1) _ (by omega) c hc, hword]
      rfl
    · rw [ramCheck_run maxsize save (j + 1) _ (by omega) c hc, hword]
      rfl

/-- The words before the end of the memory have their patterns, and the word there is the base. -/
theorem ramCheck_val (s : ℕ) (hs : s ≤ m) (hprobe : ∀ i < s, ∀ k < i, ram.probe k ≠ ram.probe i)
    (hend : s < m → ∀ i < s, ram.probe i ≠ ram.probe s)
    (hholds : ∀ i, ram.holds (ram.probe i)) : ∀ (save : List ℤ) (j : ℕ) (st : σ),
    save.length + j = m → j ≤ s →
    (∀ i, j ≤ i → i < s → ram.word st (ram.probe i) = ramPattern (2 ^ i)) →
    (s < m → ram.word st (ram.probe s) = 0) →
    ((ramCheck (4 * 2 ^ m) (2 ^ m) (2 ^ j) save).run ram.handle st).val = 4 * 2 ^ s
  | [], j, st, hlen, hjs, _, _ => by
    obtain rfl : s = m := by simp only [List.length_nil] at hlen; omega
    rfl
  | v :: save, j, st, hlen, hjs, hpat, hzero => by
    rw [List.length_cons] at hlen
    obtain ⟨hlt, hnext⟩ := two_pow_half (show j < m by omega)
    have hword : ∀ i, i < j ∨ j < i → ram.probe i ≠ ram.probe j →
        ram.word (ram.handle (ram.handle st (.read (2 ^ j))).2 (.write (2 ^ j) v)).2 (ram.probe i)
          = ram.word st (ram.probe i) := fun i _ hi => by
      rw [ram.write_word _ _ _ _ (hholds i), ram.read_word _ _ _ (hholds i)]
      exact if_neg fun h => hi h.symm
    rw [ramCheck, if_pos hlt, hnext, Prog.run_ask_val, Prog.run_ask_val]
    have hread : (ram.handle st (.read (2 ^ j))).1 = ram.word st (ram.probe j) :=
      ram.read_val _ _ (hholds j)
    rcases Nat.lt_or_eq_of_le hjs with hjs | rfl
    · rw [if_neg fun h => h (hread.trans (hpat j le_rfl hjs))]
      refine ramCheck_val s hs hprobe hend hholds save (j + 1) _ (by omega) hjs
        (fun i hi his => ?_) fun hsm => ?_
      · rw [hword i (.inr hi) (hprobe i his j hi).symm]
        exact hpat i (by omega) his
      · rw [hword s (.inr hjs) (hend hsm j hjs).symm]
        exact hzero hsm
    · have hsm : j < m := by omega
      have hne : (ram.handle st (.read (2 ^ j))).1 ≠ ramPattern (2 ^ j) := by
        rw [hread, hzero hsm]
        unfold ramPattern
        omega
      rw [if_pos hne]
      simp only [Prog.run_bind_val, Prog.run_pure]
      omega

end Restored

section Sized

variable {σ : Type} (ram : Ram σ) (m : ℕ) (st : σ)

/-- The memory once the probed words and the base word are saved and written. -/
def Ram.patterns : σ :=
  (ram.handle (ram.handle ((ramSave (2 ^ m / 2) []).run ram.handle st).env (.read 0)).2
    (.write 0 0)).2

variable {ram} in
theorem Ram.patterns_word {c : ℕ} (hc : ram.holds c) : ram.word (ram.patterns m st) c
    = if ram.cell 0 = c then 0
      else ram.word ((ramSave (2 ^ m / 2) []).run ram.handle st).env c := by
  rw [Ram.patterns, ram.write_word _ _ _ c hc, ram.read_word _ _ c hc]

variable {ram} in
/-- The exit for a base word that is lost: all goes back, the base word first. -/
theorem getRamSize_lost (h : ram.BaseLost) :
    ((getRamSize (4 * 2 ^ m)).run ram.handle st).val = 0
      ∧ ∀ c, ram.holds c →
        ram.word ((getRamSize (4 * 2 ^ m)).run ram.handle st).env c = ram.word st c := by
  have hwords : 4 * 2 ^ m / 4 = 2 ^ m := Nat.mul_div_cancel_left _ (by omega)
  unfold getRamSize
  simp only [hwords]
  rw [Prog.run_bind_val, Prog.run_bind_env, Prog.run_ask_val, Prog.run_ask_val, Prog.run_ask_val,
    Prog.run_ask_env,
    Prog.run_ask_env, Prog.run_ask_env, if_pos (h _), Prog.run_ask_val, Prog.run_ask_env,
      Prog.run_bind_val,
    Prog.run_bind_env]
  refine ⟨rfl, fun c hc => ?_⟩
  obtain ⟨hlen, hundo⟩ := ramSave_run ram m [] st
  have hbase : ram.cell 0 ≠ c := fun hcell => h st <| by
    rw [ram.read_val _ _ (hcell ▸ hc), ram.write_word _ _ _ _ (hcell ▸ hc), if_pos rfl]
  have hlength : ((ramSave (2 ^ m / 2) []).run ram.handle st).val.length + 0 = m := by
    rw [hlen, List.length_nil]
    omega
  rw [Prog.run_pure]
  change ram.word ((ramRestore (2 ^ m) (2 ^ 0) _).run ram.handle _).env c = _
  rw [ramRestore_run ram m _ 0 _ hlength c hc, ram.write_word _ _ _ c hc, if_neg hbase,
    ram.read_word _ _ c hc, ram.write_word _ _ _ c hc, if_neg hbase, ram.read_word _ _ c hc,
    hundo c hc]
  rfl

variable {ram} in
/-- Where the base word keeps the zero, the run is that of the check. -/
theorem getRamSize_kept (h : ram.holds (ram.cell 0)) :
    ((getRamSize (4 * 2 ^ m)).run ram.handle st).val
        = ((ramCheck (4 * 2 ^ m) (2 ^ m) (2 ^ 0)
          ((ramSave (2 ^ m / 2) []).run ram.handle st).val).run ram.handle
            (ram.handle (ram.patterns m st) (.read 0)).2).val
      ∧ ((getRamSize (4 * 2 ^ m)).run ram.handle st).env
        = ((ramCheck (4 * 2 ^ m) (2 ^ m) (2 ^ 0)
          ((ramSave (2 ^ m / 2) []).run ram.handle st).val).run ram.handle
            (ram.handle (ram.patterns m st) (.read 0)).2).env := by
  have hwords : 4 * 2 ^ m / 4 = 2 ^ m := Nat.mul_div_cancel_left _ (by omega)
  have hzero : (ram.handle (ram.patterns m st) (.read 0)).1 = 0 := by
    rw [ram.read_val _ _ h, Ram.patterns_word m st h, if_pos rfl]
  unfold getRamSize
  simp only [hwords]
  rw [Prog.run_bind_val, Prog.run_bind_env, Prog.run_ask_val, Prog.run_ask_val, Prog.run_ask_val,
    Prog.run_ask_env,
    Prog.run_ask_env, Prog.run_ask_env, if_neg fun hne => hne hzero]
  exact ⟨rfl, rfl⟩

theorem Ram.Mirrored.probe_lt {ram : Ram σ} {s : ℕ} (h : ram.Mirrored s) {i : ℕ} (hi : i < s) :
    ram.probe i = 2 ^ i := by
  unfold Ram.probe
  rw [h.1, Nat.mod_eq_of_lt (Nat.pow_lt_pow_right (by omega) hi)]

theorem Ram.Mirrored.probe_end {ram : Ram σ} {s : ℕ} (h : ram.Mirrored s) : ram.probe s = 0 := by
  unfold Ram.probe
  rw [h.1, Nat.mod_self]

theorem Ram.Mirrored.cell_zero {ram : Ram σ} {s : ℕ} (h : ram.Mirrored s) : ram.cell 0 = 0 := by
  rw [h.1, Nat.zero_mod]

theorem Ram.Mirrored.holds_cell {ram : Ram σ} {s : ℕ} (h : ram.Mirrored s) (i : ℕ) :
    ram.holds (ram.cell i) :=
  h.2 _ (by rw [h.1]; exact Nat.mod_lt _ (Nat.two_pow_pos s))

theorem Ram.Mirrored.holds_probe {ram : Ram σ} {s : ℕ} (h : ram.Mirrored s) (i : ℕ) :
    ram.holds (ram.probe i) := h.holds_cell _

variable {ram m} in
theorem getRamSize_size {s : ℕ} (h : ram.Mirrored s) (hs : s ≤ m) :
    ((getRamSize (4 * 2 ^ m)).run ram.handle st).val = 4 * 2 ^ s := by
  have hprobe : ∀ i < s, ∀ k < i, ram.probe k ≠ ram.probe i := fun i hi k hk => by
    rw [h.probe_lt hi, h.probe_lt (hk.trans hi)]
    exact (Nat.pow_lt_pow_right (by omega) hk).ne
  have hend : ∀ i < s, ram.probe i ≠ 0 := fun i hi => by
    rw [h.probe_lt hi]
    exact (Nat.two_pow_pos i).ne'
  obtain ⟨hlen, -⟩ := ramSave_run ram m [] st
  rw [(getRamSize_kept m st (h.holds_cell 0)).1]
  refine ramCheck_val ram m s hs hprobe (fun _ i hi => h.probe_end ▸ hend i hi)
    h.holds_probe _ 0 _ (by rw [hlen, List.length_nil]; omega) (Nat.zero_le s)
    (fun i _ hi => ?_) fun _ => ?_
  · rw [ram.read_word _ _ _ (h.holds_probe i), Ram.patterns_word m st (h.holds_probe i),
      h.cell_zero, if_neg (hend i hi).symm]
    exact ramSave_pattern ram m i [] st (by omega) (h.holds_probe i) (hprobe i hi)
  · rw [ram.read_word _ _ _ (h.holds_probe s), Ram.patterns_word m st (h.holds_probe s),
      h.cell_zero, h.probe_end, if_pos rfl]

variable {ram m} in
/-- Every word is as it was, apart from the base word, which needs a probed word that is the same
cell. -/
theorem getRamSize_word {s : ℕ} (h : ram.Mirrored s) (hs : s ≤ m) {c : ℕ} (hc : c < 2 ^ s) :
    ram.word ((getRamSize (4 * 2 ^ m)).run ram.handle st).env c
      = if s = m ∧ c = 0 then 0 else ram.word st c := by
  obtain ⟨hlen, hundo⟩ := ramSave_run ram m [] st
  have hlength : ((ramSave (2 ^ m / 2) []).run ram.handle st).val.length + 0 = m := by
    rw [hlen, List.length_nil]
    omega
  rw [(getRamSize_kept m st (h.holds_cell 0)).2,
    ramCheck_run ram m _ _ 0 _ hlength c (h.2 c hc), ram.read_word _ _ c (h.2 c hc),
    Ram.patterns_word m st (h.2 c hc), h.cell_zero]
  have hback := hundo c (h.2 c hc)
  rw [undo] at hback
  by_cases hzero : 0 = c
  · rw [if_pos hzero]
    rcases Nat.lt_or_eq_of_le hs with hlt | rfl
    · rw [if_neg fun hboth => hlt.ne hboth.1, ← hback]
      refine undo_hit ram.probe c _ 0 _ _ ⟨s, by omega, ?_⟩
      rw [Nat.zero_add, h.probe_end, hzero]
    · rw [if_pos ⟨rfl, hzero.symm⟩]
      refine undo_miss ram.probe c _ 0 _ fun k hk => ?_
      rw [Nat.zero_add, h.probe_lt (by omega), ← hzero]
      exact (Nat.two_pow_pos k).ne'
  · rw [if_neg hzero, if_neg fun hboth => hzero hboth.2.symm, hback]

end Sized

section Probe

variable {σ : Type} (ram : Ram σ) (m : ℕ) (st : σ)

/-- The true size and the old contents, where the memory is mirrored or the base word is lost. -/
def RamProbed : Prop :=
  (∀ s ≤ m, ram.Mirrored s →
      ((getRamSize (4 * 2 ^ m)).run ram.handle st).val = 4 * 2 ^ s
        ∧ ∀ c < 2 ^ s,
          ram.word ((getRamSize (4 * 2 ^ m)).run ram.handle st).env c = ram.word st c)
    ∧ (ram.BaseLost →
      ((getRamSize (4 * 2 ^ m)).run ram.handle st).val = 0
        ∧ ∀ c, ram.holds c →
          ram.word ((getRamSize (4 * 2 ^ m)).run ram.handle st).env c = ram.word st c)

theorem getRamSize_iff : RamProbed ram m st ↔ (ram.Mirrored m → ram.word st 0 = 0) := by
  constructor
  · rintro ⟨hsize, -⟩ hmir
    obtain ⟨-, hwords⟩ := hsize m le_rfl hmir
    rw [← hwords 0 (Nat.two_pow_pos m), getRamSize_word st hmir le_rfl (Nat.two_pow_pos m),
      if_pos ⟨rfl, rfl⟩]
  · intro hbase
    refine ⟨fun s hs hmir => ⟨getRamSize_size st hmir hs, fun c hc => ?_⟩,
      fun hlost => getRamSize_lost m st hlost⟩
    rw [getRamSize_word st hmir hs hc]
    split_ifs with hlast
    · obtain ⟨rfl, rfl⟩ := hlast
      exact (hbase hmir).symm
    · rfl

/-- `2 ^ s` words of memory. -/
def plainRam (s : ℕ) : Ram (ℕ → ℤ) where
  handle m
    | .read i => (m (i % 2 ^ s), m)
    | .write i v => (0, fun c => if i % 2 ^ s = c then v else m c)
  cell i := i % 2 ^ s
  holds _ := True
  word m := m
  read_val _ _ _ := rfl
  read_word _ _ _ _ := rfl
  write_word _ _ _ _ _ := rfl

theorem plainRam_mirrored (s : ℕ) : (plainRam s).Mirrored s := ⟨fun _ => rfl, fun _ _ => trivial⟩

/-- A memory of two words, probed as far as it goes. -/
theorem plainRam_base : ¬RamProbed (plainRam 1) 1 fun _ => 5 := fun h => by
  have hword := (h.1 1 le_rfl (plainRam_mirrored 1)).2 0 (by omega)
  rw [getRamSize_word _ (plainRam_mirrored 1) le_rfl (by omega)] at hword
  exact absurd hword (by decide)

end Probe

end InfotmUboot
