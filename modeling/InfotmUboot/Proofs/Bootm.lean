import InfotmUboot.Bootm
import Mathlib.Data.Nat.Bitwise

/-!
# The order of the stages of `bootm`

`images.state` is compared as a number, so of the stages that ran no one runs again and none runs
before an earlier one. That the ones a stage needs have run, and that they have succeeded, is not
looked at (`bootm_order_iff`).
-/

namespace InfotmUboot

/-- What is seen of a subcommand: the stage that ran, what it returned, and `images.state` then. -/
structure BootmSeen where
  ran : Option BootmState
  outcome : ℤ
  state : ℕ

def bootmSession (cfg : BootmConfig) : ℕ → List BootmCall → List BootmSeen
  | _, [] => []
  | state, call :: calls =>
    let e := doBootmSubcommand cfg state call
    ⟨e.ran, call.outcome, e.state⟩ :: bootmSession cfg e.state calls

/-- The stages that have succeeded since the last `start`, after one more subcommand. -/
def BootmSeen.doneAfter (o : BootmSeen) (done : List BootmState) : List BootmState :=
  match o.ran with
  | none => done
  | some .start => if o.outcome = 0 then [.start] else []
  | some c => if o.outcome = 0 then done ++ [c] else done

/-- A stage runs only after `start`, and one behind `loados` only after that, and succeeds only
behind all that have. -/
def BootmSeen.Admitted (o : BootmSeen) (done : List BootmState) : Prop :=
  ∀ c, o.ran = some c → c ≠ .start → .start ∈ done ∧
    (BootmState.loados.index < c.index → .loados ∈ done) ∧
      (o.outcome = 0 → ∀ d ∈ done, d.index < c.index)

/-- Only what has succeeded is recorded. -/
def BootmSeen.Recorded (o : BootmSeen) (done : List BootmState) : Prop :=
  ∀ c : BootmState, o.state.testBit c.index = true → c ∈ o.doneAfter done

/-- All through a session the stages run in order and only what has succeeded is recorded. -/
def BootmOrder : List BootmState → List BootmSeen → Prop
  | _, [] => True
  | done, o :: os => o.Admitted done ∧ o.Recorded done ∧ BootmOrder (o.doneAfter done) os

/-- A subcommand is `start`, or it is turned down; or the stages it needs are recorded, and it
succeeds. -/
def BootmCall.Meets (cfg : BootmConfig) (state : ℕ) (call : BootmCall) : Prop :=
  ∀ c, findCmdTbl BootmState.name call.arg (cmdBootmSub cfg) = some c → c ≠ .start → state < c.bit →
    state.testBit BootmState.start.index = true ∧
      (BootmState.loados.index < c.index → state.testBit BootmState.loados.index = true) ∧
        call.outcome = 0

/-- Every subcommand of the session meets the condition in the state it finds. -/
def BootmMeets (cfg : BootmConfig) : ℕ → List BootmCall → Prop
  | _, [] => True
  | state, call :: calls =>
    call.Meets cfg state ∧ BootmMeets cfg (doBootmSubcommand cfg state call).state calls

section Step

variable {cfg : BootmConfig} {done : List BootmState} {state : ℕ}

/-- What is recorded is what has succeeded. -/
def BootmInv (done : List BootmState) (state : ℕ) : Prop :=
  ∀ c : BootmState, c ∈ done ↔ state.testBit c.index = true

theorem BootmState.index_inj {c d : BootmState} (h : c.index = d.index) : c = d := by
  cases c <;> cases d <;> first | rfl | exact absurd h (by decide)

/-- How a subcommand ends. -/
theorem doBootmSubcommand_cases (cfg : BootmConfig) (state : ℕ) (call : BootmCall) :
    (∃ ret, doBootmSubcommand cfg state call = ⟨ret, state, none⟩ ∧ call.Meets cfg state) ∨
      (∃ ret, doBootmSubcommand cfg state call =
          ⟨ret, if call.outcome = 0 then BootmState.start.bit else 0, some .start⟩ ∧
        call.Meets cfg state) ∨
      ∃ ret c, c ≠ .start ∧ state < c.bit ∧
        doBootmSubcommand cfg state call = ⟨ret, state ||| c.bit, some c⟩ ∧
          (call.Meets cfg state ↔ state.testBit BootmState.start.index = true ∧
            (BootmState.loados.index < c.index →
              state.testBit BootmState.loados.index = true) ∧ call.outcome = 0) := by
  unfold doBootmSubcommand BootmCall.Meets
  rcases hc : findCmdTbl BootmState.name call.arg (cmdBootmSub cfg) with _ | c
  · exact .inl ⟨1, rfl, nofun⟩
  by_cases hstart : c = .start
  · subst hstart
    refine .inr (.inl ⟨if call.outcome = 0 then 0 else 1, ?_, ?_⟩)
    · by_cases h0 : call.outcome = 0 <;> simp [h0]
    · rintro d ⟨⟩ hne
      exact absurd rfl hne
  by_cases hge : state ≥ c.bit
  · refine .inl ⟨1, ?_, ?_⟩
    · cases c <;> simp_all
    · rintro d ⟨⟩ _ hlt
      exact absurd hge (not_le.2 hlt)
  · refine .inr (.inr ⟨if c = .go then 0 else call.outcome, c, hstart, not_le.1 hge, ?_, ?_⟩)
    · cases c <;> simp_all
    · constructor
      · exact fun h => h c rfl hstart (not_le.1 hge)
      · rintro h d ⟨⟩ _ _
        exact h

theorem bootmInv_start : BootmInv [.start] BootmState.start.bit := by
  intro c
  cases c <;> decide

theorem bootmInv_nil : BootmInv [] 0 := by
  intro c
  simp

theorem BootmInv.add (h : BootmInv done state) (c : BootmState) :
    BootmInv (done ++ [c]) (state ||| c.bit) := by
  intro d
  rw [List.mem_append, List.mem_singleton, h d, Nat.testBit_lor, Bool.or_eq_true, BootmState.bit,
    Nat.testBit_two_pow]
  simp only [decide_eq_true_eq]
  exact or_congr Iff.rfl ⟨fun hd => hd ▸ rfl, fun hd => (BootmState.index_inj hd).symm⟩

/-- A stage that the guard lets through is behind all that are recorded. -/
theorem BootmInv.behind (h : BootmInv done state) {c : BootmState} (hlt : state < c.bit)
    {d : BootmState} (hd : d ∈ done) : d.index < c.index := by
  have hbit := Nat.ge_two_pow_of_testBit ((h d).1 hd)
  exact (Nat.pow_lt_pow_iff_right (by decide)).1 (hbit.trans_lt hlt)

/-- A subcommand is as it should be exactly if it meets the condition, and leaves the record right
then. -/
theorem bootm_step (h : BootmInv done state) (call : BootmCall) {o : BootmSeen}
    (ho : o = ⟨(doBootmSubcommand cfg state call).ran, call.outcome,
      (doBootmSubcommand cfg state call).state⟩) :
    (o.Admitted done ∧ o.Recorded done ↔ call.Meets cfg state) ∧
      (call.Meets cfg state → BootmInv (o.doneAfter done) o.state) := by
  rcases doBootmSubcommand_cases cfg state call with
    ⟨ret, he, hm⟩ | ⟨ret, he, hm⟩ | ⟨ret, c, hstart, hlt, he, hm⟩
  · rw [he] at ho
    subst ho
    exact ⟨iff_of_true ⟨nofun, fun c => (h c).2⟩ hm, fun _ => h⟩
  · rw [he] at ho
    subst ho
    have hinv : BootmInv (if call.outcome = 0 then [.start] else [])
        (if call.outcome = 0 then BootmState.start.bit else 0) := by
      split_ifs
      · exact bootmInv_start
      · exact bootmInv_nil
    refine ⟨iff_of_true ⟨?_, fun c => (hinv c).2⟩ hm, fun _ => hinv⟩
    rintro c ⟨⟩ hne
    exact absurd rfl hne
  · rw [he] at ho
    subst ho
    have hafter : BootmSeen.doneAfter ⟨some c, call.outcome, state ||| c.bit⟩ done =
        if call.outcome = 0 then done ++ [c] else done := by
      cases c <;> first | rfl | exact absurd rfl hstart
    rw [hm]
    constructor
    · constructor
      · rintro ⟨hadm, hrec⟩
        obtain ⟨h1, h2, -⟩ := hadm c rfl hstart
        refine ⟨(h _).1 h1, fun hl => (h _).1 (h2 hl), ?_⟩
        by_contra hfail
        have hmem := hrec c (by simp [BootmState.bit])
        rw [hafter, if_neg hfail] at hmem
        exact absurd (h.behind hlt hmem) (lt_irrefl _)
      · rintro ⟨h1, h2, h0⟩
        refine ⟨?_, fun d hd => ?_⟩
        · rintro d ⟨⟩ _
          exact ⟨(h _).2 h1, fun hl => (h _).2 (h2 hl), fun _ e he => h.behind hlt he⟩
        · rw [hafter, if_pos h0]
          exact (h.add c d).2 hd
    · rintro ⟨-, -, h0⟩
      rw [hafter, if_pos h0]
      exact h.add c

theorem bootmOrder_iff : ∀ (calls : List BootmCall) {done : List BootmState} {state : ℕ},
    BootmInv done state → (BootmOrder done (bootmSession cfg state calls) ↔
      BootmMeets cfg state calls)
  | [], _, _, _ => Iff.rfl
  | call :: calls, done, state, h => by
    obtain ⟨hiff, hinv⟩ := bootm_step h call rfl
    rw [bootmSession, BootmOrder, BootmMeets, ← and_assoc, hiff]
    exact and_congr_right fun hm => bootmOrder_iff calls (hinv hm)

end Step

/-- From the power-up on, a session keeps the order of the stages and their record exactly if every
stage that runs finds the ones it needs recorded, and succeeds. -/
theorem bootm_order_iff (cfg : BootmConfig) (calls : List BootmCall) :
    BootmOrder [] (bootmSession cfg 0 calls) ↔ BootmMeets cfg 0 calls :=
  bootmOrder_iff calls bootmInv_nil

/-- `bootm loados` right after the power-up. -/
theorem bootm_loados_first : ¬BootmOrder []
    (bootmSession ⟨false, false⟩ 0 [⟨ascii "loados", 0⟩]) := by
  intro h
  have hneeds := h.1 .loados (by decide) (by decide)
  exact absurd hneeds.1 List.not_mem_nil

end InfotmUboot
