import InfotmUboot.Lib.Prog
import InfotmUboot.Lib.Walk

/-!
# Loops of programs

A loop whose body asks its environment and gives the next place or a result. What is to hold of
every operation that a run asks is said of the bodies at the places that the loop gets to
(`loop_iff`).
-/

namespace Lib

namespace Prog

variable {O R σ S α β : Type}

/-- The loop is cut short when the fuel runs out. -/
def loop (step : S → Prog O R (α ⊕ S)) : ℕ → S → Prog O R (Option α)
  | 0, _ => pure none
  | n + 1, s => do
    match ← step s with
    | .inl a => return some a
    | .inr t => loop step n t

variable (h : σ → O → R × σ) (P : O → Prop)

/-- Everything that a run asks is in `P`. -/
def Logs (p : Prog O R α) (e : σ) : Prop := ∀ x ∈ (run h p e).log, P x.1

/-- A run that is not cut short asks nothing else. -/
def Completes (p : Prog O R (Option α)) (e : σ) : Prop := (run h p e).val ≠ none ∧ Logs h P p e

/-- Where a round leads, with what the environment becomes. -/
def loopNext (step : S → Prog O R (α ⊕ S)) (s : S × σ) : Option (S × σ) :=
  match (run h (step s.1) s.2).val with
  | .inl _ => none
  | .inr t => some (t, (run h (step s.1) s.2).env)

variable {h P} {e : σ}

theorem logs_pure (a : α) : Logs h P (pure a) e := by
  simp [Logs]

theorem logs_op_bind {o : O} {f : R → Prog O R α} :
    Logs h P (op o >>= f) e ↔ P o ∧ Logs h P (f (h e o).1) (h e o).2 :=
  List.forall_mem_cons

theorem logs_bind {p : Prog O R α} {f : α → Prog O R β} :
    Logs h P (p >>= f) e ↔
      Logs h P p e ∧ Logs h P (f (run h p e).val) (run h p e).env := by
  unfold Logs
  rw [run_bind]
  exact List.forall_mem_append

theorem loop_walk (step : S → Prog O R (α ⊕ S)) :
    Walk (loopNext h step) (fun s => Logs h P (step s.1) s.2) (fun _ x => x)
      fun n s (_ : Unit) => Completes h P (loop step n s.1) s.2 where
  zero _ _ h := h.1 rfl
  succ n s _ := by
    unfold Completes
    rw [loop, run_bind_val, logs_bind]
    unfold loopNext
    rcases (run h (step s.1) s.2).val with a | t
    · refine ⟨fun h => ⟨h.2.1, fun t ht => absurd ht (by simp)⟩, fun h =>
        ⟨by simp, h.1, logs_pure _⟩⟩
    · simp only [Option.some.injEq, forall_eq']
      exact and_left_comm

/-- A loop that comes nearer to its end with each round that is right ends with nothing wrong just
if all the rounds that it gets to are right. -/
theorem loop_iff {step : S → Prog O R (α ⊕ S)} (rest : S → ℕ)
    (hrest : ∀ s e t, Logs h P (step s) e → (run h (step s) e).val = .inr t → rest t < rest s)
    (s : S) : (∃ n, Completes h P (loop step n s) e) ↔
      ∀ t, ComesTo (loopNext h step) (s, e) t → Logs h P (step t.1) t.2 := by
  have hless (s t : S × σ) (hok : Logs h P (step s.1) s.2) (ht : loopNext h step s = some t) :
      rest t.1 < rest s.1 := by
    unfold loopNext at ht
    rcases hval : (run h (step s.1) s.2).val with a | u
    · rw [hval] at ht
      exact absurd ht (by simp)
    · rw [hval] at ht
      obtain rfl := Option.some.inj ht
      exact hrest _ _ _ hok hval
  rw [walks_iff (loop_walk step) (fun s => rest s.1) (fun s t hok ht => .inr (hless s t hok ht))
    (s, e) ()]
  refine forall₂_congr fun t _ => and_iff_left_of_imp fun hok hstay => ?_
  exact Nat.lt_irrefl _ (hless t t hok hstay)

end Prog

end Lib
