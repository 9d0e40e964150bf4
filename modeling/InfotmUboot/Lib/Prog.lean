import Mathlib.Data.List.Basic
import Mathlib.Tactic.Basic

/-!
# Programs that talk to an environment

A `Prog O R α` asks operations of type `O`, goes on with the replies of type `R` and ends with an
`α`. An environment is a function from its state and the operation to the reply and the next
state, so any pattern of replies, failures included, is an environment. `run` gives the result,
the environment's last state and the log of all operations with their replies.
-/

namespace Lib

inductive Prog (O R α : Type) where
  | done (a : α)
  | ask (o : O) (k : R → Prog O R α)

namespace Prog

variable {O R α β σ : Type}

def bind : Prog O R α → (α → Prog O R β) → Prog O R β
  | done a, f => f a
  | ask o k, f => ask o fun r => (k r).bind f

instance : Monad (Prog O R) where
  pure := done
  bind := bind

instance : LawfulMonad (Prog O R) :=
  LawfulMonad.mk' (Prog O R)
    (by
      intro α p
      change p.bind done = p
      induction p with
      | done a => rfl
      | ask o k ih => exact congrArg (ask o) (funext ih))
    (fun a f => rfl)
    (by
      intro α β γ p f g
      change (p.bind f).bind g = p.bind fun a => (f a).bind g
      induction p with
      | done a => rfl
      | ask o k ih => exact congrArg (ask o) (funext ih))

/-- One operation, whose reply is the result. -/
def op (o : O) : Prog O R R := ask o done

/-- What a run leaves: its result, the environment and the log. -/
structure Out (O R σ α : Type) where
  val : α
  env : σ
  log : List (O × R)

def run (h : σ → O → R × σ) : Prog O R α → σ → Out O R σ α
  | done a, s => ⟨a, s, []⟩
  | ask o k, s =>
    let q := h s o
    let out := run h (k q.1) q.2
    ⟨out.val, out.env, (o, q.1) :: out.log⟩

section Run

variable (h : σ → O → R × σ)

@[simp]
theorem run_pure (a : α) (s : σ) : run h (pure a : Prog O R α) s = ⟨a, s, []⟩ := rfl

@[simp]
theorem run_op (o : O) (s : σ) : run h (op o) s = ⟨(h s o).1, (h s o).2, [(o, (h s o).1)]⟩ := rfl

theorem run_bind (p : Prog O R α) (f : α → Prog O R β) (s : σ) :
    run h (p >>= f) s =
      ⟨(run h (f (run h p s).val) (run h p s).env).val,
        (run h (f (run h p s).val) (run h p s).env).env,
        (run h p s).log ++ (run h (f (run h p s).val) (run h p s).env).log⟩ := by
  change run h (p.bind f) s = _
  induction p generalizing s with
  | done a => rfl
  | ask o k ih =>
    simp only [bind, run]
    rw [ih]
    simp

@[simp]
theorem run_bind_val (p : Prog O R α) (f : α → Prog O R β) (s : σ) :
    (run h (p >>= f) s).val = (run h (f (run h p s).val) (run h p s).env).val := by
  rw [run_bind]

@[simp]
theorem run_bind_env (p : Prog O R α) (f : α → Prog O R β) (s : σ) :
    (run h (p >>= f) s).env = (run h (f (run h p s).val) (run h p s).env).env := by
  rw [run_bind]

@[simp]
theorem run_bind_log (p : Prog O R α) (f : α → Prog O R β) (s : σ) :
    (run h (p >>= f) s).log =
      (run h p s).log ++ (run h (f (run h p s).val) (run h p s).env).log := by
  rw [run_bind]

theorem run_ask_val (o : O) (f : R → Prog O R α) (s : σ) :
    (run h (op o >>= f) s).val = (run h (f (h s o).1) (h s o).2).val := rfl

theorem run_ask_env (o : O) (f : R → Prog O R α) (s : σ) :
    (run h (op o >>= f) s).env = (run h (f (h s o).1) (h s o).2).env := rfl

@[simp]
theorem run_map (f : α → β) (p : Prog O R α) (s : σ) :
    run h (f <$> p) s = ⟨f (run h p s).val, (run h p s).env, (run h p s).log⟩ := by
  rw [map_eq_pure_bind, run_bind]
  simp

theorem run_ite_val {c : Prop} [Decidable c] (p q : Prog O R α) (s : σ) :
    (run h (if c then p else q) s).val = if c then (run h p s).val else (run h q s).val := by
  split_ifs <;> rfl

/-- Every reply in the log is the environment's, in some state of it. -/
theorem run_log_reply (p : Prog O R α) (s : σ) :
    ∀ x ∈ (run h p s).log, ∃ s', x.2 = (h s' x.1).1 := by
  induction p generalizing s with
  | done a => simp [run]
  | ask o k ih =>
    intro x hx
    simp only [run, List.mem_cons] at hx
    rcases hx with rfl | hx
    · exact ⟨s, rfl⟩
    · exact ih _ _ x hx

end Run

section Asks

/-- Whatever the replies, every operation the program asks is in `P`. -/
def Asks (P : O → Prop) : Prog O R α → Prop
  | done _ => True
  | ask o k => P o ∧ ∀ r, Asks P (k r)

variable {P : O → Prop}

@[simp]
theorem asks_pure (a : α) : Asks P (pure a : Prog O R α) := trivial

@[simp]
theorem asks_op (o : O) : Asks P (op o : Prog O R R) ↔ P o := by
  simp [op, Asks]

theorem Asks.bind {p : Prog O R α} {f : α → Prog O R β} (hp : Asks P p)
    (hf : ∀ a, Asks P (f a)) : Asks P (p >>= f) := by
  change Asks P (p.bind f)
  induction p with
  | done a => exact hf a
  | ask o k ih => exact ⟨hp.1, fun r => ih r (hp.2 r)⟩

theorem Asks.ite {c : Prop} [Decidable c] {p q : Prog O R α} (hp : c → Asks P p)
    (hq : ¬c → Asks P q) : Asks P (if c then p else q) := by
  split_ifs with h
  · exact hp h
  · exact hq h

theorem Asks.mono {Q : O → Prop} (hPQ : ∀ o, P o → Q o) {p : Prog O R α} (hp : Asks P p) :
    Asks Q p := by
  induction p with
  | done a => trivial
  | ask o k ih => exact ⟨hPQ o hp.1, fun r => ih r (hp.2 r)⟩

/-- The log of a run holds only operations the program may ask. -/
theorem Asks.log {p : Prog O R α} (hp : Asks P p) (h : σ → O → R × σ) (s : σ) :
    ∀ e ∈ (run h p s).log, P e.1 := by
  induction p generalizing s with
  | done a => simp [run]
  | ask o k ih =>
    intro e he
    simp only [run, List.mem_cons] at he
    rcases he with rfl | he
    · exact hp.1
    · exact ih _ (hp.2 _) _ e he

/-- A property of the environment's state that every asked operation keeps, a run keeps. -/
theorem Asks.env {p : Prog O R α} (hp : Asks P p) {h : σ → O → R × σ} {I : σ → Prop}
    (hI : ∀ s o, P o → I s → I (h s o).2) {s : σ} (hs : I s) : I (run h p s).env := by
  induction p generalizing s with
  | done a => exact hs
  | ask o k ih => exact ih _ (hp.2 _) (hI s o hp.1 hs)

end Asks

section Gives

/-- Whatever the replies, the program's result is in `Q`. -/
def Gives (Q : α → Prop) : Prog O R α → Prop
  | done a => Q a
  | ask _ k => ∀ r, Gives Q (k r)

variable {Q : β → Prop}

theorem Gives.of_forall (p : Prog O R β) (hQ : ∀ b, Q b) : Gives Q p := by
  induction p with
  | done a => exact hQ a
  | ask o k ih => exact fun r => ih r

/-- What the first program gives, the second may use. -/
theorem Gives.bind_of {P : α → Prop} {p : Prog O R α} {f : α → Prog O R β} (hp : Gives P p)
    (hf : ∀ a, P a → Gives Q (f a)) : Gives Q (p >>= f) := by
  change Gives Q (p.bind f)
  induction p with
  | done a => exact hf a hp
  | ask o k ih => exact fun r => ih r (hp r)

theorem Gives.bind (p : Prog O R α) {f : α → Prog O R β} (hf : ∀ a, Gives Q (f a)) :
    Gives Q (p >>= f) :=
  Gives.bind_of (Gives.of_forall p fun _ => trivial) fun a (_ : True) => hf a

theorem Gives.map_of {P : α → Prop} {p : Prog O R α} {f : α → β} (hp : Gives P p)
    (hf : ∀ a, P a → Q (f a)) : Gives Q (f <$> p) := by
  rw [map_eq_pure_bind]
  exact Gives.bind_of hp fun a ha => hf a ha

theorem Gives.ite {c : Prop} [Decidable c] {p q : Prog O R β} (hp : c → Gives Q p)
    (hq : ¬c → Gives Q q) : Gives Q (if c then p else q) := by
  split_ifs with h
  · exact hp h
  · exact hq h

theorem Gives.val {p : Prog O R β} (hp : Gives Q p) (h : σ → O → R × σ) (s : σ) :
    Q (run h p s).val := by
  induction p generalizing s with
  | done a => exact hp
  | ask o k ih => exact ih _ (hp _) _

end Gives

end Prog

end Lib
