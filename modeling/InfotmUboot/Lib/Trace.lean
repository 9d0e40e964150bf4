import InfotmUboot.Lib.Prog

/-!
# What a run leaves

`Traces h p Q`: from whatever state of the environment the program is run, its result and its log
are in `Q`. The rule for a sequence carries on with what the log holds so far.
-/

namespace Lib

namespace Prog

variable {O R α β σ : Type}

def Traces (h : σ → O → R × σ) (p : Prog O R α) (Q : α → List (O × R) → Prop) : Prop :=
  ∀ s, Q (run h p s).val (run h p s).log

variable {h : σ → O → R × σ}

theorem Traces.mono {p : Prog O R α} {Q Q' : α → List (O × R) → Prop} (hp : Traces h p Q)
    (hQ : ∀ a l, Q a l → Q' a l) : Traces h p Q' :=
  fun s => hQ _ _ (hp s)

theorem Traces.and {p : Prog O R α} {Q Q' : α → List (O × R) → Prop} (hp : Traces h p Q)
    (hp' : Traces h p Q') : Traces h p fun a l => Q a l ∧ Q' a l :=
  fun s => ⟨hp s, hp' s⟩

theorem traces_pure {Q : α → List (O × R) → Prop} {a : α} (hQ : Q a []) :
    Traces h (pure a : Prog O R α) Q :=
  fun _ => hQ

theorem traces_op {Q : R → List (O × R) → Prop} {o : O}
    (hQ : ∀ s, Q (h s o).1 [(o, (h s o).1)]) : Traces h (op o : Prog O R R) Q :=
  hQ

theorem Traces.bind {p : Prog O R α} {f : α → Prog O R β} {S : α → List (O × R) → Prop}
    {Q : β → List (O × R) → Prop} (hp : Traces h p S)
    (hf : ∀ a l, S a l → Traces h (f a) fun b l' => Q b (l ++ l')) : Traces h (p >>= f) Q := by
  intro s
  rw [run_bind]
  exact hf _ _ (hp s) _

theorem Traces.ite {c : Prop} [Decidable c] {p q : Prog O R α} {Q : α → List (O × R) → Prop}
    (hp : c → Traces h p Q) (hq : ¬c → Traces h q Q) : Traces h (if c then p else q) Q := by
  split_ifs with hc
  · exact hp hc
  · exact hq hc

/-- What a run asks is not what is picked from its log. -/
theorem Asks.picks {P : O → Prop} {pick : O × R → Option β} (hP : ∀ o r, P o → pick (o, r) = none)
    {p : Prog O R α} (hp : p.Asks P) : Traces h p fun _ l => l.filterMap pick = [] := fun s =>
  List.filterMap_eq_nil_iff.2 fun x hx => hP x.1 x.2 (hp.log h s x hx)

section Same

/-- Against this environment the two programs run alike. -/
def Same (h : σ → O → R × σ) (p q : Prog O R α) : Prop := ∀ s, run h p s = run h q s

theorem Same.bind {p : Prog O R α} {f g : α → Prog O R β}
    (hp : Traces h p fun a _ => Same h (f a) (g a)) : Same h (p >>= f) (p >>= g) := by
  intro s
  rw [run_bind, run_bind, hp s]

theorem Same.ite {c : Prop} [Decidable c] {p q p' q' : Prog O R α} (hp : c → Same h p p')
    (hq : ¬c → Same h q q') : Same h (if c then p else q) (if c then p' else q') := by
  split_ifs with hc
  · exact hp hc
  · exact hq hc

end Same

end Prog

end Lib
