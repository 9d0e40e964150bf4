import InfotmUboot.Lib.Prog
import Mathlib.Control.Monad.Writer
import Mathlib.Data.List.Induction

/-!
# Programs that note their steps

A `Noted N O R α` is a program that writes notes of type `N` beside its result. `bare` forgets the
notes. `Records` speaks of the notes of every run at once: each note is right after the notes before
it, as long as these meet a condition, and a run whose notes all meet it ends in the postcondition.
-/

namespace Lib

abbrev Noted (N O R : Type) : Type → Type := WriterT (List N) (Prog O R)

namespace Noted

variable {N O R α β : Type}

def note (n : N) : Noted N O R PUnit := tell [n]

/-- The program without its notes. -/
def bare (p : Noted N O R α) : Prog O R α := Prod.fst <$> p.run

section Plain

@[simp]
theorem bare_pure (a : α) : bare (pure a : Noted N O R α) = pure a := rfl

@[simp]
theorem bare_note (n : N) : bare (note n : Noted N O R PUnit) = pure ⟨⟩ := rfl

@[simp]
theorem bare_lift (p : Prog O R α) : bare (liftM p : Noted N O R α) = p := by
  change Prod.fst <$> (fun a => (a, ([] : List N))) <$> p = p
  rw [← comp_map]
  exact id_map p

@[simp]
theorem bare_bind (p : Noted N O R α) (f : α → Noted N O R β) :
    bare (p >>= f) = bare p >>= fun a => bare (f a) := by
  change Prod.fst <$> (p.run >>= fun r => (fun q => (q.1, r.2 ++ q.2)) <$> (f r.1).run) = _
  rw [map_bind, bare, bind_map_left]
  refine bind_congr fun r => ?_
  rw [← comp_map]
  rfl

@[simp]
theorem bare_ite {c : Prop} [Decidable c] (p q : Noted N O R α) :
    bare (if c then p else q) = if c then bare p else bare q := by
  split_ifs <;> rfl

end Plain

/-- Every note of `ns` is right after those before it and after `l`, as long as these all meet
`M`. -/
def Upto (M : N → Prop) (Rt : List N → N → Prop) (l ns : List N) : Prop :=
  ∀ l₁ e l₂, ns = l₁ ++ e :: l₂ → (∀ x ∈ l ++ l₁, M x) → Rt (l ++ l₁) e

section Upto

variable {M : N → Prop} {Rt : List N → N → Prop}

theorem upto_nil (l : List N) : Upto M Rt l [] := by
  intro l₁ e l₂ h
  simp at h

theorem upto_of_not {l : List N} (hl : ¬∀ x ∈ l, M x) (ns : List N) : Upto M Rt l ns :=
  fun _ _ _ _ hM => absurd (fun x hx => hM x (List.mem_append_left _ hx)) hl

theorem Upto.cons {l ns : List N} {e : N} (he : (∀ x ∈ l, M x) → Rt l e)
    (h : Upto M Rt (l ++ [e]) ns) : Upto M Rt l (e :: ns) := by
  intro l₁ e' l₂ hns hM
  cases l₁ with
  | nil =>
    obtain ⟨rfl, rfl⟩ := List.cons.inj hns
    simp only [List.append_nil] at hM ⊢
    exact he hM
  | cons d l₁ =>
    obtain ⟨rfl, rfl⟩ := List.cons.inj hns
    have h' := h l₁ e' l₂ rfl
    simp only [List.append_assoc, List.singleton_append] at h'
    exact h' hM

theorem Upto.append : ∀ {l ns ns' : List N}, Upto M Rt l ns → Upto M Rt (l ++ ns) ns' →
    Upto M Rt l (ns ++ ns')
  | l, [], ns', _, h' => by simpa using h'
  | l, e :: ns, ns', h, h' => by
    have hns : Upto M Rt (l ++ [e]) ns := fun l₁ d l₂ hns hM => by
      have hd := h (e :: l₁) d l₂ (by rw [hns, List.cons_append])
      simp only [List.append_assoc, List.singleton_append] at hd hM ⊢
      exact hd hM
    refine Upto.cons (fun hM => ?_) (Upto.append hns (by simpa))
    simpa using h [] e ns rfl (by simpa using hM)

/-- Where a note is right exactly if it is in `F`, all of them are if all are in `F`. -/
theorem Upto.all_iff {F : N → Prop} (hF : ∀ x, F x → M x) {ns : List N}
    (h : Upto M (fun l e => Rt l e ↔ F e) [] ns) :
    (∀ l₁ e l₂, ns = l₁ ++ e :: l₂ → Rt l₁ e) ↔ ∀ e ∈ ns, F e := by
  constructor
  · intro hall
    have hbefore (l₁ : List N) : ∀ l₂, ns = l₁ ++ l₂ → ∀ x ∈ l₁, F x := by
      induction l₁ using List.reverseRecOn with
      | nil => simp
      | append_singleton l₁ e ih =>
        intro l₂ hns x hx
        rw [List.append_assoc, List.singleton_append] at hns
        rcases List.mem_append.1 hx with hx | hx
        · exact ih _ hns x hx
        · rw [List.mem_singleton.1 hx]
          exact (h l₁ e l₂ hns fun y hy => hF y (ih _ hns y hy)).1 (hall l₁ e l₂ hns)
    exact hbefore ns [] (List.append_nil ns).symm
  · intro hall l₁ e l₂ hns
    refine (h l₁ e l₂ hns fun y hy => hF y (hall y ?_)).2 (hall e ?_)
    · rw [hns]
      exact List.mem_append_left _ hy
    · simp [hns]

end Upto

/-- After the notes `l`, whatever the replies: the notes are right up to the first that does not
meet `M`, and if all meet it the result is in `Q`. -/
structure Records (M : N → Prop) (Rt : List N → N → Prop) (Q : List N → α → Prop) (l : List N)
    (p : Noted N O R α) : Prop where
  gives : Prog.Gives (fun r => Upto M Rt l r.2 ∧ ((∀ x ∈ l ++ r.2, M x) → Q (l ++ r.2) r.1)) p.run

section Records

variable {M : N → Prop} {Rt : List N → N → Prop} {Q : List N → α → Prop} {Q' : List N → β → Prop}
  {l : List N}

theorem Records.pure {a : α} (h : Q l a) : Records M Rt Q l (pure a : Noted N O R α) := by
  refine ⟨upto_nil l, fun _ => ?_⟩
  simpa using h

theorem Records.bind {p : Noted N O R α} {f : α → Noted N O R β} (hp : Records M Rt Q l p)
    (hf : ∀ l' a, (∀ x ∈ l', M x) → Q l' a → Records M Rt Q' l' (f a)) :
    Records M Rt Q' l (p >>= f) := by
  refine ⟨Prog.Gives.bind_of hp.gives fun r hr => ?_⟩
  by_cases hM : ∀ x ∈ l ++ r.2, M x
  · refine Prog.Gives.map_of (hf _ _ hM (hr.2 hM)).gives fun q hq =>
      ⟨hr.1.append hq.1, fun hM' => ?_⟩
    simpa using hq.2 (by simpa using hM')
  · -- after a note that does not meet the condition nothing is asked
    refine Prog.Gives.map_of (Prog.Gives.of_forall _ fun _ => trivial) fun q _ =>
      ⟨hr.1.append (upto_of_not hM _), fun hM' => absurd (fun x hx => hM' x ?_) hM⟩
    simp only [List.mem_append] at hx ⊢
    tauto

theorem Records.pure_bind {a : β} {f : β → Noted N O R α} (h : Records M Rt Q l (f a)) :
    Records M Rt Q l ((Pure.pure a : Noted N O R β) >>= f) := by
  have hpure : Records M Rt (fun l' b => l' = l ∧ b = a) l (Pure.pure a : Noted N O R β) :=
    Records.pure ⟨rfl, rfl⟩
  refine hpure.bind fun l' b _ hl' => ?_
  obtain ⟨rfl, rfl⟩ := hl'
  exact h

theorem Records.note_bind {e : N} {f : PUnit → Noted N O R α} (he : Rt l e)
    (hf : M e → Records M Rt Q (l ++ [e]) (f ⟨⟩)) : Records M Rt Q l (note e >>= f) := by
  have hnote : Records M Rt (fun l' _ => l' = l ++ [e]) l (note e : Noted N O R PUnit) :=
    ⟨(upto_nil _).cons fun _ => he, fun _ => rfl⟩
  refine hnote.bind fun l' a hM hl' => ?_
  subst hl'
  exact hf (hM e (by simp))

theorem Records.lift_bind {P : β → Prop} {p : Prog O R β} {f : β → Noted N O R α}
    (hp : Prog.Gives P p) (hf : ∀ a, P a → Records M Rt Q l (f a)) :
    Records M Rt Q l (liftM p >>= f) := by
  have hlift : Records M Rt (fun l' a => l' = l ∧ P a) l (liftM p : Noted N O R β) :=
    ⟨Prog.Gives.map_of hp fun a ha => ⟨upto_nil _, fun _ => ⟨List.append_nil l, ha⟩⟩⟩
  refine hlift.bind fun l' a _ hl' => ?_
  obtain ⟨rfl, ha⟩ := hl'
  exact hf a ha

theorem Records.ite {c : Prop} [Decidable c] {p q : Noted N O R α} (hp : c → Records M Rt Q l p)
    (hq : ¬c → Records M Rt Q l q) : Records M Rt Q l (if c then p else q) := by
  split_ifs with h
  · exact hp h
  · exact hq h

/-- The notes of a run. -/
theorem Records.run {p : Noted N O R α} (hp : Records M Rt Q l p) {σ : Type} (h : σ → O → R × σ)
    (s : σ) : Upto M Rt l (Prog.run h p.run s).val.2 :=
  (Prog.Gives.val hp.gives h s).1

end Records

end Noted

end Lib
