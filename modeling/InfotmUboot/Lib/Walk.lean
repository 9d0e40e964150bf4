import Mathlib.Data.List.Basic
import Mathlib.Logic.Relation
import Mathlib.Tactic.Basic

/-!
# Walks from place to place

A scan goes from a place to the next one that it finds there, and carries something along. It comes
to an end with nothing wrong on its way just if all the places that it gets to are right and none
leads to itself (`walks_iff`), as long as each step from a right place to another one comes nearer
to the end.
-/

namespace Lib

variable {S X : Type} {next : S → Option S} {ok : S → Prop} {upd : S → X → X}

/-- From place to place as `next` says. -/
def ComesTo (next : S → Option S) : S → S → Prop := Relation.ReflTransGen fun s t => next s = some t

/-- What is said of the runs with so many steps: they begin with a right place, and the rest is
right in the same sense. -/
structure Walk (next : S → Option S) (ok : S → Prop) (upd : S → X → X) (good : ℕ → S → X → Prop) :
    Prop where
  zero : ∀ s x, ¬good 0 s x
  succ : ∀ n s x, good (n + 1) s x ↔ ok s ∧ ∀ t, next s = some t → good n t (upd s x)

variable {good : ℕ → S → X → Prop}

theorem Walk.comesTo (h : Walk next ok upd good) {s t : S} (hst : ComesTo next s t) {n : ℕ} {x : X}
    (hgood : good n s x) : ∃ m y, good m t y := by
  induction hst with
  | refl => exact ⟨n, x, hgood⟩
  | tail _ hstep ih =>
    obtain ⟨_ | m, y, hm⟩ := ih
    · exact absurd hm (h.zero _ _)
    · exact ⟨m, _, ((h.succ _ _ _).1 hm).2 _ hstep⟩

theorem Walk.leaves (h : Walk next ok upd good) {s : S} (hs : next s = some s) :
    ∀ (n : ℕ) (x : X), ¬good n s x
  | 0, x => h.zero s x
  | n + 1, x => fun hgood => h.leaves hs n _ (((h.succ n s x).1 hgood).2 s hs)

theorem walks_iff (h : Walk next ok upd good) (rest : S → ℕ)
    (hrest : ∀ s t, ok s → next s = some t → t = s ∨ rest t < rest s) (s : S) (x : X) :
    (∃ n, good n s x) ↔ ∀ t, ComesTo next s t → ok t ∧ next t ≠ some t := by
  constructor
  · rintro ⟨n, hgood⟩ t ht
    obtain ⟨_ | m, y, hm⟩ := h.comesTo ht hgood
    · exact absurd hm (h.zero _ _)
    · exact ⟨((h.succ m t y).1 hm).1, fun hstay => h.leaves hstay _ _ hm⟩
  · intro hall
    induction hk : rest s using Nat.strongRecOn generalizing s x with
    | ind k ih =>
      obtain ⟨hok, hmoves⟩ := hall s Relation.ReflTransGen.refl
      rcases ht : next s with _ | t
      · exact ⟨1, (h.succ 0 s x).2 ⟨hok, fun t ht' => absurd (ht.symm.trans ht') (by simp)⟩⟩
      · have hless := (hrest s t hok ht).resolve_left fun hts => hmoves (hts ▸ ht)
        obtain ⟨n, hn⟩ := ih _ (hk ▸ hless) t (upd s x)
          (fun u hu => hall u (hu.head ht)) rfl
        refine ⟨n + 1, (h.succ n s x).2 ⟨hok, fun u hu => ?_⟩⟩
        obtain rfl := Option.some.inj (ht.symm.trans hu)
        exact hn

end Lib
