import Mathlib.Data.List.Basic

/-!
# What lists begin with in common

`commonPrefix` is the greatest list that all of them begin with.
-/

namespace Lib

section Common

variable {α : Type*} [DecidableEq α]

/-- What two lists begin with. -/
def pairPrefix : List α → List α → List α
  | a :: s, b :: t => if a = b then a :: pairPrefix s t else []
  | _, _ => []

theorem pairPrefix_left : ∀ s t : List α, pairPrefix s t <+: s
  | [], _ => List.nil_prefix
  | a :: s, [] => List.nil_prefix
  | a :: s, b :: t => by
    rw [pairPrefix]
    split_ifs
    · exact List.cons_prefix_cons.2 ⟨rfl, pairPrefix_left s t⟩
    · exact List.nil_prefix

theorem pairPrefix_right : ∀ s t : List α, pairPrefix s t <+: t
  | [], _ => List.nil_prefix
  | a :: s, [] => List.nil_prefix
  | a :: s, b :: t => by
    rw [pairPrefix]
    split_ifs with h
    · exact List.cons_prefix_cons.2 ⟨h, pairPrefix_right s t⟩
    · exact List.nil_prefix

theorem prefix_pairPrefix : ∀ {q s t : List α}, q <+: s → q <+: t → q <+: pairPrefix s t
  | [], _, _, _, _ => List.nil_prefix
  | c :: q, [], _, hs, _ => by simp at hs
  | c :: q, a :: s, [], _, ht => by simp at ht
  | c :: q, a :: s, b :: t, hs, ht => by
    obtain ⟨rfl, hs'⟩ := List.cons_prefix_cons.1 hs
    obtain ⟨rfl, ht'⟩ := List.cons_prefix_cons.1 ht
    rw [pairPrefix, if_pos rfl]
    exact List.cons_prefix_cons.2 ⟨rfl, prefix_pairPrefix hs' ht'⟩

/-- What all of the lists begin with. -/
def commonPrefix : List (List α) → List α
  | [] => []
  | t :: ts => ts.foldl pairPrefix t

theorem foldl_pairPrefix : ∀ (ts : List (List α)) (t : List α),
    (∀ s ∈ t :: ts, ts.foldl pairPrefix t <+: s)
      ∧ ∀ q : List α, (∀ s ∈ t :: ts, q <+: s) → q <+: ts.foldl pairPrefix t
  | [], t => ⟨by simp, fun q hq => hq t List.mem_cons_self⟩
  | s :: ts, t => by
    obtain ⟨hle, hgreat⟩ := foldl_pairPrefix ts (pairPrefix t s)
    have hhead := hle _ List.mem_cons_self
    refine ⟨fun u hu => ?_, fun q hq => hgreat q fun u hu => ?_⟩
    · rcases List.mem_cons.1 hu with rfl | hu
      · exact hhead.trans (pairPrefix_left u s)
      · rcases List.mem_cons.1 hu with rfl | hu
        · exact hhead.trans (pairPrefix_right t u)
        · exact hle u (List.mem_cons_of_mem _ hu)
    · rcases List.mem_cons.1 hu with rfl | hu
      · exact prefix_pairPrefix (hq t List.mem_cons_self)
          (hq s (List.mem_cons_of_mem t List.mem_cons_self))
      · exact hq u (List.mem_cons_of_mem t (List.mem_cons_of_mem s hu))

theorem commonPrefix_prefix {ts : List (List α)} {s : List α} (hs : s ∈ ts) :
    commonPrefix ts <+: s := by
  rcases ts with _ | ⟨t, ts⟩
  · simp at hs
  · exact (foldl_pairPrefix ts t).1 s hs

end Common

end Lib
