import Mathlib.Data.List.Basic
import Mathlib.Algebra.BigOperators.Group.List.Basic
import Mathlib.Data.Set.Lattice
import Mathlib.Order.CompletePartialOrder
import Mathlib.Order.Interval.Set.LinearOrder
import Mathlib.Tactic.Ring

/-!
# Extents

Runs of units on a medium, the layout that puts them one after the other, each behind a header of a
fixed length, lists of extents in order with room between them, as a set of units, and extents on a
ring.
-/

namespace Lib

structure Extent where
  start : ℕ
  size : ℕ
  deriving DecidableEq, Repr

namespace Extent

def stop (e : Extent) : ℕ := e.start + e.size

def Apart (e f : Extent) : Prop := e.stop ≤ f.start ∨ f.stop ≤ e.start

/-- Extents that are apart from one another and lie between two bounds. -/
structure Laid (lo hi : ℕ) (es : List Extent) : Prop where
  apart : es.Pairwise Apart
  lo_le : ∀ e ∈ es, lo ≤ e.start
  le_hi : ∀ e ∈ es, e.stop ≤ hi

variable {lo mid hi : ℕ}

theorem Laid.append {es fs : List Extent} (he : Laid lo mid es) (hf : Laid mid hi fs)
    (h1 : lo ≤ mid) (h2 : mid ≤ hi) : Laid lo hi (es ++ fs) where
  apart := by
    refine List.pairwise_append.2 ⟨he.apart, hf.apart, ?_⟩
    intro e hemem f hfmem
    exact Or.inl ((he.le_hi e hemem).trans (hf.lo_le f hfmem))
  lo_le := by
    intro e hmem
    rcases List.mem_append.1 hmem with h | h
    · exact he.lo_le e h
    · exact h1.trans (hf.lo_le e h)
  le_hi := by
    intro e hmem
    rcases List.mem_append.1 hmem with h | h
    · exact (he.le_hi e h).trans h2
    · exact hf.le_hi e h

theorem Laid.mono {es : List Extent} (he : Laid lo mid es) (h : mid ≤ hi) : Laid lo hi es :=
  ⟨he.apart, he.lo_le, fun e hmem => (he.le_hi e hmem).trans h⟩

section Serial

variable (hdr : ℕ)

/-- Where the layout of extents of these sizes ends that begins at `b`. -/
def serialEnd : ℕ → List ℕ → ℕ
  | b, [] => b
  | b, z :: zs => serialEnd (b + hdr + z) zs

/-- The layout of extents of these sizes from `b` on. -/
def serial : ℕ → List ℕ → List Extent
  | _, [] => []
  | b, z :: zs => ⟨b + hdr, z⟩ :: serial (b + hdr + z) zs

theorem serialEnd_eq : ∀ (b : ℕ) (zs : List ℕ),
    serialEnd hdr b zs = b + (zs.map fun z => hdr + z).sum
  | b, [] => by simp [serialEnd]
  | b, z :: zs => by
    simp only [serialEnd, serialEnd_eq, List.map_cons, List.sum_cons]
    ring

theorem le_serialEnd (b : ℕ) (zs : List ℕ) : b ≤ serialEnd hdr b zs := by
  rw [serialEnd_eq]
  exact Nat.le_add_right _ _

theorem serialEnd_dropLast : ∀ (b : ℕ) (zs : List ℕ), serialEnd hdr b zs.dropLast ≤
    serialEnd hdr b zs
  | _, [] => le_rfl
  | b, [z] => by
    simp only [List.dropLast_singleton, serialEnd]
    omega
  | b, z :: y :: zs => serialEnd_dropLast (b + hdr + z) (y :: zs)

theorem serial_append : ∀ (b : ℕ) (ys zs : List ℕ),
    serial hdr b (ys ++ zs) = serial hdr b ys ++ serial hdr (serialEnd hdr b ys) zs
  | _, [], _ => rfl
  | b, y :: ys, zs => by simp [serial, serialEnd, serial_append (b + hdr + y) ys zs]

theorem serial_laid : ∀ (b : ℕ) (zs : List ℕ), Laid b (serialEnd hdr b zs) (serial hdr b zs)
  | b, [] => ⟨List.Pairwise.nil, by simp [serial], by simp [serial]⟩
  | b, z :: zs => by
    have ih := serial_laid (b + hdr + z) zs
    have hone : Laid b (b + hdr + z) [⟨b + hdr, z⟩] :=
      ⟨List.pairwise_singleton _ _, by simp, by simp [stop]⟩
    exact hone.append ih (by omega) (le_serialEnd hdr _ zs)

/-- The last extent ends where the layout does. -/
theorem serial_last : ∀ (b : ℕ) (zs : List ℕ), zs ≠ [] →
    ∃ e ∈ serial hdr b zs, e.stop = serialEnd hdr b zs
  | b, [z], _ => ⟨⟨b + hdr, z⟩, by simp [serial], rfl⟩
  | b, z :: y :: zs, _ => by
    obtain ⟨e, hmem, he⟩ := serial_last (b + hdr + z) (y :: zs) (by simp)
    exact ⟨e, List.mem_cons_of_mem _ hmem, he⟩

end Serial

section Spaced

def points (e : Extent) : Set ℕ := Set.Ico e.start e.stop

/-- The units of a list of extents. -/
def covered (es : List Extent) : Set ℕ := {a | ∃ e ∈ es, a ∈ e.points}

/-- Extents in order, each of them behind the one before and not next to it. -/
def Spaced (es : List Extent) : Prop := es.Pairwise fun e f => e.stop < f.start

variable {e f g : Extent} {es fs : List Extent}

theorem mem_points {a : ℕ} : a ∈ e.points ↔ e.start ≤ a ∧ a < e.stop := Iff.rfl

theorem start_le_stop (e : Extent) : e.start ≤ e.stop := Nat.le_add_right _ _

@[simp] theorem covered_nil : covered [] = ∅ := by
  ext a
  simp [covered]

@[simp] theorem covered_cons : covered (e :: es) = e.points ∪ covered es := by
  ext a
  simp [covered]

@[simp] theorem covered_append : covered (es ++ fs) = covered es ∪ covered fs := by
  ext a
  simp only [covered, List.mem_append, Set.mem_union, Set.mem_ofPred_eq, or_and_right, exists_or]

theorem points_subset_covered (h : e ∈ es) : e.points ⊆ covered es := fun _ ha => ⟨e, h, ha⟩

/-- Two extents that touch, as one. -/
theorem points_merge (h : e.stop = f.start) :
    points ⟨e.start, e.size + f.size⟩ = e.points ∪ f.points := by
  have hstop : stop ⟨e.start, e.size + f.size⟩ = f.stop := by
    unfold stop at *
    dsimp only at *
    omega
  rw [points, points, points, hstop, h, Set.Ico_union_Ico_eq_Ico (h ▸ e.start_le_stop)
    f.start_le_stop]

theorem spaced_middle : Spaced (es ++ e :: fs) ↔
    Spaced (es ++ fs) ∧ (∀ f ∈ es, f.stop < e.start) ∧ ∀ f ∈ fs, e.stop < f.start := by
  unfold Spaced
  simp only [List.pairwise_append, List.pairwise_cons, List.mem_cons, forall_eq_or_imp]
  constructor
  · rintro ⟨hes, ⟨hefs, hfs⟩, hcross⟩
    exact ⟨⟨hes, hfs, fun f hf => (hcross f hf).2⟩, fun f hf => (hcross f hf).1, hefs⟩
  · rintro ⟨⟨hes, hfs, hcross⟩, hbefore, hafter⟩
    exact ⟨hes, ⟨hafter, hfs⟩, fun f hf => ⟨hbefore f hf, hcross f hf⟩⟩

/-- An extent makes place for one that keeps away from the others. -/
theorem Spaced.replace (h : Spaced (es ++ e :: fs)) (h1 : ∀ g ∈ es, g.stop < f.start)
    (h2 : ∀ g ∈ fs, f.stop < g.start) : Spaced (es ++ f :: fs) :=
  spaced_middle.2 ⟨(spaced_middle.1 h).1, h1, h2⟩

/-- The units of a spaced list behind and before one of its extents are none of its own. -/
theorem Spaced.covered_apart (h : Spaced (es ++ e :: fs)) {a : ℕ} (ha : a ∈ e.points) :
    a ∉ covered es ∧ a ∉ covered fs := by
  obtain ⟨-, hbefore, hafter⟩ := spaced_middle.1 h
  constructor
  · rintro ⟨g, hg, hag⟩
    exact absurd (hbefore g hg) (by have := ha.1; have := hag.2; omega)
  · rintro ⟨g, hg, hag⟩
    exact absurd (hafter g hg) (by have := ha.2; have := hag.1; omega)

/-- Units taken from one extent of a spaced list. -/
theorem Spaced.covered_diff (h : Spaced (es ++ e :: fs)) {t : Set ℕ} (ht : t ⊆ e.points) :
    covered (es ++ e :: fs) \ t = covered es ∪ (e.points \ t) ∪ covered fs := by
  have hes : Disjoint (covered es) t := Set.disjoint_left.2 fun a ha hat =>
    (h.covered_apart (ht hat)).1 ha
  have hfs : Disjoint (covered fs) t := Set.disjoint_left.2 fun a ha hat =>
    (h.covered_apart (ht hat)).2 ha
  rw [covered_append, covered_cons, Set.union_sdiff_distrib, Set.union_sdiff_distrib,
    hes.sdiff_eq_left, hfs.sdiff_eq_left, Set.union_assoc]

end Spaced

section Ring

variable {n : ℕ} {e f : Extent} {es fs : List Extent}

/-- Extents on a ring of `n` units: none of them goes round, and where one ends at `n` none begins
at 0. -/
structure Unwound (n : ℕ) (es : List Extent) : Prop where
  start_lt : ∀ e ∈ es, e.start < n
  stop_le : ∀ e ∈ es, e.stop ≤ n
  parted : ∀ e ∈ es, e.stop = n → ∀ f ∈ es, f.start ≠ 0

instance (n : ℕ) (es : List Extent) : Decidable (Unwound n es) :=
  decidable_of_iff ((∀ e ∈ es, e.start < n) ∧ (∀ e ∈ es, e.stop ≤ n) ∧
      ∀ e ∈ es, e.stop = n → ∀ f ∈ es, f.start ≠ 0)
    ⟨fun h => ⟨h.1, h.2.1, h.2.2⟩, fun h => ⟨h.1, h.2, h.3⟩⟩

theorem Unwound.nil (n : ℕ) : Unwound n [] where
  start_lt := fun _ he => absurd he List.not_mem_nil
  stop_le := fun _ he => absurd he List.not_mem_nil
  parted := fun _ he => absurd he List.not_mem_nil

theorem Unwound.mono (h : Unwound n fs) (hs : es ⊆ fs) : Unwound n es where
  start_lt := fun e he => h.start_lt e (hs he)
  stop_le := fun e he => h.stop_le e (hs he)
  parted := fun e he hn f hf => h.parted e (hs he) hn f (hs hf)

/-- An extent that meets none of the others round the ring. -/
theorem Unwound.insert (h : Unwound n es) (hstart : e.start < n) (hsize : e.size < n)
    (hstop : e.stop ≤ n)
    (hpart : ∀ f ∈ es, (e.stop = n → f.start ≠ 0) ∧ (e.start = 0 → f.stop ≠ n)) :
    Unwound n (e :: es) where
  start_lt := List.forall_mem_cons.2 ⟨hstart, h.start_lt⟩
  stop_le := List.forall_mem_cons.2 ⟨hstop, h.stop_le⟩
  parted := by
    refine List.forall_mem_cons.2 ⟨fun hn => ?_, fun f hf hn => ?_⟩
    · refine List.forall_mem_cons.2 ⟨fun h0 => ?_, fun f hf => (hpart f hf).1 hn⟩
      rw [stop, h0, Nat.zero_add] at hn
      exact hsize.ne hn
    · exact List.forall_mem_cons.2 ⟨fun h0 => (hpart f hf).2 h0 hn, h.parted f hf hn⟩

/-- An extent between a start and an end of others. -/
theorem Unwound.between (h : Unwound n es) (hstart : e.start < n)
    (hlow : ∃ f ∈ es, f.start ≤ e.start) (hhigh : ∃ f ∈ es, e.stop ≤ f.stop) :
    Unwound n (e :: es) where
  start_lt := List.forall_mem_cons.2 ⟨hstart, h.start_lt⟩
  stop_le := by
    obtain ⟨f, hf, hle⟩ := hhigh
    exact List.forall_mem_cons.2 ⟨hle.trans (h.stop_le f hf), h.stop_le⟩
  parted := by
    obtain ⟨l, hl, hle⟩ := hlow
    obtain ⟨t, ht, hte⟩ := hhigh
    have hkeep : ∀ f ∈ es, f.stop = n → ∀ g ∈ e :: es, g.start ≠ 0 := fun f hf hn =>
      List.forall_mem_cons.2
        ⟨fun h0 => h.parted f hf hn l hl (Nat.le_zero.1 (h0 ▸ hle)), h.parted f hf hn⟩
    exact List.forall_mem_cons.2
      ⟨fun hn => hkeep t ht ((h.stop_le t ht).antisymm (hn ▸ hte)), hkeep⟩

theorem Unwound.size_lt (h : Unwound n es) (he : e ∈ es) : e.size < n := by
  have hstop := h.stop_le e he
  have hpart := h.parted e he
  unfold stop at hstop hpart
  by_contra hc
  exact hpart (by omega) e he (by omega)

theorem Unwound.sizes_lt (h : Unwound n es) (he : e ∈ es) (hf : f ∈ es) (hmeet : e.stop = f.start) :
    e.size + f.size < n := by
  have hstop := h.stop_le f hf
  have hpart := h.parted f hf
  unfold stop at hmeet hstop hpart
  by_contra hc
  exact hpart (by omega) e he (by omega)

/-- On the ring one begins where another ends just if it does so without going round. -/
theorem Unwound.meets_iff (h : Unwound n es) (he : e ∈ es) (hf : f ∈ es) :
    f.start = e.stop % n ↔ f.start = e.stop := by
  rcases (h.stop_le e he).lt_or_eq with hlt | heq
  · rw [Nat.mod_eq_of_lt hlt]
  · rw [heq, Nat.mod_self]
    exact iff_of_false (h.parted e he heq f hf) (h.start_lt f hf).ne

end Ring

end Extent

end Lib
