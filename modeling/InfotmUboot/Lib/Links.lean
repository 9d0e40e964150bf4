import Mathlib.Data.Finset.Card
import Mathlib.Data.List.Nodup

/-!
# Following links

What is visited when all links from a place are followed, one after the other and each to its end,
without a look at where one has been. A way is the list of the numbers of the links taken. The
visits come to an end and no key is met twice just if no two ways lead to places with the same key
(`visits_once_iff`); the place that one starts from does not count.
-/

namespace Lib

variable {S : Type} (next : S → List S)

/-- The first failure of a visit ends the visits. -/
def visitAll (f : S → Option (List S)) : List S → Option (List S)
  | [] => some []
  | s :: ss =>
    match f s with
    | none => none
    | some l => (visitAll f ss).map (l ++ ·)

def visits : ℕ → S → Option (List S)
  | 0, _ => none
  | n + 1, s => (visitAll (visits n) (next s)).map (s :: ·)

def follow : List ℕ → S → Option S
  | [], s => some s
  | i :: way, s => (next s)[i]?.bind (follow way)

/-- No two ways lead to the same key. -/
def OneWay {K : Type} (key : S → K) (s : S) : Prop :=
  ∀ v w a b, v ≠ [] → w ≠ [] → follow next v s = some a → follow next w s = some b →
    key a = key b → v = w

variable {next}

theorem visitAll_singleton (f : S → Option (List S)) (s : S) : visitAll f [s] = f s := by
  rw [visitAll]
  rcases f s with _ | l
  · rfl
  · simp [visitAll]

theorem visitAll_none {f : S → Option (List S)} : ∀ {ss : List S}, visitAll f ss = none →
    ∃ (i : ℕ) (s : S), ss[i]? = some s ∧ f s = none
  | s :: ss, h => by
    rcases hf : f s with _ | l
    · exact ⟨0, s, rfl, hf⟩
    · rw [visitAll, hf] at h
      obtain ⟨i, t, hi, ht⟩ := visitAll_none (Option.map_eq_none_iff.1 h)
      exact ⟨i + 1, t, hi, ht⟩

/-- Where the visits are cut short, a way is as long as that. -/
theorem visits_none : ∀ {n : ℕ} {s : S}, visits next n s = none →
    ∃ (way : List ℕ) (a : S), way.length = n ∧ follow next way s = some a
  | 0, s, _ => ⟨[], s, rfl, rfl⟩
  | n + 1, s, h => by
    obtain ⟨i, t, hi, ht⟩ := visitAll_none (Option.map_eq_none_iff.1 h)
    obtain ⟨way, a, hlen, hway⟩ := visits_none ht
    refine ⟨i :: way, a, by rw [List.length_cons, hlen], ?_⟩
    rw [follow, hi]
    exact hway

theorem follow_take : ∀ {way : List ℕ} {s a : S} (k : ℕ), follow next way s = some a →
    ∃ b, follow next (way.take k) s = some b
  | way, s, _, 0, _ => ⟨s, by rw [List.take_zero]; rfl⟩
  | [], s, _, k + 1, _ => ⟨s, rfl⟩
  | i :: way, s, a, k + 1, h => by
    rw [follow] at h
    obtain ⟨t, ht, hway⟩ := Option.bind_eq_some_iff.1 h
    obtain ⟨b, hb⟩ := follow_take k hway
    refine ⟨b, ?_⟩
    rw [List.take_succ_cons, follow, ht]
    exact hb

/-- A way that takes a link leads to what a link leads to. -/
theorem follow_mem {P : S → Prop} (hP : ∀ s, ∀ t ∈ next s, P t) :
    ∀ {way : List ℕ} {s a : S}, way ≠ [] → follow next way s = some a → P a
  | [i], s, a, _, h => by
    obtain ⟨t, ht, hway⟩ := Option.bind_eq_some_iff.1 h
    obtain rfl : t = a := Option.some.inj hway
    exact hP s t (List.mem_of_getElem? ht)
  | i :: j :: way, s, a, _, h => by
    obtain ⟨t, ht, hway⟩ := Option.bind_eq_some_iff.1 h
    exact follow_mem hP (List.cons_ne_nil _ _) hway

variable (next) in
/-- The ways are as many as the visits: each leads to its own, and there are no others. -/
structure Ways (s : S) (l : List S) (ways : List (List ℕ)) : Prop where
  places : ways.map (follow next · s) = l.map some
  nodup : ways.Nodup
  all : ∀ way a, follow next way s = some a → way ∈ ways

variable (next) in
/-- The ways from any of the places, each with the number of its place. -/
structure WaysAll (ss l : List S) (ways : List (ℕ × List ℕ)) : Prop where
  places : ways.map (fun w => ss[w.1]?.bind (follow next w.2)) = l.map some
  nodup : ways.Nodup
  all : ∀ i way a, ss[i]?.bind (follow next way) = some a → (i, way) ∈ ways

theorem waysAll_nil : WaysAll next [] [] [] :=
  ⟨rfl, List.nodup_nil, fun i way a h => by simp at h⟩

theorem WaysAll.cons {s : S} {ss l ls : List S} {ways : List (List ℕ)} {rest : List (ℕ × List ℕ)}
    (h : Ways next s l ways) (hs : WaysAll next ss ls rest) :
    WaysAll next (s :: ss) (l ++ ls)
      (ways.map (Prod.mk 0) ++ rest.map (Prod.map Nat.succ id)) where
  places := by
    rw [List.map_append, List.map_append, List.map_map, List.map_map, ← h.places, ← hs.places]
    rfl
  nodup := by
    refine List.Nodup.append (h.nodup.map (Prod.mk_right_injective 0))
      (hs.nodup.map (Nat.succ_injective.prodMap Function.injective_id)) ?_
    intro w hw hw'
    obtain ⟨way, -, rfl⟩ := List.mem_map.1 hw
    obtain ⟨v, -, hv⟩ := List.mem_map.1 hw'
    exact absurd (congrArg Prod.fst hv) (Nat.succ_ne_zero _)
  all i way a ha := by
    rw [List.mem_append, List.mem_map, List.mem_map]
    rcases i with _ | i
    · exact .inl ⟨way, h.all way a ha, rfl⟩
    · exact .inr ⟨(i, way), hs.all i way a ha, rfl⟩

theorem Ways.of_all {s : S} {l : List S} {ways : List (ℕ × List ℕ)}
    (h : WaysAll next (next s) l ways) :
    Ways next s (s :: l) ([] :: ways.map fun w => w.1 :: w.2) where
  places := by
    rw [List.map_cons, List.map_cons, List.map_map, ← h.places]
    rfl
  nodup := by
    refine List.nodup_cons.2 ⟨fun hmem => ?_, h.nodup.map fun v w hvw => ?_⟩
    · obtain ⟨w, -, hw⟩ := List.mem_map.1 hmem
      exact absurd hw (List.cons_ne_nil _ _)
    · obtain ⟨h1, h2⟩ := List.cons.inj hvw
      exact Prod.ext h1 h2
  all way a ha := by
    rcases way with _ | ⟨i, way⟩
    · exact List.mem_cons_self
    · exact List.mem_cons_of_mem _ (List.mem_map.2 ⟨(i, way), h.all i way a ha, rfl⟩)

theorem visitAll_ways {f : S → Option (List S)}
    (hf : ∀ s l, f s = some l → ∃ ways, Ways next s l ways) :
    ∀ {ss l : List S}, visitAll f ss = some l → ∃ ways, WaysAll next ss l ways
  | [], l, h => by
    obtain rfl : [] = l := Option.some.inj h
    exact ⟨[], waysAll_nil⟩
  | s :: ss, l, h => by
    rw [visitAll] at h
    rcases hs : f s with _ | ls
    · rw [hs] at h
      exact absurd h (by simp)
    · rw [hs] at h
      obtain ⟨ls', hls', rfl⟩ := Option.map_eq_some_iff.1 h
      obtain ⟨ways, hways⟩ := hf s ls hs
      obtain ⟨rest, hrest⟩ := visitAll_ways hf hls'
      exact ⟨_, WaysAll.cons hways hrest⟩

theorem visits_ways : ∀ {n : ℕ} {s : S} {l : List S}, visits next n s = some l →
    ∃ ways, Ways next s l ([] :: ways) ∧ ∀ way ∈ ways, way ≠ []
  | n + 1, s, l, h => by
    obtain ⟨ls, hls, rfl⟩ := Option.map_eq_some_iff.1 h
    obtain ⟨ways, hways⟩ := visitAll_ways (fun t lt ht => by
      obtain ⟨ways, hways, -⟩ := visits_ways ht
      exact ⟨_, hways⟩) hls
    refine ⟨_, Ways.of_all hways, fun way hway => ?_⟩
    obtain ⟨w, -, rfl⟩ := List.mem_map.1 hway
    exact List.cons_ne_nil _ _

variable {K : Type} {key : S → K} {s : S}

/-- Ways that each lead to a key of their own are no longer than there are keys. -/
theorem OneWay.length_le [DecidableEq K] (h : OneWay next key s) {keys : Finset K}
    (hkeys : ∀ way a, way ≠ [] → follow next way s = some a → key a ∈ keys) {way : List ℕ} {a : S}
    (hway : follow next way s = some a) : way.length ≤ keys.card := by
  by_contra hlong
  choose b hb using fun k => follow_take k hway
  have hne (k : ℕ) (hk : k < way.length) : way.take (k + 1) ≠ [] := by
    intro hnil
    have := congrArg List.length hnil
    rw [List.length_take, List.length_nil] at this
    omega
  have hmaps : ∀ k ∈ Finset.range way.length, key (b (k + 1)) ∈ keys := fun k hk =>
    hkeys _ _ (hne k (Finset.mem_range.1 hk)) (hb (k + 1))
  obtain ⟨j, hj, k, hk, hjk, heq⟩ := Finset.exists_ne_map_eq_of_card_lt_of_maps_to
    (by rw [Finset.card_range]; omega) hmaps
  rw [Finset.mem_range] at hj hk
  have hsame := congrArg List.length
    (h _ _ _ _ (hne j hj) (hne k hk) (hb (j + 1)) (hb (k + 1)) heq)
  rw [List.length_take, List.length_take] at hsame
  omega

theorem Ways.tail_places {l : List S} {ways : List (List ℕ)}
    (h : Ways next s l ([] :: ways)) :
    ways.map (follow next · s) = l.tail.map some := by
  have hplaces := h.places
  rw [List.map_cons] at hplaces
  rcases l with _ | ⟨t, l⟩
  · exact absurd hplaces (List.cons_ne_nil _ _)
  · exact (List.cons.inj hplaces).2

theorem Ways.tail_keys {l : List S} {ways : List (List ℕ)}
    (h : Ways next s l ([] :: ways)) (key : S → K) :
    (l.tail.map key).Nodup ↔ (ways.map fun way => (follow next way s).map key).Nodup := by
  have hsome : (ways.map fun way => (follow next way s).map key) = (l.tail.map key).map some := by
    change ways.map (Option.map key ∘ (follow next · s)) = _
    rw [← List.map_map, h.tail_places, List.map_map, List.map_map]
    rfl
  rw [hsome, List.nodup_map_iff (Option.some_injective K)]

theorem Ways.leads {l : List S} {ways : List (List ℕ)}
    (h : Ways next s l ([] :: ways)) {way : List ℕ} (hway : way ∈ ways) :
    ∃ a, follow next way s = some a := by
  have hmem : follow next way s ∈ l.tail.map some :=
    h.tail_places ▸ List.mem_map_of_mem hway
  obtain ⟨a, -, ha⟩ := List.mem_map.1 hmem
  exact ⟨a, ha.symm⟩

/-- The visits end with no key met twice just if each key has one way to it. -/
theorem visits_once_iff [DecidableEq K] {keys : Finset K}
    (hkeys : ∀ way a, way ≠ [] → follow next way s = some a → key a ∈ keys) :
    (∃ n l, visits next n s = some l ∧ (l.tail.map key).Nodup) ↔ OneWay next key s := by
  constructor
  · rintro ⟨n, l, hl, hnodup⟩ v w a b hv hw ha hb hab
    obtain ⟨ways, hways, -⟩ := visits_ways hl
    rw [hways.tail_keys] at hnodup
    have hmem {u : List ℕ} {c : S} (hu : u ≠ []) (hc : follow next u s = some c) : u ∈ ways :=
      (List.mem_cons.1 (hways.all u c hc)).resolve_left hu
    refine List.inj_on_of_nodup_map hnodup (hmem hv ha) (hmem hw hb) ?_
    rw [ha, hb, Option.map_some, Option.map_some, hab]
  · intro h
    rcases hl : visits next (keys.card + 1) s with _ | l
    · obtain ⟨way, a, hlen, hway⟩ := visits_none hl
      have := h.length_le hkeys hway
      omega
    · refine ⟨_, l, hl, ?_⟩
      obtain ⟨ways, hways, hne⟩ := visits_ways hl
      rw [hways.tail_keys]
      refine (List.nodup_cons.1 hways.nodup).2.map_on fun v hv w hw hvw => ?_
      obtain ⟨a, ha⟩ := hways.leads hv
      obtain ⟨b, hb⟩ := hways.leads hw
      rw [ha, hb] at hvw
      exact h v w a b (hne v hv) (hne w hw) ha hb (Option.some.inj hvw)

end Lib
