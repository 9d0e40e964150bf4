import Mathlib.Data.List.Basic

/-!
# Data in pieces

What is sent to a device in several writes, each an address and a piece of the data, and the cut of
the data at the ends of the device's pages.
-/

namespace Lib

variable {α : Type}

/-- The writes are of the pieces of `data`, from `offs` on. -/
def Covers : ℕ → List (ℕ × List α) → List α → Prop
  | _, [], data => data = []
  | offs, p :: ps, data => p.1 = offs ∧ p.2 ≠ [] ∧
    ∃ rest, data = p.2 ++ rest ∧ Covers (offs + p.2.length) ps rest

def InPage (page : ℕ) (p : ℕ × List α) : Prop := p.1 % page + p.2.length ≤ page

theorem Covers.lt : ∀ {ps : List (ℕ × List α)} {offs : ℕ} {data : List α},
    Covers offs ps data → ∀ p ∈ ps, p.1 < offs + data.length
  | [], _, _, _, p, hp => absurd hp List.not_mem_nil
  | q :: ps, offs, data, h, p, hp => by
    obtain ⟨hq, hne, rest, rfl, hrest⟩ := h
    have hpos : 0 < q.2.length := List.length_pos_of_ne_nil hne
    rw [List.length_append]
    rcases List.mem_cons.1 hp with rfl | hp
    · omega
    · have := hrest.lt p hp
      omega

/-- Pieces with addresses below `bound`, inside of pages that `bound` is a multiple of, leave no
byte behind it. -/
theorem Covers.end_le {page bound : ℕ} (hb : page ∣ bound) :
    ∀ {ps : List (ℕ × List α)} {offs : ℕ} {data : List α}, Covers offs ps data →
      (∀ p ∈ ps, p.1 < bound ∧ InPage page p) → data ≠ [] → offs + data.length ≤ bound
  | [], _, _, h, _, hne => absurd h hne
  | q :: ps, offs, data, h, hall, _ => by
    obtain ⟨hq, hne, rest, rfl, hrest⟩ := h
    obtain ⟨hlt, hpage⟩ := hall q List.mem_cons_self
    unfold InPage at hpage
    rw [List.length_append]
    rcases rest with _ | ⟨r, rest⟩
    · obtain ⟨k, rfl⟩ := hb
      have hdiv := Nat.div_add_mod q.1 page
      have hk : q.1 / page + 1 ≤ k := Nat.div_lt_of_lt_mul hlt
      have hmul := Nat.mul_le_mul_left page hk
      rw [Nat.mul_succ] at hmul
      rw [List.length_nil]
      omega
    · have := hrest.end_le hb (fun p hp => hall p (List.mem_cons_of_mem _ hp))
        (List.cons_ne_nil _ _)
      omega

theorem covers_cut {ps : List (ℕ × List α)} {offs len : ℕ} {data : List α}
    (hlen : 0 < len) (hle : len ≤ data.length)
    (h : Covers (offs + len) ps (data.drop len)) : Covers offs ((offs, data.take len) ::
      ps) data := by
  have htake : (data.take len).length = len := List.length_take_of_le hle
  refine ⟨rfl, fun h0 => ?_, data.drop len, (List.take_append_drop _ _).symm, ?_⟩
  · rw [show data.take len = [] from h0, List.length_nil] at htake
    omega
  · rw [htake]
    exact h

section Page

variable {page : ℕ}

/-- The pieces of `data` that the pages cut it into. -/
def pagePieces (page : ℕ) : ℕ → ℕ → List α → List (ℕ × List α)
  | 0, _, _ => []
  | n + 1, offs, data =>
    if data.length = 0 then []
    else
      let len := min (page - offs % page) data.length
      (offs, data.take len) :: pagePieces page n (offs + len) (data.drop len)

theorem pagePieces_nil : ∀ n offs : ℕ, pagePieces page n offs ([] : List α) = []
  | 0, _ => rfl
  | _ + 1, _ => rfl

theorem covers_page (hpage : 0 < page) : ∀ {n offs : ℕ} {data : List α}, data.length < n →
    Covers offs (pagePieces page n offs data) data
  | n + 1, offs, data, h => by
    have hmod := Nat.mod_lt offs hpage
    rw [pagePieces]
    split_ifs with hd
    · exact List.length_eq_zero_iff.1 hd
    · exact covers_cut (by omega) (Nat.min_le_right _ _)
        (covers_page hpage (by rw [List.length_drop]; omega))

theorem inPage_page (hpage : 0 < page) : ∀ {n offs : ℕ} {data : List α},
    ∀ p ∈ pagePieces page n offs data, InPage page p
  | 0, _, _, _, hp => absurd hp List.not_mem_nil
  | n + 1, offs, data, p, hp => by
    have hmod := Nat.mod_lt offs hpage
    rw [pagePieces] at hp
    split_ifs at hp with hd
    · exact absurd hp List.not_mem_nil
    · rcases List.mem_cons.1 hp with rfl | hp
      · unfold InPage
        rw [List.length_take]
        dsimp only
        omega
      · exact inPage_page hpage p hp

end Page

end Lib
