import InfotmUboot.Env

/-!
# The environment as a list of variables

The data holds a list of variables, no two of one name, and `_do_setenv` does to it what
`specSetenv` does to the list (`doSetenv_refines`). So `getenv` finds, after any calls, what the
last of them left of a name (`env_history`).
-/

namespace InfotmUboot

open Lib

/-- A variable: a name without `=` and a value, both of them C strings. -/
structure EnvVar where
  name : List UInt8
  value : List UInt8
  name_ok : ∀ b ∈ name, b ≠ 0 ∧ b ≠ EQUALS
  value_ok : ∀ b ∈ value, b ≠ 0

def EnvVar.bytes (v : EnvVar) : List UInt8 := v.name ++ EQUALS :: v.value

def encode (vs : List EnvVar) : List UInt8 := vs.flatMap fun v => v.bytes ++ [0]

/-- The list ends with two NULs, also if there is no variable. -/
def image (vs : List EnvVar) : List UInt8 := encode vs ++ if vs = [] then [0, 0] else [0]

/-- The data is a valid environment with the variables `vs`. -/
structure Represents (size : ℕ) (m : Mem) (vs : List EnvVar) : Prop where
  holds : Holds m 0 (image vs)
  fits : (image vs).length ≤ size
  nodup : (vs.map EnvVar.name).Nodup

section Strings

variable {m : Mem}

theorem EnvVar.bytes_ne_zero (v : EnvVar) : ∀ b ∈ v.bytes, b ≠ 0 := by
  intro b hb
  rcases List.mem_append.1 hb with hb | hb
  · exact (v.name_ok b hb).1
  · rcases List.mem_cons.1 hb with rfl | hb
    · decide
    · exact v.value_ok b hb

theorem EnvVar.bytes_ne_nil (v : EnvVar) : v.bytes ≠ [] := by
  rw [bytes]
  simp

theorem encode_cons (v : EnvVar) (vs : List EnvVar) :
    encode (v :: vs) = v.bytes ++ 0 :: encode vs := by
  rw [encode, List.flatMap_cons, List.append_assoc, List.singleton_append, ← encode]

theorem encode_append (us vs : List EnvVar) : encode (us ++ vs) = encode us ++ encode vs :=
  List.flatMap_append

theorem length_le_encode : ∀ vs : List EnvVar, vs.length ≤ (encode vs).length
  | [] => le_refl _
  | v :: vs => by
    have := length_le_encode vs
    rw [encode_cons, List.length_cons, List.length_append, List.length_cons]
    omega

theorem image_of_ne {vs : List EnvVar} (h : vs ≠ []) : image vs = encode vs ++ [0] := by
  rw [image, if_neg h]

/-- The list, up to its first closing NUL. -/
theorem Represents.holds_encode {size : ℕ} {vs : List EnvVar} (h : Represents size m vs) :
    Holds m 0 (encode vs ++ [0]) := by
  by_cases hv : vs = []
  · subst hv
    exact (holds_cons.2 ⟨(holds_cons.1 h.holds).1, holds_nil _⟩)
  · rw [← image_of_ne hv]
    exact h.holds

theorem Represents.length_lt {size : ℕ} {vs : List EnvVar} (h : Represents size m vs) :
    (encode vs).length < size := by
  have := h.fits
  rw [image, List.length_append] at this
  split_ifs at this
  · simp only [List.length_cons, List.length_nil] at this
    omega
  · rw [List.length_singleton] at this
    omega

/-- The scan for a NUL. -/
theorem strEnd_holds : ∀ {bs : List UInt8} {n i : ℕ}, Holds m i (bs ++ [0]) → (∀ b ∈ bs, b ≠ 0) →
    bs.length < n → strEnd m n i = some (i + bs.length)
  | _, 0, _, _, _, hn => absurd hn (Nat.not_lt_zero _)
  | [], n + 1, i, h, _, _ => by
    rw [strEnd, if_pos (holds_cons.1 h).1]
    rfl
  | b :: bs, n + 1, i, h, hbs, hn => by
    obtain ⟨hb, hrest⟩ := holds_cons.1 h
    rw [List.length_cons] at hn
    rw [strEnd, if_neg (by rw [hb]; exact hbs b List.mem_cons_self),
      strEnd_holds hrest (fun c hc => hbs c (List.mem_cons_of_mem _ hc)) (by omega),
        List.length_cons]
    congr 1
    omega

/-- A name against a definition. -/
theorem envmatch_holds : ∀ {name vname rest : List UInt8} {i : ℕ},
    Holds m i (vname ++ EQUALS :: rest) → (∀ b ∈ name, b ≠ EQUALS) →
    (∀ b ∈ vname, b ≠ 0 ∧ b ≠ EQUALS) →
    envmatch m name i = some (if vname = name then some (i + name.length + 1) else none)
  | [], [], rest, i, h, _, _ => by
    have hi := (holds_cons.1 h).1
    rw [envmatch, if_neg (by rw [hi]; decide), if_pos hi]
    rfl
  | [], v :: vs, rest, i, h, _, hv => by
    have hi := (holds_cons.1 h).1
    obtain ⟨h0, h1⟩ := hv v List.mem_cons_self
    rw [envmatch, if_neg (by rwa [hi]), if_neg (by rwa [hi]), if_neg (List.cons_ne_nil _ _)]
  | c :: cs, [], rest, i, h, hc, _ => by
    have hi := (holds_cons.1 h).1
    rw [envmatch, if_neg (by rw [hi]; exact hc c List.mem_cons_self),
      if_neg (List.cons_ne_nil _ _).symm]
  | c :: cs, v :: vs, rest, i, h, hc, hv => by
    obtain ⟨hi, hrest⟩ := holds_cons.1 h
    have ih := envmatch_holds hrest (fun b hb => hc b (List.mem_cons_of_mem c hb))
      fun b hb => hv b (List.mem_cons_of_mem _ hb)
    rw [envmatch, hi]
    by_cases hcv : c = v
    · subst hcv
      rw [if_pos rfl, if_neg (hc c List.mem_cons_self), ih]
      simp only [List.cons.injEq, true_and, List.length_cons]
      congr 3
      omega
    · have hne : ¬v :: vs = c :: cs := fun h => hcv (List.cons.inj h).1.symm
      rw [if_neg hcv, if_neg hne]

end Strings

section Search

variable {size : ℕ} {m : Mem} {name : List UInt8} (hname : ∀ b ∈ name, b ≠ EQUALS)
include hname

theorem envmatch_var {v : EnvVar} {i : ℕ} {rest : List UInt8} (h : Holds m i (v.bytes ++ rest)) :
    envmatch m name i = some (if v.name = name then some (i + name.length + 1) else none) := by
  rw [EnvVar.bytes, List.append_assoc, List.cons_append] at h
  exact envmatch_holds h hname v.name_ok

omit hname in
/-- What a scan meets at a variable. -/
theorem holds_var {v : EnvVar} {i : ℕ} {rest : List UInt8}
    (h : Holds m i (v.bytes ++ 0 :: rest)) : m i ≠ 0 ∧ Holds m i (v.bytes ++ [0]) := by
  refine ⟨?_, ?_⟩
  · obtain ⟨b, bs, hb⟩ := List.exists_cons_of_ne_nil v.bytes_ne_nil
    have hne := v.bytes_ne_zero b (by rw [hb]; exact List.mem_cons_self)
    rw [hb, List.cons_append] at h
    rw [(holds_cons.1 h).1]
    exact hne
  · rw [← List.singleton_append, ← List.append_assoc] at h
    exact (holds_append.1 h).1

/-- The search passes the variables of other names. -/
theorem envSearch_skip : ∀ {vs : List EnvVar} {n i : ℕ} {rest : List UInt8},
    Holds m i (encode vs ++ rest) → (encode vs).length ≤ size → (∀ v ∈ vs, v.name ≠ name) →
    envSearch size m name (n + vs.length) i = envSearch size m name n (i + (encode vs).length)
  | [], _, _, _, _, _, _ => rfl
  | v :: vs, n, i, rest, h, hsize, hne => by
    rw [encode_cons, List.append_assoc, List.cons_append] at h
    obtain ⟨hi, hv⟩ := holds_var h
    have hrest := (holds_cons.1 (holds_append.1 h).2).2
    rw [encode_cons, List.length_append, List.length_cons] at hsize ⊢
    have hend : strEnd m size i = some (i + v.bytes.length) :=
      strEnd_holds hv v.bytes_ne_zero (by omega)
    have ih := envSearch_skip (n := n) hrest (by omega) fun u hu =>
      hne u (List.mem_cons_of_mem v hu)
    rw [List.length_cons, ← Nat.add_assoc, envSearch, if_neg hi, hend]
    dsimp only
    rw [envmatch_var hname h, if_neg (hne v List.mem_cons_self)]
    dsimp only
    rw [ih]
    congr 1
    omega

theorem envSearch_none {vs : List EnvVar} (h : Represents size m vs)
    (hne : ∀ v ∈ vs, v.name ≠ name) :
    envSearch size m name size 0 = some ((encode vs).length, none) := by
  have hlt := h.length_lt
  have hle := length_le_encode vs
  have hholds := h.holds_encode
  obtain ⟨k, hk⟩ : ∃ k, size = k + 1 + vs.length := ⟨size - 1 - vs.length, by omega⟩
  have hskip := envSearch_skip hname (n := k + 1) hholds hlt.le hne
  rw [← hk, Nat.zero_add] at hskip
  have hend := (holds_cons.1 (holds_append.1 hholds).2).1
  rw [Nat.zero_add] at hend
  rw [hskip, envSearch, if_pos hend]

theorem envSearch_some {us vs : List EnvVar} {v : EnvVar} (h : Represents size m (us ++ v :: vs))
    (hne : ∀ u ∈ us, u.name ≠ name) (hv : v.name = name) :
    envSearch size m name size 0 = some ((encode us).length,
      some ((encode us).length + v.bytes.length, (encode us).length + name.length + 1)) := by
  have hlt := h.length_lt
  have hle := length_le_encode us
  have hholds := h.holds_encode
  rw [encode_append, encode_cons, List.length_append, List.length_append] at hlt
  rw [encode_append, encode_cons, List.append_assoc] at hholds
  obtain ⟨k, hk⟩ : ∃ k, size = k + 1 + us.length := ⟨size - 1 - us.length, by omega⟩
  have hskip := envSearch_skip hname (n := k + 1) hholds (show _ ≤ size by omega) hne
  rw [← hk, Nat.zero_add] at hskip
  have hvar := (holds_append.1 hholds).2
  rw [Nat.zero_add, List.append_assoc, List.cons_append] at hvar
  obtain ⟨hi, hbytes⟩ := holds_var hvar
  have hend : strEnd m size (encode us).length = some ((encode us).length + v.bytes.length) :=
    strEnd_holds hbytes v.bytes_ne_zero (by omega)
  rw [hskip, envSearch, if_neg hi, hend]
  dsimp only
  rw [envmatch_var hname hvar, if_pos hv]

/-- `getenv` passes them too. -/
theorem getenvLoop_skip : ∀ {vs : List EnvVar} {n i : ℕ} {rest : List UInt8},
    Holds m i (encode vs ++ rest) → i + (encode vs).length ≤ size → (∀ v ∈ vs, v.name ≠ name) →
    getenvLoop size m name (n + vs.length) i = getenvLoop size m name n (i + (encode vs).length)
  | [], _, _, _, _, _, _ => rfl
  | v :: vs, n, i, rest, h, hsize, hne => by
    rw [encode_cons, List.append_assoc, List.cons_append] at h
    obtain ⟨hi, hv⟩ := holds_var h
    have hrest := (holds_cons.1 (holds_append.1 h).2).2
    rw [encode_cons, List.length_append, List.length_cons] at hsize ⊢
    have hend : strEnd m (size + 4 + 1 - i) i = some (i + v.bytes.length) :=
      strEnd_holds hv v.bytes_ne_zero (by omega)
    have ih := getenvLoop_skip (n := n) hrest (by omega) fun u hu =>
      hne u (List.mem_cons_of_mem v hu)
    rw [List.length_cons, ← Nat.add_assoc, getenvLoop, if_neg hi, hend]
    dsimp only
    rw [envmatch_var hname h, if_neg (hne v List.mem_cons_self)]
    dsimp only
    rw [ih]
    congr 1
    omega

theorem getenv_none {vs : List EnvVar} (h : Represents size m vs) (hne : ∀ v ∈ vs, v.name ≠ name) :
    getenv size m name = some none := by
  have hlt := h.length_lt
  have hle := length_le_encode vs
  have hholds := h.holds_encode
  obtain ⟨k, hk⟩ : ∃ k, size = k + 1 + vs.length := ⟨size - 1 - vs.length, by omega⟩
  have hskip := getenvLoop_skip hname (n := k + 1) hholds (show _ ≤ size by omega) hne
  rw [← hk, Nat.zero_add] at hskip
  have hend := (holds_cons.1 (holds_append.1 hholds).2).1
  rw [Nat.zero_add] at hend
  rw [getenv, hskip, getenvLoop, if_pos hend]

theorem getenv_some {us vs : List EnvVar} {v : EnvVar} (h : Represents size m (us ++ v :: vs))
    (hne : ∀ u ∈ us, u.name ≠ name) (hv : v.name = name) :
    ∃ i, getenv size m name = some (some i) ∧ Holds m i (v.value ++ [0]) := by
  have hlt := h.length_lt
  have hle := length_le_encode us
  have hholds := h.holds_encode
  rw [encode_append, encode_cons, List.length_append, List.length_append] at hlt
  rw [encode_append, encode_cons, List.append_assoc] at hholds
  obtain ⟨k, hk⟩ : ∃ k, size = k + 1 + us.length := ⟨size - 1 - us.length, by omega⟩
  have hskip := getenvLoop_skip hname (n := k + 1) hholds (show _ ≤ size by omega) hne
  rw [← hk, Nat.zero_add] at hskip
  have hvar := (holds_append.1 hholds).2
  rw [Nat.zero_add, List.append_assoc, List.cons_append] at hvar
  obtain ⟨hi, hbytes⟩ := holds_var hvar
  have hend : strEnd m (size + 4 + 1 - (encode us).length) (encode us).length =
      some ((encode us).length + v.bytes.length) :=
    strEnd_holds hbytes v.bytes_ne_zero (by omega)
  refine ⟨(encode us).length + name.length + 1, ?_, ?_⟩
  · rw [getenv, hskip, getenvLoop, if_neg hi, hend]
    dsimp only
    rw [envmatch_var hname hvar, if_pos hv]
  · rw [EnvVar.bytes, List.append_assoc, List.cons_append, hv] at hbytes
    exact (holds_cons.1 (holds_append.1 hbytes).2).2

end Search

section Edit

variable {m : Mem}

/-- Strings one after the other: no NUL follows a NUL before the last one. -/
def Packed : List UInt8 → Prop
  | [] => False
  | [b] => b = 0
  | b :: c :: bs => (b ≠ 0 ∨ c ≠ 0) ∧ Packed (c :: bs)

theorem packed_string : ∀ {bs rest : List UInt8}, (∀ b ∈ bs, b ≠ 0) → bs ≠ [] →
    (rest = [] ∨ Packed rest ∧ rest.head? ≠ some 0) → Packed (bs ++ 0 :: rest)
  | [], _, _, h, _ => absurd rfl h
  | [b], rest, hb, _, hrest => by
    refine ⟨Or.inl (hb b List.mem_cons_self), ?_⟩
    rcases rest with _ | ⟨c, cs⟩
    · rfl
    · obtain ⟨hp, hc⟩ := hrest.resolve_left (List.cons_ne_nil _ _)
      exact ⟨Or.inr fun h => hc (congrArg some h), hp⟩
  | b :: b' :: bs, rest, hb, _, hrest =>
    ⟨Or.inl (hb b List.mem_cons_self), packed_string (fun c hc => hb c (List.mem_cons_of_mem _ hc))
      (List.cons_ne_nil _ _) hrest⟩

theorem head_encode : ∀ (vs : List EnvVar), (encode vs).head? ≠ some 0
  | [] => nofun
  | v :: vs => by
    obtain ⟨b, bs, hb⟩ := List.exists_cons_of_ne_nil v.bytes_ne_nil
    have hne := v.bytes_ne_zero b (by rw [hb]; exact List.mem_cons_self)
    rw [encode_cons, hb]
    exact fun h => hne (Option.some.inj h)

theorem packed_encode : ∀ {vs : List EnvVar}, vs ≠ [] → Packed (encode vs)
  | [], h => absurd rfl h
  | [v], _ => by
    rw [encode_cons]
    exact packed_string v.bytes_ne_zero v.bytes_ne_nil (Or.inl rfl)
  | v :: u :: vs, _ => by
    rw [encode_cons]
    exact packed_string v.bytes_ne_zero v.bytes_ne_nil
      (Or.inr ⟨packed_encode (List.cons_ne_nil u vs), head_encode _⟩)

/-- The scan for the end of the list. -/
theorem envEnd_packed : ∀ {bs : List UInt8} {n i : ℕ}, Packed bs → Holds m i (bs ++ [0]) →
    bs.length ≤ n → envEnd m n i = some (i + bs.length - 1)
  | [], _, _, hp, _, _ => hp.elim
  | _ :: _, 0, _, _, _, hn => absurd hn (Nat.not_succ_le_zero _)
  | [b], n + 1, i, hp, h, _ => by
    obtain ⟨hb, hrest⟩ := holds_cons.1 h
    have h0 := (holds_cons.1 hrest).1
    have hb0 : b = 0 := hp
    rw [envEnd, hb, hb0, h0, if_neg (by decide)]
    rfl
  | b :: c :: bs, n + 1, i, hp, h, hn => by
    obtain ⟨hb, hrest⟩ := holds_cons.1 h
    have hc := (holds_cons.1 hrest).1
    have ih := envEnd_packed hp.2 hrest (Nat.le_of_succ_le_succ hn)
    rw [envEnd, hb, hc, if_pos hp.1, ih]
    congr 1
    simp only [List.length_cons]
    omega

/-- The strings of a list move to the front. -/
theorem envShift_packed : ∀ {bs : List UInt8} {m : Mem} {n env nxt : ℕ}, Packed bs →
    Holds m nxt (bs ++ [0]) → env < nxt → bs.length ≤ n →
    ∃ m', envShift m n env nxt = some m' ∧ Holds m' env (bs ++ [0]) ∧
      ∀ x, x < env ∨ env + bs.length < x → m' x = m x
  | [], _, _, _, _, hp, _, _, _ => hp.elim
  | _ :: _, _, 0, _, _, _, _, _, hn => absurd hn (Nat.not_succ_le_zero _)
  | [b], m, n + 1, env, nxt, hp, h, hlt, _ => by
    obtain ⟨hb, hrest⟩ := holds_cons.1 h
    have h0 := (holds_cons.1 hrest).1
    have hb0 : b = 0 := hp
    have henv : m.store env [m nxt] env = 0 := by
      rw [hb, hb0]
      simp [Mem.store]
    have hnxt : m.store env [m nxt] (nxt + 1) = 0 := by
      rw [Mem.store_of_ge _ _ (by rw [List.length_singleton]; omega), h0]
    refine ⟨(m.store env [m nxt]).store (env + 1) [0], ?_, ?_, fun x hx => ?_⟩
    · rw [envShift, if_pos ⟨henv, hnxt⟩]
    · refine holds_cons.2 ⟨?_, holds_store _ _ _⟩
      rw [Mem.store_of_lt _ _ (Nat.lt_succ_self env), henv, hb0]
    · rw [List.length_singleton] at hx
      rcases hx with hx | hx
      · rw [Mem.store_of_lt _ _ (by omega), Mem.store_of_lt _ _ hx]
      · rw [Mem.store_of_ge _ _ (by rw [List.length_singleton]; omega),
          Mem.store_of_ge _ _ (by rw [List.length_singleton]; omega)]
  | b :: c :: bs, m, n + 1, env, nxt, hp, h, hlt, hn => by
    obtain ⟨hb, hrest⟩ := holds_cons.1 h
    have hc := (holds_cons.1 hrest).1
    have henv : m.store env [m nxt] env = b := by
      rw [hb]
      simp [Mem.store]
    have hnxt : m.store env [m nxt] (nxt + 1) = c := by
      rw [Mem.store_of_ge _ _ (by rw [List.length_singleton]; omega), hc]
    have hkeep : Holds (m.store env [m nxt]) (nxt + 1) (c :: bs ++ [0]) :=
      hrest.store (Or.inr (by rw [List.length_singleton]; omega))
    have hgo : ¬(m.store env [m nxt] env = 0 ∧ m.store env [m nxt] (nxt + 1) = 0) := by
      rw [henv, hnxt]
      rintro ⟨h0, h0'⟩
      rcases hp.1 with hne | hne
      · exact hne h0
      · exact hne h0'
    obtain ⟨m', h1, h2, h3⟩ := envShift_packed hp.2 hkeep (Nat.succ_lt_succ hlt)
      (Nat.le_of_succ_le_succ hn)
    refine ⟨m', ?_, ?_, fun x hx => ?_⟩
    · rw [envShift, if_neg hgo]
      exact h1
    · refine holds_cons.2 ⟨?_, h2⟩
      rw [h3 env (Or.inl (Nat.lt_succ_self env)), henv]
    · rw [List.length_cons, List.length_cons] at hx
      rw [h3 x (by rw [List.length_cons]; omega)]
      rcases hx with hx | hx
      · exact Mem.store_of_lt _ _ hx
      · exact Mem.store_of_ge _ _ (by rw [List.length_singleton]; omega)

variable {size : ℕ}

/-- What is left after a variable is deleted. -/
theorem envDelete_represents {us vs : List EnvVar} {v : EnvVar}
    (h : Represents size m (us ++ v :: vs)) :
    ∃ m', envDelete size m (encode us).length ((encode us).length + v.bytes.length) = some m' ∧
      Represents size m' (us ++ vs) ∧ ∀ x, size ≤ x → m' x = m x := by
  have hlt := h.length_lt
  have hholds := h.holds_encode
  have hnodup : ((us ++ vs).map EnvVar.name).Nodup := by
    refine List.Nodup.sublist ?_ h.nodup
    exact ((List.Sublist.refl us).append (List.sublist_cons_self v vs)).map _
  rw [encode_append, encode_cons, List.length_append, List.length_append, List.length_cons] at hlt
  rw [encode_append, encode_cons, List.append_assoc] at hholds
  obtain ⟨hus, hv⟩ := holds_append.1 hholds
  rw [Nat.zero_add, List.append_assoc, List.cons_append] at hv
  have hrest := (holds_cons.1 (holds_append.1 hv).2).2
  by_cases hvs : vs = []
  · subst hvs
    rw [List.append_nil] at hnodup ⊢
    have hnext : m ((encode us).length + v.bytes.length + 1) = 0 := (holds_cons.1 hrest).1
    rw [envDelete, if_pos hnext]
    rcases us with _ | ⟨u, us⟩
    · refine ⟨_, if_neg (lt_irrefl 0), ⟨?_, ?_, hnodup⟩, fun x hx => ?_⟩
      · exact holds_cons.2 ⟨by simp [Mem.store, encode], holds_store _ _ _⟩
      · have hpos := List.length_pos_of_ne_nil v.bytes_ne_nil
        change 2 ≤ size
        omega
      · rw [Mem.store_of_ge _ _ (by rw [List.length_singleton]; omega),
          Mem.store_of_ge _ _ (by rw [List.length_singleton]; omega)]
    · have hpos := length_le_encode (u :: us)
      rw [List.length_cons] at hpos
      refine ⟨_, if_pos (by omega), ⟨?_, ?_, hnodup⟩, fun x hx => ?_⟩
      · rw [image_of_ne (List.cons_ne_nil u us)]
        refine holds_append.2 ⟨hus.store (Or.inl (by omega)), ?_⟩
        rw [Nat.zero_add]
        exact holds_store _ _ _
      · rw [image_of_ne (List.cons_ne_nil u us), List.length_append, List.length_singleton]
        omega
      · exact Mem.store_of_ge _ _ (by rw [List.length_singleton]; omega)
  · have hne : us ++ vs ≠ [] := List.append_ne_nil_of_right_ne_nil us hvs
    have hnext : m ((encode us).length + v.bytes.length + 1) ≠ 0 := by
      obtain ⟨u, vs', rfl⟩ := List.exists_cons_of_ne_nil hvs
      rw [encode_cons, List.append_assoc, List.cons_append] at hrest
      exact (holds_var hrest).1
    obtain ⟨m', h1, h2, h3⟩ := envShift_packed (n := size) (packed_encode hvs) hrest
      (show (encode us).length < _ by omega) (by omega)
    rw [envDelete, if_neg hnext]
    refine ⟨m', h1, ⟨?_, ?_, hnodup⟩, fun x hx => h3 x (by omega)⟩
    · rw [image_of_ne hne, encode_append, List.append_assoc]
      refine holds_append.2 ⟨hus.congr fun x _ hx => h3 x (Or.inl (by omega)), ?_⟩
      rw [Nat.zero_add]
      exact h2
    · rw [image_of_ne hne, encode_append, List.length_append, List.length_append,
        List.length_singleton]
      omega

/-- Where the next variable goes. -/
theorem envEnd_represents {vs : List EnvVar} (h : Represents size m vs) :
    ∃ env, envEnd m size 0 = some env ∧ (if 0 < env then env + 1 else env) =
      (encode vs).length := by
  have hlt := h.length_lt
  by_cases hvs : vs = []
  · subst hvs
    have h0 := (holds_cons.1 h.holds).1
    have h1 := (holds_cons.1 (holds_cons.1 h.holds).2).1
    obtain ⟨n, rfl⟩ : ∃ n, size = n + 1 := ⟨size - 1, by omega⟩
    refine ⟨0, ?_, rfl⟩
    rw [envEnd, if_neg]
    rw [h0, h1]
    decide
  · have hp := packed_encode hvs
    have hend := envEnd_packed hp h.holds_encode hlt.le
    refine ⟨_, hend, ?_⟩
    obtain ⟨v, vs', rfl⟩ := List.exists_cons_of_ne_nil hvs
    have hlen : 2 ≤ (encode (v :: vs')).length := by
      have := List.length_pos_of_ne_nil v.bytes_ne_nil
      rw [encode_cons, List.length_append, List.length_cons]
      omega
    rw [if_pos (by omega)]
    omega

/-- Words, each after its separator. -/
def sepWords : UInt8 → List (List UInt8) → List UInt8
  | _, [] => []
  | sep, w :: ws => sep :: w ++ sepWords 0x20 ws

/-- The words of a value, with blanks between them. -/
def joinWords (ws : List (List UInt8)) : List UInt8 := (sepWords EQUALS ws).tail

theorem envPutVals_eq : ∀ (ws : List (List UInt8)) (a : ℕ) (bs : List UInt8) (sep : UInt8),
    envPutVals (m.store a (bs ++ [0])) (a + bs.length) sep ws =
      (m.store a (bs ++ sepWords sep ws ++ [0]), a + (bs ++ sepWords sep ws).length)
  | [], _, _, _ => by
    rw [envPutVals, sepWords, List.append_nil]
  | w :: ws, a, bs, sep => by
    have hone : ((m.store a (bs ++ [0])).store (a + bs.length) [sep]).store (a + bs.length + 1)
        (w ++ [0]) = (m.store a (bs ++ [0])).store (a + bs.length) (sep :: (w ++ [0])) := by
      rw [← List.singleton_append (l := w ++ [0]), Mem.store_append _ _ [sep],
        List.length_singleton]
    have hstore : (m.store a (bs ++ [0])).store (a + bs.length) (sep :: (w ++ [0])) =
        m.store a ((bs ++ sep :: w) ++ [0]) := by
      rw [Mem.store_over, List.append_assoc, List.cons_append]
    have hlen : a + bs.length + 1 + w.length = a + (bs ++ sep :: w).length := by
      rw [List.length_append, List.length_cons]
      omega
    rw [envPutVals, hone, hstore, hlen, envPutVals_eq ws, sepWords]
    simp only [List.append_assoc]

theorem envPut_eq (env : ℕ) (name : List UInt8) (ws : List (List UInt8)) :
    envPut m env name ws = m.store env (name ++ sepWords EQUALS ws ++ [0, 0]) := by
  rw [envPut, envPutVals_eq]
  dsimp only
  rw [← List.length_singleton (a := (0 : UInt8)), Nat.add_assoc, ← List.length_append,
    ← Mem.store_append, List.append_assoc]
  rfl

theorem sepWords_eq {ws : List (List UInt8)} (h : ws ≠ []) :
    sepWords EQUALS ws = EQUALS :: joinWords ws := by
  obtain ⟨w, ws', rfl⟩ := List.exists_cons_of_ne_nil h
  rfl

/-- The length that is checked, as long as it is an `int`. -/
theorem setenvLen_words : ∀ (ws : List (List UInt8)) (sep : UInt8) (k : ℕ),
    k + (sepWords sep ws).length < 2 ^ 31 →
    ws.foldl (fun len val => s32 (len + (val.length + 1))) (k : ℤ) =
      (k + (sepWords sep ws).length : ℕ)
  | [], _, _, _ => rfl
  | w :: ws, sep, k, h => by
    rw [sepWords, List.length_append, List.length_cons] at h
    have hone : s32 ((k : ℤ) + (w.length + 1)) = (k + (w.length + 1) : ℕ) := by
      rw [s32_of_range (by omega) (by omega)]
      push_cast
      ring
    rw [List.foldl_cons, hone, setenvLen_words ws 0x20 _ (by omega), sepWords, List.length_append,
      List.length_cons, Nat.add_assoc]

theorem setenvLen_eq (name : List UInt8) (ws : List (List UInt8))
    (h : name.length + 2 + (sepWords EQUALS ws).length < 2 ^ 31) :
    setenvLen name ws = (name.length + 2 + (sepWords EQUALS ws).length : ℕ) := by
  have hname : s32 ((name.length : ℤ) + 2) = (name.length + 2 : ℕ) := by
    rw [s32_of_range (by omega) (by omega)]
    rfl
  rw [setenvLen, hname, setenvLen_words ws EQUALS _ h]

end Edit

section Spec

/-- The strings a call is given; `len` counts them as an `int`. -/
structure SetenvArgs where
  name : List UInt8
  words : List (List UInt8)
  name_ok : ∀ b ∈ name, b ≠ 0
  words_ok : ∀ w ∈ words, ∀ b ∈ w, b ≠ 0
  len_lt : name.length + 2 + (sepWords EQUALS words).length < 2 ^ 31

theorem sepWords_ok : ∀ {ws : List (List UInt8)} {sep : UInt8}, sep ≠ 0 →
    (∀ w ∈ ws, ∀ b ∈ w, b ≠ 0) → ∀ b ∈ sepWords sep ws, b ≠ 0
  | [], _, _, _, _, hb => absurd hb List.not_mem_nil
  | w :: ws, sep, hsep, h, b, hb => by
    rcases List.mem_cons.1 hb with rfl | hb
    · exact hsep
    · rcases List.mem_append.1 hb with hb | hb
      · exact h w List.mem_cons_self b hb
      · exact sepWords_ok (by decide) (fun w' hw => h w' (List.mem_cons_of_mem _ hw)) b hb

def SetenvArgs.value (a : SetenvArgs) : List UInt8 := joinWords a.words

/-- The variable that a call defines. -/
def SetenvArgs.var (a : SetenvArgs) (h : EQUALS ∉ a.name) : EnvVar where
  name := a.name
  value := a.value
  name_ok := fun b hb => ⟨a.name_ok b hb, fun he => h (he ▸ hb)⟩
  value_ok := fun b hb => sepWords_ok (by decide) a.words_ok b (List.mem_of_mem_tail hb)

def lookupVar (name : List UInt8) (vs : List EnvVar) : Option (List UInt8) :=
  (vs.find? fun v => v.name = name).map EnvVar.value

def eraseVar (name : List UInt8) (vs : List EnvVar) : List EnvVar :=
  vs.filter fun v => v.name ≠ name

/-- What is checked first if the name is defined. -/
def specRefused (w : EnvWorld) (a : SetenvArgs) (vs : List EnvVar) : Option SetenvEnd :=
  if (lookupVar a.name vs).isSome then setenvRefused w a.name a.words else none

/-- The new variable comes last, if it fits. -/
def specAppend (size : ℕ) (a : SetenvArgs) (h : EQUALS ∉ a.name) (vs : List EnvVar) :
    SetenvEnd × List EnvVar :=
  if a.words = [] then (.done, vs)
  else if (encode (vs ++ [a.var h])).length < size then (.done, vs ++ [a.var h])
  else (.overflow, vs)

/-- What a call does to the variables: one that may not be overwritten stays, else the name's is
deleted before the new one is appended. -/
def specSetenv (size : ℕ) (w : EnvWorld) (a : SetenvArgs) (vs : List EnvVar) :
    SetenvEnd × List EnvVar :=
  if h : EQUALS ∈ a.name then (.illegal, vs)
  else
    match specRefused w a vs with
    | some r => (r, vs)
    | none => specAppend size a h (eraseVar a.name vs)

theorem eraseVar_none {name : List UInt8} {vs : List EnvVar} (h : ∀ v ∈ vs, v.name ≠ name) :
    eraseVar name vs = vs :=
  List.filter_eq_self.2 fun v hv => decide_eq_true (h v hv)

theorem eraseVar_some {name : List UInt8} {us vs : List EnvVar} {v : EnvVar}
    (hn : ((us ++ v :: vs).map EnvVar.name).Nodup) (hv : v.name = name) :
    (∀ u ∈ us, u.name ≠ name) ∧ eraseVar name (us ++ v :: vs) = us ++ vs := by
  rw [List.map_append, List.map_cons, List.nodup_append] at hn
  obtain ⟨-, hvs, hd⟩ := hn
  have hus : ∀ u ∈ us, u.name ≠ name := fun u hu => by
    rw [← hv]
    exact hd _ (List.mem_map_of_mem hu) _ List.mem_cons_self
  have hvs' : ∀ u ∈ vs, u.name ≠ name := fun u hu he => by
    refine (List.nodup_cons.1 hvs).1 ?_
    rw [hv, ← he]
    exact List.mem_map_of_mem hu
  refine ⟨hus, ?_⟩
  rw [eraseVar, List.filter_append, List.filter_cons_of_neg (by simp [hv])]
  exact congrArg₂ _ (eraseVar_none hus) (eraseVar_none hvs')

/-- A name is defined by one of the variables or by none. -/
theorem split_vars (name : List UInt8) : ∀ (vs : List EnvVar), (∀ v ∈ vs, v.name ≠ name) ∨
    ∃ us v vs', vs = us ++ v :: vs' ∧ v.name = name
  | [] => Or.inl fun _ h => absurd h List.not_mem_nil
  | v :: vs => by
    by_cases hv : v.name = name
    · exact Or.inr ⟨[], v, vs, rfl, hv⟩
    · rcases split_vars name vs with h | ⟨us, u, vs', rfl, hu⟩
      · refine Or.inl fun u hu => ?_
        rcases List.mem_cons.1 hu with rfl | hu
        · exact hv
        · exact h u hu
      · exact Or.inr ⟨v :: us, u, vs', rfl, hu⟩

theorem lookupVar_none {name : List UInt8} {vs : List EnvVar} (h : ∀ v ∈ vs, v.name ≠ name) :
    lookupVar name vs = none := by
  rw [lookupVar, List.find?_eq_none.2 fun v hv => by simpa using h v hv]
  rfl

theorem lookupVar_some {name : List UInt8} {us vs : List EnvVar} {v : EnvVar}
    (h : ∀ u ∈ us, u.name ≠ name) (hv : v.name = name) :
    lookupVar name (us ++ v :: vs) = some v.value := by
  have hus : us.find? (fun u => u.name = name) = none :=
    List.find?_eq_none.2 fun u hu => by simpa using h u hu
  rw [lookupVar, List.find?_append, hus, List.find?_cons_of_pos (by simpa using hv)]
  rfl

end Spec

section Refine

variable {size : ℕ} {e : EnvT} {vs : List EnvVar}

theorem nodup_append_var {name : List UInt8} (hn : (vs.map EnvVar.name).Nodup)
    (hne : ∀ v ∈ vs, v.name ≠ name) {v : EnvVar} (hv : v.name = name) :
    ((vs ++ [v]).map EnvVar.name).Nodup := by
  rw [List.map_append, List.map_singleton, List.nodup_append]
  refine ⟨hn, List.nodup_cons.2 ⟨List.not_mem_nil, List.nodup_nil⟩, fun a ha b hb => ?_⟩
  obtain ⟨u, hu, rfl⟩ := List.mem_map.1 ha
  rw [List.mem_singleton.1 hb, hv]
  exact hne u hu

/-- The data after a definition is deleted or found missing, to its end. -/
theorem setenvAppend_refines (h : Represents size e.data vs) (a : SetenvArgs)
    (hname : EQUALS ∉ a.name) (hne : ∀ v ∈ vs, v.name ≠ a.name) :
    ∃ e', setenvAppend size a.name a.words e = some ((specAppend size a hname vs).1, e') ∧
      Represents size e'.data (specAppend size a hname vs).2 ∧
      ∀ x, size ≤ x → e'.data x = e.data x := by
  by_cases hw : a.words = []
  · rw [setenvAppend, specAppend, if_pos hw, if_pos hw]
    exact ⟨_, rfl, h, fun _ _ => rfl⟩
  · obtain ⟨env, hend, hat⟩ := envEnd_represents h
    have hwords := sepWords_eq hw
    have hlen : (encode (vs ++ [a.var hname])).length =
        (encode vs).length + (a.name.length + (sepWords EQUALS a.words).length + 1) := by
      rw [encode_append, encode_cons, List.length_append, List.length_append, EnvVar.bytes,
        List.length_append, List.length_cons, hwords, List.length_cons]
      rfl
    have hlt := h.length_lt
    rw [setenvAppend, specAppend, if_neg hw, if_neg hw, hend]
    dsimp only
    rw [hat, setenvLen_eq a.name a.words a.len_lt]
    by_cases hfit : (encode (vs ++ [a.var hname])).length < size
    · rw [if_neg (by omega), if_pos hfit]
      refine ⟨_, rfl, ⟨?_, ?_, nodup_append_var h.nodup hne rfl⟩, fun x hx => ?_⟩
      · have hbytes : (a.var hname).bytes ++ [0, 0] =
            a.name ++ sepWords EQUALS a.words ++ [0, 0] := by
          rw [hwords]
          rfl
        rw [image_of_ne (List.append_ne_nil_of_right_ne_nil vs (List.cons_ne_nil _ _)),
          encode_append, List.append_assoc, encode_cons, List.append_assoc, List.cons_append]
        change Holds (envPut e.data (encode vs).length a.name a.words) 0
          (encode vs ++ ((a.var hname).bytes ++ [0, 0]))
        rw [envPut_eq, ← hbytes]
        refine holds_append.2 ⟨?_, ?_⟩
        · exact (holds_append.1 h.holds_encode).1.store (Or.inl (by omega))
        · rw [Nat.zero_add]
          exact holds_store _ _ _
      · rw [image_of_ne (List.append_ne_nil_of_right_ne_nil vs (List.cons_ne_nil _ _)),
          List.length_append, List.length_singleton]
        exact hfit
      · change envPut e.data (encode vs).length a.name a.words x = e.data x
        rw [envPut_eq, Mem.store_of_ge]
        rw [List.length_append, List.length_append]
        change (encode vs).length + (_ + 2) ≤ x
        omega
    · rw [if_pos (by omega), if_neg hfit]
      exact ⟨_, rfl, h, fun _ _ => rfl⟩

/-- `_do_setenv` does to the data what `specSetenv` does to the variables, and nothing outside. -/
theorem doSetenv_refines (h : Represents size e.data vs) (w : EnvWorld) (a : SetenvArgs) :
    ∃ e', doSetenv size w a.name a.words e = some ((specSetenv size w a vs).1, e') ∧
      Represents size e'.data (specSetenv size w a vs).2 ∧ ∀ x, size ≤ x → e'.data x =
        e.data x := by
  by_cases hname : EQUALS ∈ a.name
  · rw [doSetenv, if_pos hname, specSetenv, dif_pos hname]
    exact ⟨e, rfl, h, fun _ _ => rfl⟩
  · have heq : ∀ b ∈ a.name, b ≠ EQUALS := fun b hb he => hname (he ▸ hb)
    rw [doSetenv, if_neg hname, specSetenv, dif_neg hname]
    rcases split_vars a.name vs with hne | ⟨us, v, vs', rfl, hv⟩
    · have happend := setenvAppend_refines h a hname hne
      rw [envSearch_none heq h hne, specRefused, lookupVar_none hne, eraseVar_none hne]
      exact happend
    · obtain ⟨hus, herase⟩ := eraseVar_some h.nodup hv
      rw [envSearch_some heq h hus hv, specRefused, lookupVar_some hus hv, herase,
        Option.isSome_some,
        if_pos rfl]
      dsimp only
      rcases setenvRefused w a.name a.words with _ | r
      · obtain ⟨m', hdel, hrep, hframe⟩ := envDelete_represents h
        have hne : ∀ u ∈ us ++ vs', u.name ≠ a.name := by
          rw [← herase]
          exact fun u hu => of_decide_eq_true (List.mem_filter.1 hu).2
        obtain ⟨e', h1, h2, h3⟩ := setenvAppend_refines (e := { e with data := m' }) hrep
          a hname hne
        rw [hdel]
        exact ⟨e', h1, h2, fun x hx => (h3 x hx).trans (hframe x hx)⟩
      · exact ⟨e, rfl, h, fun _ _ => rfl⟩

end Refine

section Lookup

variable {name n : List UInt8}

theorem find_erase (vs : List EnvVar) :
    lookupVar n (eraseVar name vs) = if name = n then none else lookupVar n vs := by
  rw [lookupVar, eraseVar, List.find?_filter]
  by_cases hn : name = n
  · subst hn
    rw [if_pos rfl, List.find?_eq_none.2 fun v _ => by simp]
    rfl
  · have hsame : (fun v : EnvVar => decide (decide (v.name ≠ name) = true ∧
        decide (v.name = n) = true)) = fun v => decide (v.name = n) := by
      funext v
      rw [decide_eq_decide, decide_eq_true_eq, decide_eq_true_eq]
      exact and_iff_right_of_imp fun hv h => hn (h.symm.trans hv)
    rw [if_neg hn, hsame, lookupVar]

theorem find_append (vs : List EnvVar) {v : EnvVar} (hv : v.name = name)
    (hne : ∀ u ∈ vs, u.name ≠ name) :
    lookupVar n (vs ++ [v]) = if name = n then some v.value else lookupVar n vs := by
  by_cases hn : name = n
  · subst hn
    rw [if_pos rfl]
    exact lookupVar_some hne hv
  · have hsingle : [v].find? (fun u => decide (u.name = n)) = none := by
      rw [List.find?_cons_of_neg (by simp [hv, hn])]
      rfl
    rw [if_neg hn, lookupVar, List.find?_append, hsingle, Option.or_none, lookupVar]

end Lookup

section History

/-- A call of `_do_setenv`, or one of `getenv` for a name without `=`. -/
inductive EnvOp where
  | set (w : EnvWorld) (a : SetenvArgs)
  | get (name : List UInt8) (h : EQUALS ∉ name)

inductive EnvReply where
  | set (r : SetenvEnd)
  | got (i : Option ℕ)

variable (size : ℕ)

def envStep (e : EnvT) : EnvOp → Option (EnvReply × EnvT)
  | .set w a => (doSetenv size w a.name a.words e).map fun r => (.set r.1, r.2)
  | .get name _ => (getenv size e.data name).map fun i => (.got i, e)

def envRun : List EnvOp → EnvT → Option (List (EnvOp × EnvReply) × EnvT)
  | [], e => some ([], e)
  | op :: ops, e =>
    match envStep size e op with
    | none => none
    | some (r, e) => (envRun ops e).map fun s => ((op, r) :: s.1, s.2)

/-- What the calls leave of a name: a value that was set, nothing after it was deleted, and nothing
after a value for it did not fit. -/
def lastValue (n : List UInt8) (old : Option (List UInt8)) : EnvOp × EnvReply → Option (List UInt8)
  | (.set _ a, .set .done) =>
    if a.name = n then if a.words = [] then none else some a.value else old
  | (.set _ a, .set .overflow) => if a.name = n then none else old
  | _ => old

/-- `getenv` gives the value, or nothing. -/
def Gets (m : Mem) (n : List UInt8) : Option (List UInt8) → Prop
  | none => getenv size m n = some none
  | some value => ∃ i, getenv size m n = some (some i) ∧ Holds m i (value ++ [0])

variable {size : ℕ}

theorem Represents.gets {m : Mem} {vs : List EnvVar} (h : Represents size m vs) {n : List UInt8}
    (hn : EQUALS ∉ n) : Gets size m n (lookupVar n vs) := by
  have hne : ∀ b ∈ n, b ≠ EQUALS := fun b hb he => hn (he ▸ hb)
  rcases split_vars n vs with hnone | ⟨us, v, vs', rfl, hv⟩
  · rw [lookupVar_none hnone]
    exact getenv_none hne h hnone
  · obtain ⟨hus, _⟩ := eraseVar_some h.nodup hv
    rw [lookupVar_some hus hv]
    exact getenv_some hne h hus hv

theorem setenvRefused_ne {w : EnvWorld} {name : List UInt8} {words : List (List UInt8)}
    {r : SetenvEnd}
    (h : setenvRefused w name words = some r) : r ≠ .done ∧ r ≠ .overflow := by
  unfold setenvRefused at h
  rcases words with _ | ⟨val, vals⟩
  all_goals
    dsimp only at h
    split_ifs at h
    all_goals
      obtain rfl := Option.some.inj h
      exact ⟨by decide, by decide⟩

/-- What one call leaves of a name. -/
theorem lookupVar_specSetenv (w : EnvWorld) (a : SetenvArgs) (vs : List EnvVar) (n : List UInt8) :
    lookupVar n (specSetenv size w a vs).2 =
      lastValue n (lookupVar n vs) (.set w a, .set (specSetenv size w a vs).1) := by
  by_cases hname : EQUALS ∈ a.name
  · rw [specSetenv, dif_pos hname]
    rfl
  · rw [specSetenv, dif_neg hname]
    rcases hr : specRefused w a vs with _ | r
    · dsimp only
      have hne : ∀ u ∈ eraseVar a.name vs, u.name ≠ a.name :=
        fun u hu => of_decide_eq_true (List.mem_filter.1 hu).2
      rw [specAppend]
      split_ifs with hw hfit
      · rw [find_erase, lastValue, if_pos hw]
      · have hvar : (a.var hname).name = a.name := rfl
        rw [find_append _ hvar hne, find_erase, lastValue, if_neg hw]
        split_ifs <;> rfl
      · rw [find_erase, lastValue]
    · have hends : r ≠ .done ∧ r ≠ .overflow := by
        rw [specRefused] at hr
        split_ifs at hr
        exact setenvRefused_ne hr
      cases r with
      | done => exact absurd rfl hends.1
      | overflow => exact absurd rfl hends.2
      | illegal => rfl
      | undeletable => rfl
      | console => rfl
      | baudrate => rfl

/-- One operation on a valid environment. -/
theorem envStep_history {e : EnvT} {vs : List EnvVar} (h : Represents size e.data vs) (op : EnvOp) :
    ∃ r e' vs', envStep size e op = some (r, e') ∧ Represents size e'.data vs' ∧
      (∀ x, size ≤ x → e'.data x = e.data x) ∧
      ∀ n, lookupVar n vs' = lastValue n (lookupVar n vs) (op, r) := by
  cases op with
  | set w a =>
    obtain ⟨e', h1, h2, h3⟩ := doSetenv_refines h w a
    refine ⟨.set (specSetenv size w a vs).1, e', _, ?_, h2, h3, lookupVar_specSetenv w a vs⟩
    rw [envStep, h1]
    rfl
  | get name hname =>
    obtain ⟨i, hi⟩ : ∃ i, getenv size e.data name = some i := by
      have hgets := h.gets hname
      generalize lookupVar name vs = value at hgets
      cases value with
      | none => exact ⟨none, hgets⟩
      | some value =>
        obtain ⟨i, hi, _⟩ := hgets
        exact ⟨some i, hi⟩
    refine ⟨.got i, e, vs, ?_, h, fun _ _ => rfl, fun n => rfl⟩
    rw [envStep, hi]
    rfl

theorem envRun_history : ∀ (ops : List EnvOp) {e : EnvT} {vs : List EnvVar},
    Represents size e.data vs →
    ∃ log e' vs', envRun size ops e = some (log, e') ∧ log.map Prod.fst = ops ∧
      Represents size e'.data vs' ∧ (∀ x, size ≤ x → e'.data x = e.data x) ∧
      ∀ n, lookupVar n vs' = log.foldl (lastValue n) (lookupVar n vs)
  | [], e, vs, h => ⟨[], e, vs, rfl, rfl, h, fun _ _ => rfl, fun _ => rfl⟩
  | op :: ops, e, vs, h => by
    obtain ⟨r, e1, vs1, hstep, h1, hframe1, hlook1⟩ := envStep_history h op
    obtain ⟨log, e2, vs2, hrun, hops, h2, hframe2, hlook2⟩ := envRun_history ops h1
    refine ⟨(op, r) :: log, e2, vs2, ?_, ?_, h2, fun x hx => (hframe2 x hx).trans (hframe1 x hx),
      fun n => ?_⟩
    · rw [envRun, hstep]
      dsimp only
      rw [hrun]
      rfl
    · rw [List.map_cons, hops]
    · rw [hlook2, List.foldl_cons, hlook1]

/-- From a valid environment every sequence of calls leaves one, inside its `size` bytes, and
`getenv` finds of every name what the last call that concerned it left. -/
theorem env_history (e : EnvT) (vs : List EnvVar) (h : Represents size e.data vs) (ops :
    List EnvOp) :
    ∃ log e' vs', envRun size ops e = some (log, e') ∧ log.map Prod.fst = ops ∧
      Represents size e'.data vs' ∧ (∀ x, size ≤ x → e'.data x = e.data x) ∧
      ∀ n, EQUALS ∉ n → Gets size e'.data n (log.foldl (lastValue n) (lookupVar n vs)) := by
  obtain ⟨log, e', vs', hrun, hops, hrep, hframe, hlook⟩ := envRun_history ops h
  refine ⟨log, e', vs', hrun, hops, hrep, hframe, fun n hn => ?_⟩
  rw [← hlook]
  exact hrep.gets hn

def plainWorld : EnvWorld := ⟨fun _ _ => 0, []⟩

/-- `setenv a` to one word -/
def setA (word : List UInt8) (hw : ∀ b ∈ word, b ≠ 0) (hlen : word.length < 2 ^ 30) :
    SetenvArgs where
  name := [0x61]
  words := [word]
  name_ok := List.forall_mem_singleton.2 (by decide)
  words_ok := by
    intro w h
    rw [List.mem_singleton.1 h]
    exact hw
  len_lt := by
    simp only [sepWords, List.length_cons, List.length_append, List.length_nil]
    omega

def emptyEnv : EnvT := ⟨0, fun _ => 0⟩

theorem emptyEnv_valid : Represents ENV_SIZE emptyEnv.data [] := ⟨rfl, by decide, List.nodup_nil⟩

def setAB : SetenvArgs := setA [0x62] (List.forall_mem_singleton.2 (by decide)) (by decide)

theorem env_history_set : ∃ log e' vs',
    envRun ENV_SIZE [.set plainWorld setAB] emptyEnv = some (log, e') ∧
      log.map Prod.fst = [.set plainWorld setAB] ∧
      Represents ENV_SIZE e'.data vs' ∧ (∀ x, ENV_SIZE ≤ x → e'.data x = emptyEnv.data x) ∧
      ∀ n, EQUALS ∉ n → Gets ENV_SIZE e'.data n (log.foldl (lastValue n) (lookupVar n [])) :=
  env_history emptyEnv [] emptyEnv_valid _

/-- What the calls that report success leave of a name. -/
def lastSuccess (n : List UInt8) (old : Option (List UInt8)) :
    EnvOp × EnvReply → Option (List UInt8)
  | (.set _ a, .set .done) =>
    if a.name = n then if a.words = [] then none else some a.value else old
  | _ => old

/-- `setenv a` to as many bytes as the environment has -/
def setALong (size : ℕ) (hsize : size < 2 ^ 30) : SetenvArgs := setA (List.replicate size 0x78)
  (fun b hb => by rw [List.eq_of_mem_replicate hb]; decide) (by rwa [List.length_replicate])

theorem setALong_overflows (size : ℕ) (hsize : size < 2 ^ 30) (h : EQUALS ∉ setAB.name) :
    specSetenv size plainWorld (setALong size hsize) [setAB.var h] = (.overflow, []) := by
  have hname : EQUALS ∉ (setALong size hsize).name := h
  have hword : (setALong size hsize).words ≠ [] := List.cons_ne_nil _ _
  have hlen : (encode [(setALong size hsize).var hname]).length = size + 3 := by
    rw [encode_cons, List.length_append, EnvVar.bytes, List.length_append, List.length_cons]
    change 1 + ((List.replicate size (0x78 : UInt8) ++ []).length + 1) + 1 = _
    rw [List.append_nil, List.length_replicate]
    omega
  change specAppend size (setALong size hsize) hname [] = _
  rw [specAppend, if_neg hword, if_neg]
  rw [List.nil_append, hlen]
  omega

/-- A value that does not fit takes the last one with it. -/
theorem env_overflow_deletes : ¬∀ (e : EnvT) (vs : List EnvVar), Represents ENV_SIZE e.data vs →
    ∀ ops : List EnvOp, ∃ log e', envRun ENV_SIZE ops e = some (log, e') ∧
      ∀ n, EQUALS ∉ n → Gets ENV_SIZE e'.data n (log.foldl (lastSuccess n) (lookupVar n vs)) := by
  intro h
  have hname : EQUALS ∉ setAB.name := by decide
  have hspec1 : specSetenv ENV_SIZE plainWorld setAB [] = (.done, [setAB.var hname]) := rfl
  have hsize : ENV_SIZE < 2 ^ 30 := by decide
  have hspec2 := setALong_overflows ENV_SIZE hsize hname
  obtain ⟨e1, hrun1, hrep1, _⟩ := doSetenv_refines emptyEnv_valid plainWorld setAB
  rw [hspec1] at hrun1 hrep1
  obtain ⟨e2, hrun2, hrep2, _⟩ := doSetenv_refines hrep1 plainWorld (setALong ENV_SIZE hsize)
  rw [hspec2] at hrun2 hrep2
  obtain ⟨log, e', hrun, hgets⟩ :=
    h emptyEnv [] emptyEnv_valid [.set plainWorld setAB, .set plainWorld (setALong ENV_SIZE hsize)]
  have hlog : envRun ENV_SIZE [.set plainWorld setAB, .set plainWorld (setALong ENV_SIZE hsize)]
    emptyEnv =
      some ([(.set plainWorld setAB, .set .done), (.set plainWorld (setALong ENV_SIZE hsize),
        .set .overflow)], e2) := by
    simp only [envRun, envStep, hrun1, hrun2, Option.map_some]
  rw [hlog] at hrun
  obtain ⟨rfl, rfl⟩ := Prod.mk.inj (Option.some.inj hrun)
  obtain ⟨i, hi, _⟩ := hgets setAB.name hname
  have hnone : getenv ENV_SIZE e2.data setAB.name = some none := hrep2.gets hname
  rw [hnone] at hi
  exact absurd (Option.some.inj hi) nofun

end History

end InfotmUboot
