import InfotmUboot.FwSetenv
import InfotmUboot.Proofs.Env
import Mathlib.Data.List.TakeWhile

/-!
# The environment tool and `_do_setenv`

On a valid environment the two copies of the code leave the same variables. What they refuse is not
the same: the tool knows nothing of a `=` in a name, of the console and of the baudrate
(`fwSetenvRight_iff`).
-/

namespace InfotmUboot

open Lib

/-- The part of a name that `envmatch` goes by. -/
def keyName (name : List UInt8) : List UInt8 := name.takeWhile fun b => b ≠ EQUALS

theorem keyName_of_notMem {name : List UInt8} (h : EQUALS ∉ name) : keyName name = name :=
  List.takeWhile_eq_self_iff.2 fun _ hb => decide_eq_true fun heq => h (heq ▸ hb)

theorem keyName_append {key : List UInt8} (h : ∀ b ∈ key, b ≠ EQUALS) (t : List UInt8) :
    keyName (key ++ EQUALS :: t) = key := by
  rw [keyName, List.takeWhile_append_of_pos fun b hb => decide_eq_true (h b hb),
    List.takeWhile_cons_of_neg (by simp), List.append_nil]

section Search

variable {m : Mem} {size : ℕ} {name : List UInt8}

/-- A name with a `=` in it against a definition. -/
theorem envmatch_equals (t : List UInt8) : ∀ {key vname rest : List UInt8} {i : ℕ},
    Holds m i (vname ++ EQUALS :: rest) → (∀ b ∈ key, b ≠ EQUALS) →
    (∀ b ∈ vname, b ≠ 0 ∧ b ≠ EQUALS) →
    envmatch m (key ++ EQUALS :: t) i
      = some (if vname = key then some (i + key.length + 1) else none)
  | [], [], rest, i, h, _, _ => by
    have hi := (holds_cons.1 h).1
    rw [List.nil_append, envmatch, if_pos hi.symm, if_pos rfl, if_pos rfl]
    rfl
  | [], v :: vs, rest, i, h, _, hv => by
    have hi := (holds_cons.1 h).1
    rw [List.nil_append, envmatch, if_neg (by rw [hi]; exact (hv v List.mem_cons_self).2.symm),
      if_neg (List.cons_ne_nil _ _)]
  | c :: cs, [], rest, i, h, hc, _ => by
    have hi := (holds_cons.1 h).1
    rw [List.cons_append, envmatch, if_neg (by rw [hi]; exact hc c List.mem_cons_self),
      if_neg (List.cons_ne_nil _ _).symm]
  | c :: cs, v :: vs, rest, i, h, hc, hv => by
    obtain ⟨hi, hrest⟩ := holds_cons.1 h
    have ih := envmatch_equals t hrest (fun b hb => hc b (List.mem_cons_of_mem c hb))
      fun b hb => hv b (List.mem_cons_of_mem _ hb)
    rw [List.cons_append, envmatch, hi]
    by_cases hcv : c = v
    · subst hcv
      rw [if_pos rfl, if_neg (hc c List.mem_cons_self), ih]
      simp only [List.cons.injEq, true_and, List.length_cons]
      congr 3
      omega
    · have hne : ¬v :: vs = c :: cs := fun h => hcv (List.cons.inj h).1.symm
      rw [if_neg hcv, if_neg hne]

theorem envmatch_key {v : EnvVar} {i : ℕ} {rest : List UInt8} (h : Holds m i (v.bytes ++ rest)) :
    envmatch m name i
      = some (if v.name = keyName name then some (i + (keyName name).length + 1) else none) := by
  by_cases heq : EQUALS ∈ name
  · obtain ⟨key, t, rfl, hkey⟩ := List.eq_append_cons_of_mem heq
    have hne : ∀ b ∈ key, b ≠ EQUALS := fun b hb he => hkey (he ▸ hb)
    rw [EnvVar.bytes, List.append_assoc, List.cons_append] at h
    rw [keyName_append hne]
    exact envmatch_equals t h hne v.name_ok
  · rw [keyName_of_notMem heq]
    exact envmatch_var (fun b hb he => heq (he ▸ hb)) h

/-- The search passes the variables of other names. -/
theorem fwSearch_skip : ∀ {vs : List EnvVar} {n i : ℕ} {rest : List UInt8},
    Holds m i (encode vs ++ rest) → i + (encode vs).length ≤ size →
    (∀ v ∈ vs, v.name ≠ keyName name) →
    fwSearch size m name (n + vs.length) i = fwSearch size m name n (i + (encode vs).length)
  | [], _, _, _, _, _, _ => rfl
  | v :: vs, n, i, rest, h, hsize, hne => by
    rw [encode_cons, List.append_assoc, List.cons_append] at h
    obtain ⟨hi, hv⟩ := holds_var h
    have hrest := (holds_cons.1 (holds_append.1 h).2).2
    rw [encode_cons, List.length_append, List.length_cons] at hsize ⊢
    have hend : strEnd m (size + 1 - i) i = some (i + v.bytes.length) :=
      strEnd_holds hv v.bytes_ne_zero (by omega)
    have ih := fwSearch_skip (n := n) hrest (show _ ≤ size by omega) fun u hu =>
      hne u (List.mem_cons_of_mem v hu)
    rw [List.length_cons, ← Nat.add_assoc, fwSearch, if_neg hi, hend]
    dsimp only
    rw [envmatch_key h, if_neg (hne v List.mem_cons_self)]
    dsimp only
    rw [ih]
    congr 1
    omega

theorem fwSearch_none {vs : List EnvVar} (h : Represents size m vs)
    (hne : ∀ v ∈ vs, v.name ≠ keyName name) :
    fwSearch size m name (size + 2) 0 = some (some ((encode vs).length, none)) := by
  have hlt := h.length_lt
  have hle := length_le_encode vs
  have hholds := h.holds_encode
  obtain ⟨k, hk⟩ : ∃ k, size + 2 = k + 1 + vs.length := ⟨size + 1 - vs.length, by omega⟩
  have hskip := fwSearch_skip (n := k + 1) hholds (show 0 + _ ≤ size by omega) hne
  have hend := (holds_cons.1 (holds_append.1 hholds).2).1
  rw [Nat.zero_add] at hend
  rw [hk, hskip, Nat.zero_add, fwSearch, if_pos hend]

theorem fwSearch_some {us vs : List EnvVar} {v : EnvVar} (h : Represents size m (us ++ v :: vs))
    (hne : ∀ u ∈ us, u.name ≠ keyName name) (hv : v.name = keyName name) :
    fwSearch size m name (size + 2) 0
      = some (some ((encode us).length, some ((encode us).length + v.bytes.length))) := by
  have hlt := h.length_lt
  have hle := length_le_encode us
  have hholds := h.holds_encode
  rw [encode_append, encode_cons, List.length_append, List.length_append] at hlt
  rw [encode_append, encode_cons, List.append_assoc] at hholds
  obtain ⟨k, hk⟩ : ∃ k, size + 2 = k + 1 + us.length := ⟨size + 1 - us.length, by omega⟩
  have hskip := fwSearch_skip (n := k + 1) hholds (show 0 + (encode us).length ≤ size by omega) hne
  have hvar := (holds_append.1 hholds).2
  rw [Nat.zero_add, List.append_assoc, List.cons_append] at hvar
  obtain ⟨hi, hbytes⟩ := holds_var hvar
  have hend : strEnd m (size + 1 - (encode us).length) (encode us).length
      = some ((encode us).length + v.bytes.length) :=
    strEnd_holds hbytes v.bytes_ne_zero (by rw [List.length_cons] at hlt; omega)
  rw [hk, hskip, Nat.zero_add, fwSearch, if_neg hi, hend]
  dsimp only
  rw [envmatch_key hvar, if_pos hv]

/-- The deletion leaves what that of `_do_setenv` leaves, and a NUL more behind the last
variable. -/
theorem fwDelete_represents {us vs : List EnvVar} {v : EnvVar}
    (h : Represents size m (us ++ v :: vs)) :
    ∃ m', fwDelete size m (encode us).length ((encode us).length + v.bytes.length) = some m' ∧
      Represents size m' (us ++ vs) := by
  obtain ⟨m', hdel, hrep, -⟩ := envDelete_represents h
  unfold envDelete at hdel
  unfold fwDelete
  split_ifs at hdel ⊢ with hlast hpos
  · obtain rfl := Option.some.inj hdel
    refine ⟨_, rfl, ?_, hrep.fits, hrep.nodup⟩
    have hvs : vs = [] := by
      by_contra hvs
      obtain ⟨u, vs', rfl⟩ := List.exists_cons_of_ne_nil hvs
      have hholds := h.holds_encode
      rw [encode_append, encode_cons, encode_cons, List.append_assoc] at hholds
      have hu := (holds_append.1 hholds).2
      rw [Nat.zero_add, List.append_assoc, List.cons_append] at hu
      have hnext := (holds_cons.1 (holds_append.1 hu).2).2
      rw [List.append_assoc, List.cons_append] at hnext
      exact (holds_var hnext).1 hlast
    have hus : us ≠ [] := fun h0 => by simp [h0, encode] at hpos
    subst hvs
    have hhold := hrep.holds
    rw [List.append_nil, image_of_ne hus] at hhold ⊢
    exact hhold.store (.inl (by simp))
  · exact ⟨m', hdel, hrep⟩
  · exact ⟨m', hdel, hrep⟩

end Search

section Append

variable {size : ℕ} {e : EnvT} {vs : List EnvVar}

/-- The new string fits behind the variables. -/
def AppendFits (size : ℕ) (a : SetenvArgs) (vs : List EnvVar) : Prop :=
  a.words = [] ∨ (encode vs).length + (a.name.length + 2 + (sepWords EQUALS a.words).length) ≤ size

theorem fwAppend_end (h : Represents size e.data vs) (a : SetenvArgs) :
    ∃ r e', fwAppend size a.name a.words e = some (r, e') ∧ (r = .done ↔ AppendFits size a vs) := by
  unfold fwAppend
  by_cases hw : a.words = []
  · rw [if_pos hw]
    exact ⟨_, _, rfl, iff_of_true rfl (.inl hw)⟩
  · obtain ⟨env, hend, hat⟩ := envEnd_represents h
    have hlt := h.length_lt
    rw [if_neg hw, hend]
    dsimp only
    rw [hat, setenvLen_eq a.name a.words a.len_lt, AppendFits, or_iff_right hw]
    split_ifs with hlen
    · exact ⟨_, _, rfl, by simp, fun hfit => by omega⟩
    · exact ⟨_, _, rfl, fun _ => by omega, fun _ => rfl⟩

/-- Where the tool appends, so does `_do_setenv`, with the same data. -/
theorem fwAppend_done {name : List UInt8} {words : List (List UInt8)} {e' : EnvT}
    (h : fwAppend size name words e = some (.done, e')) :
    setenvAppend size name words e = some (.done, e') := by
  unfold fwAppend at h
  unfold setenvAppend
  split_ifs at h ⊢ with hw
  · rw [← (Prod.mk.inj (Option.some.inj h)).2]
  · rcases hend : envEnd e.data size 0 with _ | env
    · simp [hend] at h
    · rw [hend] at h
      dsimp only at h ⊢
      split_ifs at h ⊢
      all_goals simp_all

end Append

section Agreement

variable {size : ℕ}

/-- An environment with its variables. -/
structure EnvImage (size : ℕ) where
  env : EnvT
  vars : List EnvVar
  valid : Represents size env.data vars

variable (w : EnvWorld) (a : SetenvArgs) (E : EnvImage size)

/-- The environment that the tool writes has the variables that `_do_setenv` leaves, and what
`_do_setenv` refuses the tool does not write. -/
structure FwSetenvRight : Prop where
  same : ∀ e', fwSetenvData size a.name a.words E.env = some (.done, e') →
    ∃ e'' vs', doSetenv size w a.name a.words E.env = some (.done, e'')
      ∧ Represents size e'.data vs' ∧ Represents size e''.data vs'
  refused : ∀ r e'', doSetenv size w a.name a.words E.env = some (r, e'') → r ≠ .done →
    r ≠ .overflow → ∀ e', fwSetenvData size a.name a.words E.env ≠ some (.done, e')

/-- `_do_setenv` has a `=` in the name, or it is defined and may not be changed so. -/
def DoSetenvRefuses : Prop := EQUALS ∈ a.name ∨ specRefused w a E.vars ≠ none

/-- The tool finds a name that is set once, or no room for the new string. -/
def FwSetenvRefuses : Prop :=
  (lookupVar (keyName a.name) E.vars).isSome = true ∧ a.name ∈ setOnceNames
    ∨ ¬AppendFits size a (eraseVar (keyName a.name) E.vars)

variable {w a E}

theorem fwSetenv_end : ∃ r e', fwSetenvData size a.name a.words E.env = some (r, e')
    ∧ (r = .done ↔ ¬FwSetenvRefuses a E) := by
  obtain ⟨e, vs, h⟩ := E
  unfold fwSetenvData FwSetenvRefuses
  rcases split_vars (keyName a.name) vs with hne | ⟨us, v, vs', rfl, hv⟩
  · obtain ⟨r, e', hrun, hr⟩ := fwAppend_end h a
    rw [fwSearch_none h hne]
    refine ⟨r, e', hrun, ?_⟩
    simp only [lookupVar_none hne, eraseVar_none hne]
    simpa using hr
  · obtain ⟨hus, herase⟩ := eraseVar_some h.nodup hv
    rw [fwSearch_some h hus hv]
    simp only [lookupVar_some hus hv, herase, Option.isSome_some, true_and]
    by_cases honce : a.name ∈ setOnceNames
    · rw [if_pos honce]
      exact ⟨_, _, rfl, by simp [honce]⟩
    · obtain ⟨m', hdel, hrep⟩ := fwDelete_represents h
      obtain ⟨r, e', hrun, hr⟩ := fwAppend_end (e := { e with data := m' }) hrep a
      rw [if_neg honce, hdel]
      refine ⟨r, e', hrun, ?_⟩
      simpa [honce] using hr

/-- With a name that `_do_setenv` takes, a run that writes leaves the same variables. -/
theorem fwSetenv_same (hname : EQUALS ∉ a.name) (href : specRefused w a E.vars = none) {e' : EnvT}
    (hrun : fwSetenvData size a.name a.words E.env = some (.done, e')) :
    ∃ e'' vs', doSetenv size w a.name a.words E.env = some (.done, e'')
      ∧ Represents size e'.data vs' ∧ Represents size e''.data vs' := by
  obtain ⟨e, vs, h⟩ := E
  simp only at hrun href ⊢
  have hkey := keyName_of_notMem hname
  obtain ⟨e'', hdo, hrep'', -⟩ := doSetenv_refines h w a
  have hspec : specSetenv size w a vs = specAppend size a hname (eraseVar a.name vs) := by
    rw [specSetenv, dif_neg hname, href]
  rw [hspec] at hdo hrep''
  have happend : ∀ {d : EnvT}, Represents size d.data (eraseVar a.name vs) →
      fwAppend size a.name a.words d = some (.done, e') →
      (specAppend size a hname (eraseVar a.name vs)).1 = .done
        ∧ Represents size e'.data (specAppend size a hname (eraseVar a.name vs)).2 := by
    intro d hd hfw
    have hne : ∀ u ∈ eraseVar a.name vs, u.name ≠ a.name :=
      fun u hu => of_decide_eq_true (List.mem_filter.1 hu).2
    obtain ⟨d', hdone, hrep, -⟩ := setenvAppend_refines hd a hname hne
    rw [fwAppend_done hfw, Option.some.injEq, Prod.mk.injEq] at hdone
    obtain ⟨hdone, rfl⟩ := hdone
    exact ⟨hdone.symm, hrep⟩
  have hend : (specAppend size a hname (eraseVar a.name vs)).1 = .done
      ∧ Represents size e'.data (specAppend size a hname (eraseVar a.name vs)).2 := by
    unfold fwSetenvData at hrun
    rcases split_vars a.name vs with hne | ⟨us, v, vs', rfl, hv⟩
    · rw [fwSearch_none h (hkey.symm ▸ hne)] at hrun
      exact happend (by rw [eraseVar_none hne]; exact h) hrun
    · obtain ⟨hus, herase⟩ := eraseVar_some h.nodup hv
      rw [fwSearch_some h (hkey.symm ▸ hus) (hkey.symm ▸ hv)] at hrun
      dsimp only at hrun
      obtain ⟨m', hdel, hrep⟩ := fwDelete_represents h
      rw [hdel] at hrun
      split_ifs at hrun
      · simp at hrun
      · exact happend (d := { e with data := m' }) (by rw [herase]; exact hrep) hrun
  rw [hend.1] at hdo
  exact ⟨e'', _, hdo, hend.2, hrep''⟩

/-- What `_do_setenv` says where it refuses. -/
theorem doSetenv_refused (h : DoSetenvRefuses w a E) :
    ∃ r e'', doSetenv size w a.name a.words E.env = some (r, e'') ∧ r ≠ .done ∧ r ≠ .overflow := by
  obtain ⟨e'', hdo, -⟩ := doSetenv_refines E.valid w a
  refine ⟨_, e'', hdo, ?_⟩
  by_cases hname : EQUALS ∈ a.name
  · rw [specSetenv, dif_pos hname]
    simp
  · have href := h.resolve_left hname
    obtain ⟨r, hr⟩ := Option.ne_none_iff_exists'.1 href
    rw [specSetenv, dif_neg hname, hr]
    unfold specRefused at hr
    split_ifs at hr
    unfold setenvRefused at hr
    split_ifs at hr
    · rcases hw : a.words with _ | ⟨val, vals⟩
      · rw [hw] at hr
        obtain rfl := Option.some.inj hr
        simp
      · rw [hw] at hr
        dsimp only at hr
        split_ifs at hr
        obtain rfl := Option.some.inj hr
        simp
    · obtain rfl := Option.some.inj hr
      simp

theorem fwSetenv_refuses_of_right (hright : FwSetenvRight w a E) (hdo : DoSetenvRefuses w a E) :
    FwSetenvRefuses a E := by
  by_contra hgo
  obtain ⟨r, e', hrun, hr⟩ := fwSetenv_end (a := a) (E := E)
  obtain rfl := hr.2 hgo
  obtain ⟨r'', e'', hrun'', hdone, hover⟩ := doSetenv_refused hdo
  exact hright.refused r'' e'' hrun'' hdone hover e' hrun

theorem fwSetenvRight_iff (w : EnvWorld) (a : SetenvArgs) (E : EnvImage size) :
    FwSetenvRight w a E ↔ (DoSetenvRefuses w a E → FwSetenvRefuses a E) := by
  refine ⟨fwSetenv_refuses_of_right, fun hclear => ?_⟩
  have hrefuse : ∀ e', fwSetenvData size a.name a.words E.env = some (.done, e') →
      ¬DoSetenvRefuses w a E := fun e' hrun hdo => by
    obtain ⟨r, e₁, hrun₁, hr⟩ := fwSetenv_end (a := a) (E := E)
    rw [hrun, Option.some.injEq, Prod.mk.injEq] at hrun₁
    exact hr.1 hrun₁.1.symm (hclear hdo)
  refine ⟨fun e' hrun => ?_, fun r e'' hdo hdone hover e' hrun => ?_⟩
  · have hno := hrefuse e' hrun
    rw [DoSetenvRefuses, not_or, not_not] at hno
    exact fwSetenv_same hno.1 hno.2 hrun
  · have hno := hrefuse e' hrun
    rw [DoSetenvRefuses, not_or, not_not] at hno
    obtain ⟨e₂, -, hdo₂, -⟩ := fwSetenv_same hno.1 hno.2 hrun
    rw [hdo, Option.some.injEq, Prod.mk.injEq] at hdo₂
    exact hdone hdo₂.1

/-- `a=` is set to `b` -/
def equalsArgs : SetenvArgs where
  name := [0x61, EQUALS]
  words := [[0x62]]
  name_ok := by simp [EQUALS]
  words_ok := by simp
  len_lt := by simp [sepWords]

def noVars : EnvImage ENV_SIZE := ⟨emptyEnv, [], emptyEnv_valid⟩

theorem fwSetenv_equals : ¬FwSetenvRight plainWorld equalsArgs noVars := fun h => by
  rcases fwSetenv_refuses_of_right h (.inl (by decide)) with ⟨hfound, -⟩ | hroom
  · simp [lookupVar, noVars] at hfound
  · refine hroom (.inr ?_)
    simp [noVars, eraseVar, encode, equalsArgs, sepWords, ENV_SIZE]

end Agreement

end InfotmUboot
