import InfotmUboot.Proofs.Env

/-!
# The checksum of the environment

A call of `_do_setenv` that succeeds leaves a right checksum, and one that is refused leaves all as
it was. An overflow may have deleted a definition before: then the data is that of the other
variables and the checksum is the one before the call (`env_crc`).
-/

namespace InfotmUboot

open Lib

/-- The checksum is that of the data. -/
def CrcRight (size : ℕ) (e : EnvT) : Prop := e.crc = crc32 0 (e.data.load 0 size)

theorem envCrcUpdate_right {size : ℕ} (e : EnvT) : CrcRight size (envCrcUpdate size e) := rfl

section Step

variable {size : ℕ} {e e' : EnvT} {r : SetenvEnd}

theorem setenvAppend_ends {name : List UInt8} {vals : List (List UInt8)}
    (h : setenvAppend size name vals e = some (r, e')) :
    r = .done ∧ CrcRight size e' ∨ r = .overflow ∧ e' = e := by
  unfold setenvAppend at h
  split_ifs at h with hv
  · obtain ⟨rfl, rfl⟩ := Prod.mk.inj (Option.some.inj h)
    exact Or.inl ⟨rfl, rfl⟩
  · rcases hend : envEnd e.data size 0 with _ | env
    · rw [hend] at h
      cases h
    · rw [hend] at h
      dsimp only at h
      split_ifs at h
      all_goals obtain ⟨rfl, rfl⟩ := Prod.mk.inj (Option.some.inj h)
      any_goals exact Or.inr ⟨rfl, rfl⟩
      all_goals exact Or.inl ⟨rfl, rfl⟩

/-- How a call ends: well, with an overflow after a deletion, or with nothing changed. -/
theorem doSetenv_ends {vs : List EnvVar} (hrep : Represents size e.data vs) (w : EnvWorld)
    (a : SetenvArgs) (h : doSetenv size w a.name a.words e = some (r, e')) :
    r = .done ∧ CrcRight size e' ∨
      r = .overflow ∧ (lookupVar a.name vs).isSome ∧ Represents size e'.data (eraseVar a.name vs) ∨
      r ≠ .done ∧ e' = e ∧ (r = .overflow → lookupVar a.name vs = none) := by
  have hspec := doSetenv_refines hrep w a
  unfold doSetenv at h
  split_ifs at h with hname
  · obtain ⟨rfl, rfl⟩ := Prod.mk.inj (Option.some.inj h)
    exact Or.inr (Or.inr ⟨nofun, rfl, nofun⟩)
  have heq : ∀ b ∈ a.name, b ≠ EQUALS := fun b hb he => hname (he ▸ hb)
  rcases split_vars a.name vs with hne | ⟨us, v, vs', rfl, hv⟩
  · rw [envSearch_none heq hrep hne] at h
    rcases setenvAppend_ends h with hdone | ⟨rfl, rfl⟩
    · exact Or.inl hdone
    · exact Or.inr (Or.inr ⟨nofun, rfl, fun _ => lookupVar_none hne⟩)
  · obtain ⟨hus, herase⟩ := eraseVar_some hrep.nodup hv
    have hdef : (lookupVar a.name (us ++ v :: vs')).isSome := by
      rw [lookupVar_some hus hv]
      rfl
    rw [envSearch_some heq hrep hus hv] at h
    dsimp only at h
    rcases hr : setenvRefused w a.name a.words with _ | r'
    · obtain ⟨m', hdel, hrep', -⟩ := envDelete_represents hrep
      rw [hr] at h
      dsimp only at h
      rw [hdel] at h
      rcases setenvAppend_ends h with hdone | ⟨rfl, rfl⟩
      · exact Or.inl hdone
      · refine Or.inr (Or.inl ⟨rfl, hdef, ?_⟩)
        rw [herase]
        exact hrep'
    · rw [hr] at h
      obtain ⟨rfl, rfl⟩ := Prod.mk.inj (Option.some.inj h)
      obtain ⟨hd, ho⟩ := setenvRefused_ne hr
      exact Or.inr (Or.inr ⟨hd, rfl, fun h => absurd h ho⟩)

end Step

section Book

/-- What the calls so far tell: the values of the names, and whether a definition was deleted by an
overflow after the last call that succeeded. -/
structure EnvBook where
  values : List UInt8 → Option (List UInt8)
  stale : Bool

def EnvBook.note (b : EnvBook) (x : EnvOp × EnvReply) : EnvBook where
  values := fun n => lastValue n (b.values n) x
  stale :=
    match x with
    | (.set _ _, .set .done) => false
    | (.set _ a, .set .overflow) => b.stale || (b.values a.name).isSome
    | _ => b.stale

def EnvBook.start (vs : List EnvVar) : EnvBook := ⟨fun n => lookupVar n vs, false⟩

/-- The book is right about the environment. -/
structure Booked (size : ℕ) (e : EnvT) (vs : List EnvVar) (b : EnvBook) : Prop where
  rep : Represents size e.data vs
  values : ∀ n, b.values n = lookupVar n vs
  crc : b.stale = false → CrcRight size e

variable {size : ℕ}

theorem envStep_booked {e : EnvT} {vs : List EnvVar} {b : EnvBook} (h : Booked size e vs b)
    (op : EnvOp) : ∃ r e' vs', envStep size e op = some (r, e') ∧ Booked size e' vs'
      (b.note (op, r)) := by
  obtain ⟨r, e', vs', hstep, hrep, -, hlook⟩ := envStep_history h.rep op
  have hvalues : ∀ n, (b.note (op, r)).values n = lookupVar n vs' := by
    intro n
    rw [hlook, ← h.values]
    rfl
  refine ⟨r, e', vs', hstep, hrep, hvalues, ?_⟩
  cases op with
  | set w a =>
    rw [envStep, Option.map_eq_some_iff] at hstep
    obtain ⟨⟨r, e1⟩, hset, heq⟩ := hstep
    obtain ⟨rfl, rfl⟩ := Prod.mk.inj heq
    rcases doSetenv_ends h.rep w a hset with ⟨rfl, hcrc⟩ | ⟨rfl, hdef, -⟩ | ⟨hne, rfl, hover⟩
    · exact fun _ => hcrc
    · intro hstale
      rw [← h.values] at hdef
      simp only [EnvBook.note, hdef, Bool.or_true] at hstale
      cases hstale
    · intro hstale
      refine h.crc ?_
      by_cases ho : r = .overflow
      · subst ho
        simp only [EnvBook.note, h.values, hover rfl, Option.isSome_none, Bool.or_false] at hstale
        exact hstale
      · cases r with
        | done => exact absurd rfl hne
        | overflow => exact absurd rfl ho
        | illegal => exact hstale
        | undeletable => exact hstale
        | console => exact hstale
        | baudrate => exact hstale
  | get name hname =>
    rw [envStep, Option.map_eq_some_iff] at hstep
    obtain ⟨i, -, heq⟩ := hstep
    obtain ⟨rfl, rfl⟩ := Prod.mk.inj heq
    exact h.crc

theorem envRun_booked : ∀ (ops : List EnvOp) {e : EnvT} {vs : List EnvVar} {b : EnvBook},
    Booked size e vs b → ∃ log e' vs', envRun size ops e = some (log, e') ∧ log.map Prod.fst = ops ∧
      Booked size e' vs' (log.foldl EnvBook.note b)
  | [], e, vs, b, h => ⟨[], e, vs, rfl, rfl, h⟩
  | op :: ops, e, vs, b, h => by
    obtain ⟨r, e1, vs1, hstep, h1⟩ := envStep_booked h op
    obtain ⟨log, e2, vs2, hrun, hops, h2⟩ := envRun_booked ops h1
    refine ⟨(op, r) :: log, e2, vs2, ?_, ?_, h2⟩
    · rw [envRun, hstep]
      dsimp only
      rw [hrun]
      rfl
    · rw [List.map_cons, hops]

/-- From a valid environment with a right checksum, after every sequence of calls: the checksum is
right but for what an overflow that deleted a definition leaves of it, and the next call, if it
reports an error, changes nothing but that an overflow deletes the definition of its name. -/
theorem env_crc (e : EnvT) (vs : List EnvVar) (h : Represents size e.data vs)
    (hcrc : CrcRight size e) (ops : List EnvOp) :
    ∃ log e' vs', envRun size ops e = some (log, e') ∧ log.map Prod.fst = ops ∧
      Represents size e'.data vs' ∧
      ((log.foldl EnvBook.note (.start vs)).stale = false → CrcRight size e') ∧
      ∀ (w : EnvWorld) (a : SetenvArgs), ∃ r e2, doSetenv size w a.name a.words e' = some (r, e2) ∧
        (r.code ≠ 0 →
          if r = .overflow ∧ (lookupVar a.name vs').isSome then
            Represents size e2.data (eraseVar a.name vs')
          else e2 = e') := by
  obtain ⟨log, e', vs', hrun, hops, hbook⟩ := envRun_booked ops
    (b := .start vs) ⟨h, fun _ => rfl, fun _ => hcrc⟩
  refine ⟨log, e', vs', hrun, hops, hbook.rep, hbook.crc, fun w a => ?_⟩
  obtain ⟨e2, hset, -⟩ := doSetenv_refines hbook.rep w a
  refine ⟨_, e2, hset, fun hcode => ?_⟩
  rcases doSetenv_ends hbook.rep w a hset with ⟨hr, -⟩ | ⟨hr, hdef, hrep⟩ | ⟨-, rfl, hover⟩
  · rw [hr] at hcode
    exact absurd rfl hcode
  · rw [if_pos ⟨hr, hdef⟩]
    exact hrep
  · rw [if_neg]
    rintro ⟨hr, hdef⟩
    rw [hover hr] at hdef
    cases hdef

/-- The empty environment with its checksum. -/
def freshEnv : EnvT := envCrcUpdate ENV_SIZE emptyEnv

theorem freshEnv_valid : Represents ENV_SIZE freshEnv.data [] := emptyEnv_valid

theorem freshEnv_crc : CrcRight ENV_SIZE freshEnv := envCrcUpdate_right _

theorem env_crc_set : ∃ log e' vs',
    envRun ENV_SIZE [.set plainWorld setAB] freshEnv = some (log, e') ∧
      log.map Prod.fst = [.set plainWorld setAB] ∧ Represents ENV_SIZE e'.data vs' ∧
      ((log.foldl EnvBook.note (.start [])).stale = false → CrcRight ENV_SIZE e') ∧
      ∀ (w : EnvWorld) (a : SetenvArgs), ∃ r e2, doSetenv ENV_SIZE w a.name a.words e' =
        some (r, e2) ∧
        (r.code ≠ 0 →
          if r = .overflow ∧ (lookupVar a.name vs').isSome then
            Represents ENV_SIZE e2.data (eraseVar a.name vs')
          else e2 = e') :=
  env_crc freshEnv [] freshEnv_valid freshEnv_crc _

/-- The first byte of an environment with a variable `a`, and of one without variables. -/
theorem Represents.first {m : Mem} (hname : EQUALS ∉ setAB.name) :
    (Represents size m [setAB.var hname] → m 0 = 0x61) ∧ (Represents size m [] → m 0 = 0) :=
  ⟨fun h => (holds_cons.1 h.holds).1, fun h => (holds_cons.1 h.holds).1⟩

/-- A value that does not fit is an error, and deletes the last one. -/
theorem env_crc_fails : ¬∀ (e : EnvT) (vs : List EnvVar), Represents ENV_SIZE e.data vs →
    CrcRight ENV_SIZE e → ∀ ops : List EnvOp, ∃ log e', envRun ENV_SIZE ops e = some (log, e') ∧
      CrcRight ENV_SIZE e' ∧ ∀ (w : EnvWorld) (a : SetenvArgs), ∃ r e2, doSetenv ENV_SIZE w a.name
        a.words e' = some (r, e2) ∧
        (r.code ≠ 0 → e2.data = e'.data) := by
  intro h
  have hname : EQUALS ∉ setAB.name := by decide
  have hspec1 : specSetenv ENV_SIZE plainWorld setAB [] = (.done, [setAB.var hname]) := rfl
  have hsize : ENV_SIZE < 2 ^ 30 := by decide
  have hspec2 := setALong_overflows ENV_SIZE hsize hname
  obtain ⟨e1, hrun1, hrep1, -⟩ := doSetenv_refines freshEnv_valid plainWorld setAB
  rw [hspec1] at hrun1 hrep1
  obtain ⟨e2, hrun2, hrep2, -⟩ := doSetenv_refines hrep1 plainWorld (setALong ENV_SIZE hsize)
  rw [hspec2] at hrun2 hrep2
  obtain ⟨log, e', hrun, -, hnext⟩ := h freshEnv [] freshEnv_valid freshEnv_crc
    [.set plainWorld setAB]
  have hlog : envRun ENV_SIZE [.set plainWorld setAB] freshEnv =
      some ([(.set plainWorld setAB, .set .done)], e1) := by
    simp only [envRun, envStep, hrun1, Option.map_some]
  rw [hlog] at hrun
  obtain ⟨rfl, rfl⟩ := Prod.mk.inj (Option.some.inj hrun)
  obtain ⟨r, e3, hset, hsame⟩ := hnext plainWorld (setALong ENV_SIZE hsize)
  rw [hrun2] at hset
  obtain ⟨rfl, rfl⟩ := Prod.mk.inj (Option.some.inj hset)
  have h0 := congrFun (hsame (by decide)) 0
  rw [(Represents.first hname).1 hrep1, (Represents.first hname).2 hrep2] at h0
  exact absurd h0 (by decide)

end Book

end InfotmUboot
