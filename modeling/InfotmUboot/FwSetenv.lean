import InfotmUboot.Env

/-!
# How the environment tool sets a variable

What `fw_setenv` of `fw_env.c` does to `environment.data` between `env_init` and `flash_io`. The
loops that move the strings, look for the end and append are copies of those of `_do_setenv`.
-/

namespace InfotmUboot

open Lib

/-- How `fw_setenv` ends: it goes on to write the flash, or one of its messages and -1. -/
inductive FwSetenvEnd where
  | done
  | unterminated
  | erofs
  | overflow
  deriving DecidableEq, Repr

/-- `"ethaddr"` and `"serial#"` -/
def setOnceNames : List (List UInt8) :=
  [[0x65, 0x74, 0x68, 0x61, 0x64, 0x64, 0x72], [0x73, 0x65, 0x72, 0x69, 0x61, 0x6c, 0x23]]

section FwSetenv

variable (size : ℕ)

/-- Where the search stops: `none` if a string does not end before `environment.data[ENV_SIZE]`,
else the index, and the end of the string there if the name is found. -/
def fwSearch (m : Mem) (name : List UInt8) : ℕ → ℕ → Option (Option (ℕ × Option ℕ))
  | 0, _ => none
  | n + 1, env =>
    if m env = 0 then some (some (env, none))
    else
      match strEnd m (size + 1 - env) env with
      | none => some none
      | some nxt =>
        match envmatch m name env with
        | none => none
        | some (some _) => some (some (env, some nxt))
        | some none => fwSearch m name n (nxt + 1)

/-- The definition at `env`, which ends at `nxt`, is deleted. -/
def fwDelete (m : Mem) (env nxt : ℕ) : Option Mem :=
  if m (nxt + 1) = 0 then some ((m.store env [0]).store (env + 1) [0])
  else envShift m size env (nxt + 1)

/-- The rest, over the data without a definition of `name`. -/
def fwAppend (name : List UInt8) (vals : List (List UInt8)) (e : EnvT) :
    Option (FwSetenvEnd × EnvT) :=
  if vals = [] then some (.done, envCrcUpdate size e)
  else
    match envEnd e.data size 0 with
    | none => none
    | some env =>
      let env := if 0 < env then env + 1 else env
      if setenvLen name vals > size - env then some (.overflow, e)
      else some (.done, envCrcUpdate size { e with data := envPut e.data env name vals })

local instance lawfulNames : LawfulBEq (List UInt8) := inferInstance

/-- The environment that is written to the flash, if it is. -/
def fwSetenvData (name : List UInt8) (vals : List (List UInt8)) (e : EnvT) :
    Option (FwSetenvEnd × EnvT) :=
  match fwSearch size e.data name (size + 2) 0 with
  | none => none
  | some none => some (.unterminated, e)
  | some (some (_, none)) => fwAppend size name vals e
  | some (some (env, some nxt)) =>
    if name ∈ setOnceNames then some (.erofs, e)
    else
      match fwDelete size e.data env nxt with
      | none => none
      | some data => fwAppend size name vals { e with data }

end FwSetenv

end InfotmUboot
