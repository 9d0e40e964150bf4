import InfotmUboot.Crc32
import InfotmUboot.Items

/-!
# The environment

`_do_setenv`, `getenv` and `envmatch` of `cmd_nvedit.c` over the environment's data, `size` bytes of
it. The loops over the data have no bound of their own: one that does not end within `size` bytes
has no result here, and neither has `envmatch` when it runs past the name it is given. The calls in
between that print or set other variables are left out; `EnvWorld` is what decides the rest of them.
-/

namespace InfotmUboot

open Lib

/-- `ENV_SIZE` of this board -/
def ENV_SIZE : ℕ := 0x4000 - 4

def EQUALS : UInt8 := 0x3d

/-- `env_ptr`: the checksum and the data. -/
structure EnvT where
  crc : ℕ
  data : Mem

/-- `console_assign`, and the string that a null pointer leads to. -/
structure EnvWorld where
  consoleAssign : List UInt8 → List UInt8 → ℤ
  null : List UInt8

/-- How `_do_setenv` ends: with 0, or with one of its messages and 1. -/
inductive SetenvEnd where
  | done
  | illegal
  | undeletable
  | console
  | baudrate
  | overflow
  deriving DecidableEq, Repr

def SetenvEnd.code : SetenvEnd → ℤ
  | .done => 0
  | _ => 1

/-- `"stdin"`, `"stdout"` and `"stderr"` -/
def consoleNames : List (List UInt8) :=
  [[0x73, 0x74, 0x64, 0x69, 0x6e], [0x73, 0x74, 0x64, 0x6f, 0x75, 0x74],
    [0x73, 0x74, 0x64, 0x65, 0x72, 0x72]]

/-- `"baudrate"` -/
def baudrateName : List UInt8 := [0x62, 0x61, 0x75, 0x64, 0x72, 0x61, 0x74, 0x65]

def baudrateTable : List ℕ := [9600, 19200, 38400, 57600, 115200]

section Match

variable (m : Mem)

/-- `envmatch`: the index of the value, if the names match. -/
def envmatch : List UInt8 → ℕ → Option (Option ℕ)
  | [], i => if m i = 0 then none else if m i = EQUALS then some (some (i + 1)) else some none
  | c :: cs, i =>
    if c = m i then if c = EQUALS then some (some (i + 1)) else envmatch cs (i + 1) else some none

/-- The NUL that ends the string at an index, at most `n` bytes on. -/
def strEnd : ℕ → ℕ → Option ℕ
  | 0, _ => none
  | n + 1, i => if m i = 0 then some i else strEnd n (i + 1)

end Match

section Getenv

variable (size : ℕ) (m : Mem) (name : List UInt8)

/-- The loop of `getenv`, which gives up past `CONFIG_ENV_SIZE`. -/
def getenvLoop : ℕ → ℕ → Option (Option ℕ)
  | 0, _ => none
  | n + 1, i =>
    if m i = 0 then some none
    else
      match strEnd m (size + 4 + 1 - i) i with
      | none => some none
      | some nxt =>
        match envmatch m name i with
        | none => none
        | some (some val) => some (some val)
        | some none => getenvLoop n (nxt + 1)

def getenv : Option (Option ℕ) := getenvLoop size m name size 0

/-- The copy of `getenv_r` while `len > n`, with what is left of `len`: `n`, `buf` and the
memory. -/
def getenvRCopy : ℕ → ℕ → ℕ → ℕ → Mem → ℕ × ℕ × Mem
  | 0, n, _, buf, out => (n + 1, buf, out)
  | len + 1, n, val, buf, out =>
    let out := out.store buf [m val]
    if m val ≠ 0 then getenvRCopy len (n + 1) (val + 1) (buf + 1) out else (n + 1, buf + 1, out)

/-- `getenv_r`, which searches as `getenv` does, into the memory `out`. -/
def getenvR (buf len : ℕ) (out : Mem) : Option (ℤ × Mem) :=
  match getenv size m name with
  | none => none
  | some none => some (-1, out)
  | some (some val) =>
    let (n, buf, out) := getenvRCopy m len 0 val buf out
    some (n, if len = n then out.store buf [0] else out)

end Getenv

section Setenv

variable (size : ℕ)

/-- The search of `_do_setenv`: where it stops, and the end of the string there and the value, if
the name is found. -/
def envSearch (m : Mem) (name : List UInt8) : ℕ → ℕ → Option (ℕ × Option (ℕ × ℕ))
  | 0, _ => none
  | n + 1, env =>
    if m env = 0 then some (env, none)
    else
      match strEnd m size env with
      | none => none
      | some nxt =>
        match envmatch m name env with
        | none => none
        | some (some val) => some (env, some (nxt, val))
        | some none => envSearch m name n (nxt + 1)

/-- What is checked before a definition is deleted: nothing if it may be. -/
def setenvRefused (w : EnvWorld) (name : List UInt8) (vals : List (List UInt8)) :
    Option SetenvEnd :=
  if name ∈ consoleNames then
    match vals with
    | [] => some .undeletable
    | val :: _ => if w.consoleAssign name val < 0 then some .console else none
  else if name = baudrateName then
    if simpleStrtoul (vals.headD w.null) ∈ baudrateTable then none else some .baudrate
  else none

/-- The strings from `nxt` on move to `env`; the end is where both a string and the list end. -/
def envShift (m : Mem) : ℕ → ℕ → ℕ → Option Mem
  | 0, _, _ => none
  | n + 1, env, nxt =>
    let m := m.store env [m nxt]
    if m env = 0 ∧ m (nxt + 1) = 0 then some (m.store (env + 1) [0])
    else envShift m n (env + 1) (nxt + 1)

/-- The definition at `env`, which ends at `nxt`, is deleted. -/
def envDelete (m : Mem) (env nxt : ℕ) : Option Mem :=
  if m (nxt + 1) = 0 then
    if 0 < env then some (m.store env [0]) else some ((m.store env [0]).store (env + 1) [0])
  else envShift m size env (nxt + 1)

/-- Where the list ends, from an index on. -/
def envEnd (m : Mem) : ℕ → ℕ → Option ℕ
  | 0, _ => none
  | n + 1, env => if m env ≠ 0 ∨ m (env + 1) ≠ 0 then envEnd m n (env + 1) else some env

/-- `len` -/
def setenvLen (name : List UInt8) (vals : List (List UInt8)) : ℤ :=
  vals.foldl (fun len val => s32 (len + (val.length + 1))) (s32 (name.length + 2))

/-- The values, each after its separator, from the NUL at `env` on. -/
def envPutVals (m : Mem) (env : ℕ) : UInt8 → List (List UInt8) → Mem × ℕ
  | _, [] => (m, env)
  | sep, val :: vals =>
    envPutVals ((m.store env [sep]).store (env + 1) (val ++ [0])) (env + 1 + val.length) 0x20 vals

def envPut (m : Mem) (env : ℕ) (name : List UInt8) (vals : List (List UInt8)) : Mem :=
  let (m, env) := envPutVals (m.store env (name ++ [0])) (env + name.length) EQUALS vals
  m.store (env + 1) [0]

def envCrcUpdate (e : EnvT) : EnvT := { e with crc := crc32 0 (e.data.load 0 size) }

/-- The rest of `_do_setenv`, over the data without a definition of `name`. -/
def setenvAppend (name : List UInt8) (vals : List (List UInt8)) (e : EnvT) :
    Option (SetenvEnd × EnvT) :=
  if vals = [] then some (.done, envCrcUpdate size e)
  else
    match envEnd e.data size 0 with
    | none => none
    | some env =>
      let env := if 0 < env then env + 1 else env
      if setenvLen name vals > size - env then some (.overflow, e)
      else some (.done, envCrcUpdate size { e with data := envPut e.data env name vals })

/-- `_do_setenv` of `name` to the words `vals`, none of them to delete it. -/
def doSetenv (w : EnvWorld) (name : List UInt8) (vals : List (List UInt8)) (e : EnvT) :
    Option (SetenvEnd × EnvT) :=
  if EQUALS ∈ name then some (.illegal, e)
  else
    match envSearch size e.data name size 0 with
    | none => none
    | some (_, none) => setenvAppend size name vals e
    | some (env, some (nxt, _)) =>
      match setenvRefused w name vals with
      | some r => some (r, e)
      | none =>
        match envDelete size e.data env nxt with
        | none => none
        | some data => setenvAppend size name vals { e with data }

end Setenv

end InfotmUboot
