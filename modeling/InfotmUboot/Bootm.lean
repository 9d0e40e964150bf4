import InfotmUboot.Text

/-!
# The subcommands of `bootm`

`find_cmd_tbl` and `do_bootm_subcommand`, over `images.state`. What a stage's own function returns
is given with the command.
-/

namespace InfotmUboot

/-- `find_cmd_tbl`: the entry whose name is the command, up to its first dot, or the only one whose
name begins with it. -/
def findCmdLoop {α : Type} (name : α → List UInt8) (cmd : List UInt8) :
    List α → Option α → ℕ → Option α
  | [], cmdtpTemp, nFound => if nFound = 1 then cmdtpTemp else none
  | cmdtp :: table, cmdtpTemp, nFound =>
    if cmd.isPrefixOf (name cmdtp) then
      if cmd.length = (name cmdtp).length then some cmdtp
      else findCmdLoop name cmd table (some cmdtp) (nFound + 1)
    else findCmdLoop name cmd table cmdtpTemp nFound

def findCmdTbl {α : Type} (name : α → List UInt8) (cmd : List UInt8) (table : List α) : Option α :=
  findCmdLoop name (cmd.takeWhile (· ≠ 0x2e)) table table.head? 0

inductive BootmState where
  | start
  | loados
  | ramdisk
  | fdt
  | cmdline
  | bdt
  | prep
  | go
  deriving DecidableEq, Repr

namespace BootmState

def index : BootmState → ℕ
  | start => 0
  | loados => 1
  | ramdisk => 2
  | fdt => 3
  | cmdline => 4
  | bdt => 5
  | prep => 6
  | go => 7

/-- `BOOTM_STATE_START` to `BOOTM_STATE_OS_GO`. -/
def bit (s : BootmState) : ℕ := 2 ^ s.index

def name : BootmState → List UInt8
  | start => ascii "start"
  | loados => ascii "loados"
  | ramdisk => ascii "ramdisk"
  | fdt => ascii "fdt"
  | cmdline => ascii "cmdline"
  | bdt => ascii "bdt"
  | prep => ascii "prep"
  | go => ascii "go"

end BootmState

/-- Whether the architecture has the ramdisk stage, and `CONFIG_OF_LIBFDT`. -/
structure BootmConfig where
  ramdisk : Bool
  fdt : Bool

def cmdBootmSub (cfg : BootmConfig) : List BootmState :=
  [.start, .loados] ++ (if cfg.ramdisk then [.ramdisk] else []) ++
    (if cfg.fdt then [.fdt] else []) ++ [.bdt, .cmdline, .prep, .go]

/-- A subcommand, and what the function of its stage returns if it is called. -/
structure BootmCall where
  arg : List UInt8
  outcome : ℤ

/-- What a subcommand leaves: its result, `images.state` and the stage whose function was called. -/
structure BootmEnd where
  ret : ℤ
  state : ℕ
  ran : Option BootmState
  deriving DecidableEq, Repr

def doBootmSubcommand (cfg : BootmConfig) (state : ℕ) (call : BootmCall) : BootmEnd :=
  match findCmdTbl BootmState.name call.arg (cmdBootmSub cfg) with
  | none => ⟨1, state, none⟩
  | some .start =>
    -- `bootm_start` clears `images` first
    if call.outcome = 0 then ⟨0, BootmState.start.bit, some .start⟩ else ⟨1, 0, some .start⟩
  | some c =>
    if state ≥ c.bit then ⟨1, state, none⟩
    else
      -- what the function of `go` returns is not looked at
      ⟨if c = .go then 0 else call.outcome, state ||| c.bit, some c⟩

end InfotmUboot
