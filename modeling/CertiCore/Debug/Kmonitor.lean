import CertiCore.Driver.Clock
import CertiCore.Libs.Readline

/-!
# `kern/debug/kmonitor.c`

The command line of the kernel monitor. A pointer into the line is an index of its array, and every
access is checked against the bounds of the array.
-/

namespace CertiCore

def MAXARGS : ℕ := 16

def WHITESPACE : List Byte := cstr " \t\n\r"

/-- The arrays and variables of `parse`. -/
structure ParseState where
  /-- The array that holds the line. -/
  mem : List Byte
  buf : ℕ
  argc : ℕ
  /-- The array `argv`; `none` is an element that was not stored to. -/
  argv : Fin MAXARGS → Option ℕ
  /-- The second of the two inner loops is running. -/
  scanning : Bool
  /-- The console output. -/
  log : List Event

/-- The store `argv[i] = p`. -/
def storeArg (argv : Fin MAXARGS → Option ℕ) (i p : ℕ) : Except Halt (Fin MAXARGS → Option ℕ) :=
  if h : i < MAXARGS then .ok (Function.update argv ⟨i, h⟩ (some p)) else .error (.outOfBounds i)

/-- `parse`, one iteration of an inner loop at a time. -/
def parseStep (s : ParseState) : Except Halt (ParseState ⊕ ParseState) := do
  let c ← loadByte s.mem s.buf
  if s.scanning then
    if c ≠ 0 ∧ (← strchr WHITESPACE c) = none then
      return .inl { s with buf := s.buf + 1 }
    else
      return .inl { s with scanning := false }
  else
    if c ≠ 0 ∧ (← strchr WHITESPACE c) ≠ none then
      return .inl { s with mem := ← storeByte s.mem s.buf 0, buf := s.buf + 1 }
    else if c = 0 then
      return .inr s
    else
      let log := if s.argc = MAXARGS - 1 then
        s.log ++ [.cprintf "Too many arguments (max %d).\n" [BitVec.ofNat 64 MAXARGS]] else s.log
      let argv ← storeArg s.argv s.argc s.buf
      return .inl { s with argv, argc := s.argc + 1, scanning := true, log }

/-- `parse(buf, argv)` at its beginning, on the array `mem`. -/
def parseInit (mem : List Byte) : ParseState := ⟨mem, 0, 0, fun _ => none, false, []⟩

/-- The functions of the commands. -/
inductive MonFunc where
  | mon_help
  | mon_kerninfo
  | mon_backtrace
  deriving DecidableEq

structure Command where
  name : List Byte
  desc : List Byte
  func : MonFunc

def commands : List Command :=
  [⟨cstr "help", cstr "Display this list of commands.", .mon_help⟩,
    ⟨cstr "kerninfo", cstr "Display information about the kernel.", .mon_kerninfo⟩,
    ⟨cstr "backtrace", cstr "Print backtrace of stack frame.", .mon_backtrace⟩]

/-- How `runcmd` ends. -/
inductive CmdResult where
  /-- Nothing is called, and `runcmd` returns 0. -/
  | done (log : List Event)
  /-- `func(argc, argv, tf)` is called, and `runcmd` returns its result. -/
  | call (func : MonFunc) (argc : ℕ) (argv : ℕ → Option ℕ) (mem : List Byte) (log : List Event)

/-- The load `argv[i]`. -/
def loadArg (argv : Fin MAXARGS → Option ℕ) (i : ℕ) : Except Halt ℕ :=
  if h : i < MAXARGS then
    match argv ⟨i, h⟩ with
    | some p => .ok p
    | none => .error (.outOfBounds i)
  else .error (.outOfBounds i)

/-- The loop of `runcmd` over the commands. -/
def lookup (argv0 : List Byte) : List Command → Except Halt (Option MonFunc)
  | [] => .ok none
  | cmd :: cmds => do
    if (← strcmp cmd.name argv0) = 0 then return some cmd.func
    lookup argv0 cmds

/-- `runcmd` after the call of `parse`. -/
def dispatch (s : ParseState) : Except Halt CmdResult := do
  if s.argc = 0 then return .done s.log
  let argv0 ← loadArg s.argv 0
  match ← lookup (s.mem.drop argv0) commands with
  | some func =>
    let argv := fun k => if h : k + 1 < MAXARGS then s.argv ⟨k + 1, h⟩ else none
    return .call func (s.argc - 1) argv s.mem s.log
  | none => return .done (s.log ++ [.cprintf "Unknown command '%s'\n" [BitVec.ofNat 64 argv0]])

/-- `runcmd` on the array `mem`, with a bound on the iterations of `parse`. -/
def runcmd (fuel : ℕ) (mem : List Byte) : Option (Except Halt CmdResult) :=
  (Loop.run parseStep fuel (parseInit mem)).map fun r => r >>= dispatch

/-! ## `kmonitor` -/

/-- The functions of the commands return 0. That of `backtrace` would, but does not return:
`print_stackframe` panics. -/
def MonFunc.result : MonFunc → BitVec 32
  | mon_help => 0
  | mon_kerninfo => 0
  | mon_backtrace => 0

/-- What `runcmd` returns. -/
def CmdResult.result : CmdResult → BitVec 32
  | done _ => 0
  | call func _ _ _ _ => func.result

/-- Where `kmonitor` is. -/
inductive MonitorCtl where
  /-- The loop of `readline`. -/
  | readline (r : ReadState)
  /-- The loop of `parse`, called by `runcmd` for the line that `readline` has returned. -/
  | runcmd (s : ParseState) (polls : List (BitVec 64)) (out : List Output)

/-- The monitor, with the lines that have been passed to `runcmd`. What the commands print is not
kept. -/
structure Monitor where
  ctl : MonitorCtl
  lines : List (List Byte)

/-- The string in an array. -/
def stringOf (mem : List Byte) : List Byte := mem.takeWhile (· ≠ 0)

/-- The call `readline("K> ")`. -/
def Monitor.prompt (m : Monitor) (buf : List Byte) (polls : List (BitVec 64)) (out : List Output) :
    Monitor :=
  { m with ctl := .readline (readlineInit (.const (cstr "K> ")) buf polls out) }

/-- What `kmonitor` prints at its beginning. -/
def monitorBanner : List Output :=
  [.cprintf (cstr "Welcome to the kernel debug monitor!!\n") [],
    .cprintf (cstr "Type 'help' for a list of commands.\n") []]

/-- `kmonitor(tf)` up to its loop, where `frame` are the calls of `print_trapframe`, and the lines
`lines` have been passed to `runcmd` before. -/
def kmonitor (frame : List Output) (lines : List (List Byte)) (buf : List Byte)
    (polls : List (BitVec 64)) (out : List Output) : Monitor :=
  ⟨.readline (readlineInit (.const (cstr "K> ")) buf polls (out ++ (monitorBanner ++ frame))),
    lines⟩

/-- The first call of `kmonitor`. -/
def kmonitorInit (frame : List Output) (buf : List Byte) (polls : List (BitVec 64)) : Monitor :=
  kmonitor frame [] buf polls []

/-- The loop of `kmonitor`, one iteration of an inner loop at a time. The monitor is a part of the
state `σ`, and `finish` is what `runcmd` does when it has dispatched the line in an array. -/
def monitorStep {σ ρ : Type} (part : Monitor → σ)
    (finish : List Byte → List (BitVec 64) → List Output → CmdResult → σ ⊕ ρ) (m : Monitor) :
    Except Stop (σ ⊕ ρ) :=
  match m.ctl with
  | .readline r => do
    match ← readlineStep r with
    | .inl r => return .inl (part { m with ctl := .readline r })
    | .inr (none, r) => return .inl (part (m.prompt r.buf r.polls r.out))
    | .inr (some buf, r) =>
      return .inl (part ⟨.runcmd (parseInit buf) r.polls r.out, m.lines ++ [stringOf buf]⟩)
  | .runcmd s polls out => do
    match ← (parseStep s).mapError .halt with
    | .inl s => return .inl (part { m with ctl := .runcmd s polls out })
    | .inr s => return finish s.mem polls out (← (dispatch s).mapError .halt)

/-- `kmonitor`, where a negative result of `runcmd` leaves the loop. -/
def kmonitorStep (m : Monitor) : Except Stop (Monitor ⊕ Unit) :=
  monitorStep id (fun mem polls out r =>
    if r.result.slt 0 then .inr () else .inl (m.prompt mem polls out)) m

end CertiCore
