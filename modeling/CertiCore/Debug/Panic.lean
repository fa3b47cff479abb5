import CertiCore.Debug.Kdebug
import CertiCore.Debug.Kmonitor
import CertiCore.Hart.Sstatus

/-!
# `kern/debug/panic.c`

What the kernel does after a panic: it calls the monitor, again and again. Here the monitor is kept
with what its commands print, and with the panics that they end in.
-/

namespace CertiCore

/-- An argument of `panic`, as `vcprintf` takes it. -/
def PanicArg.vaArg : PanicArg → VaArg
  | long v => .word v
  | str s => .const (cstr s)

/-! ## The commands -/

/-- The call of a command: its result and what it prints, or the panic that it ends in. -/
def MonFunc.call (img : KerninfoSymbols) : MonFunc → Except PanicCall (BitVec 32 × List Output)
  | mon_help =>
    .ok (0, commands.map fun cmd => .cprintf (cstr "%s - %s\n") [.const cmd.name, .const cmd.desc])
  | mon_kerninfo => .ok (0, printKerninfo img)
  | mon_backtrace => do
    let out ← printStackframe
    return (0, out)

/-- What a call of `cprintf` in `parse` or `runcmd` prints. The string of `%s` is in the array
`mem`. -/
def Event.output (mem : List Byte) : Event → List Output
  | cprintf "Unknown command '%s'\n" [p] =>
    [.cprintf (cstr "Unknown command '%s'\n") [.const (stringOf (mem.drop p.toNat) ++ [0])]]
  | cprintf fmt args => [.cprintf (cstr fmt) (args.map .word)]
  | sbiSetTimer _ => []

/-! ## `__panic` -/

/-- The variable `is_panic`, the register `sstatus`, and the number of calls of `__panic`, none of
which returns. -/
structure Crash where
  is_panic : Bool
  sstatus : BitVec 64
  depth : ℕ

/-- The kernel after a panic. -/
structure Session extends Crash, Monitor

/-- What has been printed. -/
def Session.out (s : Session) : List Output :=
  match s.ctl with
  | .readline r => r.out
  | .runcmd _ _ out => out

/-- The message of `__panic`. -/
def PanicCall.message (call : PanicCall) : List Output :=
  [.cprintf (cstr "kernel panic at %s:%d:\n    ") [.const call.file, .word call.line],
    .cprintf call.fmt call.ap, .cprintf (cstr "\n") []]

/-- `is_kernel_panic`. -/
def Crash.isKernelPanic (c : Crash) : Bool := c.is_panic

/-- The call `readline("K> ")`. -/
def Session.prompt (s : Session) (buf : List Byte) (polls : List (BitVec 64)) (out : List Output) :
    Session :=
  { s with toMonitor := s.toMonitor.prompt buf polls out }

/-- The call `kmonitor(NULL)`. -/
def Crash.kmonitor (c : Crash) (lines : List (List Byte)) (buf : List Byte)
    (polls : List (BitVec 64)) (out : List Output) : Session :=
  ⟨c, CertiCore.kmonitor [] lines buf polls out⟩

/-- `__panic` up to its loop, and the first call of the monitor. -/
def panic (call : PanicCall) (c : Crash) (lines : List (List Byte)) (buf : List Byte)
    (polls : List (BitVec 64)) (out : List Output) : Session :=
  let out := if c.is_panic then out else out ++ call.message
  Crash.kmonitor ⟨true, intrDisable c.sstatus, c.depth + 1⟩ lines buf polls out

/-- `kmonitor`, after `runcmd` has dispatched the line in the array `mem`. -/
def Session.finish (img : KerninfoSymbols) (s : Session) (mem : List Byte)
    (polls : List (BitVec 64)) (out : List Output) : CmdResult → Session
  | .done log => s.prompt mem polls (out ++ log.flatMap (Event.output mem))
  | .call func _ _ mem log =>
    let out := out ++ log.flatMap (Event.output mem)
    match func.call img with
    | .error call => panic call s.toCrash s.lines mem polls out
    | .ok (res, shown) =>
      -- a negative result takes the kernel back to the loop of `__panic`
      if res.slt 0 then s.toCrash.kmonitor s.lines mem polls (out ++ shown)
      else s.prompt mem polls (out ++ shown)

/-- The kernel after a panic, one iteration of an inner loop at a time. -/
def panicStep (img : KerninfoSymbols) (s : Session) : Except Stop (Session ⊕ Empty) :=
  monitorStep (fun m => { s with toMonitor := m })
    (fun mem polls out res => .inl (s.finish img mem polls out res)) s.toMonitor

end CertiCore
