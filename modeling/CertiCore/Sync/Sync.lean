import Mathlib.Logic.Function.Basic
import Mathlib.Logic.Relation
import CertiCore.Hart.Sstatus
import CertiCore.Program.Prog

/-!
# `kern/sync/sync.h`

A wrapper such as `alloc_pages` saves and clears `SIE`, runs the function of the memory manager, and
restores `SIE`. Its execution is cut at the instructions that read or write something shared, and
between any two of them an interrupt may be taken.
-/

namespace CertiCore

/-- The condition of `__intr_save` on the value that it has read. -/
def intrSaveTest (sstatus : BitVec 64) : Bool := !(sstatus &&& SSTATUS_SIE == 0)

/-- Where a piece of code stands that calls wrappers for the operations `Op`. The bodies work on
the data `σ` and return a `ρ`. In every call, `before` is the bit `SIE` at its start, which no step
looks at, and `idx` the place of its body among the bodies that have started. -/
inductive Point (σ ρ Op : Type) where
  /-- Outside of the wrappers. -/
  | idle
  /-- Before `read_csr(sstatus)` in `__intr_save`. -/
  | save (op : Op) (before : Bool)
  /-- Before the test of the value that was read. -/
  | test (op : Op) (before : Bool) (sstatus : BitVec 64)
  /-- Before `intr_disable()`. -/
  | disable (op : Op) (before : Bool)
  /-- Before the call of the body; `flag` is the variable `intr_flag`. -/
  | start (op : Op) (before flag : Bool)
  /-- In the body, with `rest` to do. -/
  | body (before flag : Bool) (idx : ℕ) (rest : Prog σ ρ)
  /-- Before the test of `flag` in `__intr_restore`. -/
  | restore (before flag : Bool) (idx : ℕ) (ret : ρ)
  /-- Before `intr_enable()`. -/
  | enable (before : Bool) (idx : ℕ) (ret : ρ)
  /-- Before the `return` of the wrapper. -/
  | exit (before : Bool) (idx : ℕ) (ret : ρ)

/-- What all code of the hart shares, and a record of the calls and traps so far. -/
structure Shared (σ ρ Op : Type) where
  sstatus : BitVec 64
  mem : σ
  /-- The operations whose bodies have started, in this order. -/
  started : List Op
  /-- What the call of the body at a place of `started` has returned. -/
  returned : ℕ → Option ρ
  /-- The bit `SIE` before and after every call of a wrapper that has returned. -/
  calls : List (Bool × Bool)
  /-- The bit `SIE` before and after every trap that has returned. -/
  traps : List (Bool × Bool)

variable {σ ρ Op : Type}

/-- The code is in the body of an operation. -/
def Point.inBody : Point σ ρ Op → Bool
  | body .. => true
  | _ => false

/-- One instruction of a wrapper. -/
def Point.step (bodyOf : Op → Prog σ ρ) (g : Shared σ ρ Op) :
    Point σ ρ Op → Option (Shared σ ρ Op × Point σ ρ Op)
  | idle => none
  | save op before => some (g, test op before g.sstatus)
  | test op before sstatus =>
    some (g, if intrSaveTest sstatus then disable op before else start op before false)
  | disable op before =>
    some ({ g with sstatus := intrDisable g.sstatus }, start op before true)
  | start op before flag =>
    some ({ g with started := g.started ++ [op] }, body before flag g.started.length (bodyOf op))
  | body before flag idx (.access upd next) =>
    some ({ g with mem := upd g.mem }, body before flag idx (next g.mem))
  | body before flag idx (.ret v) => some (g, restore before flag idx v)
  | restore before flag idx ret =>
    some (g, if flag then enable before idx ret else exit before idx ret)
  | enable before idx ret =>
    some ({ g with sstatus := intrEnable g.sstatus }, exit before idx ret)
  | exit before idx ret =>
    some ({ g with
      returned := Function.update g.returned idx (some ret)
      calls := g.calls ++ [(before, sie g.sstatus)] }, idle)

/-! ## The hart -/

/-- Whose code it is. -/
inductive Ctx where
  | main
  /-- A trap handler: the bit `SIE` before the trap, and the `sstatus` that `SAVE_ALL` has saved. -/
  | handler (before : Bool) (saved : BitVec 64)

/-- The state of the main code or of a trap. -/
inductive Frame (σ ρ Op : Type) where
  /-- In C code. -/
  | code (ctx : Ctx) (pt : Point σ ρ Op)
  /-- In `SAVE_ALL`, where `sstatus` is not saved yet. -/
  | saveAll (before : Bool)
  /-- In `RESTORE_ALL`, where `sstatus` is restored, or at `sret`. -/
  | sret (before : Bool)

def Frame.point : Frame σ ρ Op → Point σ ρ Op
  | code _ pt => pt
  | saveAll _ => .idle
  | sret _ => .idle

/-- A hart: what runs, and what it has interrupted, innermost first. -/
structure Hart (σ ρ Op : Type) where
  shared : Shared σ ρ Op
  running : Frame σ ρ Op
  interrupted : List (Frame σ ρ Op)

def Hart.points (m : Hart σ ρ Op) : List (Point σ ρ Op) :=
  m.running.point :: m.interrupted.map Frame.point

/-- The main code calls nothing and no trap is being handled. -/
def Hart.Quiescent (m : Hart σ ρ Op) : Prop := m.running = .code .main .idle ∧ m.interrupted = []

/-- One step of the hart. -/
inductive Hart.Step (bodyOf : Op → Prog σ ρ) : Hart σ ρ Op → Hart σ ρ Op → Prop
  /-- Code calls a wrapper. -/
  | call (op : Op) {g : Shared σ ρ Op} {ctx : Ctx} {fs : List (Frame σ ρ Op)} :
      Step bodyOf ⟨g, .code ctx .idle, fs⟩ ⟨g, .code ctx (.save op (sie g.sstatus)), fs⟩
  /-- The wrapper goes on. -/
  | exec {g g' : Shared σ ρ Op} {ctx : Ctx} {pt pt' : Point σ ρ Op} {fs : List (Frame σ ρ Op)}
      (h : pt.step bodyOf g = some (g', pt')) :
      Step bodyOf ⟨g, .code ctx pt, fs⟩ ⟨g', .code ctx pt', fs⟩
  /-- An interrupt is taken wherever the hart stands, if `SIE` is set. -/
  | interrupt {g : Shared σ ρ Op} {f : Frame σ ρ Op} {fs : List (Frame σ ρ Op)}
      (h : sie g.sstatus = true) :
      Step bodyOf ⟨g, f, fs⟩
        ⟨{ g with sstatus := trapStatus g.sstatus }, .saveAll (sie g.sstatus), f :: fs⟩
  /-- An exception, whatever `SIE` is. The bodies and the assembly code raise none. -/
  | exception {g : Shared σ ρ Op} {ctx : Ctx} {pt : Point σ ρ Op} {fs : List (Frame σ ρ Op)}
      (h : pt.inBody = false) :
      Step bodyOf ⟨g, .code ctx pt, fs⟩
        ⟨{ g with sstatus := trapStatus g.sstatus }, .saveAll (sie g.sstatus), .code ctx pt :: fs⟩
  /-- `SAVE_ALL` saves `sstatus`, and the handler begins. -/
  | saveAll {g : Shared σ ρ Op} {before : Bool} {fs : List (Frame σ ρ Op)} :
      Step bodyOf ⟨g, .saveAll before, fs⟩ ⟨g, .code (.handler before g.sstatus) .idle, fs⟩
  /-- The handler has returned, and `RESTORE_ALL` restores `sstatus`. -/
  | restoreAll {g : Shared σ ρ Op} {before : Bool} {saved : BitVec 64}
      {fs : List (Frame σ ρ Op)} :
      Step bodyOf ⟨g, .code (.handler before saved) .idle, fs⟩
        ⟨{ g with sstatus := saved }, .sret before, fs⟩
  /-- `sret` resumes the interrupted code. -/
  | sret {g : Shared σ ρ Op} {before : Bool} {f : Frame σ ρ Op} {fs : List (Frame σ ρ Op)} :
      Step bodyOf ⟨g, .sret before, f :: fs⟩
        ⟨{ g with
          sstatus := sretStatus g.sstatus
          traps := g.traps ++ [(before, sie (sretStatus g.sstatus))] }, f, fs⟩
  /-- The main code calls `intr_enable` itself. -/
  | enable {g : Shared σ ρ Op} {fs : List (Frame σ ρ Op)} :
      Step bodyOf ⟨g, .code .main .idle, fs⟩
        ⟨{ g with sstatus := intrEnable g.sstatus }, .code .main .idle, fs⟩
  /-- The main code calls `intr_disable` itself. -/
  | disable {g : Shared σ ρ Op} {fs : List (Frame σ ρ Op)} :
      Step bodyOf ⟨g, .code .main .idle, fs⟩
        ⟨{ g with sstatus := intrDisable g.sstatus }, .code .main .idle, fs⟩

/-- The hart when no wrapper has been called yet. -/
def Hart.init (sstatus : BitVec 64) (mem : σ) : Hart σ ρ Op :=
  ⟨⟨sstatus, mem, [], fun _ => none, [], []⟩, .code .main .idle, []⟩

/-- The states that a hart can reach, in any interleaving. -/
def Hart.Reaches (bodyOf : Op → Prog σ ρ) (sstatus : BitVec 64) (mem : σ) (m : Hart σ ρ Op) :
    Prop :=
  Relation.ReflTransGen (Step bodyOf) (init sstatus mem) m

end CertiCore
