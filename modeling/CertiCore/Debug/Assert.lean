import CertiCore.Libs.Defs
import CertiCore.Program.Prog

/-!
# `kern/debug/assert.h`

Programs that may stop before their end: by `panic`, which does not return, by `assert`, which calls
it, or by an access that the language leaves undefined, after which the kernel may do anything.
-/

namespace CertiCore

/-- An argument of `panic`. -/
inductive PanicArg where
  | long (v : BitVec 64)
  | str (s : String)
  deriving DecidableEq

/-- Why a program stopped. -/
inductive Halt where
  /-- A call of `panic`, with its format and its arguments. -/
  | panic (fmt : String) (args : List PanicArg)
  /-- An access to an array outside its bounds. -/
  | outOfBounds (index : ℕ)
  /-- A load from an address at which there is no memory. -/
  | unmapped (addr : BitVec 64)
  /-- A `va_arg` behind the last argument. -/
  | noArg
  deriving DecidableEq

/-- Programs on the data `σ` that may stop before their end. -/
abbrev HaltT (σ : Type) : Type → Type := ExceptT Halt (Prog σ)

/-- The result of a program that runs without interruption, and the data at its end. -/
def HaltT.exec {σ α : Type} (p : HaltT σ α) (s : σ) : Except Halt α × σ :=
  Prog.run (ExceptT.run p) s

/-- A program on a part of the data. -/
def HaltT.zoom {σ τ α : Type} (part : Prog.Part σ τ) (p : HaltT τ α) : HaltT σ α :=
  ExceptT.mk (Prog.zoom part (ExceptT.run p))

/-- `assert`, with the text of the assertion. -/
def assert {σ : Type} (text : String) (x : Prop) [Decidable x] : HaltT σ Unit :=
  if ¬ x then throw (.panic "assertion failed: %s" [.str text]) else pure ()

end CertiCore
