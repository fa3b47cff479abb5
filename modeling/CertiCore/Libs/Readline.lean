import CertiCore.Libs.Stdio

/-!
# `libs/readline.c`

The line that is edited at the prompt.
-/

namespace CertiCore

def BUFSIZE : ℕ := 1024

/-- The array `buf`, the index into it, the results of the calls of the firmware that are to come,
and the calls that have put something on the console. -/
structure ReadState where
  buf : List Byte
  i : ℕ
  polls : List (BitVec 64)
  out : List Output

/-- Why a function that reads characters does not go on. -/
inductive Stop where
  | halt (x : Halt)
  /-- `getchar` does not return. -/
  | idle

/-- The call of `cprintf` for the prompt. -/
def promptOutput : VaArg → List Output
  | .word v => if v ≠ 0 then [.cprintf (cstr "%s") [.word v]] else []
  | .const s => [.cprintf (cstr "%s") [.const s]]

/-- `readline(prompt)` before its loop. -/
def readlineInit (prompt : VaArg) (buf : List Byte) (polls : List (BitVec 64))
    (out : List Output) : ReadState :=
  ⟨buf, 0, polls, out ++ promptOutput prompt⟩

/-- The loop of `readline`. Its result is the array `buf`, or `none` for `NULL`. -/
def readlineStep (s : ReadState) : Except Stop (ReadState ⊕ (Option (List Byte) × ReadState)) :=
  match getchar s.polls with
  | none => .error .idle
  | some (c, polls) => do
    let s := { s with polls }
    if c.slt 0 then
      return .inr (none, s)
    else if ((ch ' ').setWidth 32).sle c ∧ s.i < BUFSIZE - 1 then
      let s := { s with out := s.out ++ [Output.cputchar c] }
      let buf ← (storeByte s.buf s.i (c.setWidth 8)).mapError .halt
      return .inl { s with buf, i := s.i + 1 }
    else if c = (ch '\x08').setWidth 32 ∧ s.i > 0 then
      let s := { s with out := s.out ++ [Output.cputchar c] }
      return .inl { s with i := s.i - 1 }
    else if c = (ch '\n').setWidth 32 ∨ c = (ch '\r').setWidth 32 then
      let s := { s with out := s.out ++ [Output.cputchar c] }
      let buf ← (storeByte s.buf s.i 0).mapError .halt
      return .inr (some buf, { s with buf })
    else
      return .inl s

end CertiCore
