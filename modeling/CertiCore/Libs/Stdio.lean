import CertiCore.Driver.Console
import CertiCore.Libs.Printfmt

/-!
# `kern/libs/stdio.c`

Input and output of characters. The build is the one without `IS_VERIF`, in which `cprintf` prints.
-/

namespace CertiCore

/-! ## Output -/

/-- The data behind the `putdat` of `cputch`, and what has been put on the console. -/
structure Stdout where
  cnt : BitVec 32
  out : List Byte

def cputch (c : BitVec 32) (s : Stdout) : Stdout := ⟨s.cnt + 1, consPutc c s.out⟩

def stdoutDevice (load : BitVec 64 → Option Byte) : Device Stdout where
  putch := cputch
  load _ := load

/-- `vcprintf`, with a bound on the iterations of `vprintfmt`: its result, and what the console
shows then. -/
def vcprintf (fuel : ℕ) (load : BitVec 64 → Option Byte) (fmt : List Byte) (ap : List VaArg)
    (out : List Byte) : Option (Except Halt (BitVec 32 × List Byte)) :=
  (Loop.run (vprintfmtStep (stdoutDevice load)) fuel (vprintfmtInit fmt ap ⟨0, out⟩)).map fun r =>
    r.map fun s => (s.cnt, s.out)

def cputchar (c : BitVec 32) (out : List Byte) : List Byte := consPutc c out

/-- A call of `cprintf` or of `cputchar`. -/
inductive Output where
  | cprintf (fmt : List Byte) (ap : List VaArg)
  | cputchar (c : BitVec 32)

/-- From `out` on, the calls bring the console to show `out'`. -/
def Shows (load : BitVec 64 → Option Byte) : List Output → List Byte → List Byte → Prop
  | [], out, out' => out = out'
  | .cprintf fmt ap :: calls, out, out' => ∃ fuel cnt mid,
    vcprintf fuel load fmt ap out = some (.ok (cnt, mid)) ∧ Shows load calls mid out'
  | .cputchar c :: calls, out, out' => Shows load calls (CertiCore.cputchar c out) out'

/-! ## Input -/

theorem length_of_consGetc {polls polls' : List (BitVec 64)} {c : BitVec 32}
    (h : consGetc polls = some (c, polls')) : polls'.length < polls.length := by
  cases polls with
  | nil => exact nomatch h
  | cons r polls =>
    obtain ⟨-, rfl⟩ := Prod.mk.inj (Option.some.inj h)
    exact Nat.lt_succ_self _

/-- `getchar`; `none` if no call of the firmware that is to come results in a character. -/
def getchar (polls : List (BitVec 64)) : Option (BitVec 32 × List (BitVec 64)) :=
  match h : consGetc polls with
  | none => none
  | some (c, polls') => if c = 0 then getchar polls' else some (c, polls')
termination_by polls.length
decreasing_by exact length_of_consGetc h

end CertiCore
