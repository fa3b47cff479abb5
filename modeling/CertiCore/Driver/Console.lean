import CertiCore.Libs.Defs

/-!
# `kern/driver/console.c`

The console, which the firmware serves: one call puts out a character, another one polls for input.
-/

namespace CertiCore

/-- `sbi_console_putchar`, with the characters that the firmware has been given. -/
def sbiConsolePutchar (c : Byte) (out : List Byte) : List Byte := out ++ [c]

/-- `sbi_console_getchar`, with the results of the calls of the firmware that are to come; `none` if
these are used up. -/
def sbiConsoleGetchar : List (BitVec 64) → Option (BitVec 32 × List (BitVec 64))
  | [] => none
  | r :: polls => some (r.setWidth 32, polls)

def consPutc (c : BitVec 32) (out : List Byte) : List Byte := sbiConsolePutchar (c.setWidth 8) out

def consGetc (polls : List (BitVec 64)) : Option (BitVec 32 × List (BitVec 64)) :=
  sbiConsoleGetchar polls

end CertiCore
