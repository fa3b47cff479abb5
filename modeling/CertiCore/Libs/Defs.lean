import Mathlib.Data.BitVec

/-!
# `libs/defs.h`

The integer types and constants that every other file uses.
-/

namespace CertiCore

/-- `size_t`: an unsigned 64-bit integer, as are `uintptr_t` and `uint64_t`. -/
abbrev SizeT := BitVec 64

/-- `char`, which is unsigned on this machine. -/
abbrev Byte := BitVec 8

instance : LawfulBEq Byte := inferInstance

/-- `NULLPAGE`: the page number that stands for "no page". -/
def NULLPAGE : SizeT := 0x23333333

@[simp] theorem NULLPAGE_toNat : NULLPAGE.toNat = 0x23333333 := rfl

def ROUNDDOWN (a n : SizeT) : SizeT := a - a % n

def ROUNDUP (a n : SizeT) : SizeT := ROUNDDOWN (a + n - 1) n

end CertiCore
