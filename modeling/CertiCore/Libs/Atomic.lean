import Mathlib.Data.BitVec
import CertiCore.Memory.Bytes

/-!
# `libs/atomic.h`

The bit operations, on the one word `addr[BIT_WORD(nr)]` that each of them touches, and then on the
memory. The bit numbers of this kernel are the page flags, which are below `BITS_PER_LONG`, so this
word is `addr[0]`.
-/

namespace CertiCore

def BITS_PER_LONG : ℕ := 64

def bitMask (nr : ℕ) : BitVec 64 := 1#64 <<< (nr % BITS_PER_LONG)

/-- `set_bit(nr, addr)`: what the word becomes. -/
def setBit (nr : ℕ) (word : BitVec 64) : BitVec 64 := word ||| bitMask nr

/-- `clear_bit(nr, addr)`: what the word becomes. -/
def clearBit (nr : ℕ) (word : BitVec 64) : BitVec 64 := word &&& ~~~ bitMask nr

def testBit (nr : ℕ) (word : BitVec 64) : Bool := (word >>> nr) &&& 1 != 0

/-- `change_bit(nr, addr)`: what the word becomes. -/
def changeBit (nr : ℕ) (word : BitVec 64) : BitVec 64 := word ^^^ bitMask nr

/-! ## On the memory -/

namespace Bitmap

def bitWord (nr : ℕ) : ℕ := nr / BITS_PER_LONG

/-- `&addr[BIT_WORD(nr)]`. -/
def bitAddr (nr : ℕ) (addr : BitVec 64) : BitVec 64 := addr + BitVec.ofNat 64 (bitWord nr * 8)

/-- An instruction `amo<op>.d` on the word at address `a`: the memory after it, and the word that
it loads. -/
def amo (op : BitVec 64 → BitVec 64 → BitVec 64) (a v : BitVec 64) (mem : Mem) : Mem × BitVec 64 :=
  (mem.store64 a (op (mem.load64 a) v), mem.load64 a)

/-- `__op_bit(op, mod, nr, addr)`. -/
def opBit (op : BitVec 64 → BitVec 64 → BitVec 64) (mod : BitVec 64 → BitVec 64) (nr : ℕ)
    (addr : BitVec 64) (mem : Mem) : Mem :=
  (amo op (bitAddr nr addr) (mod (bitMask nr)) mem).1

/-- `__test_and_op_bit(op, mod, nr, addr)`: the memory after it, and its value. -/
def testAndOpBit (op : BitVec 64 → BitVec 64 → BitVec 64) (mod : BitVec 64 → BitVec 64) (nr : ℕ)
    (addr : BitVec 64) (mem : Mem) : Mem × Bool :=
  let mask := bitMask nr
  let (mem, res) := amo op (bitAddr nr addr) (mod mask) mem
  (mem, res &&& mask != 0)

def setBit (nr : ℕ) (addr : BitVec 64) (mem : Mem) : Mem := opBit (· ||| ·) id nr addr mem

def clearBit (nr : ℕ) (addr : BitVec 64) (mem : Mem) : Mem := opBit (· &&& ·) (~~~ ·) nr addr mem

def changeBit (nr : ℕ) (addr : BitVec 64) (mem : Mem) : Mem := opBit (· ^^^ ·) id nr addr mem

/-- The right shift of an `unsigned long`. What it does for a count that is not below the width is
undefined. -/
def IsShr (shr : BitVec 64 → ℕ → BitVec 64) : Prop :=
  ∀ word count, count < BITS_PER_LONG → shr word count = word >>> count

/-- The instruction `srl`, which looks at six bits of the count. -/
def srl (word : BitVec 64) (count : ℕ) : BitVec 64 := word >>> (count % 64)

def testBit (shr : BitVec 64 → ℕ → BitVec 64) (nr : ℕ) (addr : BitVec 64) (mem : Mem) : Bool :=
  shr (mem.load64 addr) nr &&& 1 != 0

def testAndSetBit (nr : ℕ) (addr : BitVec 64) (mem : Mem) : Mem × Bool :=
  testAndOpBit (· ||| ·) id nr addr mem

def testAndClearBit (nr : ℕ) (addr : BitVec 64) (mem : Mem) : Mem × Bool :=
  testAndOpBit (· &&& ·) (~~~ ·) nr addr mem

/-! ### The build with `IS_VERIF` -/

/-- `set_bit`: `addr[BIT_WORD(nr)] |= BIT_MASK(nr)`. -/
def setBitVerif (nr : ℕ) (addr : BitVec 64) (mem : Mem) : Mem :=
  let word := mem.load64 (bitAddr nr addr)
  mem.store64 (bitAddr nr addr) (word ||| bitMask nr)

/-- `clear_bit`: `addr[BIT_WORD(nr)] &= __NOT(BIT_MASK(nr))`. -/
def clearBitVerif (nr : ℕ) (addr : BitVec 64) (mem : Mem) : Mem :=
  let word := mem.load64 (bitAddr nr addr)
  mem.store64 (bitAddr nr addr) (word &&& ~~~ bitMask nr)

/-- `change_bit`: `addr[BIT_WORD(nr)] ^= BIT_MASK(nr)`. -/
def changeBitVerif (nr : ℕ) (addr : BitVec 64) (mem : Mem) : Mem :=
  let word := mem.load64 (bitAddr nr addr)
  mem.store64 (bitAddr nr addr) (word ^^^ bitMask nr)

end Bitmap

end CertiCore
