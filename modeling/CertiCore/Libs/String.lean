import CertiCore.Debug.Assert
import CertiCore.Memory.Bytes
import CertiCore.Program.Loop

/-!
# `libs/string.c`

The functions that read strings, and those that write to memory. In the first a pointer to a
character is what is left of its array from this character on, so that a dereference behind the end
of the array is a fault; in the second it is an address. No `__HAVE_ARCH_` macro is defined.
-/

namespace CertiCore

/-- A character constant. -/
def ch (c : Char) : Byte := BitVec.ofNat 8 c.toNat

/-- The characters of a string constant. -/
def bytes (s : String) : List Byte := s.toList.map ch

/-- A string constant: its characters and the NUL. -/
def cstr (s : String) : List Byte := bytes s ++ [0]

/-- The load `mem[p]` from an array. -/
def loadByte (mem : List Byte) (p : ℕ) : Except Halt Byte :=
  if h : p < mem.length then .ok mem[p] else .error (.outOfBounds p)

/-- The store `mem[p] = v`. -/
def storeByte (mem : List Byte) (p : ℕ) (v : Byte) : Except Halt (List Byte) :=
  if p < mem.length then .ok (mem.set p v) else .error (.outOfBounds p)

/-- `*s`. -/
def deref : List Byte → Except Halt Byte
  | c :: _ => .ok c
  | [] => .error (.outOfBounds 0)

def strcmp : List Byte → List Byte → Except Halt (BitVec 32)
  | a :: s1, b :: s2 =>
    if a ≠ 0 ∧ a = b then strcmp s1 s2 else .ok (a.setWidth 32 - b.setWidth 32)
  | _, _ => .error (.outOfBounds 0)

/-- `strncmp`, by recursion on `n`, which only counts down. -/
def strncmp : List Byte → List Byte → ℕ → Except Halt (BitVec 32)
  | _, _, 0 => .ok 0
  | a :: s1, b :: s2, n + 1 =>
    if a ≠ 0 ∧ a = b then strncmp s1 s2 n else .ok (a.setWidth 32 - b.setWidth 32)
  | _, _, _ + 1 => .error (.outOfBounds 0)

def memcmp : List Byte → List Byte → ℕ → Except Halt (BitVec 32)
  | _, _, 0 => .ok 0
  | a :: s1, b :: s2, n + 1 =>
    if a ≠ b then .ok (a.setWidth 32 - b.setWidth 32) else memcmp s1 s2 n
  | _, _, _ + 1 => .error (.outOfBounds 0)

/-- `strchr`, where `none` is `NULL`. -/
def strchr : List Byte → Byte → Except Halt (Option (List Byte))
  | a :: s, c =>
    if a ≠ 0 then
      if a = c then .ok (some (a :: s)) else strchr s c
    else .ok none
  | [], _ => .error (.outOfBounds 0)

/-! ## `strtol` -/

/-- The loop that gobbles whitespace. -/
def skipBlanks : List Byte → Except Halt (List Byte)
  | c :: s => if c = ch ' ' ∨ c = ch '\t' then skipBlanks s else .ok (c :: s)
  | [] => .error (.outOfBounds 0)

/-- `(base == 0 || base == 16) && (s[0] == '0' && s[1] == 'x')`. -/
def hexPrefix (s : List Byte) (base : BitVec 32) : Except Halt Bool := do
  if base = 0 ∨ base = 16 then
    if (← deref s) = ch '0' then return (← deref s.tail) = ch 'x'
    else return false
  else return false

/-- The base, and the pointer behind its prefix. -/
def strtolBase (s : List Byte) (base : BitVec 32) : Except Halt (BitVec 32 × List Byte) := do
  if ← hexPrefix s base then return (16, s.tail.tail)
  else if base = 0 then
    if (← deref s) = ch '0' then return (8, s.tail)
    else return (10, s)
  else return (base, s)

/-- `dig` for a character, if it has a value. -/
def strtolDigit (c : Byte) : Option (BitVec 32) :=
  if ch '0' ≤ c ∧ c ≤ ch '9' then some (c.setWidth 32 - (ch '0').setWidth 32)
  else if ch 'a' ≤ c ∧ c ≤ ch 'z' then some (c.setWidth 32 - (ch 'a').setWidth 32 + 10)
  else if ch 'A' ≤ c ∧ c ≤ ch 'Z' then some (c.setWidth 32 - (ch 'A').setWidth 32 + 10)
  else none

/-- The loop over the digits. -/
def strtolDigits (base : BitVec 32) : BitVec 64 → List Byte → Except Halt (BitVec 64 × List Byte)
  | val, c :: s =>
    match strtolDigit c with
    | none => .ok (val, c :: s)
    | some dig =>
      if base.sle dig then .ok (val, c :: s)
      else strtolDigits base (val * base.signExtend 64 + dig.signExtend 64) s
  | _, [] => .error (.outOfBounds 0)

/-- `strtol`: its result, and what it stores in `*endptr`. -/
def strtol (s : List Byte) (base : BitVec 32) : Except Halt (BitVec 64 × List Byte) := do
  let s ← skipBlanks s
  let c ← deref s
  let neg := c = ch '-'
  let s := if c = ch '+' ∨ c = ch '-' then s.tail else s
  let (base, s) ← strtolBase s base
  let (val, s) ← strtolDigits base 0 s
  return (if neg then -val else val, s)

/-! ## `memmove` and `memcpy` -/

/-- The loop from the first byte on, with its `n` iterations. -/
def copyForward (mem : Mem) (d s : BitVec 64) : ℕ → Mem
  | 0 => mem
  | n + 1 => copyForward (mem.store8 d (mem s)) (d + 1) (s + 1) n

/-- The loop from the last byte down. The pointers are moved before they are used. -/
def copyBackward (mem : Mem) (d s : BitVec 64) : ℕ → Mem
  | 0 => mem
  | n + 1 => copyBackward (mem.store8 (d - 1) (mem (s - 1))) (d - 1) (s - 1) n

/-- `memmove`: the memory after it, and its result. -/
def memmove (mem : Mem) (dst src n : BitVec 64) : Mem × BitVec 64 :=
  if src < dst ∧ src + n > dst then (copyBackward mem (dst + n) (src + n) n.toNat, dst)
  else (copyForward mem dst src n.toNat, dst)

def memcpy (mem : Mem) (dst src n : BitVec 64) : Mem × BitVec 64 :=
  (copyForward mem dst src n.toNat, dst)

/-! ## `strlen` in memory -/

/-- One iteration of the loop of `strlen`, on the pointer and the count. -/
def strlenStep (mem : Mem) (s : BitVec 64 × BitVec 64) :
    Except Halt ((BitVec 64 × BitVec 64) ⊕ BitVec 64) :=
  .ok (if mem s.1 ≠ 0 then .inl (s.1 + 1, s.2 + 1) else .inr s.2)

/-- `strlen` returns `cnt`. -/
def StrlenReturns (mem : Mem) (s cnt : BitVec 64) : Prop :=
  Loop.Ends (strlenStep mem) (s, 0) (.ok cnt)

/-! ## `memset` -/

/-- The loop of `memset`, with its `n` iterations. -/
def fillForward (mem : Mem) (p : BitVec 64) (c : Byte) : ℕ → Mem
  | 0 => mem
  | n + 1 => fillForward (mem.store8 p c) (p + 1) c n

/-- `memset`: the memory after it, and its result. -/
def memset (mem : Mem) (s : BitVec 64) (c : Byte) (n : BitVec 64) : Mem × BitVec 64 :=
  (fillForward mem s c n.toNat, s)

/-! ## `strcpy` and `strncpy` -/

/-- The memory and the two pointers in the loop of `strcpy`. -/
structure CopyState where
  mem : Mem
  p : BitVec 64
  src : BitVec 64

/-- One iteration of the loop of `strcpy`, which stores the character before it tests it. -/
def strcpyStep (s : CopyState) : Except Halt (CopyState ⊕ Mem) :=
  let c := s.mem s.src
  let mem := s.mem.store8 s.p c
  .ok (if c ≠ 0 then .inl ⟨mem, s.p + 1, s.src + 1⟩ else .inr mem)

/-- `strcpy` returns, and leaves the memory `mem'`. -/
def StrcpyReturns (mem : Mem) (dst src : BitVec 64) (mem' : Mem) : Prop :=
  Loop.Ends strcpyStep ⟨mem, dst, src⟩ (.ok mem')

/-- The loop of `strncpy`, by recursion on `len`, which only counts down. -/
def strncpyLoop (mem : Mem) (p src : BitVec 64) : ℕ → Mem
  | 0 => mem
  | len + 1 =>
    let c := mem src
    strncpyLoop (mem.store8 p c) (p + 1) (if c ≠ 0 then src + 1 else src) len

/-- `strncpy`: the memory after it, and its result. -/
def strncpy (mem : Mem) (dst src len : BitVec 64) : Mem × BitVec 64 :=
  (strncpyLoop mem dst src len.toNat, dst)

end CertiCore
