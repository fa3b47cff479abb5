import Mathlib.Data.Fintype.Card
import CertiCore.FirstFit.Blocks
import CertiCore.Mm.DefaultPmm

/-!
# The page pool, in the terms in which its properties are stated

Which pages are reserved, allocated or available, which ranges lie in the pool, and what the three
operations do to a whole range of pages.
-/

namespace CertiCore

variable {N : PoolSize}

/-- `base` and `n` name a range of at least one page in the pool, in unbounded integers. -/
def InPool (N : PoolSize) (base n : SizeT) : Prop :=
  0 < n.toNat ∧ base.toNat + n.toNat ≤ N.NPAGE

instance (base n : SizeT) : Decidable (InPool N base n) := inferInstanceAs (Decidable (_ ∧ _))

/-- The pages of the range `[base, base + n)`, in unbounded integers. -/
def pageRange (N : PoolSize) (base n : SizeT) : Finset (Fin N.NPAGE) :=
  Finset.univ.filter fun p => base.toNat ≤ p ∧ p < base.toNat + n.toNat

namespace Pmm

/-- The page has its reserved bit set. -/
def reserved (s : Pmm N) (p : Fin N.NPAGE) : Bool := testBit PG_reserved (s.flags p)

/-- The page has its allocated bit set. -/
def allocated (s : Pmm N) (p : Fin N.NPAGE) : Bool := testBit PG_allocated (s.flags p)

/-- The page is neither reserved nor allocated. -/
def available (s : Pmm N) (p : Fin N.NPAGE) : Bool := !s.reserved p && !s.allocated p

/-- `available` as a property of positions. -/
def Avail (s : Pmm N) (i : ℕ) : Prop := ∃ h : i < N.NPAGE, s.available ⟨i, h⟩

/-- The number of available pages. -/
def availableCount (s : Pmm N) : ℕ := (Finset.univ.filter fun p => s.available p).card

/-- The code that `init_memmap` returns, with its guards read in unbounded integers. -/
def initMemmapCode (s : Pmm N) (base n : SizeT) : BitVec 64 :=
  if n.toNat = 0 then 1
  else if N.NPAGE < n.toNat then 2
  else if N.NPAGE < base.toNat then 3
  else if N.NPAGE < base.toNat + n.toNat then 4
  else if ∃ p ∈ pageRange N base n, s.reserved p = false then 5
  else if ∃ p ∈ pageRange N base n, s.allocated p = true then 6
  else 0

/-- The pool with `f` applied to the flag words of the pages of `[base, base + n)`. -/
def mapRange (f : BitVec 64 → BitVec 64) (base n : SizeT) (s : Pmm N) : Pmm N :=
  { s with flags := fun p => if p ∈ pageRange N base n then f (s.flags p) else s.flags p }

/-- The pool after pages `[base, base + n)` were handed over to the allocator. -/
def handOver (base n : SizeT) (s : Pmm N) : Pmm N :=
  { s.mapRange (clearBit PG_reserved) base n with nrFree := s.nrFree + n }

/-- The pool after pages `[base, base + n)` were allocated. -/
def allocate (base n : SizeT) (s : Pmm N) : Pmm N :=
  { s.mapRange (setBit PG_allocated) base n with nrFree := s.nrFree - n }

/-- The pool after pages `[base, base + n)` were freed. -/
def free (base n : SizeT) (s : Pmm N) : Pmm N :=
  { s.mapRange (clearBit PG_allocated) base n with nrFree := s.nrFree + n }

end Pmm

end CertiCore
