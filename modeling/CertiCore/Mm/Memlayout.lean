import Mathlib.Logic.Function.Basic
import CertiCore.Libs.Defs
import CertiCore.Libs.Atomic
import CertiCore.Program.Prog

/-!
# `kern/mm/memlayout.h`

The page descriptors and the macros that read and write their flags.
-/

namespace CertiCore

/-- `NPAGE`, the number of pages of the pool, which a build of the kernel fixes. `alloc_pages` uses
`NULLPAGE` for "no page", so no page of the pool may have that number. -/
structure PoolSize where
  /-- The number of pages. -/
  NPAGE : ℕ
  one_le : 1 ≤ NPAGE
  le_nullpage : NPAGE ≤ NULLPAGE.toNat

/-- The pool of the kernel. -/
def PoolSize.kernel : PoolSize := ⟨0x1000, by decide, by decide⟩

/-- The pool of the verification build (`IS_VERIF`). -/
def PoolSize.verif : PoolSize := ⟨0x0005, by decide, by decide⟩

/-- `PG_reserved`: the page is reserved for the kernel and not handed out. -/
def PG_reserved : ℕ := 0

/-- `PG_allocated`: the page is allocated. -/
def PG_allocated : ℕ := 1

variable {N : PoolSize}

/-- The constant `NPAGE` in an expression of type `size_t`. -/
def PoolSize.npage (N : PoolSize) : SizeT := BitVec.ofNat 64 N.NPAGE

/-- An index of `pages` in an expression of type `size_t`. -/
def pageNo (p : Fin N.NPAGE) : SizeT := BitVec.ofNat 64 p

/-- The globals of the page allocator: the array `pages`, whose elements have the one field
`flags`, and the counter `nr_free`. -/
@[ext] structure Pmm (N : PoolSize) where
  /-- `pages[p].flags`. -/
  flags : Fin N.NPAGE → BitVec 64
  /-- `nr_free`. -/
  nrFree : SizeT

namespace Pmm

/-- The store `pages[p].flags = word`. -/
def setFlags (s : Pmm N) (p : Fin N.NPAGE) (word : BitVec 64) : Pmm N :=
  { s with flags := Function.update s.flags p word }

end Pmm

def setPageReserved (page : Fin N.NPAGE) : Prog (Pmm N) Unit :=
  .write fun s => s.setFlags page (setBit PG_reserved (s.flags page))

def clearPageReserved (page : Fin N.NPAGE) : Prog (Pmm N) Unit :=
  .write fun s => s.setFlags page (clearBit PG_reserved (s.flags page))

def pageReserved (page : Fin N.NPAGE) : Prog (Pmm N) Bool :=
  .read fun s => testBit PG_reserved (s.flags page)

def setPageAllocated (page : Fin N.NPAGE) : Prog (Pmm N) Unit :=
  .write fun s => s.setFlags page (setBit PG_allocated (s.flags page))

def clearPageAllocated (page : Fin N.NPAGE) : Prog (Pmm N) Unit :=
  .write fun s => s.setFlags page (clearBit PG_allocated (s.flags page))

def pageAllocated (page : Fin N.NPAGE) : Prog (Pmm N) Bool :=
  .read fun s => testBit PG_allocated (s.flags page)

end CertiCore
