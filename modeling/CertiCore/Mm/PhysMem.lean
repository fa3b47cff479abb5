import CertiCore.Debug.Assert
import CertiCore.Mm.Memlayout

/-!
# `kern/mm/mmu.h`, `kern/mm/memlayout.h`, `kern/mm/pmm.h`

The layout of the physical memory, and the conversions between kernel addresses, physical addresses
and page numbers.
-/

namespace CertiCore

def PGSIZE : BitVec 64 := 4096

def PGSHIFT : ℕ := 12

def PPN (la : BitVec 64) : BitVec 64 := la >>> PGSHIFT

def KERNEL_BEGIN_PADDR : BitVec 64 := 0x80200000

def PHYSICAL_MEMORY_OFFSET : BitVec 64 := 0xFFFFFFFF40000000

def PHYSICAL_MEMORY_END : BitVec 64 := 0x88000000

def KERNBASE : BitVec 64 := KERNEL_BEGIN_PADDR + PHYSICAL_MEMORY_OFFSET

def NBASE : SizeT := KERNEL_BEGIN_PADDR >>> PGSHIFT

def KSTACKPAGE : BitVec 64 := 2

def KSTACKSIZE : BitVec 64 := KSTACKPAGE * PGSIZE

@[simp] theorem PGSIZE_toNat : PGSIZE.toNat = 4096 := rfl

@[simp] theorem KERNEL_BEGIN_PADDR_toNat : KERNEL_BEGIN_PADDR.toNat = 0x80200000 := rfl

@[simp] theorem PHYSICAL_MEMORY_OFFSET_toNat :
    PHYSICAL_MEMORY_OFFSET.toNat = 0xFFFFFFFF40000000 := rfl

@[simp] theorem PHYSICAL_MEMORY_END_toNat : PHYSICAL_MEMORY_END.toNat = 0x88000000 := rfl

@[simp] theorem KERNBASE_toNat : KERNBASE.toNat = 0xFFFFFFFFC0200000 := rfl

@[simp] theorem NBASE_toNat : NBASE.toNat = 0x80200 := rfl


variable (N : PoolSize)

/-- `KMEMSIZE`. The source computes the constants that depend on `NPAGE` in types of 32 bits too,
which makes no difference while the pool fits into the physical memory. -/
def PoolSize.KMEMSIZE : BitVec 64 := N.npage * PGSIZE

def PoolSize.KERNTOP : BitVec 64 := KERNBASE + N.KMEMSIZE

def PoolSize.KERNEL_MEMEND_PADDR : BitVec 64 := KERNEL_BEGIN_PADDR + N.KMEMSIZE

/-- The pool fits into the physical memory: `KERNEL_MEMEND_PADDR <= PHYSICAL_MEMORY_END`, in
unbounded integers. -/
def PoolSize.Fits : Prop :=
  KERNEL_BEGIN_PADDR.toNat + N.NPAGE * PGSIZE.toNat ≤ PHYSICAL_MEMORY_END.toNat

instance : Decidable N.Fits := inferInstanceAs (Decidable (_ ≤ _))

/-- The globals that `page_init` sets, and that nothing changes afterwards. -/
structure PhysMem where
  va_pa_offset : BitVec 64
  nbase : SizeT
  npage : SizeT

/-- The values that `page_init` gives them. -/
def PoolSize.physMem : PhysMem := ⟨PHYSICAL_MEMORY_OFFSET, NBASE, NBASE + N.npage⟩

variable (g : PhysMem)

def PADDR (kva : BitVec 64) : Except Halt (BitVec 64) := do
  if kva < KERNBASE then throw (.panic "PADDR called with invalid kva %08lx" [.long kva])
  return kva - g.va_pa_offset

def page2ppn (page : SizeT) : SizeT := page + g.nbase

def page2pa (page : SizeT) : BitVec 64 := page2ppn g page <<< PGSHIFT

def pa2page (pa : BitVec 64) : Except Halt SizeT := do
  if PPN pa ≥ g.npage then throw (.panic "pa2page called with invalid pa" [])
  return PPN pa - g.nbase

end CertiCore
