import CertiCore.Mm.PageInit

/-!
# `kern/mm/default_pmm.c`: `basic_check` and `default_check`

The check that the kernel makes of its allocator at boot, and `pmm_init`, which calls it.
-/

namespace CertiCore

variable {N : PoolSize}

/-! The functions of `pmm.c` that the check calls. Each runs a function of the manager with
interrupts off, which does not touch the pool. -/

def allocPages (n : SizeT) : Prog (Pmm N) SizeT := defaultAllocPages n

def freePages (base n : SizeT) : Prog (Pmm N) Unit := defaultFreePages base n

def nrFreePages : Prog (Pmm N) SizeT := defaultNrFreePages

def allocPage : Prog (Pmm N) SizeT := allocPages 1

def freePage (page : SizeT) : Prog (Pmm N) Unit := freePages page 1

def basicCheck (g : PhysMem) : HaltT (Pmm N) Unit := do
  let p0 ← allocPage (N := N)
  assert "(p0 = alloc_page()) != NULLPAGE" (p0 ≠ NULLPAGE)
  let p1 ← allocPage (N := N)
  assert "(p1 = alloc_page()) != NULLPAGE" (p1 ≠ NULLPAGE)
  let p2 ← allocPage (N := N)
  assert "(p2 = alloc_page()) != NULLPAGE" (p2 ≠ NULLPAGE)
  assert "p0 != p1 && p0 != p2 && p1 != p2" (p0 ≠ p1 ∧ p0 ≠ p2 ∧ p1 ≠ p2)
  assert "page2pa(p0) < npage * PGSIZE" (page2pa g p0 < g.npage * PGSIZE)
  assert "page2pa(p1) < npage * PGSIZE" (page2pa g p1 < g.npage * PGSIZE)
  assert "page2pa(p2) < npage * PGSIZE" (page2pa g p2 < g.npage * PGSIZE)
  freePage (N := N) p0
  freePage (N := N) p1
  freePage (N := N) p2

/-- The body of the counting loops of `default_check`: `count` is applied to `not_reserved` for a
page that is not reserved, and to `not_allocated` if the page is not allocated either. -/
def checkBody (count : SizeT → SizeT) (p : Fin N.NPAGE) :
    SizeT × SizeT → Prog (Pmm N) (Except Empty (SizeT × SizeT))
  | (not_reserved, not_allocated) => do
    if !(← pageReserved p) then
      if !(← pageAllocated p) then
        return .ok (count not_reserved, count not_allocated)
      else
        return .ok (count not_reserved, not_allocated)
    else
      return .ok (not_reserved, not_allocated)

def checkLoop (count : SizeT → SizeT) (counters : SizeT × SizeT) :
    Prog (Pmm N) (Except Empty (SizeT × SizeT)) :=
  .forLoop (checkBody count) (List.finRange N.NPAGE) counters

/-- The result of a loop that is not left. -/
def loopResult {τ : Type} : Except Empty τ → τ
  | .ok t => t

/-- `PageAllocated(page)` on a page number that need not be an index of `pages`. -/
def pageAllocatedAt (page : SizeT) : HaltT (Pmm N) Bool :=
  if h : page.toNat < N.NPAGE then liftM (pageAllocated ⟨page.toNat, h⟩)
  else throw (.outOfBounds page.toNat)

def defaultCheck (g : PhysMem) : HaltT (Pmm N) Unit := do
  let (not_reserved, not_allocated) := loopResult (← checkLoop (N := N) (· + 1) (0, 0))
  assert "not_allocated == nr_free_pages()" (not_allocated = (← nrFreePages (N := N)))
  basicCheck g
  let p0 ← allocPages (N := N) 5
  assert "p0 != NULLPAGE" (p0 ≠ NULLPAGE)
  assert "PageAllocated(p0)" (← pageAllocatedAt p0)
  freePages (N := N) p0 5
  let (not_reserved, not_allocated) :=
    loopResult (← checkLoop (N := N) (· - 1) (not_reserved, not_allocated))
  assert "not_reserved == 0" (not_reserved = 0)
  assert "not_allocated == 0" (not_allocated = 0)

/-- `pmm_init`, with the addresses of the linker symbol `end` and of the boot page table. It returns
the globals of `page_init`, `satp_virtual` and `satp_physical`. -/
def pmmInit (end_ boot_page_table_sv39 : BitVec 64) :
    HaltT (Pmm N) (PhysMem × BitVec 64 × BitVec 64) := do
  let g ← bootPages end_
  defaultCheck g
  let satp_virtual := boot_page_table_sv39
  let satp_physical ← PADDR g satp_virtual
  return (g, satp_virtual, satp_physical)

end CertiCore
