import CertiCore.Mm.PhysMem
import CertiCore.Mm.Pmm

/-!
# `kern/mm/pmm.c`: `page_init`

How the kernel finds its free memory at boot. The console output is left out.
-/

namespace CertiCore

variable {N : PoolSize}

/-- `init_pmm_manager`, which selects `default_pmm_manager`. -/
def initPmmManager : Prog (Pmm N) Unit := defaultInit

/-- `page_init`, with the address of the linker symbol `end`. It returns the globals that it sets
beside the state of the page allocator. -/
def pageInit (end_ : BitVec 64) : HaltT (Pmm N) PhysMem := do
  let g := N.physMem
  let mut mem_end := N.KERNEL_MEMEND_PADDR
  let _ ← pageInitLoop (N := N)
  let freemem ← PADDR g end_
  let mem_begin := ROUNDUP freemem PGSIZE
  mem_end := ROUNDDOWN mem_end PGSIZE
  if mem_end > g.npage * PGSIZE then
    mem_end := g.npage * PGSIZE
  if freemem < mem_end then
    let init_ret ← defaultInitMemmap (N := N) (← pa2page g mem_begin)
      ((mem_end - mem_begin) / PGSIZE)
    assert "init_ret == 0" (init_ret = 0)
  return g

/-- The state of the page allocator after `init_pmm_manager` and `page_init`, the first two calls of
`pmm_init`. -/
def bootPages (end_ : BitVec 64) : HaltT (Pmm N) PhysMem := do
  initPmmManager (N := N)
  pageInit end_

end CertiCore
