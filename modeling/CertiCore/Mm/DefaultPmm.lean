import CertiCore.Mm.Memlayout

/-!
# `kern/mm/default_pmm.c`

The first-fit page allocator, statement by statement. Every flag test, flag update, load and store
of `nr_free` is one access of the program; the guards and the loop variables are local.
-/

namespace CertiCore

variable {N : PoolSize}

/-- The load of `nr_free`. -/
def nrFreeLoad : Prog (Pmm N) SizeT := .read Pmm.nrFree

/-- The store `nr_free = v`. -/
def nrFreeStore (v : SizeT) : Prog (Pmm N) Unit := .write fun s => { s with nrFree := v }

def defaultInit : Prog (Pmm N) Unit := nrFreeStore 0

/-- The loop `for (size_t p = 0; p < NPAGE; ++p) if (base <= p && p < base + n) stmt`, in which
`stmt` may return a code from the function. -/
def forRange (base n : SizeT) (stmt : Fin N.NPAGE → Prog (Pmm N) (Except (BitVec 64) Unit)) :
    Prog (Pmm N) (Except (BitVec 64) Unit) :=
  .forLoop (fun p _ =>
    if base ≤ pageNo p ∧ pageNo p < base + n then stmt p else return .ok ())
    (List.finRange N.NPAGE) ()

/-- `default_init_memmap`: `0` for success, else the code of the check that failed. -/
def defaultInitMemmap (base n : SizeT) : Prog (Pmm N) (BitVec 64) := do
  if ¬ n > 0 then return 1
  if ¬ n ≤ N.npage then return 2
  if ¬ base ≤ N.npage then return 3
  if ¬ base + n ≤ N.npage then return 4
  match ← forRange base n fun p => do
    if !(← pageReserved p) then return .error 5
    return .ok () with
  | .error code => return code
  | .ok () =>
  match ← forRange base n fun p => do
    if ← pageAllocated p then return .error 6
    return .ok () with
  | .error code => return code
  | .ok () =>
  let _ ← forRange base n fun p => do
    clearPageReserved p
    return .ok ()
  nrFreeStore ((← nrFreeLoad) + n)
  return 0

/-- The body of the loop of `default_alloc_pages` that looks for `n` usable pages in a row. -/
def allocScanBody (n : SizeT) (p : Fin N.NPAGE) (first_usable : SizeT) :
    Prog (Pmm N) (Except SizeT SizeT) := do
  if ← (pageReserved p <||> pageAllocated p) then
    return .ok (pageNo p + 1)
  else
    if pageNo p - first_usable + 1 = n then return .error first_usable
    return .ok first_usable

/-- The loop itself, which breaks with the page it found. -/
def allocScan (n : SizeT) : Prog (Pmm N) (Except SizeT SizeT) :=
  .forLoop (allocScanBody n) (List.finRange N.NPAGE) 0

/-- `default_alloc_pages`: the first page of the block, or `NULLPAGE`. -/
def defaultAllocPages (n : SizeT) : Prog (Pmm N) SizeT := do
  if ¬ n > 0 then return NULLPAGE
  if ¬ n ≤ N.npage then return NULLPAGE
  let page : SizeT := match ← allocScan (N := N) n with
    | .error first_usable => first_usable
    | .ok _ => NULLPAGE
  if page ≠ NULLPAGE then
    let _ ← forRange page n fun p => do
      setPageAllocated p
      return .ok ()
    nrFreeStore ((← nrFreeLoad) - n)
  return page

def defaultFreePages (base n : SizeT) : Prog (Pmm N) Unit := do
  if base ≥ N.npage then return
  if n = 0 then return
  if n > N.npage then return
  if base + n > N.npage then return
  let _ ← forRange base n fun p => do
    clearPageAllocated p
    return .ok ()
  nrFreeStore ((← nrFreeLoad) + n)

def defaultNrFreePages : Prog (Pmm N) SizeT := nrFreeLoad

end CertiCore
