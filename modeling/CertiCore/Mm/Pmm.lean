import Mathlib.Data.Finset.SDiff
import CertiCore.Mm.Pool
import CertiCore.Ownership.Balanced

/-!
# `kern/mm/pmm.c`

The page allocator at boot, and the runs of the calls that the kernel makes afterwards.
-/

namespace CertiCore

variable {N : PoolSize}

/-- The loop of `page_init` over the pages. -/
def pageInitLoop : Prog (Pmm N) (Except Empty Unit) :=
  .forLoop (fun i _ => do
    .write fun s => s.setFlags i 0
    setPageReserved i
    return .ok ()) (List.finRange N.NPAGE) ()

/-- The state of the allocator when `page_init` calls `init_memmap`: `init_pmm_manager`, and then
the loop of `page_init`, ran in the state `s₀`. -/
def pageInitState (s₀ : Pmm N) : Pmm N :=
  (Prog.run (do defaultInit; let _ ← pageInitLoop) s₀).2

/-- The functions of `pmm.c` that run a function of the memory manager with interrupts off. -/
inductive PmmCall where
  | allocPages (n : SizeT)
  | freePages (base n : SizeT)
  | nrFreePages

/-- What a wrapper runs with interrupts off; a body without a value to return gives `none`. -/
def PmmCall.body : PmmCall → Prog (Pmm N) (Option SizeT)
  | allocPages n => do return some (← defaultAllocPages n)
  | freePages base n => do defaultFreePages base n; return none
  | nrFreePages => do return some (← defaultNrFreePages)

/-! ## Runs -/

/-- A call that may change the state. -/
inductive Op where
  | initMemmap (base n : SizeT)
  | allocPages (n : SizeT)
  | freePages (base n : SizeT)

/-- The state after a call. -/
def Op.exec : Op → Pmm N → Pmm N
  | initMemmap base n, s => ((defaultInitMemmap base n).run s).2
  | allocPages n, s => ((defaultAllocPages n).run s).2
  | freePages base n, s => ((defaultFreePages base n).run s).2

/-- The state after a sequence of calls. -/
def exec (ops : List Op) (s : Pmm N) : Pmm N := ops.foldl (fun s op => op.exec s) s

/-- The assertion of `default_check`: `nr_free_pages()` is the number of available pages. -/
def NrFreeExact (s : Pmm N) : Prop := (defaultNrFreePages.run s).1.toNat = s.availableCount

instance (s : Pmm N) : Decidable (NrFreeExact s) := inferInstanceAs (Decidable (_ = _))

/-- Runs with a ghost ledger: the state, the pages handed over by `init_memmap`, and the pages that
clients own. A client frees pages that it owns only, unless the guards refuse the range anyway. -/
inductive LedgerRun (s₀ : Pmm N) : Pmm N → Finset (Fin N.NPAGE) → Finset (Fin N.NPAGE) → Prop
  | boot : LedgerRun s₀ (pageInitState s₀) ∅ ∅
  | initMemmap {s s' : Pmm N} {U O : Finset (Fin N.NPAGE)} {base n : SizeT} {code : BitVec 64}
      (run : LedgerRun s₀ s U O) (call : (defaultInitMemmap base n).run s = (code, s')) :
      LedgerRun s₀ s' (if code = 0 then U ∪ pageRange N base n else U) O
  | allocPages {s s' : Pmm N} {U O : Finset (Fin N.NPAGE)} {n page : SizeT}
      (run : LedgerRun s₀ s U O) (call : (defaultAllocPages n).run s = (page, s')) :
      LedgerRun s₀ s' U (if page ≠ NULLPAGE then O ∪ pageRange N page n else O)
  | freePages {s s' : Pmm N} {U O : Finset (Fin N.NPAGE)} {base n : SizeT}
      (run : LedgerRun s₀ s U O) (call : (defaultFreePages base n).run s = ((), s'))
      (owner : InPool N base n → pageRange N base n ⊆ O) :
      LedgerRun s₀ s' U (if InPool N base n then O \ pageRange N base n else O)

/-- Runs from `s₀` of `alloc_pages` and `free_pages` in which every free names one allocation that
is not freed yet, by the page it returned and its size: the state, and these allocations. -/
def BalancedRun (s₀ : Pmm N) : Pmm N → Multiset (SizeT × SizeT) → Prop :=
  Balanced.Run (fun s block s' => (defaultAllocPages block.2).run s = (block.1, s'))
    (fun s block => ((defaultFreePages block.1 block.2).run s).2) s₀

end CertiCore
