import CertiCore.Mm.DefaultPmm
import CertiCore.Verif.LlvmSpec

/-!
# `verif/llvm.rkt`

The calls that the refinement test compares, run by the implementation and by the specification.
-/

namespace CertiCore

open LlvmSpec

variable {N : PoolSize}

/-- A call of one of the five functions of the allocator. -/
inductive Call where
  | init
  | initMemmap (base n : SizeT)
  | allocPages (n : SizeT)
  | freePages (base n : SizeT)
  | nrFreePages

/-- The call in C, with the value it returns (`none` if it is `void`). -/
def Call.impl : Call → Prog (Pmm N) (Option (BitVec 64))
  | init => do defaultInit; return none
  | initMemmap base n => do return some (← defaultInitMemmap base n)
  | allocPages n => do return some (← defaultAllocPages n)
  | freePages base n => do defaultFreePages base n; return none
  | nrFreePages => do return some (← defaultNrFreePages)

/-- The call in the specification. -/
def Call.spec (N : PoolSize) (s : State) : Call → State
  | init => specDefaultInit s
  | initMemmap base n => specDefaultInitMemmap N s base n
  | allocPages n => specDefaultAllocPages N s n
  | freePages base n => specDefaultFreePages N s base n
  | nrFreePages => specDefaultNrFreePages s

/-- A sequence of calls in the specification: the returned values, and the last state. -/
def specRun (N : PoolSize) : List Call → State → List (Option (BitVec 64)) × State
  | [], s => ([], s)
  | c :: cs, s => ((c.spec N s).a0 :: (specRun N cs (c.spec N s)).1, (specRun N cs (c.spec N s)).2)

/-- The calls that leave `nr_free_eq` as it is: all but an `init` on a pool with available pages,
and a `free_pages` of a range with a page that is not allocated, or is reserved. -/
def Call.KeepsNrFree (N : PoolSize) (s : State) : Call → Prop
  | init => ∀ page ∈ pages N, pageAvailable N s page = false
  | freePages base n => base.toNat + n.toNat ≤ N.NPAGE → ∀ page ∈ pages N, base ≤ page →
    page < base + n → LlvmSpec.pageAllocated N s page = true ∧
      LlvmSpec.pageReserved N s page = false
  | _ => True

/-- The states that `abs-function` and the equality of `state` relate: the same `nr_free` and the
same flag words in the pool. -/
structure Agree (s : Pmm N) (t : State) : Prop where
  nrFree : t.nrfree = s.nrFree
  flags : ∀ p : Fin N.NPAGE, t.pagedbFlag (pageNo p) = s.flags p

end CertiCore
