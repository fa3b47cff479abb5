import CertiCore.Mm.DefaultPmm
import CertiCore.Noninterference.Unwinding

/-!
# `verif/llvm-ni.rkt`

The safety policy of the allocator: what a page is shown of the state, and the operations that the
policy is about.
-/

namespace CertiCore

variable {N : PoolSize}

/-- `(unwinding u s t)`: page `u` has the same flag word in both states. -/
def unwinding (u : Fin N.NPAGE) (s t : Pmm N) : Prop := s.flags u = t.flags u

/-- `(&& (bvule base x) (bvult x (bvadd base num)))`, whose sum may wrap. -/
def inRange (base num : SizeT) (x : Fin N.NPAGE) : Prop := base ≤ pageNo x ∧ pageNo x < base + num

/-- The operations of `ni-tests`, the one that is commented out included. -/
inductive NiOp where
  | freePages
  | initMemmap

/-- The operation in C, with the value it returns (`none` if it is `void`). -/
def NiOp.impl (base num : SizeT) : NiOp → Prog (Pmm N) (Option (BitVec 64))
  | freePages => do defaultFreePages base num; return none
  | initMemmap => do return some (← defaultInitMemmap base num)

/-! ## Runs -/

/-- A call of an operation. -/
structure NiCall where
  op : NiOp
  base : SizeT
  num : SizeT

/-- The state after a call. -/
def NiCall.step (c : NiCall) (s : Pmm N) : Pmm N := ((c.op.impl c.base c.num).run s).2

/-- What a call returns. -/
def NiCall.output (c : NiCall) (s : Pmm N) : Option (BitVec 64) :=
  ((c.op.impl c.base c.num).run s).1

/-- Both operations write the flag words of their range, and `init_memmap` reads them. -/
def niPolicy (N : PoolSize) : Noninterference.Policy NiCall (Fin N.NPAGE) where
  reads c := match c.op with
    | .freePages => ∅
    | .initMemmap => {x | inRange c.base c.num x}
  writes c := {x | inRange c.base c.num x}

end CertiCore
