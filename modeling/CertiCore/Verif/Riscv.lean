import CertiCore.Mm.PhysMem
import CertiCore.Trap.Trap
import CertiCore.Trap.Trapentry

/-!
# `verif/riscv.rkt`, `verif/riscv-spec.rkt`

The specification of the machine code, which counts timer interrupts, and what the refinement test
compares it with.
-/

namespace CertiCore

namespace RiscvSpec

/-- The state of the specification. -/
structure State where
  tick : BitVec 64

def intrpTimer (st : State) : State := { st with tick := st.tick + 1 }

end RiscvSpec

/-- What a trap does in the specification. -/
def specTrap (st : RiscvSpec.State) (cause : BitVec 64) : RiscvSpec.State :=
  if cause = timerCause then RiscvSpec.intrpTimer st else st

/-- `abs-function`: the variable `ticks`. -/
def absFunction (k : Kernel) : RiscvSpec.State := ⟨k.ticks⟩

/-- `rep-invariant`, but for `stvec`, which no instruction of a trap writes. -/
def RepInvariant (bootstack : BitVec 64) (c : Cpu) : Prop := c.get sp = bootstack + KSTACKSIZE

/-- One trap after the other, each with those that interrupt it: their visits, and the kernel before
and after them. Every call of `trap` receives the frame of its visit. -/
inductive TrapRuns (img : Image) : Kernel → List Visit → Kernel → Prop
  | nil (k : Kernel) : TrapRuns img k [] k
  | trap {c : Cpu} {k k' : Kernel} {visits more : List Visit} {calls : List TrapCall}
      (run : TrapRun img c visits) (frames : calls.map (·.tf) = visits.map (·.frame))
      (rest : TrapRuns img (runTraps calls k) more k') : TrapRuns img k (visits ++ more) k'

end CertiCore
