import CertiCore.Libs.Riscv

/-!
# The register `sstatus`

What traps and `sret` do to it in supervisor mode, and what `kern/driver/intr.c` does.
-/

namespace CertiCore

/-- The bit `SIE`: interrupts are delivered in supervisor mode. -/
def sie (sstatus : BitVec 64) : Bool := sstatus.getLsbD 1

/-- The bit `SPIE`: the bit `SIE` before the last trap. -/
def spie (sstatus : BitVec 64) : Bool := sstatus.getLsbD 5

/-- The bit `SPP`: the last trap came from supervisor mode. -/
def spp (sstatus : BitVec 64) : Bool := sstatus.getLsbD 8

/-- A trap from supervisor mode: `SPIE := SIE`, `SIE := 0`, `SPP := 1`. -/
def trapStatus (sstatus : BitVec 64) : BitVec 64 :=
  let sstatus :=
    if sie sstatus then setCsr sstatus SSTATUS_SPIE else clearCsr sstatus SSTATUS_SPIE
  setCsr (clearCsr sstatus SSTATUS_SIE) SSTATUS_SPP

/-- `sret`: `SIE := SPIE`, `SPIE := 1`, `SPP := 0`. -/
def sretStatus (sstatus : BitVec 64) : BitVec 64 :=
  let sstatus :=
    if spie sstatus then setCsr sstatus SSTATUS_SIE else clearCsr sstatus SSTATUS_SIE
  clearCsr (setCsr sstatus SSTATUS_SPIE) SSTATUS_SPP

def intrEnable (sstatus : BitVec 64) : BitVec 64 := setCsr sstatus SSTATUS_SIE

def intrDisable (sstatus : BitVec 64) : BitVec 64 := clearCsr sstatus SSTATUS_SIE

end CertiCore
