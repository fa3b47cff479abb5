import Mathlib.Data.Nat.Notation

/-!
# `libs/riscv.h`

The codes of interrupts and exceptions, the bits of `sstatus`, and the macro that divides.
-/

namespace CertiCore

/-! ## Interrupts -/

@[match_pattern] abbrev IRQ_U_SOFT : ℕ := 0
@[match_pattern] abbrev IRQ_S_SOFT : ℕ := 1
@[match_pattern] abbrev IRQ_H_SOFT : ℕ := 2
@[match_pattern] abbrev IRQ_M_SOFT : ℕ := 3
@[match_pattern] abbrev IRQ_U_TIMER : ℕ := 4
@[match_pattern] abbrev IRQ_S_TIMER : ℕ := 5
@[match_pattern] abbrev IRQ_H_TIMER : ℕ := 6
@[match_pattern] abbrev IRQ_M_TIMER : ℕ := 7
@[match_pattern] abbrev IRQ_U_EXT : ℕ := 8
@[match_pattern] abbrev IRQ_S_EXT : ℕ := 9
@[match_pattern] abbrev IRQ_H_EXT : ℕ := 10
@[match_pattern] abbrev IRQ_M_EXT : ℕ := 11

def MIP_STIP : BitVec 64 := 1 <<< IRQ_S_TIMER

/-! ## Exceptions -/

@[match_pattern] abbrev CAUSE_MISALIGNED_FETCH : ℕ := 0x0
@[match_pattern] abbrev CAUSE_FAULT_FETCH : ℕ := 0x1
@[match_pattern] abbrev CAUSE_ILLEGAL_INSTRUCTION : ℕ := 0x2
@[match_pattern] abbrev CAUSE_BREAKPOINT : ℕ := 0x3
@[match_pattern] abbrev CAUSE_MISALIGNED_LOAD : ℕ := 0x4
@[match_pattern] abbrev CAUSE_FAULT_LOAD : ℕ := 0x5
@[match_pattern] abbrev CAUSE_MISALIGNED_STORE : ℕ := 0x6
@[match_pattern] abbrev CAUSE_FAULT_STORE : ℕ := 0x7
@[match_pattern] abbrev CAUSE_USER_ECALL : ℕ := 0x8
@[match_pattern] abbrev CAUSE_SUPERVISOR_ECALL : ℕ := 0x9
@[match_pattern] abbrev CAUSE_HYPERVISOR_ECALL : ℕ := 0xa
@[match_pattern] abbrev CAUSE_MACHINE_ECALL : ℕ := 0xb

/-! ## `sstatus` -/

def SSTATUS_SIE : BitVec 64 := 0x00000002
def SSTATUS_SPIE : BitVec 64 := 0x00000020
def SSTATUS_SPP : BitVec 64 := 0x00000100

/-- `set_csr(reg, bits)`, the instruction `csrrs`. -/
def setCsr (reg bits : BitVec 64) : BitVec 64 := reg ||| bits

/-- `clear_csr(reg, bits)`, the instruction `csrrc`. -/
def clearCsr (reg bits : BitVec 64) : BitVec 64 := reg &&& ~~~ bits

/-! ## Division -/

/-- `do_div(n, base)`: what it leaves in `n`, and its value. -/
def doDiv (n : BitVec 64) (base : BitVec 32) : BitVec 64 × BitVec 32 :=
  (n / base.setWidth 64, (n % base.setWidth 64).setWidth 32)

end CertiCore
