import CertiCore.Driver.Clock
import CertiCore.Trap.Trapframe

/-!
# `kern/trap/trap.c`

The dispatch of traps and the handlers. The build is the one without `DEBUG_GRADE`, in which
`print_ticks` does not end the kernel.
-/

namespace CertiCore

/-- The registers that `idt_init` sets. -/
structure TrapVector where
  sscratch : BitVec 64
  stvec : BitVec 64

/-- `idt_init`, with the address of `__alltraps`. -/
def idtInit (alltraps : BitVec 64) : TrapVector := ⟨0, alltraps⟩

def trapInKernel (tf : Trapframe) : Bool := tf.status &&& SSTATUS_SPP ≠ 0

def TICK_NUM : BitVec 64 := 100

def printTicks (k : Kernel) : Kernel := cprintf "%d ticks\n" [TICK_NUM] k

def printRegs (gpr : PushRegs) (k : Kernel) : Kernel :=
  [("  zero     0x%08x\n", gpr.zero), ("  ra       0x%08x\n", gpr.ra),
    ("  sp       0x%08x\n", gpr.sp), ("  gp       0x%08x\n", gpr.gp),
    ("  tp       0x%08x\n", gpr.tp), ("  t0       0x%08x\n", gpr.t0),
    ("  t1       0x%08x\n", gpr.t1), ("  t2       0x%08x\n", gpr.t2),
    ("  s0       0x%08x\n", gpr.s0), ("  s1       0x%08x\n", gpr.s1),
    ("  a0       0x%08x\n", gpr.a0), ("  a1       0x%08x\n", gpr.a1),
    ("  a2       0x%08x\n", gpr.a2), ("  a3       0x%08x\n", gpr.a3),
    ("  a4       0x%08x\n", gpr.a4), ("  a5       0x%08x\n", gpr.a5),
    ("  a6       0x%08x\n", gpr.a6), ("  a7       0x%08x\n", gpr.a7),
    ("  s2       0x%08x\n", gpr.s2), ("  s3       0x%08x\n", gpr.s3),
    ("  s4       0x%08x\n", gpr.s4), ("  s5       0x%08x\n", gpr.s5),
    ("  s6       0x%08x\n", gpr.s6), ("  s7       0x%08x\n", gpr.s7),
    ("  s8       0x%08x\n", gpr.s8), ("  s9       0x%08x\n", gpr.s9),
    ("  s10      0x%08x\n", gpr.s10), ("  s11      0x%08x\n", gpr.s11),
    ("  t3       0x%08x\n", gpr.t3), ("  t4       0x%08x\n", gpr.t4),
    ("  t5       0x%08x\n", gpr.t5), ("  t6       0x%08x\n", gpr.t6)].foldl
    (fun k line => cprintf line.1 [line.2] k) k

/-- A call of `trap`: the frame that it receives, the address of the frame, and the time that
`get_cycles` reads if the handler asks for it. -/
structure TrapCall where
  tf : Trapframe
  addr : BitVec 64
  time : BitVec 64

def printTrapframe (c : TrapCall) (k : Kernel) : Kernel :=
  let k := cprintf "trapframe at %p\n" [c.addr] k
  let k := printRegs c.tf.gpr k
  let k := cprintf "  status   0x%08x\n" [c.tf.status] k
  let k := cprintf "  epc      0x%08x\n" [c.tf.epc] k
  let k := cprintf "  badvaddr 0x%08x\n" [c.tf.badvaddr] k
  cprintf "  cause    0x%08x\n" [c.tf.cause] k

/-- `interrupt_handler`. The shifts are shifts of the unsigned `tf->cause`. -/
def interruptHandler (c : TrapCall) (k : Kernel) : Kernel :=
  let cause := (c.tf.cause <<< 1) >>> 1
  match cause.toNat with
  | IRQ_U_SOFT => cprintf "User software interrupt\n" [] k
  | IRQ_S_SOFT => cprintf "Supervisor software interrupt\n" [] k
  | IRQ_H_SOFT => cprintf "Hypervisor software interrupt\n" [] k
  | IRQ_M_SOFT => cprintf "Machine software interrupt\n" [] k
  | IRQ_U_TIMER => cprintf "User Timer interrupt\n" [] k
  | IRQ_S_TIMER =>
    let k := clockSetNextEvent c.time k
    let k := { k with ticks := k.ticks + 1 }
    if k.ticks % TICK_NUM = 0 then printTicks k else k
  | IRQ_H_TIMER => cprintf "Hypervisor software interrupt\n" [] k
  | IRQ_M_TIMER => cprintf "Machine software interrupt\n" [] k
  | IRQ_U_EXT => cprintf "User software interrupt\n" [] k
  | IRQ_S_EXT => cprintf "Supervisor external interrupt\n" [] k
  | IRQ_H_EXT => cprintf "Hypervisor software interrupt\n" [] k
  | IRQ_M_EXT => cprintf "Machine software interrupt\n" [] k
  | _ => printTrapframe c k

def exceptionHandler (c : TrapCall) (k : Kernel) : Kernel :=
  match c.tf.cause.toNat with
  | CAUSE_MISALIGNED_FETCH => k
  | CAUSE_FAULT_FETCH => k
  | CAUSE_ILLEGAL_INSTRUCTION => k
  | CAUSE_BREAKPOINT => k
  | CAUSE_MISALIGNED_LOAD => k
  | CAUSE_FAULT_LOAD => k
  | CAUSE_MISALIGNED_STORE => k
  | CAUSE_FAULT_STORE => k
  | CAUSE_USER_ECALL => k
  | CAUSE_SUPERVISOR_ECALL => k
  | CAUSE_HYPERVISOR_ECALL => k
  | CAUSE_MACHINE_ECALL => k
  | _ => printTrapframe c k

def trapDispatch (c : TrapCall) (k : Kernel) : Kernel :=
  if c.tf.cause.toInt < 0 then interruptHandler c k else exceptionHandler c k

def trap (c : TrapCall) (k : Kernel) : Kernel := trapDispatch c k

/-- The kernel after a sequence of traps. -/
def runTraps (calls : List TrapCall) (k : Kernel) : Kernel := calls.foldl (fun k c => trap c k) k

/-! ## What is counted -/

/-- The cause of a timer interrupt of supervisor mode. -/
def timerCause : BitVec 64 := BitVec.ofNat 64 (2 ^ 63 + IRQ_S_TIMER)

/-- The number of timer interrupts of a trace. -/
def timerCount (calls : List TrapCall) : ℕ := calls.countP fun c => c.tf.cause = timerCause

/-- How often `print_ticks` has been called. -/
def Kernel.printTicksCalls (k : Kernel) : ℕ := k.log.count (.cprintf "%d ticks\n" [TICK_NUM])

/-- The values that the timer has been armed with. -/
def Kernel.timerArmed (k : Kernel) : List (BitVec 64) :=
  k.log.filterMap fun e => match e with
    | .sbiSetTimer stime_value => some stime_value
    | .cprintf _ _ => none

end CertiCore
