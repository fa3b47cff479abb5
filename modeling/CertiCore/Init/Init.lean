import CertiCore.Hart.Sstatus
import CertiCore.Init.Entry
import CertiCore.Libs.String
import CertiCore.Mm.Check
import CertiCore.Program.Interrupts
import CertiCore.Trap.Trap

/-!
# `kern/init/init.c`

What the kernel does from `kern_init` on, until it is idle, and then when traps come. Of the console
output only that of the clock and of the traps is kept.
-/

namespace CertiCore

variable {N : PoolSize}

/-- The symbols of the kernel image: those that `entry.S` uses, those of the linker script, and
`__alltraps`. -/
structure KernelImage extends Symbols where
  edata : BitVec 64
  end_ : BitVec 64
  alltraps : BitVec 64

/-- The memory that the kernel sees, its globals, and the control registers. -/
structure Machine (N : PoolSize) where
  mem : Mem
  pool : Pmm N
  physMem : PhysMem
  satp_virtual : BitVec 64
  satp_physical : BitVec 64
  kernel : Kernel
  trapVector : TrapVector
  sstatus : BitVec 64

/-- The globals of the page allocator. -/
def Machine.poolPart : Prog.Part (Machine N) (Pmm N) where
  get s := s.pool
  set pool s := { s with pool }
  get_set _ _ := rfl
  set_get _ := rfl
  set_set _ _ _ := rfl

/-- A store to the machine. -/
def Machine.write (upd : Machine N → Machine N) : HaltT (Machine N) Unit := liftM (Prog.write upd)

/-- The `memset` of `kern_init`. The globals without an initializer lie between `edata` and `end`,
and so do those of the page allocator. -/
def clearBss (img : KernelImage) (s : Machine N) : Machine N :=
  { s with
    mem := (memset s.mem img.edata 0 (img.end_ - img.edata)).1
    pool := ⟨fun _ => 0, 0⟩
    physMem := ⟨0, 0, 0⟩
    satp_virtual := 0
    satp_physical := 0
    kernel := { s.kernel with ticks := 0 } }

/-- `kern_init` before its last loop, in which it does nothing. `clock_init` reads the time
`time`. -/
def kernInit (img : KernelImage) (time : BitVec 64) : HaltT (Machine N) Unit := do
  Machine.write (clearBss img)
  Machine.write fun s => { s with trapVector := idtInit img.alltraps }
  let (physMem, satp_virtual, satp_physical) ←
    (pmmInit (N := N) img.end_ img.boot_page_table_sv39).zoom Machine.poolPart
  Machine.write fun s => { s with physMem, satp_virtual, satp_physical }
  Machine.write fun s => { s with trapVector := idtInit img.alltraps }
  Machine.write fun s => { s with kernel := clockInit time s.kernel }
  Machine.write fun s => { s with sstatus := intrEnable s.sstatus }

/-! ## Interrupts -/

/-- The machine after a trap: `trap` has run, and `sret` has restored the register from the
frame. -/
def Machine.trap (c : TrapCall) (s : Machine N) : Machine N :=
  { s with kernel := CertiCore.trap c s.kernel, sstatus := sretStatus c.tf.status }

/-- An interrupt that is delivered in the state `s`. The frame holds what the trap has left in
`sstatus`. -/
inductive Machine.Interrupt (s : Machine N) : Machine N → Prop
  | deliver (c : TrapCall) (hsie : sie s.sstatus = true) (hcause : c.tf.cause.toInt < 0)
    (hstatus : c.tf.status = trapStatus s.sstatus) : Machine.Interrupt s (s.trap c)

/-- The kernel from `kern_init` on, with interrupts: what is left of it to run, and its state. -/
def Boots (img : KernelImage) (time : BitVec 64) (s : Machine N) :
    Prog (Machine N) (Except Halt Unit) × Machine N → Prop :=
  Relation.ReflTransGen (Prog.Step Machine.Interrupt) (ExceptT.run (kernInit img time), s)

end CertiCore
