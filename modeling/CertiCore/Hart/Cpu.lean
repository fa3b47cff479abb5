import CertiCore.Hart.Sstatus
import CertiCore.Memory.Bytes

/-!
# The instructions of the trap path

The state of a hart as the assembly code sees it, and the instructions that `trapentry.S` uses. The
kernel is built for `rv64ima`, so every instruction is four bytes long.
-/

namespace CertiCore

/-- The number of an integer register. -/
abbrev Reg := Fin 32

/-- Every numeral is the number of a register. -/
instance Reg.instNeZero : NeZero 32 := ⟨by decide⟩

/-- The modes that the kernel knows of. -/
inductive Priv where
  | user
  | supervisor
  deriving DecidableEq

/-- A hart. The content of `x 0` is never looked at: the register `x0` reads as zero. -/
@[ext] structure Cpu where
  x : Reg → BitVec 64
  pc : BitVec 64
  sstatus : BitVec 64
  sepc : BitVec 64
  stval : BitVec 64
  scause : BitVec 64
  sscratch : BitVec 64
  priv : Priv
  mem : Mem

namespace Cpu

/-- Reads a register. -/
def get (c : Cpu) (r : Reg) : BitVec 64 := if r = 0 then 0 else c.x r

/-- Writes a register. -/
def set (c : Cpu) (r : Reg) (v : BitVec 64) : Cpu :=
  { c with x := fun q => if q = r then v else c.x q }

end Cpu

/-- The control registers of the trap path; `sbadaddr` is the old name of `stval`. -/
inductive Csr where
  | sstatus
  | sepc
  | sbadaddr
  | scause
  | sscratch

namespace Csr

def read (c : Cpu) : Csr → BitVec 64
  | sstatus => c.sstatus
  | sepc => c.sepc
  | sbadaddr => c.stval
  | scause => c.scause
  | sscratch => c.sscratch

def write (c : Cpu) (v : BitVec 64) : Csr → Cpu
  | sstatus => { c with sstatus := v }
  | sepc => { c with sepc := v }
  | sbadaddr => { c with stval := v }
  | scause => { c with scause := v }
  | sscratch => { c with sscratch := v }

end Csr

/-- The instructions, with the offsets as 64-bit words. -/
inductive Instr where
  | csrw (csr : Csr) (rs : Reg)
  | csrr (rd : Reg) (csr : Csr)
  | csrrw (rd : Reg) (csr : Csr) (rs : Reg)
  | addi (rd rs : Reg) (imm : BitVec 64)
  | move (rd rs : Reg)
  /-- `sd`. -/
  | store (rs : Reg) (offset : BitVec 64) (base : Reg)
  /-- `ld`. -/
  | load (rd : Reg) (offset : BitVec 64) (base : Reg)
  /-- `jal`, which links to `ra`. -/
  | jal (target : BitVec 64)
  | sret

/-- What an instruction does apart from going on to the next one. -/
def Instr.effect (c : Cpu) : Instr → Cpu
  | csrw csr rs => csr.write c (c.get rs)
  | csrr rd csr => c.set rd (csr.read c)
  | csrrw rd csr rs => (csr.write c (c.get rs)).set rd (csr.read c)
  | addi rd rs imm => c.set rd (c.get rs + imm)
  | move rd rs => c.set rd (c.get rs)
  | store rs offset base => { c with mem := c.mem.store64 (c.get base + offset) (c.get rs) }
  | load rd offset base => c.set rd (c.mem.load64 (c.get base + offset))
  | jal _ => c.set 1 (c.pc + 4)
  | sret =>
    { c with
      sstatus := sretStatus c.sstatus
      priv := if spp c.sstatus then .supervisor else .user }

/-- The address of the next instruction. -/
def Instr.nextPc (c : Cpu) : Instr → BitVec 64
  | jal target => target
  | sret => c.sepc
  | _ => c.pc + 4

/-- One instruction. -/
def Instr.exec (c : Cpu) (i : Instr) : Cpu := { i.effect c with pc := i.nextPc c }

/-- Instructions that follow one another. -/
def execAll (is : List Instr) (c : Cpu) : Cpu := is.foldl Instr.exec c

/-- A trap from supervisor mode to the handler at the address `stvec`. -/
def Cpu.takeTrap (stvec cause tval : BitVec 64) (c : Cpu) : Cpu :=
  { c with
    pc := stvec
    sstatus := trapStatus c.sstatus
    sepc := c.pc
    stval := tval
    scause := cause
    priv := .supervisor }

end CertiCore
