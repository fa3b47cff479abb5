import CertiCore.Hart.Cpu
import CertiCore.Trap.Trapframe

/-!
# `kern/trap/trapentry.S`

The assembly code around `trap()`, and the executions of a trap, with the traps that interrupt it.
-/

namespace CertiCore

/-! ## The code -/

def REGBYTES : ℕ := 8

def ra : Reg := 1
def sp : Reg := 2
def s0 : Reg := 8
def s1 : Reg := 9
def a0 : Reg := 10
def s2 : Reg := 18
def s3 : Reg := 19
def s4 : Reg := 20

/-- `STORE r, slot*REGBYTES(sp)`. -/
def STORE (r : Reg) (slot : ℕ) : Instr := .store r (BitVec.ofNat 64 (slot * REGBYTES)) sp

/-- `LOAD r, slot*REGBYTES(sp)`. -/
def LOAD (r : Reg) (slot : ℕ) : Instr := .load r (BitVec.ofNat 64 (slot * REGBYTES)) sp

def SAVE_ALL : List Instr :=
  [.csrw .sscratch sp,
    .addi sp sp (-BitVec.ofNat 64 (36 * REGBYTES)),
    -- save x registers
    STORE 0 0, STORE 1 1, STORE 3 3, STORE 4 4, STORE 5 5, STORE 6 6, STORE 7 7, STORE 8 8,
    STORE 9 9, STORE 10 10, STORE 11 11, STORE 12 12, STORE 13 13, STORE 14 14, STORE 15 15,
    STORE 16 16, STORE 17 17, STORE 18 18, STORE 19 19, STORE 20 20, STORE 21 21, STORE 22 22,
    STORE 23 23, STORE 24 24, STORE 25 25, STORE 26 26, STORE 27 27, STORE 28 28, STORE 29 29,
    STORE 30 30, STORE 31 31,
    -- get sr, epc, badvaddr, cause
    .csrrw s0 .sscratch 0,
    .csrr s1 .sstatus,
    .csrr s2 .sepc,
    .csrr s3 .sbadaddr,
    .csrr s4 .scause,
    STORE s0 2, STORE s1 32, STORE s2 33, STORE s3 34, STORE s4 35]

def RESTORE_ALL : List Instr :=
  [LOAD s1 32, LOAD s2 33,
    .csrw .sstatus s1, .csrw .sepc s2,
    -- restore x registers
    LOAD 1 1, LOAD 3 3, LOAD 4 4, LOAD 5 5, LOAD 6 6, LOAD 7 7, LOAD 8 8, LOAD 9 9, LOAD 10 10,
    LOAD 11 11, LOAD 12 12, LOAD 13 13, LOAD 14 14, LOAD 15 15, LOAD 16 16, LOAD 17 17, LOAD 18 18,
    LOAD 19 19, LOAD 20 20, LOAD 21 21, LOAD 22 22, LOAD 23 23, LOAD 24 24, LOAD 25 25, LOAD 26 26,
    LOAD 27 27, LOAD 28 28, LOAD 29 29, LOAD 30 30, LOAD 31 31,
    -- restore sp last
    LOAD sp 2]

/-! ## The trap frame -/

/-- A `struct pushregs` whose fields are the registers `x0`, ..., `x31`, by their names in the
calling convention; they are laid out in this order. -/
def PushRegs.ofRegs (x : ℕ → BitVec 64) : PushRegs where
  zero := x 0
  ra := x 1
  sp := x 2
  gp := x 3
  tp := x 4
  t0 := x 5
  t1 := x 6
  t2 := x 7
  s0 := x 8
  s1 := x 9
  a0 := x 10
  a1 := x 11
  a2 := x 12
  a3 := x 13
  a4 := x 14
  a5 := x 15
  a6 := x 16
  a7 := x 17
  s2 := x 18
  s3 := x 19
  s4 := x 20
  s5 := x 21
  s6 := x 22
  s7 := x 23
  s8 := x 24
  s9 := x 25
  s10 := x 26
  s11 := x 27
  t3 := x 28
  t4 := x 29
  t5 := x 30
  t6 := x 31

/-- The `struct trapframe` at address `a`. -/
def trapframeAt (m : Mem) (a : BitVec 64) : Trapframe where
  gpr := .ofRegs (m.word a)
  status := m.word a 32
  epc := m.word a 33
  badvaddr := m.word a 34
  cause := m.word a 35

/-- What a trap finds: every register by its name, `sp` included, and the control registers. -/
def expectedFrame (c : Cpu) (cause tval : BitVec 64) : Trapframe where
  gpr := .ofRegs fun r => c.get (Fin.ofNat 32 r)
  status := trapStatus c.sstatus
  epc := c.pc
  badvaddr := tval
  cause := cause

/-! ## Executions -/

/-- The addresses of `__alltraps` and of `trap`. -/
structure Image where
  alltraps : BitVec 64
  trap : BitVec 64

/-- The hart when `SAVE_ALL` is through, after a trap taken in the state `c`. -/
def Image.saved (img : Image) (cause tval : BitVec 64) (c : Cpu) : Cpu :=
  execAll SAVE_ALL (c.takeTrap img.alltraps cause tval)

/-- The hart after `RESTORE_ALL` and `sret`. -/
def restored (c : Cpu) : Cpu := execAll (RESTORE_ALL ++ [.sret]) c

/-- The address is at or above `base` on the stack that begins at `top` and grows down. -/
def OnStack (top base a : BitVec 64) : Prop := (a - base).toNat < (top - base).toNat

/-- How far the code between `SAVE_ALL` and `RESTORE_ALL` is. -/
inductive Stage where
  /-- Before `move a0, sp`. -/
  | arg
  /-- Before `jal trap`. -/
  | call
  /-- In `trap()`, which received the frame `tf` and returns to `ra`. -/
  | inTrap (tf : Trapframe) (ra : BitVec 64)

/-- A trap that has returned: the hart when it was taken, its cause and `stval`, the frame that
`trap()` received, and the hart after `sret`. -/
structure Visit where
  before : Cpu
  cause : BitVec 64
  tval : BitVec 64
  frame : Trapframe
  after : Cpu

/-- The executions that begin when `SAVE_ALL` of a trap is through, in the state `c`, with the traps
that interrupt them. The frame of the trap is at `base`, on the stack that begins at `top`. -/
inductive Exec (img : Image) (top : BitVec 64) : BitVec 64 → Cpu → List Visit → Stage → Cpu → Prop
  | start {base : BitVec 64} {c : Cpu} : Exec img top base c [] .arg c
  | move {base : BitVec 64} {c c' : Cpu} {visits : List Visit}
      (run : Exec img top base c visits .arg c') :
      Exec img top base c visits .call ((Instr.move a0 sp).exec c')
  | jal {base : BitVec 64} {c c' : Cpu} {visits : List Visit}
      (run : Exec img top base c visits .call c') :
      Exec img top base c visits (.inTrap (trapframeAt c'.mem (c'.get a0)) (c'.pc + 4))
        ((Instr.jal img.trap).exec c')
  /-- Any code of `trap()`, which leaves the stack from the frame on upwards alone. -/
  | code {base : BitVec 64} {c c' c'' : Cpu} {visits : List Visit} {tf : Trapframe}
      {ra : BitVec 64} (run : Exec img top base c visits (.inTrap tf ra) c')
      (priv : c''.priv = .supervisor) (keep : ∀ a, OnStack top base a → c''.mem a = c'.mem a) :
      Exec img top base c visits (.inTrap tf ra) c''
  /-- A trap, taken with `sp` below the frame, that runs until `trap()` has returned with the `sp`
  it was called with, and then through `RESTORE_ALL` and `sret`. -/
  | trap {base : BitVec 64} {c c' e : Cpu} {visits inner : List Visit} {stage : Stage}
      {tf : Trapframe} {ra : BitVec 64} (run : Exec img top base c visits stage c')
      (cause tval : BitVec 64) (below : (top - base).toNat ≤ (top - c'.get sp).toNat)
      (room : (top - c'.get sp).toNat + 36 * 8 < 2 ^ 64)
      (handler : Exec img top (c'.get sp - 36 * 8) (img.saved cause tval c') inner
        (.inTrap tf ra) e)
      (ret : e.pc = ra) (sp_eq : e.get sp = c'.get sp - 36 * 8) :
      Exec img top base c (visits ++ inner ++ [⟨c', cause, tval, tf, restored e⟩]) stage
        (restored e)

/-- A trap taken from supervisor mode in the state `c`, until its `sret`, with the traps that
interrupt it. -/
inductive TrapRun (img : Image) (c : Cpu) : List Visit → Prop
  | mk {inner : List Visit} {tf : Trapframe} {ra : BitVec 64} {e : Cpu}
      (priv : c.priv = .supervisor) (cause tval : BitVec 64)
      (handler : Exec img (c.get sp) (c.get sp - 36 * 8) (img.saved cause tval c) inner
        (.inTrap tf ra) e)
      (ret : e.pc = ra) (sp_eq : e.get sp = c.get sp - 36 * 8) :
      TrapRun img c (inner ++ [⟨c, cause, tval, tf, restored e⟩])

/-- The frame of a trap shows the registers, and the trap restores them. -/
structure Visit.Faithful (v : Visit) : Prop where
  frame : v.frame = expectedFrame v.before v.cause v.tval
  regs : ∀ r, v.after.get r = v.before.get r
  pc : v.after.pc = v.before.pc
  sie : sie v.after.sstatus = sie v.before.sstatus
  priv : v.after.priv = v.before.priv

end CertiCore
