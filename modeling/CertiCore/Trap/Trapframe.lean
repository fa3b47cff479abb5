import Mathlib.Data.BitVec

/-!
# The structures of `kern/trap/trap.h`
-/

namespace CertiCore

@[ext] structure PushRegs where
  zero : BitVec 64
  ra : BitVec 64
  sp : BitVec 64
  gp : BitVec 64
  tp : BitVec 64
  t0 : BitVec 64
  t1 : BitVec 64
  t2 : BitVec 64
  s0 : BitVec 64
  s1 : BitVec 64
  a0 : BitVec 64
  a1 : BitVec 64
  a2 : BitVec 64
  a3 : BitVec 64
  a4 : BitVec 64
  a5 : BitVec 64
  a6 : BitVec 64
  a7 : BitVec 64
  s2 : BitVec 64
  s3 : BitVec 64
  s4 : BitVec 64
  s5 : BitVec 64
  s6 : BitVec 64
  s7 : BitVec 64
  s8 : BitVec 64
  s9 : BitVec 64
  s10 : BitVec 64
  s11 : BitVec 64
  t3 : BitVec 64
  t4 : BitVec 64
  t5 : BitVec 64
  t6 : BitVec 64

@[ext] structure Trapframe where
  gpr : PushRegs
  status : BitVec 64
  epc : BitVec 64
  badvaddr : BitVec 64
  cause : BitVec 64

end CertiCore
