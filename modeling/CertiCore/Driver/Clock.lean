import CertiCore.Libs.Riscv

/-!
# `kern/driver/clock.c`

The tick counter and the timer, with the part of the machine that they and the trap handlers act on.
-/

namespace CertiCore

/-- What the kernel does to the outside: console output and calls of the firmware. -/
inductive Event where
  | cprintf (fmt : String) (args : List (BitVec 64))
  | sbiSetTimer (stime_value : BitVec 64)
  deriving DecidableEq

/-- The globals and registers that the handlers use, and what they have done to the outside. -/
structure Kernel where
  /-- The variable `ticks`. -/
  ticks : BitVec 64
  /-- The register `sie`. -/
  sie : BitVec 64
  log : List Event

def cprintf (fmt : String) (args : List (BitVec 64)) (k : Kernel) : Kernel :=
  { k with log := k.log ++ [.cprintf fmt args] }

def sbiSetTimer (stime_value : BitVec 64) (k : Kernel) : Kernel :=
  { k with log := k.log ++ [.sbiSetTimer stime_value] }

def timebase : BitVec 64 := 100000

/-- `clock_set_next_event`, where `get_cycles` reads `time`. -/
def clockSetNextEvent (time : BitVec 64) (k : Kernel) : Kernel := sbiSetTimer (time + timebase) k

def clockInit (time : BitVec 64) (k : Kernel) : Kernel :=
  let k := { k with sie := setCsr k.sie MIP_STIP }
  let k := clockSetNextEvent time k
  let k := { k with ticks := 0 }
  cprintf "++ setup timer interrupts\n" [] k

end CertiCore
