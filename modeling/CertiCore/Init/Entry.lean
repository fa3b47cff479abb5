import CertiCore.Mm.PhysMem

/-!
# `kern/init/entry.S`

The code that the kernel begins with, and the page table that it installs.
-/

namespace CertiCore

/-! ## Addresses in instructions -/

/-- `%hi(a)`, which makes up for the sign of `%lo(a)`. -/
def hi (a : BitVec 64) : BitVec 20 := (a + 0x800).extractLsb' 12 20

/-- `%lo(a)`. -/
def lo (a : BitVec 64) : BitVec 12 := a.setWidth 12

/-- What `lui` puts into its register. -/
def lui (imm : BitVec 20) : BitVec 64 := (imm ++ (0 : BitVec 12)).signExtend 64

/-- What `addi` puts into its register. -/
def addi (rs : BitVec 64) (imm : BitVec 12) : BitVec 64 := rs + imm.signExtend 64

/-! ## The code -/

/-- The addresses of the symbols that the code uses. -/
structure Symbols where
  boot_page_table_sv39 : BitVec 64
  bootstack : BitVec 64
  kern_init : BitVec 64

/-- What the code leaves in `satp`, in `sp` and in the program counter. -/
structure Entered where
  satp : BitVec 64
  sp : BitVec 64
  pc : BitVec 64

def kernEntry (img : Symbols) : Entered :=
  let t0 := lui (hi img.boot_page_table_sv39)
  let t1 := (0xFFFFFFFFC0000000 : BitVec 64) - 0x80000000
  let t0 := t0 - t1
  let t0 := t0 >>> 12
  let t1 := (8 : BitVec 64) <<< 60
  let t0 := t0 ||| t1
  let satp := t0
  let sp := lui (hi (img.bootstack + KSTACKSIZE))
  let t0 := lui (hi img.kern_init)
  let t0 := addi t0 (lo img.kern_init)
  ⟨satp, sp, t0⟩

/-! ## The data -/

/-- `boot_page_table_sv39`. The last entry maps `0xffffffffc0000000` to `0x80000000`. -/
def bootPageTableSv39 : List (BitVec 64) :=
  List.replicate 511 (0 : BitVec 64) ++ [(0x80000 : BitVec 64) <<< 10 ||| 0xCF]

end CertiCore
