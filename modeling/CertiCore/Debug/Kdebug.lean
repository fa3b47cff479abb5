import CertiCore.Libs.Stdio

/-!
# `kern/debug/kdebug.c`
-/

namespace CertiCore

/-- A call of `__panic`: where it is made, and with which message. -/
structure PanicCall where
  file : List Byte
  line : BitVec 64
  fmt : List Byte
  ap : List VaArg

/-- The symbols that `print_kerninfo` prints. -/
structure KerninfoSymbols where
  kern_init : BitVec 64
  etext : BitVec 64
  edata : BitVec 64
  end_ : BitVec 64

def printKerninfo (img : KerninfoSymbols) : List Output :=
  [.cprintf (cstr "Special kernel symbols:\n") [],
    .cprintf (cstr "  entry  0x%016lx (virtual)\n") [.word img.kern_init],
    .cprintf (cstr "  etext  0x%016lx (virtual)\n") [.word img.etext],
    .cprintf (cstr "  edata  0x%016lx (virtual)\n") [.word img.edata],
    .cprintf (cstr "  end    0x%016lx (virtual)\n") [.word img.end_],
    .cprintf (cstr "Kernel executable memory footprint: %dKB\n")
      [.word ((img.end_ - img.kern_init + 1023).sdiv 1024)]]

/-- `print_stackframe`, which is not implemented. -/
def printStackframe : Except PanicCall (List Output) :=
  .error ⟨cstr "kern/debug/kdebug.c", 91, cstr "Not Implemented!", []⟩

end CertiCore
