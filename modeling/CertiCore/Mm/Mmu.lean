import CertiCore.Mm.PhysMem

/-!
# `kern/mm/mmu.h`: addresses and page table entries in Sv39

A linear address consists of three indexes of 9 bits and an offset of 12 bits, and an entry of a
page number above 10 bits that are flags and bits for software.
-/

namespace CertiCore

def SV39_VPN0SHIFT : ℕ := 12

def SV39_VPN1SHIFT : ℕ := 21

def SV39_VPN2SHIFT : ℕ := 30

def SV39_PTE_PPN_SHIFT : ℕ := 10

def SV39_VPN0 (la : BitVec 64) : BitVec 64 := (la >>> SV39_VPN0SHIFT) &&& 0x1FF

def SV39_VPN1 (la : BitVec 64) : BitVec 64 := (la >>> SV39_VPN1SHIFT) &&& 0x1FF

def SV39_VPN2 (la : BitVec 64) : BitVec 64 := (la >>> SV39_VPN2SHIFT) &&& 0x1FF

def SV39_VPN (la : BitVec 64) (n : ℕ) : BitVec 64 := (la >>> 12 >>> (9 * n)) &&& 0x1FF

def SV39_PGADDR (v2 v1 v0 o : BitVec 64) : BitVec 64 :=
  v2 <<< SV39_VPN2SHIFT ||| v1 <<< SV39_VPN1SHIFT ||| v0 <<< SV39_VPN0SHIFT ||| o

/-- `SV39_PTE_ADDR`. The mask is an `int`. -/
def SV39_PTE_ADDR (pte : BitVec 64) : BitVec 64 :=
  (pte &&& (~~~(0x1FF : BitVec 32)).signExtend 64) <<< 3

end CertiCore
