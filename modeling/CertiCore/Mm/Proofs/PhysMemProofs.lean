import CertiCore.Mm.PhysMem
import CertiCore.Mm.Proofs.PoolProofs

/-!
# Proofs: addresses and page numbers

`pa2page` rejects the addresses behind the managed memory, but not those in front of it, for which
its subtraction wraps to the number of a page that does not exist.
-/

namespace CertiCore

variable {N : PoolSize}

/-! ## Addresses -/

theorem toNat_ROUNDDOWN (a n : SizeT) :
    (ROUNDDOWN a n).toNat = a.toNat / n.toNat * n.toNat := by
  have hle : a % n ≤ a := by
    rw [BitVec.le_def, BitVec.toNat_umod]
    exact Nat.mod_le _ _
  have hdiv := Nat.div_add_mod' a.toNat n.toNat
  rw [ROUNDDOWN, BitVec.toNat_sub_of_le hle, BitVec.toNat_umod]
  omega

theorem toNat_ROUNDUP {a n : SizeT} (hn : 0 < n.toNat) (h : a.toNat + n.toNat ≤ 2 ^ 64) :
    (ROUNDUP a n).toNat = (a.toNat + n.toNat - 1) / n.toNat * n.toNat := by
  have hsum : (a + n - 1).toNat = a.toNat + n.toNat - 1 := by
    rw [BitVec.toNat_sub, BitVec.toNat_add]
    simp only [BitVec.ofNat_eq_ofNat, BitVec.toNat_ofNat]
    omega
  rw [ROUNDUP, toNat_ROUNDDOWN, hsum]

theorem toNat_ROUNDUP_PGSIZE {pa : BitVec 64} (h : pa.toNat + 4096 ≤ 2 ^ 64) :
    (ROUNDUP pa PGSIZE).toNat = (pa.toNat + 4095) / 4096 * 4096 := by
  have hpos : 0 < PGSIZE.toNat := Nat.zero_lt_of_ne_zero (by simp)
  rw [toNat_ROUNDUP hpos h, PGSIZE_toNat]
  rfl

theorem toNat_PPN (pa : BitVec 64) : (PPN pa).toNat = pa.toNat / 4096 := by
  rw [PPN, BitVec.toNat_ushiftRight, Nat.shiftRight_eq_div_pow]
  rfl

theorem toNat_physMem_npage (N : PoolSize) : N.physMem.npage.toNat = 0x80200 + N.NPAGE := by
  have hN := N.lt_two_pow
  rw [PoolSize.physMem, BitVec.toNat_add, npage_toNat, NBASE_toNat]
  omega

theorem toNat_physMem_end (N : PoolSize) :
    (N.physMem.npage * PGSIZE).toNat = 0x80200000 + N.NPAGE * 4096 := by
  have hN := N.lt_two_pow
  rw [BitVec.toNat_mul, toNat_physMem_npage, PGSIZE_toNat]
  omega

theorem toNat_KMEMSIZE (N : PoolSize) : N.KMEMSIZE.toNat = N.NPAGE * 4096 := by
  have hN := N.lt_two_pow
  rw [PoolSize.KMEMSIZE, BitVec.toNat_mul, npage_toNat, PGSIZE_toNat]
  omega

theorem toNat_KERNEL_MEMEND_PADDR (N : PoolSize) :
    N.KERNEL_MEMEND_PADDR.toNat = 0x80200000 + N.NPAGE * 4096 := by
  have hN := N.lt_two_pow
  rw [PoolSize.KERNEL_MEMEND_PADDR, BitVec.toNat_add, toNat_KMEMSIZE, KERNEL_BEGIN_PADDR_toNat]
  omega

/-- The two computations of the end of the memory agree, and it is a page boundary. -/
theorem ROUNDDOWN_KERNEL_MEMEND_PADDR (N : PoolSize) :
    ROUNDDOWN N.KERNEL_MEMEND_PADDR PGSIZE = N.physMem.npage * PGSIZE := by
  rw [← BitVec.toNat_inj, toNat_ROUNDDOWN, toNat_KERNEL_MEMEND_PADDR, toNat_physMem_end,
    PGSIZE_toNat]
  omega

theorem PoolSize.Fits.le (h : N.Fits) : N.NPAGE ≤ 0x7E00 := by
  rw [PoolSize.Fits, KERNEL_BEGIN_PADDR_toNat, PHYSICAL_MEMORY_END_toNat, PGSIZE_toNat] at h
  omega

theorem toNat_KERNTOP (h : N.Fits) :
    N.KERNTOP.toNat = 0xFFFFFFFFC0200000 + N.NPAGE * 4096 := by
  have hle := h.le
  rw [PoolSize.KERNTOP, BitVec.toNat_add, toNat_KMEMSIZE, KERNBASE_toNat]
  omega

/-- `PADDR` subtracts the offset of the kernel's mapping from a kernel address. -/
theorem PADDR_of_le (N : PoolSize) {kva : BitVec 64} (h : KERNBASE ≤ kva) :
    PADDR N.physMem kva = .ok (kva - PHYSICAL_MEMORY_OFFSET) := by
  unfold PADDR
  rw [if_neg (BitVec.not_lt.mpr h)]
  rfl

theorem toNat_sub_PHYSICAL_MEMORY_OFFSET {va : BitVec 64} (h : PHYSICAL_MEMORY_OFFSET ≤ va) :
    (va - PHYSICAL_MEMORY_OFFSET).toNat + 0xFFFFFFFF40000000 = va.toNat := by
  have hle := h
  rw [BitVec.le_def, PHYSICAL_MEMORY_OFFSET_toNat] at hle
  rw [BitVec.toNat_sub_of_le h, PHYSICAL_MEMORY_OFFSET_toNat]
  omega

theorem PADDR_eq (N : PoolSize) {kva : BitVec 64} (h : KERNBASE ≤ kva) :
    ∃ pa, PADDR N.physMem kva = .ok pa ∧ pa.toNat + 0xFFFFFFFF40000000 = kva.toNat := by
  refine ⟨_, PADDR_of_le N h, toNat_sub_PHYSICAL_MEMORY_OFFSET ?_⟩
  have hoff : PHYSICAL_MEMORY_OFFSET ≤ KERNBASE := by decide
  exact BitVec.le_trans hoff h

/-! ## Pages -/

theorem pa2page_eq (pa : BitVec 64) :
    pa2page N.physMem pa = if 0x80200 + N.NPAGE ≤ pa.toNat / 4096 then
      .error (.panic "pa2page called with invalid pa" []) else .ok (PPN pa - NBASE) := by
  have hge : PPN pa ≥ N.physMem.npage ↔ 0x80200 + N.NPAGE ≤ pa.toNat / 4096 := by
    rw [ge_iff_le, BitVec.le_def, toNat_physMem_npage, toNat_PPN]
  unfold pa2page
  by_cases h : 0x80200 + N.NPAGE ≤ pa.toNat / 4096
  · rw [if_pos (hge.mpr h), if_pos h]
    rfl
  · rw [if_neg (mt hge.mp h), if_neg h]
    rfl

theorem toNat_page2ppn {i : SizeT} (hi : i.toNat < N.NPAGE) :
    (page2ppn N.physMem i).toNat = i.toNat + 0x80200 := by
  have hN := N.lt_two_pow
  rw [page2ppn, PoolSize.physMem, BitVec.toNat_add, NBASE_toNat]
  omega

theorem toNat_page2pa {i : SizeT} (hi : i.toNat < N.NPAGE) :
    (page2pa N.physMem i).toNat = (i.toNat + 0x80200) * 4096 := by
  have hN := N.lt_two_pow
  rw [page2pa, BitVec.toNat_shiftLeft, toNat_page2ppn hi, Nat.shiftLeft_eq, PGSHIFT]
  omega

/-- An address in front of the managed memory wraps to a number behind the last page. -/
theorem le_toNat_PPN_sub_NBASE {pa : BitVec 64} (h : pa < KERNEL_BEGIN_PADDR) :
    N.NPAGE ≤ (PPN pa - NBASE).toNat := by
  have hN := N.lt_two_pow
  rw [BitVec.lt_def, KERNEL_BEGIN_PADDR_toNat] at h
  rw [BitVec.toNat_sub, toNat_PPN, NBASE_toNat]
  omega

theorem toNat_PPN_sub_NBASE {pa : BitVec 64} (h : KERNEL_BEGIN_PADDR ≤ pa) :
    (PPN pa - NBASE).toNat + 0x80200 = pa.toNat / 4096 := by
  rw [BitVec.le_def, KERNEL_BEGIN_PADDR_toNat] at h
  have hle : NBASE ≤ PPN pa := by
    rw [BitVec.le_def, toNat_PPN, NBASE_toNat]
    omega
  rw [BitVec.toNat_sub_of_le hle, toNat_PPN, NBASE_toNat]
  omega

/-- `pa2page` finds the page of every address in it. -/
theorem pa2page_page2pa_add {i o : SizeT} (hi : i.toNat < N.NPAGE) (ho : o.toNat < PGSIZE.toNat) :
    pa2page N.physMem (page2pa N.physMem i + o) = .ok i := by
  have hN := N.lt_two_pow
  rw [PGSIZE_toNat] at ho
  have hadd : (page2pa N.physMem i + o).toNat = (i.toNat + 0x80200) * 4096 + o.toNat := by
    rw [BitVec.toNat_add, toNat_page2pa hi]
    omega
  have hle : KERNEL_BEGIN_PADDR ≤ page2pa N.physMem i + o := by
    rw [BitVec.le_def, hadd, KERNEL_BEGIN_PADDR_toNat]
    omega
  have hppn := toNat_PPN_sub_NBASE hle
  have hi' : PPN (page2pa N.physMem i + o) - NBASE = i := by
    rw [← BitVec.toNat_inj]
    omega
  rw [pa2page_eq, if_neg (by omega), hi']

/-- `pa2page` panics, or returns the number of the page that holds the address. -/
def Translated (N : PoolSize) (pa : BitVec 64) : Prop :=
  (∃ fmt args, pa2page N.physMem pa = .error (.panic fmt args)) ∨
    ∃ i, pa2page N.physMem pa = .ok i ∧ i.toNat < N.NPAGE ∧
      page2pa N.physMem i = ROUNDDOWN pa PGSIZE

theorem translated_of_le {pa : BitVec 64} (h : KERNEL_BEGIN_PADDR ≤ pa) : Translated N pa := by
  have hppn := toNat_PPN_sub_NBASE h
  by_cases hend : 0x80200 + N.NPAGE ≤ pa.toNat / 4096
  · left
    exact ⟨_, _, by rw [pa2page_eq, if_pos hend]⟩
  · right
    have hi : (PPN pa - NBASE).toNat < N.NPAGE := by omega
    refine ⟨_, by rw [pa2page_eq, if_neg hend], hi, ?_⟩
    rw [← BitVec.toNat_inj, toNat_page2pa hi, toNat_ROUNDDOWN, PGSIZE_toNat, hppn]

theorem not_translated_of_lt {pa : BitVec 64} (h : pa < KERNEL_BEGIN_PADDR) :
    ¬ Translated N pa := by
  have hwrap := le_toNat_PPN_sub_NBASE (N := N) h
  rw [BitVec.lt_def, KERNEL_BEGIN_PADDR_toNat] at h
  have hok : pa2page N.physMem pa = .ok (PPN pa - NBASE) := by
    rw [pa2page_eq, if_neg (by omega)]
  rintro (⟨fmt, args, herr⟩ | ⟨i, hi, hlt, -⟩)
  · rw [hok] at herr
    cases herr
  · rw [hok] at hi
    cases hi
    omega

/-- `pa2page` is the inverse of `page2pa` on the managed memory, and what it does with any other
address is right exactly for the addresses that are not in front of it. -/
theorem pa2page_iff (N : PoolSize) :
    (∀ i o : SizeT, i.toNat < N.NPAGE → o.toNat < PGSIZE.toNat →
      pa2page N.physMem (page2pa N.physMem i + o) = .ok i) ∧
    ∀ pa, Translated N pa ↔ KERNEL_BEGIN_PADDR ≤ pa := by
  refine ⟨fun i o hi ho => pa2page_page2pa_add hi ho, fun pa => ⟨fun h => ?_, translated_of_le⟩⟩
  by_contra hlt
  exact not_translated_of_lt (BitVec.not_le.mp hlt) h

/-- The address 0 gets the number of a page that does not exist. -/
theorem pa2page_front : ¬ ∀ (N : PoolSize) (pa : BitVec 64), N.Fits → Translated N pa := by
  intro h
  have hlt : 0 < KERNEL_BEGIN_PADDR := by decide
  exact not_translated_of_lt hlt (h .kernel 0 (by decide))

end CertiCore
