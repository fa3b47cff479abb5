import CertiCore.Debug.Proofs.AssertProofs
import CertiCore.Mm.PageInit
import CertiCore.Mm.Proofs.LedgerProofs
import CertiCore.Mm.Proofs.PhysMemProofs

/-!
# Proofs: which pages are free after boot

`page_init` tests whether there is free memory with the end of the kernel image as it is, and hands
over the memory from the next page boundary on. It matters where the image ends in the last page.
-/

namespace CertiCore

open Pmm

variable {N : PoolSize}

/-! ## `page_init` -/

/-- The part of `page_init` after the loop over the pages. -/
theorem exec_bootPages (end_ : BitVec 64) (s₀ : Pmm N) {freemem : BitVec 64}
    (hpa : PADDR N.physMem end_ = .ok freemem) :
    (bootPages end_).exec s₀ =
      if freemem < N.physMem.npage * PGSIZE then
        match pa2page N.physMem (ROUNDUP freemem PGSIZE) with
        | .error h => (.error h, pageInitState s₀)
        | .ok base =>
          match (defaultInitMemmap base
              ((N.physMem.npage * PGSIZE - ROUNDUP freemem PGSIZE) / PGSIZE)).run
              (pageInitState s₀) with
          | (init_ret, s) => (if init_ret = 0 then .ok N.physMem
              else .error (.panic "assertion failed: %s" [.str "init_ret == 0"]), s)
      else (.ok N.physMem, pageInitState s₀) := by
  have hclamp : ¬ N.physMem.npage * PGSIZE < N.physMem.npage * PGSIZE := BitVec.lt_irrefl _
  have hstate : (pageInitLoop.run (initPmmManager.run s₀).2).2 = pageInitState s₀ := by
    unfold pageInitState initPmmManager
    simp only [Prog.run_bind]
    rfl
  unfold bootPages pageInit
  simp only [ROUNDDOWN_KERNEL_MEMEND_PADDR, HaltT.exec_bind, HaltT.exec_lift,
    HaltT.exec_liftExcept, HaltT.exec_ite, hpa, gt_iff_lt, if_neg hclamp, hstate, exec_assert]
  by_cases hlt : freemem < N.physMem.npage * PGSIZE
  · rw [if_pos hlt, if_pos hlt]
    rcases pa2page N.physMem (ROUNDUP freemem PGSIZE) with h | base
    · rfl
    · dsimp only
      rcases (defaultInitMemmap base ((N.physMem.npage * PGSIZE - ROUNDUP freemem PGSIZE) /
        PGSIZE)).run (pageInitState s₀) with ⟨init_ret, s⟩
      by_cases h0 : init_ret = 0
      · simp only [if_pos h0]
        rfl
      · simp only [if_neg h0]
  · rw [if_neg hlt, if_neg hlt]
    rfl

section Boot

variable {end_ freemem : BitVec 64} (s₀ : Pmm N)

/-- `PADDR` rejects the address of `end`. -/
theorem exec_bootPages_of_error {x : Halt} (hpa : PADDR N.physMem end_ = .error x) :
    (bootPages end_).exec s₀ = (.error x, pageInitState s₀) := by
  have hstate : (pageInitLoop.run (initPmmManager.run s₀).2).2 = pageInitState s₀ := by
    unfold pageInitState initPmmManager
    simp only [Prog.run_bind]
    rfl
  unfold bootPages pageInit
  simp only [HaltT.exec_bind, HaltT.exec_lift, HaltT.exec_liftExcept, hpa, hstate]

/-- `init_memmap` accepts every range of the pool in the state in which `page_init` calls it. -/
theorem run_defaultInitMemmap_pageInitState {base n : SizeT} (hin : InPool N base n) :
    (defaultInitMemmap base n).run (pageInitState s₀) =
      (0, (pageInitState s₀).handOver base n) := by
  have hcode : (pageInitState s₀).initMemmapCode base n = 0 := by
    rw [initMemmapCode_eq_zero_iff]
    refine ⟨hin, fun p _ => ?_⟩
    exact ⟨reserved_pageInitState s₀ p, allocated_pageInitState s₀ p⟩
  rw [run_defaultInitMemmap, hcode, if_pos rfl]

/-- At least one page lies behind the kernel image: it and those after it are handed over. -/
theorem exec_bootPages_of_le (hpa : PADDR N.physMem end_ = .ok freemem)
    (hlo : 0x80200000 ≤ freemem.toNat)
    (hhi : freemem.toNat + 4096 ≤ 0x80200000 + N.NPAGE * 4096) :
    ∃ base n : SizeT, base.toNat = (freemem.toNat + 4095) / 4096 - 0x80200 ∧
      InPool N base n ∧ base.toNat + n.toNat = N.NPAGE ∧
      (bootPages end_).exec s₀ = (.ok N.physMem, (pageInitState s₀).handOver base n) := by
  have hN := N.lt_two_pow
  have hup : (ROUNDUP freemem PGSIZE).toNat = (freemem.toNat + 4095) / 4096 * 4096 :=
    toNat_ROUNDUP_PGSIZE (by omega)
  have hppn : (PPN (ROUNDUP freemem PGSIZE)).toNat = (freemem.toNat + 4095) / 4096 := by
    rw [toNat_PPN, hup]
    omega
  have hbase : (PPN (ROUNDUP freemem PGSIZE) - NBASE).toNat =
      (freemem.toNat + 4095) / 4096 - 0x80200 := by
    rw [BitVec.toNat_sub_of_le (by rw [BitVec.le_def, NBASE_toNat]; omega), hppn, NBASE_toNat]
  have hn : ((N.physMem.npage * PGSIZE - ROUNDUP freemem PGSIZE) / PGSIZE).toNat =
      0x80200 + N.NPAGE - (freemem.toNat + 4095) / 4096 := by
    have hle : ROUNDUP freemem PGSIZE ≤ N.physMem.npage * PGSIZE := by
      rw [BitVec.le_def, hup, toNat_physMem_end]
      omega
    rw [BitVec.toNat_udiv, BitVec.toNat_sub_of_le hle, toNat_physMem_end, hup, PGSIZE_toNat]
    omega
  have hin : InPool N (PPN (ROUNDUP freemem PGSIZE) - NBASE)
      ((N.physMem.npage * PGSIZE - ROUNDUP freemem PGSIZE) / PGSIZE) := ⟨by omega, by omega⟩
  have hlt : freemem < N.physMem.npage * PGSIZE := by
    rw [BitVec.lt_def, toNat_physMem_end]
    omega
  refine ⟨_, _, hbase, hin, by omega, ?_⟩
  rw [exec_bootPages end_ s₀ hpa, if_pos hlt, pa2page_eq, if_neg (by omega)]
  simp only [run_defaultInitMemmap_pageInitState s₀ hin, if_true]

/-- The image ends inside the last page: the test sees free memory, but the next page boundary is
the end of the memory, which `pa2page` rejects. -/
theorem exec_bootPages_last_page (hpa : PADDR N.physMem end_ = .ok freemem)
    (hlo : 0x80200000 + N.NPAGE * 4096 < freemem.toNat + 4096)
    (hhi : freemem.toNat < 0x80200000 + N.NPAGE * 4096) :
    (bootPages end_).exec s₀ =
      (.error (.panic "pa2page called with invalid pa" []), pageInitState s₀) := by
  have hN := N.lt_two_pow
  have hup : (ROUNDUP freemem PGSIZE).toNat = (freemem.toNat + 4095) / 4096 * 4096 :=
    toNat_ROUNDUP_PGSIZE (by omega)
  have hlt : freemem < N.physMem.npage * PGSIZE := by
    rw [BitVec.lt_def, toNat_physMem_end]
    exact hhi
  rw [exec_bootPages end_ s₀ hpa, if_pos hlt, pa2page_eq, if_pos (by omega)]

/-- The image fills the memory: nothing is handed over. -/
theorem exec_bootPages_full (hpa : PADDR N.physMem end_ = .ok freemem)
    (hfull : freemem.toNat = 0x80200000 + N.NPAGE * 4096) :
    (bootPages end_).exec s₀ = (.ok N.physMem, pageInitState s₀) := by
  have hlt : ¬ freemem < N.physMem.npage * PGSIZE := by
    rw [BitVec.lt_def, toNat_physMem_end]
    omega
  rw [exec_bootPages end_ s₀ hpa, if_neg hlt]

end Boot

/-- `page_init` returns; exactly the pages behind the kernel image are available, the others are
reserved, and `nr_free` counts the available ones. -/
def BootsWell (N : PoolSize) (end_ : BitVec 64) (s₀ : Pmm N) : Prop :=
  ∃ g freemem s, (bootPages end_).exec s₀ = (.ok g, s) ∧ PADDR g end_ = .ok freemem ∧
    (∀ i : Fin N.NPAGE, s.available i = true ↔
      freemem.toNat ≤ KERNEL_BEGIN_PADDR.toNat + i * PGSIZE.toNat) ∧
    (∀ i, s.available i = false → s.reserved i = true) ∧ s.nrFree.toNat = s.availableCount

theorem availableCount_handOver_pageInitState (s₀ : Pmm N) {base n : SizeT}
    (hin : InPool N base n) :
    ((pageInitState s₀).handOver base n).nrFree.toNat =
      ((pageInitState s₀).handOver base n).availableCount := by
  have hdisj : Disjoint (pageRange N base n) (Ledger.empty (α := Fin N.NPAGE)).managed :=
    Finset.disjoint_empty_right _
  have hrep : Represents ((pageInitState s₀).handOver base n)
      (Ledger.empty.handOver (pageRange N base n)) := (representsEmpty s₀).handOver
  rw [hrep.availableCount_eq]
  exact (countsEmpty s₀).handOver hin.2 hdisj

theorem available_handOver_pageInitState (s₀ : Pmm N) (base n : SizeT) (i : Fin N.NPAGE) :
    ((pageInitState s₀).handOver base n).available i = decide (i ∈ pageRange N base n) ∧
      ((pageInitState s₀).handOver base n).reserved i = decide (i ∉ pageRange N base n) := by
  rw [available, reserved_handOver, allocated_handOver, reserved_pageInitState,
    allocated_pageInitState]
  by_cases hi : i ∈ pageRange N base n
  · simp [hi]
  · simp [hi]

/-- `page_init` does what it is for unless the kernel image ends strictly inside the last page. -/
theorem page_init_iff (hN : N.Fits) {end_ : BitVec 64} (hlo : KERNBASE ≤ end_)
    (hhi : end_ ≤ N.KERNTOP) (s₀ : Pmm N) :
    BootsWell N end_ s₀ ↔
      end_.toNat + PGSIZE.toNat ≤ N.KERNTOP.toNat ∨ end_ = N.KERNTOP := by
  have htop := toNat_KERNTOP hN
  obtain ⟨freemem, hpa, hfree⟩ := PADDR_eq N hlo
  rw [BitVec.le_def, KERNBASE_toNat] at hlo
  rw [BitVec.le_def, htop] at hhi
  rw [← BitVec.toNat_inj, htop, PGSIZE_toNat]
  constructor
  · rintro ⟨g, -, s, hexec, -⟩
    by_contra hnot
    rw [not_or] at hnot
    rw [exec_bootPages_last_page s₀ hpa (by omega) (by omega)] at hexec
    exact nomatch hexec
  · rintro (hle | hfull)
    · obtain ⟨base, n, hfirst, hin, hlast, hexec⟩ :=
        exec_bootPages_of_le s₀ hpa (by omega) (by omega)
      refine ⟨_, freemem, _, hexec, hpa, fun i => ?_, fun i => ?_,
        availableCount_handOver_pageInitState s₀ hin⟩
      · rw [(available_handOver_pageInitState s₀ base n i).1, decide_eq_true_iff, mem_pageRange,
          KERNEL_BEGIN_PADDR_toNat, PGSIZE_toNat]
        omega
      · obtain ⟨hav, hres⟩ := available_handOver_pageInitState s₀ base n i
        rw [hav, hres, decide_eq_false_iff_not, decide_eq_true_iff]
        exact id
    · refine ⟨_, freemem, _, exec_bootPages_full s₀ hpa (by omega), hpa, fun i => ?_, fun i _ => ?_,
        ?_⟩
      · rw [available, reserved_pageInitState, KERNEL_BEGIN_PADDR_toNat, PGSIZE_toNat]
        refine iff_of_false Bool.false_ne_true ?_
        omega
      · exact reserved_pageInitState s₀ i
      · rw [(representsEmpty s₀).availableCount_eq]
        exact countsEmpty s₀

/-- The build for verification, with an image of one page and a half. -/
theorem page_init_iff_second_page :
    BootsWell .verif 0xFFFFFFFFC0201800 (⟨fun _ => 3, 17⟩ : Pmm .verif) :=
  (page_init_iff (N := .verif) (by decide) (by decide) (by decide) ⟨fun _ => 3, 17⟩).mpr
    (Or.inl (by decide))

/-- The kernel image ends eight bytes before the end of the memory. -/
theorem page_init_panics :
    ¬ ∀ (N : PoolSize) (end_ : BitVec 64) (s₀ : Pmm N), N.Fits → KERNBASE ≤ end_ →
      end_ ≤ N.KERNTOP → BootsWell N end_ s₀ := by
  intro h
  obtain ⟨g, -, s, hexec, -⟩ :=
    h .kernel 0xFFFFFFFFC11FFFF8 ⟨fun _ => 0, 0⟩ (by decide) (by decide) (by decide)
  have hbase : KERNBASE ≤ 0xFFFFFFFFC11FFFF8 := by decide
  obtain ⟨freemem, hpa, hfree⟩ := PADDR_eq .kernel hbase
  have hend : (0xFFFFFFFFC11FFFF8 : BitVec 64).toNat = 0xFFFFFFFFC11FFFF8 := rfl
  have hpages : PoolSize.kernel.NPAGE = 0x1000 := rfl
  rw [exec_bootPages_last_page _ hpa (by omega) (by omega)] at hexec
  exact nomatch hexec

end CertiCore
