import CertiCore.Mm.Pmm
import CertiCore.Mm.Proofs.PoolProofs

/-!
# Proofs: a balanced run restores the pool

Frees commute, and a free right after its allocation restores the flag words and the counter, also
if the allocation failed.
-/

namespace CertiCore

open Pmm

variable {N : PoolSize}

theorem free_free_comm (s : Pmm N) (b n b' n' : SizeT) :
    (s.free b n).free b' n' = (s.free b' n').free b n := by
  refine Pmm.ext (funext fun p => ?_) ?_
  · simp only [Pmm.free, Pmm.mapRange]
    by_cases h : p ∈ pageRange N b n
    · by_cases h' : p ∈ pageRange N b' n'
      · simp only [if_pos h, if_pos h']
      · simp only [if_pos h, if_neg h']
    · simp only [if_neg h]
  · show s.nrFree + n + n' = s.nrFree + n' + n
    rw [BitVec.add_assoc, BitVec.add_comm n, ← BitVec.add_assoc]

theorem freePages_comm (s : Pmm N) (b n b' n' : SizeT) :
    ((defaultFreePages b' n').run ((defaultFreePages b n).run s).2).2 =
      ((defaultFreePages b n).run ((defaultFreePages b' n').run s).2).2 := by
  simp only [run_defaultFreePages]
  by_cases h : InPool N b n
  · by_cases h' : InPool N b' n'
    · simp only [if_pos h, if_pos h', free_free_comm s b n]
    · simp only [if_neg h']
  · simp only [if_neg h]

/-- The pages of a new block were not allocated before, so clearing their bits restores them. -/
theorem free_allocate {s : Pmm N} {b n : SizeT}
    (havail : ∀ p ∈ pageRange N b n, s.available p = true) : (s.allocate b n).free b n = s := by
  refine Pmm.ext (funext fun p => ?_) ?_
  · simp only [Pmm.free, Pmm.allocate, Pmm.mapRange]
    by_cases hp : p ∈ pageRange N b n
    · have hbit : (s.flags p).getLsbD PG_allocated = false := by
        have hav := havail p hp
        rw [Pmm.available, Bool.and_eq_true, Pmm.allocated, testBit_eq_getLsbD] at hav
        simpa using hav.2
      simp only [if_pos hp]
      exact clearBit_setBit PG_allocated_lt hbit
    · simp only [if_neg hp]
  · show s.nrFree - n + n = s.nrFree
    exact BitVec.sub_add_cancel s.nrFree n

/-- The sentinel of a failed allocation is refused by `free_pages`. -/
theorem not_inPool_NULLPAGE (n : SizeT) : ¬ InPool N NULLPAGE n := by
  have := N.le_nullpage
  rintro ⟨h1, h2⟩
  omega

/-- Freeing what `alloc_pages` returned, right after the call, restores the state. -/
theorem freePages_allocPages {s s' : Pmm N} {n page : SizeT}
    (call : (defaultAllocPages n).run s = (page, s')) :
    ((defaultFreePages page n).run s').2 = s := by
  have hcases := run_defaultAllocPages n s
  rw [starts_avail] at hcases
  rcases hcases with ⟨b, hpos, hleast, hrun⟩ | ⟨-, hrun⟩
  · obtain ⟨rfl, rfl⟩ := Prod.mk.inj (hrun.symm.trans call)
    obtain ⟨hfit, hfree⟩ := hleast.1
    rw [run_defaultFreePages, if_pos ⟨hpos, hfit⟩]
    refine free_allocate fun p hp => ?_
    rw [mem_pageRange] at hp
    exact hfree p hp.1 hp.2
  · obtain ⟨rfl, rfl⟩ := Prod.mk.inj (hrun.symm.trans call)
    rw [run_defaultFreePages, if_neg (not_inPool_NULLPAGE n)]

/-- A run in which every allocation, failed or not, is freed exactly once ends with the flag words
and the `nr_free` it began with, in whatever order it frees. -/
theorem balanced_run_restores {s₀ s : Pmm N} (h : BalancedRun s₀ s 0) : s = s₀ := by
  have : RightCommutative fun (s : Pmm N) (block : SizeT × SizeT) =>
      ((defaultFreePages block.1 block.2).run s).2 :=
    ⟨fun s block block' => freePages_comm s block.1 block.2 block'.1 block'.2⟩
  exact h.eq_of_balanced fun s block s' call => freePages_allocPages call

/-- Page 1 of the verification build is taken; three allocations, of which the second fails, are
freed in the order in which they were made. -/
theorem balanced_run_restores_in_order :
    exec [.allocPages 1, .allocPages 9, .allocPages 2, .freePages 0 1, .freePages NULLPAGE 9,
      .freePages 2 2] (⟨fun p => if p.val = 1 then 3 else 240, 17⟩ : Pmm .verif) =
      ⟨fun p => if p.val = 1 then 3 else 240, 17⟩ := by
  have hrun : BalancedRun (⟨fun p => if p.val = 1 then 3 else 240, 17⟩ : Pmm .verif) _ _ :=
    .release (k := (2, 2)) (by decide)
      (.release (k := (NULLPAGE, 9)) (by decide)
        (.release (k := (0, 1)) (by decide)
          (.acquire (k := (2, 2)) (Prod.ext (by decide) rfl)
            (.acquire (k := (NULLPAGE, 9)) (Prod.ext (by decide) rfl)
              (.acquire (k := (0, 1)) (Prod.ext (by decide) rfl) .start)))))
  exact balanced_run_restores hrun

end CertiCore
