import CertiCore.Mm.Proofs.PoolProofs
import CertiCore.Verif.LlvmNi

/-!
# Proofs: the unwinding conditions of the safety policy

A range update reads and writes flag words of its range only. Whether the pool is updated at all
depends on the arguments and, for `init_memmap`, on flag words of the range.
-/

namespace CertiCore

variable {N : PoolSize} {base num : SizeT} {s t : Pmm N} {u : Fin N.NPAGE}

theorem unwinding_equivalence (u : Fin N.NPAGE) : Equivalence (unwinding (N := N) u) :=
  ⟨fun _ => rfl, Eq.symm, Eq.trans⟩

/-! ## Range updates -/

variable {f : BitVec 64 → BitVec 64}

theorem unwinding_mapRange_left (hin : InPool N base num) (hu : ¬ inRange base num u) :
    unwinding u (s.mapRange f base num) s := by
  exact if_neg (mt (inRange_iff hin.2 u).mpr hu)

theorem unwinding_mapRange (h : unwinding u s t) :
    unwinding u (s.mapRange f base num) (t.mapRange f base num) := by
  unfold unwinding Pmm.mapRange
  simp only [show s.flags u = t.flags u from h]

/-! ## `default_free_pages` -/

theorem freePages_local_respect (hu : ¬ inRange base num u) (s : Pmm N) :
    unwinding u ((defaultFreePages base num).run s).2 s := by
  rw [run_defaultFreePages]
  by_cases hin : InPool N base num
  · rw [if_pos hin]
    exact unwinding_mapRange_left hin hu
  · rw [if_neg hin]
    exact (unwinding_equivalence u).refl s

theorem freePages_weak_step_consistency (h : unwinding u s t) :
    unwinding u ((defaultFreePages base num).run s).2 ((defaultFreePages base num).run t).2 := by
  rw [run_defaultFreePages, run_defaultFreePages]
  by_cases hin : InPool N base num
  · rw [if_pos hin, if_pos hin]
    exact unwinding_mapRange h
  · rw [if_neg hin, if_neg hin]
    exact h

/-! ## `default_init_memmap` -/

theorem initMemmap_local_respect (hu : ¬ inRange base num u) (s : Pmm N) :
    unwinding u ((defaultInitMemmap base num).run s).2 s := by
  rw [run_defaultInitMemmap]
  by_cases hcode : s.initMemmapCode base num = 0
  · rw [if_pos hcode]
    exact unwinding_mapRange_left ((initMemmapCode_eq_zero_iff base num s).mp hcode).1 hu
  · rw [if_neg hcode]
    exact (unwinding_equivalence u).refl s

/-- The validation loops find the same in two states that agree on the range. -/
theorem exists_mem_pageRange_congr {q : BitVec 64 → Prop}
    (hagree : ∀ x ∈ pageRange N base num, unwinding x s t) :
    (∃ p ∈ pageRange N base num, q (s.flags p)) ↔ ∃ p ∈ pageRange N base num, q (t.flags p) := by
  refine exists_congr fun p => and_congr_right fun hp => ?_
  rw [show s.flags p = t.flags p from hagree p hp]

/-- The code depends on the flag words of the range only, and on none if the range is not in the
pool. -/
theorem initMemmapCode_congr (hagree : ∀ x, inRange base num x → unwinding x s t) :
    s.initMemmapCode base num = t.initMemmapCode base num := by
  unfold Pmm.initMemmapCode
  by_cases hfit : N.NPAGE < base.toNat + num.toNat
  · simp only [if_pos hfit]
  · have hrange : ∀ x ∈ pageRange N base num, unwinding x s t := fun x hx =>
      hagree x ((inRange_iff (Nat.le_of_not_lt hfit) x).mpr hx)
    have hreserved : (∃ p ∈ pageRange N base num, s.reserved p = false) ↔
        ∃ p ∈ pageRange N base num, t.reserved p = false :=
      exists_mem_pageRange_congr (q := fun word => testBit PG_reserved word = false) hrange
    have hallocated : (∃ p ∈ pageRange N base num, s.allocated p = true) ↔
        ∃ p ∈ pageRange N base num, t.allocated p = true :=
      exists_mem_pageRange_congr (q := fun word => testBit PG_allocated word = true) hrange
    simp only [hreserved, hallocated]

theorem initMemmap_weak_step_consistency (h : unwinding u s t)
    (hagree : ∀ x, inRange base num x → unwinding x s t) :
    unwinding u ((defaultInitMemmap base num).run s).2 ((defaultInitMemmap base num).run t).2 ∧
      ((defaultInitMemmap base num).run s).1 = ((defaultInitMemmap base num).run t).1 := by
  rw [run_defaultInitMemmap, run_defaultInitMemmap, initMemmapCode_congr hagree]
  refine ⟨?_, rfl⟩
  by_cases hcode : t.initMemmapCode base num = 0
  · rw [if_pos hcode, if_pos hcode]
    exact unwinding_mapRange h
  · rw [if_neg hcode, if_neg hcode]
    exact h

/-! ## The policy -/

/-- Local respect and weak step consistency of both operations, for every pool size and for every
range, wrapping or not. -/
theorem ni_unwinding_conditions (op : NiOp) (base num : SizeT) (u : Fin N.NPAGE) :
    (∀ s, ¬ inRange base num u → unwinding u ((op.impl base num).run s).2 s) ∧
    (∀ s t, unwinding u s t → (∀ x, inRange base num x → unwinding x s t) →
      unwinding u ((op.impl base num).run s).2 ((op.impl base num).run t).2 ∧
        ((op.impl base num).run s).1 = ((op.impl base num).run t).1) := by
  cases op with
  | freePages =>
    simp only [NiOp.impl, Prog.run_bind, Prog.run_pure]
    refine ⟨fun s hu => ?_, fun s t h _ => ⟨?_, trivial⟩⟩
    · exact freePages_local_respect hu s
    · exact freePages_weak_step_consistency h
  | initMemmap =>
    simp only [NiOp.impl, Prog.run_bind, Prog.run_pure]
    refine ⟨fun s hu => ?_, fun s t h hagree => ?_⟩
    · exact initMemmap_local_respect hu s
    · obtain ⟨hflags, hcode⟩ := initMemmap_weak_step_consistency h hagree
      exact ⟨hflags, congrArg some hcode⟩

/-! ## Runs -/

open Noninterference

theorem niPolicy_stepConsistent (N : PoolSize) :
    StepConsistent (niPolicy N) unwinding NiCall.step := by
  rintro ⟨op, base, num⟩ u s t h hreads
  cases op with
  | freePages =>
    simp only [NiCall.step, NiOp.impl, Prog.run_bind, Prog.run_pure]
    exact freePages_weak_step_consistency h
  | initMemmap =>
    simp only [NiCall.step, NiOp.impl, Prog.run_bind, Prog.run_pure]
    by_cases hu : inRange base num u
    · exact (initMemmap_weak_step_consistency h (hreads hu)).1
    · have hs := initMemmap_local_respect hu s
      have ht := initMemmap_local_respect hu t
      exact hs.trans (h.trans ht.symm)

theorem niPolicy_localRespect (N : PoolSize) :
    LocalRespect (niPolicy N) unwinding NiCall.step := by
  rintro ⟨op, base, num⟩ u s hu
  cases op with
  | freePages =>
    simp only [NiCall.step, NiOp.impl, Prog.run_bind, Prog.run_pure]
    exact freePages_local_respect hu s
  | initMemmap =>
    simp only [NiCall.step, NiOp.impl, Prog.run_bind, Prog.run_pure]
    exact initMemmap_local_respect hu s

/-- What a call returns is determined by the flag words that it reads. -/
theorem output_congr (c : NiCall) (h : Alike unwinding ((niPolicy N).reads c) s t) :
    c.output s = c.output t := by
  obtain ⟨op, base, num⟩ := c
  cases op with
  | freePages => simp only [NiCall.output, NiOp.impl, Prog.run_bind, Prog.run_pure]
  | initMemmap =>
    simp only [NiCall.output, NiOp.impl, Prog.run_bind, Prog.run_pure, run_defaultInitMemmap]
    rw [initMemmapCode_congr h]

/-- Noninterference: what the pages `W` show after any sequence of `free_pages` and `init_memmap`,
and what a call returns that reads nothing but these pages, is determined by the calls that may
influence `W` and by what the pages that may influence `W` showed before. -/
theorem pool_noninterference (calls : List NiCall) (W : Set (Fin N.NPAGE))
    (h : ∀ u ∈ (niPolicy N).sources calls W, unwinding u s t) :
    (∀ u ∈ W, unwinding u (run NiCall.step calls s)
      (run NiCall.step ((niPolicy N).purge calls W) t)) ∧
    ∀ c : NiCall, (niPolicy N).reads c ⊆ W → c.output (run NiCall.step calls s) =
      c.output (run NiCall.step ((niPolicy N).purge calls W) t) := by
  have halike : Alike unwinding W (run NiCall.step calls s)
      (run NiCall.step ((niPolicy N).purge calls W) t) :=
    alike_run_purge unwinding_equivalence (niPolicy_stepConsistent N) (niPolicy_localRespect N)
      calls h
  exact ⟨halike, fun c hc => output_congr c (halike.mono hc)⟩

/-- Page 4 and the counter do not interfere with page 0. -/
theorem pool_noninterference_page :
    unwinding ⟨0, by decide⟩
      (run NiCall.step [⟨.freePages, 4, 1⟩, ⟨.initMemmap, 0, 2⟩]
        (⟨fun u => if u.val = 4 then 3 else 1, 9⟩ : Pmm .verif))
      (run NiCall.step ((niPolicy .verif).purge [⟨.freePages, 4, 1⟩, ⟨.initMemmap, 0, 2⟩]
        {⟨0, by decide⟩}) ⟨fun _ => 1, 0⟩) := by
  refine (pool_noninterference (N := .verif) _ _ fun u hu => ?_).1 _ rfl
  have hne : u.val ≠ 4 := by
    rcases hu with (hu | ⟨hu, -⟩) | ⟨hu, -⟩
    · rw [hu]
      decide
    · have hlt : pageNo u < 0 + 2 := hu.2
      rw [BitVec.lt_def, pageNo_toNat] at hlt
      exact (hlt.trans_le (by decide)).ne
    · exact absurd hu (Set.notMem_empty u)
  show (if u.val = 4 then (3 : BitVec 64) else 1) = 1
  exact if_neg hne

end CertiCore
