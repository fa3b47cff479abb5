import CertiCore.Mm.Proofs.DefaultPmmProofs

/-!
# Proofs: the contracts of the allocator, bit by bit

What handing over, allocating and freeing a range does to the reserved bit, to the allocated bit and
to every other bit of a flag word; from that, and from what the functions compute, the contract of
each call in unbounded integers.
-/

namespace CertiCore

namespace Pmm

variable {N : PoolSize} {s : Pmm N} {base n : SizeT}

/-! ## The three effects on a range -/

section Effects

variable (p : Fin N.NPAGE)

/-- If `f` sets the bit `nr` of a word to `b`, a range update with `f` does so in the range. -/
theorem getLsbD_mapRange {f : BitVec 64 → BitVec 64} {nr : ℕ} {b : Bool}
    (hf : ∀ word i, (f word).getLsbD i = if i = nr then b else word.getLsbD i) (i : ℕ) :
    ((s.mapRange f base n).flags p).getLsbD i =
      if i = nr ∧ p ∈ pageRange N base n then b else (s.flags p).getLsbD i := by
  unfold mapRange
  by_cases hp : p ∈ pageRange N base n
  · simp only [hp, and_true, if_true, hf]
  · simp only [hp, and_false, if_false]

theorem getLsbD_handOver (i : ℕ) :
    ((s.handOver base n).flags p).getLsbD i =
      if i = PG_reserved ∧ p ∈ pageRange N base n then false else (s.flags p).getLsbD i :=
  getLsbD_mapRange p (getLsbD_clearBit PG_reserved_lt) i

theorem getLsbD_allocate (i : ℕ) :
    ((s.allocate base n).flags p).getLsbD i =
      if i = PG_allocated ∧ p ∈ pageRange N base n then true else (s.flags p).getLsbD i :=
  getLsbD_mapRange p (getLsbD_setBit PG_allocated_lt) i

theorem getLsbD_free (i : ℕ) :
    ((s.free base n).flags p).getLsbD i =
      if i = PG_allocated ∧ p ∈ pageRange N base n then false else (s.flags p).getLsbD i :=
  getLsbD_mapRange p (getLsbD_clearBit PG_allocated_lt) i

@[simp] theorem reserved_handOver :
    (s.handOver base n).reserved p = if p ∈ pageRange N base n then false else s.reserved p := by
  simp only [reserved, testBit_eq_getLsbD, getLsbD_handOver, true_and]

@[simp] theorem allocated_handOver : (s.handOver base n).allocated p = s.allocated p := by
  rw [allocated, allocated, testBit_eq_getLsbD, testBit_eq_getLsbD, getLsbD_handOver,
    if_neg fun h => PG_reserved_ne h.1.symm]

@[simp] theorem reserved_allocate : (s.allocate base n).reserved p = s.reserved p := by
  rw [reserved, reserved, testBit_eq_getLsbD, testBit_eq_getLsbD, getLsbD_allocate,
    if_neg fun h => PG_reserved_ne h.1]

@[simp] theorem allocated_allocate :
    (s.allocate base n).allocated p = if p ∈ pageRange N base n then true else s.allocated p := by
  simp only [allocated, testBit_eq_getLsbD, getLsbD_allocate, true_and]

@[simp] theorem reserved_free : (s.free base n).reserved p = s.reserved p := by
  rw [reserved, reserved, testBit_eq_getLsbD, testBit_eq_getLsbD, getLsbD_free,
    if_neg fun h => PG_reserved_ne h.1]

@[simp] theorem allocated_free :
    (s.free base n).allocated p = if p ∈ pageRange N base n then false else s.allocated p := by
  simp only [allocated, testBit_eq_getLsbD, getLsbD_free, true_and]

end Effects

@[simp] theorem nrFree_handOver : (s.handOver base n).nrFree = s.nrFree + n := rfl

@[simp] theorem nrFree_allocate : (s.allocate base n).nrFree = s.nrFree - n := rfl

@[simp] theorem nrFree_free : (s.free base n).nrFree = s.nrFree + n := rfl

/-- Freeing a range of the pool raises `nr_free`, so it changes the state. -/
theorem free_ne_self (h : InPool N base n) : s.free base n ≠ s := by
  intro heq
  have hnr : s.nrFree + n = s.nrFree := congrArg nrFree heq
  have h0 : n = 0 := by simpa using hnr
  have := h.1
  rw [h0] at this
  exact absurd this (by decide)

/-! ## Free blocks -/

/-- The `n` pages from `b` on lie in the pool and are available. -/
def FreeBlock (s : Pmm N) (n : SizeT) (b : ℕ) : Prop :=
  b + n.toNat ≤ N.NPAGE ∧ ∀ p : Fin N.NPAGE, b ≤ p → p < b + n.toNat → s.available p = true

theorem starts_avail (s : Pmm N) (n : SizeT) :
    FirstFit.starts s.Avail N.NPAGE n.toNat = {b | s.FreeBlock n b} := by
  ext b
  refine and_congr_right fun hb => ?_
  constructor
  · intro h p hbp hpb
    exact avail_iff.mp (h p hbp hpb)
  · intro h p hbp hpb
    exact ⟨by omega, h ⟨p, by omega⟩ hbp hpb⟩

end Pmm

open Pmm

variable {N : PoolSize}

/-- A page of the pool is not the sentinel `NULLPAGE`. -/
theorem ne_NULLPAGE_of_add_le {b n : SizeT} (hn : 0 < n.toNat)
    (h : b.toNat + n.toNat ≤ N.NPAGE) : b ≠ NULLPAGE := by
  have := N.le_nullpage
  intro heq
  subst heq
  omega

/-! ## The contracts -/

/-- `default_alloc_pages(n)` is first fit: if there is no block of `n` pages it returns `NULLPAGE`
and changes nothing, and else it returns the least one and marks its pages, and only these. -/
theorem alloc_pages_first_fit (n : SizeT) (s : Pmm N) :
    ((n = 0 ∨ N.NPAGE < n.toNat ∨ ¬ ∃ b, s.FreeBlock n b) →
      (defaultAllocPages n).run s = (NULLPAGE, s)) ∧
    (¬ (n = 0 ∨ N.NPAGE < n.toNat ∨ ¬ ∃ b, s.FreeBlock n b) →
      ∃ (b : ℕ) (s' : Pmm N), (defaultAllocPages n).run s = (BitVec.ofNat 64 b, s') ∧
        IsLeast {b | s.FreeBlock n b} b ∧
        (∀ p i, (s'.flags p).getLsbD i =
          if i = PG_allocated ∧ b ≤ p ∧ p < b + n.toNat then true else (s.flags p).getLsbD i) ∧
        s'.nrFree = s.nrFree - n) := by
  have hcases := run_defaultAllocPages n s
  rw [starts_avail, ← eq_zero_iff_toNat] at hcases
  rcases hcases with ⟨b, hn, hleast, hrun⟩ | ⟨hnone, hrun⟩
  · constructor
    · rintro (rfl | hlt | hno)
      · exact absurd hn (by decide)
      · have := hleast.1.1
        omega
      · exact absurd ⟨_, hleast.1⟩ hno
    · intro _
      refine ⟨b.toNat, s.allocate b n, ?_, hleast, fun p i => ?_, rfl⟩
      · rw [hrun, BitVec.ofNat_toNat, BitVec.setWidth_eq]
      · simp only [getLsbD_allocate, mem_pageRange]
  · refine ⟨fun _ => hrun, fun hsome => ?_⟩
    rcases hnone with h0 | hempty
    · exact absurd (Or.inl h0) hsome
    · refine absurd (Or.inr (Or.inr ?_)) hsome
      rintro ⟨b, hb⟩
      exact Set.eq_empty_iff_forall_notMem.mp hempty b hb

/-- `init_memmap` succeeds exactly on a range of the pool whose pages are all reserved and not
allocated. -/
theorem initMemmapCode_eq_zero_iff (base n : SizeT) (s : Pmm N) :
    s.initMemmapCode base n = 0 ↔ InPool N base n ∧
      ∀ p ∈ pageRange N base n, s.reserved p = true ∧ s.allocated p = false := by
  unfold initMemmapCode
  by_cases h1 : n.toNat = 0
  · rw [if_pos h1]
    exact iff_of_false (by decide) fun h => by have := h.1.1; omega
  rw [if_neg h1]
  by_cases h2 : N.NPAGE < n.toNat
  · rw [if_pos h2]
    exact iff_of_false (by decide) fun h => by have := h.1.2; omega
  rw [if_neg h2]
  by_cases h3 : N.NPAGE < base.toNat
  · rw [if_pos h3]
    exact iff_of_false (by decide) fun h => by have := h.1.2; omega
  rw [if_neg h3]
  by_cases h4 : N.NPAGE < base.toNat + n.toNat
  · rw [if_pos h4]
    exact iff_of_false (by decide) fun h => by have := h.1.2; omega
  rw [if_neg h4]
  by_cases h5 : ∃ p ∈ pageRange N base n, s.reserved p = false
  · rw [if_pos h5]
    obtain ⟨p, hp, hres⟩ := h5
    exact iff_of_false (by decide) fun h => nomatch (h.2 p hp).1.symm.trans hres
  rw [if_neg h5]
  by_cases h6 : ∃ p ∈ pageRange N base n, s.allocated p = true
  · rw [if_pos h6]
    obtain ⟨p, hp, hall⟩ := h6
    exact iff_of_false (by decide) fun h => nomatch (h.2 p hp).2.symm.trans hall
  rw [if_neg h6]
  refine iff_of_true rfl ⟨⟨by omega, by omega⟩, fun p hp => ⟨?_, ?_⟩⟩
  · by_contra hres
    exact h5 ⟨p, hp, by simpa using hres⟩
  · by_contra hall
    exact h6 ⟨p, hp, by simpa using hall⟩

/-- A sum that wraps is refused by the guards. -/
theorem not_inPool_of_wrap {base n : SizeT} (h : 2 ^ 64 ≤ base.toNat + n.toNat) :
    ¬ InPool N base n := by
  intro hin
  have := N.lt_two_pow
  have := hin.2
  omega

theorem initMemmap_exact (base n : SizeT) (s : Pmm N) :
    (((defaultInitMemmap base n).run s).1 = 0 ↔
      0 < n.toNat ∧ base.toNat + n.toNat ≤ N.NPAGE ∧
        ∀ p : Fin N.NPAGE, base.toNat ≤ p → p < base.toNat + n.toNat →
          s.reserved p = true ∧ s.allocated p = false) ∧
    (((defaultInitMemmap base n).run s).1 = 0 →
      (∀ p i, (((defaultInitMemmap base n).run s).2.flags p).getLsbD i =
        if i = PG_reserved ∧ base.toNat ≤ p ∧ p < base.toNat + n.toNat then false
        else (s.flags p).getLsbD i) ∧
      ((defaultInitMemmap base n).run s).2.nrFree = s.nrFree + n) ∧
    (((defaultInitMemmap base n).run s).1 ≠ 0 → ((defaultInitMemmap base n).run s).2 = s) := by
  rw [run_defaultInitMemmap]
  refine ⟨?_, fun hcode => ?_, fun hcode => if_neg hcode⟩
  · rw [initMemmapCode_eq_zero_iff, InPool, and_assoc]
    simp only [mem_pageRange, and_imp]
  · rw [if_pos hcode]
    refine ⟨fun p i => ?_, rfl⟩
    simp only [getLsbD_handOver, mem_pageRange]

theorem freePages_exact (base n : SizeT) (s : Pmm N) :
    (((defaultFreePages base n).run s).2 ≠ s ↔
      0 < n.toNat ∧ base.toNat + n.toNat ≤ N.NPAGE) ∧
    (((defaultFreePages base n).run s).2 ≠ s →
      (∀ p i, (((defaultFreePages base n).run s).2.flags p).getLsbD i =
        if i = PG_allocated ∧ base.toNat ≤ p ∧ p < base.toNat + n.toNat then false
        else (s.flags p).getLsbD i) ∧
      ((defaultFreePages base n).run s).2.nrFree = s.nrFree + n) := by
  rw [run_defaultFreePages]
  by_cases hin : InPool N base n
  · rw [if_pos hin]
    refine ⟨⟨fun _ => hin, fun _ => free_ne_self hin⟩, fun _ => ⟨fun p i => ?_, rfl⟩⟩
    simp only [getLsbD_free, mem_pageRange]
  · rw [if_neg hin]
    exact ⟨⟨fun h => absurd rfl h, fun h => absurd h hin⟩, fun h => absurd rfl h⟩

/-- The guards of `init_memmap` and `free_pages` are exactly the range conditions in unbounded
integers, and a call either has its whole effect or none. -/
theorem init_memmap_free_pages_exact (base n : SizeT) (s : Pmm N) :
    ((((defaultInitMemmap base n).run s).1 = 0 ↔
        0 < n.toNat ∧ base.toNat + n.toNat ≤ N.NPAGE ∧
          ∀ p : Fin N.NPAGE, base.toNat ≤ p → p < base.toNat + n.toNat →
            s.reserved p = true ∧ s.allocated p = false) ∧
      (((defaultInitMemmap base n).run s).1 = 0 →
        (∀ p i, (((defaultInitMemmap base n).run s).2.flags p).getLsbD i =
          if i = PG_reserved ∧ base.toNat ≤ p ∧ p < base.toNat + n.toNat then false
          else (s.flags p).getLsbD i) ∧
        ((defaultInitMemmap base n).run s).2.nrFree = s.nrFree + n) ∧
      (((defaultInitMemmap base n).run s).1 ≠ 0 → ((defaultInitMemmap base n).run s).2 = s)) ∧
    ((((defaultFreePages base n).run s).2 ≠ s ↔
        0 < n.toNat ∧ base.toNat + n.toNat ≤ N.NPAGE) ∧
      (((defaultFreePages base n).run s).2 ≠ s →
        (∀ p i, (((defaultFreePages base n).run s).2.flags p).getLsbD i =
          if i = PG_allocated ∧ base.toNat ≤ p ∧ p < base.toNat + n.toNat then false
          else (s.flags p).getLsbD i) ∧
        ((defaultFreePages base n).run s).2.nrFree = s.nrFree + n)) ∧
    (2 ^ 64 ≤ base.toNat + n.toNat →
      ((defaultInitMemmap base n).run s).1 ≠ 0 ∧ ((defaultFreePages base n).run s).2 = s) := by
  refine ⟨initMemmap_exact base n s, freePages_exact base n s, fun hwrap => ?_⟩
  rw [run_defaultInitMemmap, run_defaultFreePages, if_neg (not_inPool_of_wrap hwrap)]
  refine ⟨fun hcode => ?_, rfl⟩
  exact not_inPool_of_wrap hwrap ((initMemmapCode_eq_zero_iff base n s).mp hcode).1

end CertiCore
