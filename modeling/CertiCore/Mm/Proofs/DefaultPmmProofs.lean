import CertiCore.Libs.Proofs.AtomicProofs
import CertiCore.Mm.Pool
import CertiCore.Program.Proofs.ProgProofs

/-!
# Proofs: what the functions of the allocator do

One lemma for each function of `default_pmm.c` says what it returns and what it leaves, in the terms
of `Pool`. Nothing below this file unfolds the functions again.
-/

namespace CertiCore

variable {N : PoolSize}

/-! ## `size_t` -/

theorem PoolSize.lt_two_pow (N : PoolSize) : N.NPAGE < 2 ^ 31 := by
  have := N.le_nullpage
  simp only [NULLPAGE_toNat] at this
  omega

@[simp] theorem npage_toNat (N : PoolSize) : N.npage.toNat = N.NPAGE := by
  have := N.lt_two_pow
  simp only [PoolSize.npage, BitVec.toNat_ofNat]
  omega

@[simp] theorem pageNo_toNat (p : Fin N.NPAGE) : (pageNo p).toNat = p := by
  have := N.lt_two_pow
  simp only [pageNo, BitVec.toNat_ofNat]
  omega

theorem pos_iff_toNat (n : SizeT) : n > 0 ↔ n.toNat ≠ 0 := by
  simp [BitVec.lt_def, Nat.pos_iff_ne_zero]

theorem eq_zero_iff_toNat (n : SizeT) : n = 0 ↔ n.toNat = 0 := by
  simp [← BitVec.toNat_inj]

theorem le_npage_iff (n : SizeT) : n ≤ N.npage ↔ n.toNat ≤ N.NPAGE := by
  simp [BitVec.le_def]

theorem gt_npage_iff (n : SizeT) : n > N.npage ↔ N.NPAGE < n.toNat := by
  simp [BitVec.lt_def]

theorem ge_npage_iff (n : SizeT) : n ≥ N.npage ↔ N.NPAGE ≤ n.toNat := by
  simp [BitVec.le_def]

/-- A sum of two numbers that are no larger than the pool does not wrap. -/
theorem toNat_add_of_le {base n : SizeT} (hb : base.toNat ≤ N.NPAGE) (hn : n.toNat ≤ N.NPAGE) :
    (base + n).toNat = base.toNat + n.toNat := by
  have := N.lt_two_pow
  rw [BitVec.toNat_add]
  omega

@[simp] theorem mem_pageRange {base n : SizeT} {p : Fin N.NPAGE} :
    p ∈ pageRange N base n ↔ base.toNat ≤ p ∧ p < base.toNat + n.toNat := by
  simp [pageRange]

/-- On a range that lies in the pool, the 64-bit test of the loops is membership in the range. -/
theorem inRange_iff {base n : SizeT} (h : base.toNat + n.toNat ≤ N.NPAGE) (p : Fin N.NPAGE) :
    (base ≤ pageNo p ∧ pageNo p < base + n) ↔ p ∈ pageRange N base n := by
  have hadd : (base + n).toNat = base.toNat + n.toNat :=
    toNat_add_of_le (N := N) (by omega) (by omega)
  rw [BitVec.le_def, BitVec.lt_def, hadd, pageNo_toNat, mem_pageRange]

/-! ## The flag macros -/

theorem PG_reserved_lt : PG_reserved < 64 := by decide

theorem PG_allocated_lt : PG_allocated < 64 := by decide

theorem PG_reserved_ne : PG_reserved ≠ PG_allocated := by decide

section Macros

variable (s : Pmm N) (p : Fin N.NPAGE)

@[simp] theorem run_pageReserved : (pageReserved p).run s = (s.reserved p, s) := rfl

@[simp] theorem run_pageAllocated : (pageAllocated p).run s = (s.allocated p, s) := rfl

@[simp] theorem run_clearPageReserved :
    (clearPageReserved p).run s = ((), s.setFlags p (clearBit PG_reserved (s.flags p))) := rfl

@[simp] theorem run_setPageAllocated :
    (setPageAllocated p).run s = ((), s.setFlags p (setBit PG_allocated (s.flags p))) := rfl

@[simp] theorem run_clearPageAllocated :
    (clearPageAllocated p).run s = ((), s.setFlags p (clearBit PG_allocated (s.flags p))) := rfl

@[simp] theorem run_nrFreeLoad : (nrFreeLoad (N := N)).run s = (s.nrFree, s) := rfl

@[simp] theorem run_nrFreeStore (v : SizeT) :
    (nrFreeStore (N := N) v).run s = ((), { s with nrFree := v }) := rfl

end Macros

/-! ## The loops over a range -/

theorem lt_succ_iff_of_ne {m : ℕ} {p i : Fin m} (h : p ≠ i) : (p : ℕ) < i + 1 ↔ (p : ℕ) < i := by
  have hne : (p : ℕ) ≠ i := fun heq => h (Fin.ext heq)
  omega

section Ranges

variable {base n : SizeT} (stmt : Fin N.NPAGE → Prog (Pmm N) (Except (BitVec 64) Unit))

/-- A loop that returns `code` at the first page of the range that is bad, and writes nothing. -/
theorem run_forRange_check (bad : Fin N.NPAGE → Prop) [DecidablePred bad] (code : BitVec 64)
    (s : Pmm N) (hn : base.toNat + n.toNat ≤ N.NPAGE)
    (hstmt : ∀ p, (stmt p).run s = (if bad p then .error code else .ok (), s)) :
    (forRange base n stmt).run s =
      (if ∃ p ∈ pageRange N base n, bad p then .error code else .ok (), s) := by
  have hloop := Prog.run_forLoop_finRange
    (fun p (_ : Unit) =>
      if base ≤ pageNo p ∧ pageNo p < base + n then stmt p else return .ok ())
    (fun i _ s' => s' = s ∧ ∀ p : Fin N.NPAGE, p < i → p ∈ pageRange N base n → ¬ bad p)
    (fun e s' => s' = s ∧ e = code ∧ ∃ p ∈ pageRange N base n, bad p)
    (by
      rintro i _ s' ⟨rfl, hI⟩
      have hnext : (i ∈ pageRange N base n → ¬ bad i) →
          ∀ p : Fin N.NPAGE, p < (i : ℕ) + 1 → p ∈ pageRange N base n → ¬ bad p := by
        intro hi p hp
        rcases Nat.lt_succ_iff_lt_or_eq.mp hp with hlt | heq
        · exact hI p hlt
        · obtain rfl : p = i := Fin.ext heq
          exact hi
      simp only [inRange_iff hn, Prog.run_ite, hstmt]
      by_cases hr : i ∈ pageRange N base n
      · rw [if_pos hr]
        by_cases hb : bad i
        · rw [if_pos hb]
          exact ⟨rfl, rfl, i, hr, hb⟩
        · rw [if_neg hb]
          exact ⟨rfl, hnext fun _ => hb⟩
      · rw [if_neg hr]
        exact ⟨rfl, hnext fun h => absurd h hr⟩)
    (t := ()) (s := s) ⟨rfl, fun p hp => absurd hp (Nat.not_lt_zero _)⟩
  rw [forRange]
  rcases hres : (Prog.forLoop _ (List.finRange N.NPAGE) ()).run s with ⟨e | _, s'⟩
  · rw [hres] at hloop
    obtain ⟨rfl, rfl, hex⟩ := hloop
    rw [if_pos hex]
  · rw [hres] at hloop
    obtain ⟨rfl, hall⟩ := hloop
    rw [if_neg]
    rintro ⟨p, hp, hb⟩
    exact hall p p.isLt hp hb

/-- A loop that applies `f` to the flag word of every page of the range. -/
theorem run_forRange_update (f : BitVec 64 → BitVec 64) (hn : base.toNat + n.toNat ≤ N.NPAGE)
    (hstmt : ∀ p s, (stmt p).run s = (.ok (), s.setFlags p (f (s.flags p)))) (s : Pmm N) :
    (forRange base n stmt).run s = (.ok (), s.mapRange f base n) := by
  have hloop := Prog.run_forLoop_finRange
    (fun p (_ : Unit) =>
      if base ≤ pageNo p ∧ pageNo p < base + n then stmt p else return .ok ())
    (fun i _ s' => s'.nrFree = s.nrFree ∧ ∀ p : Fin N.NPAGE,
      s'.flags p = if p < i ∧ p ∈ pageRange N base n then f (s.flags p) else s.flags p)
    (fun _ _ => False)
    (by
      rintro i _ s' ⟨hnr, hI⟩
      simp only [inRange_iff hn, Prog.run_ite, hstmt]
      by_cases hr : i ∈ pageRange N base n
      · rw [if_pos hr]
        refine ⟨hnr, fun p => ?_⟩
        by_cases hpi : p = i
        · subst hpi
          simp [Pmm.setFlags, hI p, hr]
        · simp only [Pmm.setFlags, Function.update_of_ne hpi, hI p, lt_succ_iff_of_ne hpi]
      · rw [if_neg hr]
        refine ⟨hnr, fun p => ?_⟩
        rw [hI p]
        by_cases hpi : p = i
        · subst hpi
          simp [hr]
        · simp only [lt_succ_iff_of_ne hpi])
    (t := ()) (s := s) ⟨rfl, fun p => by simp⟩
  rw [forRange]
  rcases hres : (Prog.forLoop _ (List.finRange N.NPAGE) ()).run s with ⟨e | _, s'⟩
  · rw [hres] at hloop
    exact hloop.elim
  · rw [hres] at hloop
    obtain ⟨hnr, hfl⟩ := hloop
    refine Prod.ext rfl (Pmm.ext (funext fun p => ?_) hnr)
    rw [hfl p]
    simp [Pmm.mapRange]

end Ranges

/-! ## `default_init_memmap` -/

/-- `default_init_memmap` hands the range over if all checks pass, and else changes nothing. -/
theorem run_defaultInitMemmap (base n : SizeT) (s : Pmm N) :
    (defaultInitMemmap base n).run s = (s.initMemmapCode base n,
      if s.initMemmapCode base n = 0 then s.handOver base n else s) := by
  unfold defaultInitMemmap Pmm.initMemmapCode
  simp only [pos_iff_toNat, le_npage_iff]
  by_cases h1 : n.toNat = 0
  · rw [if_pos (not_not.mpr h1), if_pos h1]
    rfl
  rw [if_neg (not_not.mpr h1), if_neg h1]
  by_cases h2 : N.NPAGE < n.toNat
  · rw [if_pos (by omega), if_pos h2]
    rfl
  rw [if_neg (by omega), if_neg h2]
  by_cases h3 : N.NPAGE < base.toNat
  · rw [if_pos (by omega), if_pos h3]
    rfl
  rw [if_neg (by omega), if_neg h3, toNat_add_of_le (N := N) (by omega) (by omega)]
  by_cases h4 : N.NPAGE < base.toNat + n.toNat
  · rw [if_pos (by omega), if_pos h4]
    rfl
  rw [if_neg (by omega), if_neg h4]
  have hn : base.toNat + n.toNat ≤ N.NPAGE := by omega
  -- the two validation loops, and the loop that hands the pages over
  have hres := run_forRange_check (fun p => do
      if !(← pageReserved p) then return .error 5
      return .ok ()) (fun p => s.reserved p = false) 5 s hn
    (fun p => by cases h : s.reserved p <;> simp [h])
  have hall := run_forRange_check (fun p => do
      if ← pageAllocated p then return .error 6
      return .ok ()) (fun p => s.allocated p = true) 6 s hn
    (fun p => by cases h : s.allocated p <;> simp [h])
  have hclear := run_forRange_update (fun p => do
      clearPageReserved p
      return .ok ()) (clearBit PG_reserved) hn (fun p s => by simp) s
  rw [Prog.run_bind, hres]
  by_cases h5 : ∃ p ∈ pageRange N base n, s.reserved p = false
  · simp only [if_pos h5, Prog.run_pure]
    rfl
  simp only [if_neg h5, Prog.run_bind]
  rw [hall]
  by_cases h6 : ∃ p ∈ pageRange N base n, s.allocated p = true
  · simp only [if_pos h6, Prog.run_pure]
    rfl
  simp only [if_neg h6, Prog.run_bind]
  rw [hclear]
  rfl

/-! ## `default_alloc_pages` -/

theorem avail_iff {s : Pmm N} {p : Fin N.NPAGE} : s.Avail p ↔ s.available p = true :=
  ⟨fun ⟨_, h⟩ => h, fun h => ⟨p.isLt, h⟩⟩

theorem run_allocScanBody (n f : SizeT) (p : Fin N.NPAGE) (s : Pmm N) :
    (allocScanBody n p f).run s =
      (if s.available p then (if pageNo p - f + 1 = n then .error f else .ok f)
        else .ok (pageNo p + 1), s) := by
  unfold allocScanBody Pmm.available
  cases hr : s.reserved p
  · cases ha : s.allocated p
    · simp only [orM, toBool, Prog.run_bind, run_pageReserved, run_pageAllocated, hr, ha]
      by_cases hn : pageNo p - f + 1 = n
      · simp only [if_pos hn]
        rfl
      · simp only [if_neg hn]
        rfl
    · simp [orM, toBool, hr, ha]
  · simp [orM, toBool, hr]

/-- The scan breaks with the first fit, or runs to the end of a pool that has no block. -/
theorem run_allocScan {n : SizeT} (hn : 0 < n.toNat) (s : Pmm N) :
    Prog.LoopPost (fun _ s' => s' = s ∧ FirstFit.starts s.Avail N.NPAGE n.toNat = ∅)
      (fun b s' => s' = s ∧ IsLeast (FirstFit.starts s.Avail N.NPAGE n.toNat) b.toNat)
      ((allocScan n).run s) := by
  have hN := N.lt_two_pow
  unfold allocScan
  refine (Prog.run_forLoop_finRange _
    (fun i f s' => s' = s ∧ FirstFit.Scan s.Avail n.toNat i f.toNat ∧ i < f.toNat + n.toNat)
    (fun b s' => s' = s ∧ IsLeast (FirstFit.starts s.Avail N.NPAGE n.toNat) b.toNat)
    ?_ ⟨rfl, FirstFit.Scan.zero, by simpa using hn⟩).imp ?_ (fun _ _ h => h)
  · rintro p f s' ⟨rfl, hscan, hlt⟩
    have hle := hscan.le
    have hp := p.isLt
    rw [run_allocScanBody]
    by_cases hav : s'.available p = true
    · rw [if_pos hav]
      have hext := hscan.extend hlt (avail_iff.mpr hav)
      -- the run now has p - first_usable + 1 pages
      have hlen : pageNo p - f + 1 = n ↔ (p : ℕ) + 1 = f.toNat + n.toNat := by
        rw [← BitVec.toNat_inj, BitVec.toNat_add, BitVec.toNat_sub, pageNo_toNat]
        simp only [BitVec.ofNat_eq_ofNat, BitVec.toNat_ofNat]
        omega
      by_cases hfit : (p : ℕ) + 1 = f.toNat + n.toNat
      · rw [if_pos (hlen.mpr hfit)]
        exact ⟨rfl, hext.isLeast hfit (by omega)⟩
      · rw [if_neg (mt hlen.mp hfit)]
        exact ⟨rfl, hext, by omega⟩
    · rw [if_neg hav]
      have hnext : (pageNo p + 1).toNat = p + 1 := by
        rw [BitVec.toNat_add, pageNo_toNat]
        simp only [BitVec.ofNat_eq_ofNat, BitVec.toNat_ofNat]
        omega
      refine ⟨rfl, ?_, ?_⟩
      · rw [hnext]
        exact hscan.restart hlt (fun h => hav (avail_iff.mp h))
      · rw [hnext]
        omega
  · rintro f s' ⟨rfl, hscan, hlt⟩
    exact ⟨rfl, hscan.starts_eq_empty hlt⟩

/-- `default_alloc_pages` either allocates the first fit, or finds that there is no block of this
size in the pool and changes nothing. -/
theorem run_defaultAllocPages (n : SizeT) (s : Pmm N) :
    (∃ b : SizeT, 0 < n.toNat ∧ IsLeast (FirstFit.starts s.Avail N.NPAGE n.toNat) b.toNat ∧
      (defaultAllocPages n).run s = (b, s.allocate b n)) ∨
    ((n.toNat = 0 ∨ FirstFit.starts s.Avail N.NPAGE n.toNat = ∅) ∧
      (defaultAllocPages n).run s = (NULLPAGE, s)) := by
  unfold defaultAllocPages
  simp only [pos_iff_toNat, le_npage_iff]
  by_cases h1 : n.toNat = 0
  · rw [if_pos (not_not.mpr h1)]
    exact Or.inr ⟨Or.inl h1, rfl⟩
  rw [if_neg (not_not.mpr h1)]
  by_cases h2 : N.NPAGE < n.toNat
  · rw [if_pos (by omega)]
    refine Or.inr ⟨Or.inr (Set.eq_empty_of_forall_notMem fun b hb => ?_), rfl⟩
    have := hb.1
    omega
  rw [if_neg (by omega)]
  have hscan := run_allocScan (n := n) (by omega) s
  rw [Prog.run_bind]
  rcases hres : (allocScan n).run s with ⟨b | f, s'⟩
  · rw [hres] at hscan
    obtain ⟨rfl, hleast⟩ := hscan
    have hfit : b.toNat + n.toNat ≤ N.NPAGE := hleast.1.1
    -- a page of the pool is not the sentinel
    have hne : b ≠ NULLPAGE := by
      have := N.le_nullpage
      intro h
      subst h
      omega
    have hset := run_forRange_update (fun p => do
        setPageAllocated p
        return .ok ()) (setBit PG_allocated) hfit (fun p s => by simp) s'
    refine Or.inl ⟨b, by omega, hleast, ?_⟩
    simp only [if_pos hne, Prog.run_bind, hset]
    rfl
  · rw [hres] at hscan
    obtain ⟨rfl, hempty⟩ := hscan
    exact Or.inr ⟨Or.inr hempty, rfl⟩

/-! ## `default_free_pages` -/

/-- `default_free_pages` frees the range if it lies in the pool, and else changes nothing. -/
theorem run_defaultFreePages (base n : SizeT) (s : Pmm N) :
    (defaultFreePages base n).run s = ((), if InPool N base n then s.free base n else s) := by
  unfold defaultFreePages
  simp only [ge_npage_iff, eq_zero_iff_toNat, gt_npage_iff]
  by_cases h1 : N.NPAGE ≤ base.toNat
  · rw [if_pos h1, if_neg fun h => by have := h.1; have := h.2; omega]
    rfl
  rw [if_neg h1]
  by_cases h2 : n.toNat = 0
  · rw [if_pos h2, if_neg fun h => by have := h.1; omega]
    rfl
  rw [if_neg h2]
  by_cases h3 : N.NPAGE < n.toNat
  · rw [if_pos h3, if_neg fun h => by have := h.2; omega]
    rfl
  rw [if_neg h3, toNat_add_of_le (N := N) (by omega) (by omega)]
  by_cases h4 : N.NPAGE < base.toNat + n.toNat
  · rw [if_pos h4, if_neg fun h => by have := h.2; omega]
    rfl
  rw [if_neg h4, if_pos ⟨by omega, by omega⟩]
  have hn : base.toNat + n.toNat ≤ N.NPAGE := by omega
  have hclear := run_forRange_update (fun p => do
      clearPageAllocated p
      return .ok ()) (clearBit PG_allocated) hn
    (fun p s => by simp) s
  rw [Prog.run_bind, hclear]
  rfl

end CertiCore
