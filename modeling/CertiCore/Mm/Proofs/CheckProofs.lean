import CertiCore.Mm.Check
import CertiCore.Mm.Proofs.BalancedProofs
import CertiCore.Mm.Proofs.PageInitProofs

/-!
# Proofs: what the check at boot checks

The allocations of the check are all freed again, so the state at its end is the state at its
start, and the second counting loop undoes the first. It remains to say when no assertion fails.
-/

namespace CertiCore

open Pmm

variable {N : PoolSize}

/-! ## The counting loops -/

/-- The number of pages that are not reserved. -/
def Pmm.usableCount (s : Pmm N) : ℕ := (Finset.univ.filter fun p => s.reserved p = false).card

theorem card_filter_univ {m : ℕ} (P : Fin m → Bool) :
    (Finset.univ.filter fun p => P p = true).card = (List.finRange m).countP P := by
  have hval : (Finset.univ : Finset (Fin m)).val = (List.finRange m : List (Fin m)) :=
    congrArg Finset.val (Fin.univ_def m)
  rw [Finset.card_def, Finset.filter_val, hval, Multiset.filter_coe, Multiset.coe_card,
    List.countP_eq_length_filter]
  simp

theorem run_checkBody (count : SizeT → SizeT) (p : Fin N.NPAGE) (c : SizeT × SizeT) (s : Pmm N) :
    (checkBody count p c).run s =
      (.ok (if s.reserved p then c.1 else count c.1, if s.available p then count c.2 else c.2),
        s) := by
  unfold checkBody available
  cases hr : s.reserved p with
  | true => simp [hr]
  | false =>
    cases ha : s.allocated p with
    | true => simp [hr, ha]
    | false => simp [hr, ha]

theorem run_checkLoop_list (count : SizeT → SizeT) (s : Pmm N) (ps : List (Fin N.NPAGE))
    (c : SizeT × SizeT) :
    (Prog.forLoop (checkBody count) ps c).run s =
      (.ok (count^[ps.countP fun p => !s.reserved p] c.1, count^[ps.countP s.available] c.2),
        s) := by
  induction ps generalizing c with
  | nil => rfl
  | cons p ps ih =>
    rw [Prog.run_forLoop_cons, run_checkBody]
    dsimp only
    rw [ih, List.countP_cons, List.countP_cons]
    cases hr : s.reserved p with
    | true =>
      have hav : s.available p = false := by rw [available, hr]; rfl
      simp [hav]
    | false =>
      cases hav : s.available p with
      | true => simp
      | false => simp

theorem run_checkLoop (count : SizeT → SizeT) (c : SizeT × SizeT) (s : Pmm N) :
    (checkLoop count c).run s =
      (.ok (count^[s.usableCount] c.1, count^[s.availableCount] c.2), s) := by
  have husable : s.usableCount = (List.finRange N.NPAGE).countP fun p => !s.reserved p := by
    rw [usableCount, ← card_filter_univ]
    simp
  rw [checkLoop, availableCount, card_filter_univ, husable]
  exact run_checkLoop_list count s (List.finRange N.NPAGE) c

theorem iterate_succ_zero (n : ℕ) : (· + 1)^[n] (0 : SizeT) = BitVec.ofNat 64 n := by
  induction n with
  | zero => rfl
  | succ n ih =>
    rw [Function.iterate_succ_apply', ih, BitVec.ofNat_add]
    rfl

/-- The second loop undoes the first. -/
theorem iterate_pred_iterate_succ (n : ℕ) (c : SizeT) : (· - 1)^[n] ((· + 1)^[n] c) = c := by
  have hinv : Function.LeftInverse (fun c : SizeT => c - 1) (fun c : SizeT => c + 1) := fun c =>
    BitVec.add_sub_cancel c 1
  exact hinv.iterate n c

/-! ## The allocations of the check -/

@[simp] theorem toNat_one : (1 : SizeT).toNat = 1 := rfl

theorem available_allocate {s : Pmm N} {b n : SizeT} (p : Fin N.NPAGE) :
    (s.allocate b n).available p = (s.available p && decide (p ∉ pageRange N b n)) := by
  rw [available, available, reserved_allocate, allocated_allocate]
  by_cases hp : p ∈ pageRange N b n
  · simp [hp]
  · simp [hp]

theorem availableCount_allocate {s : Pmm N} {b n : SizeT} (hin : b.toNat + n.toNat ≤ N.NPAGE)
    (havail : ∀ p ∈ pageRange N b n, s.available p = true) :
    (s.allocate b n).availableCount + n.toNat = s.availableCount := by
  have hsub : pageRange N b n ⊆ Finset.univ.filter fun p => s.available p := fun p hp =>
    Finset.mem_filter.mpr ⟨Finset.mem_univ p, havail p hp⟩
  have hfilter : (Finset.univ.filter fun p => (s.allocate b n).available p) =
      (Finset.univ.filter fun p => s.available p) \ pageRange N b n := by
    ext p
    simp only [Finset.mem_filter, Finset.mem_univ, true_and, Finset.mem_sdiff, available_allocate,
      Bool.and_eq_true, decide_eq_true_eq]
  have hcard := Finset.card_sdiff_add_card_eq_card hsub
  rw [card_pageRange hin] at hcard
  rw [availableCount, availableCount, hfilter]
  exact hcard

/-- `alloc_page()` takes an available page, unless there is none. -/
theorem run_allocPage (s : Pmm N) :
    (∃ p : Fin N.NPAGE, s.available p = true ∧
      allocPage.run s = (pageNo p, s.allocate (pageNo p) 1) ∧
      (s.allocate (pageNo p) 1).availableCount + 1 = s.availableCount) ∨
    (s.availableCount = 0 ∧ allocPage.run s = (NULLPAGE, s)) := by
  have hcases := run_defaultAllocPages 1 s
  rw [starts_avail] at hcases
  rcases hcases with ⟨b, hpos, hleast, hrun⟩ | ⟨hnone, hrun⟩
  · obtain ⟨hfit, hfree⟩ := hleast.1
    rw [toNat_one] at hfit hfree
    have hb : b = pageNo ⟨b.toNat, hfit⟩ := by
      rw [← BitVec.toNat_inj, pageNo_toNat]
    have hav : s.available ⟨b.toNat, hfit⟩ = true := hfree _ (le_refl _) (Nat.lt_succ_self _)
    refine Or.inl ⟨⟨b.toNat, hfit⟩, hav, ?_, ?_⟩
    · rw [← hb]
      exact hrun
    · rw [← hb]
      refine availableCount_allocate hfit fun p hp => ?_
      rw [mem_pageRange] at hp
      exact hfree p hp.1 hp.2
  · refine Or.inr ⟨?_, hrun⟩
    rcases hnone with h0 | hempty
    · exact absurd h0 (by simp)
    · rw [availableCount, Finset.card_eq_zero, Finset.filter_eq_empty_iff]
      intro p _ hp
      refine Set.eq_empty_iff_forall_notMem.mp hempty (p : ℕ) ⟨p.isLt, fun q hpq hqp => ?_⟩
      have hqp' : (q : ℕ) < p + 1 := hqp
      obtain rfl : q = p := Fin.ext (by omega)
      exact hp

theorem pageNo_inj {p q : Fin N.NPAGE} : pageNo p = pageNo q ↔ p = q := by
  rw [← BitVec.toNat_inj, pageNo_toNat, pageNo_toNat, Fin.ext_iff]

theorem pageNo_ne_NULLPAGE (p : Fin N.NPAGE) : pageNo p ≠ NULLPAGE := by
  refine ne_NULLPAGE_of_add_le (N := N) (n := 1) Nat.one_pos ?_
  rw [pageNo_toNat]
  exact p.isLt

/-- A page that was available after another one was allocated is not that one. -/
theorem ne_of_available_allocate {s : Pmm N} {p q : Fin N.NPAGE}
    (h : (s.allocate (pageNo p) 1).available q = true) : pageNo p ≠ pageNo q := by
  intro heq
  obtain rfl := pageNo_inj.mp heq
  rw [available_allocate, Bool.and_eq_true, decide_eq_true_eq, mem_pageRange, pageNo_toNat,
    toNat_one] at h
  exact h.2 ⟨le_refl _, Nat.lt_succ_self _⟩

theorem available_of_available_allocate {s : Pmm N} {b n : SizeT} {q : Fin N.NPAGE}
    (h : (s.allocate b n).available q = true) : s.available q = true := by
  rw [available_allocate, Bool.and_eq_true] at h
  exact h.1

/-- The physical address of a page of the pool lies below the end of the memory. -/
theorem page2pa_lt (p : Fin N.NPAGE) :
    page2pa N.physMem (pageNo p) < N.physMem.npage * PGSIZE := by
  have hN := N.lt_two_pow
  have hp := p.isLt
  have hppn : (page2ppn N.physMem (pageNo p)).toNat = p + 0x80200 := by
    rw [page2ppn, PoolSize.physMem, BitVec.toNat_add, pageNo_toNat, NBASE_toNat]
    omega
  rw [BitVec.lt_def, toNat_physMem_end, page2pa, BitVec.toNat_shiftLeft, hppn, PGSHIFT,
    Nat.shiftLeft_eq]
  omega

/-- Frees commute, so freeing three pages in the order of their allocations undoes these. -/
theorem freePage_three {s s1 s2 s3 : Pmm N} {p0 p1 p2 : SizeT}
    (h0 : allocPage.run s = (p0, s1)) (h1 : allocPage.run s1 = (p1, s2))
    (h2 : allocPage.run s2 = (p2, s3)) :
    ((freePage p2).run ((freePage p1).run ((freePage p0).run s3).2).2).2 = s := by
  have hcomm : ∀ (p q : SizeT) (t : Pmm N),
      ((freePage q).run ((freePage p).run t).2).2 = ((freePage p).run ((freePage q).run t).2).2 :=
    fun p q t => freePages_comm t p 1 q 1
  have hundo0 : ((freePage p0).run s1).2 = s := freePages_allocPages h0
  have hundo1 : ((freePage p1).run s2).2 = s1 := freePages_allocPages h1
  have hundo2 : ((freePage p2).run s3).2 = s2 := freePages_allocPages h2
  rw [hcomm p1 p2, hcomm p0 p2, hundo2, hcomm p0 p1, hundo1, hundo0]

/-- `basic_check` needs three available pages, and leaves the state as it was. -/
theorem exec_basicCheck (s : Pmm N) :
    (3 ≤ s.availableCount ∧ (basicCheck N.physMem).exec s = (.ok (), s)) ∨
    (s.availableCount < 3 ∧ ∃ h s', (basicCheck N.physMem).exec s = (.error h, s')) := by
  unfold basicCheck
  rw [HaltT.exec_bind, HaltT.exec_lift]
  rcases run_allocPage s with ⟨p0, hav0, hrun0, hcount0⟩ | ⟨hcount0, hrun0⟩
  swap
  · rw [hrun0]
    dsimp only
    rw [exec_assert_bind_of_not _ _ (not_not.mpr rfl)]
    exact Or.inr ⟨by omega, _, _, rfl⟩
  rw [hrun0]
  dsimp only
  rw [exec_assert_bind _ _ (pageNo_ne_NULLPAGE p0), HaltT.exec_bind, HaltT.exec_lift]
  rcases run_allocPage (s.allocate (pageNo p0) 1) with
    ⟨p1, hav1, hrun1, hcount1⟩ | ⟨hcount1, hrun1⟩
  swap
  · rw [hrun1]
    dsimp only
    rw [exec_assert_bind_of_not _ _ (not_not.mpr rfl)]
    exact Or.inr ⟨by omega, _, _, rfl⟩
  rw [hrun1]
  dsimp only
  rw [exec_assert_bind _ _ (pageNo_ne_NULLPAGE p1), HaltT.exec_bind, HaltT.exec_lift]
  rcases run_allocPage ((s.allocate (pageNo p0) 1).allocate (pageNo p1) 1) with
    ⟨p2, hav2, hrun2, hcount2⟩ | ⟨hcount2, hrun2⟩
  swap
  · rw [hrun2]
    dsimp only
    rw [exec_assert_bind_of_not _ _ (not_not.mpr rfl)]
    exact Or.inr ⟨by omega, _, _, rfl⟩
  rw [hrun2]
  dsimp only
  have hne12 := ne_of_available_allocate hav2
  have hav2' := available_of_available_allocate hav2
  rw [exec_assert_bind _ _ (pageNo_ne_NULLPAGE p2),
    exec_assert_bind _ _ ⟨ne_of_available_allocate hav1, ne_of_available_allocate hav2', hne12⟩,
    exec_assert_bind _ _ (page2pa_lt p0), exec_assert_bind _ _ (page2pa_lt p1),
    exec_assert_bind _ _ (page2pa_lt p2)]
  refine Or.inl ⟨by omega, ?_⟩
  rw [HaltT.exec_bind, HaltT.exec_lift]
  dsimp only
  rw [HaltT.exec_bind, HaltT.exec_lift]
  dsimp only
  rw [HaltT.exec_lift, freePage_three hrun0 hrun1 hrun2]

/-! ## The check -/

/-- Some five consecutive pages are available. -/
def FivePages (s : Pmm N) : Prop := ∃ b, ∀ i < 5, s.Avail (b + i)

theorem fivePages_iff (s : Pmm N) : FivePages s ↔ ∃ b, s.FreeBlock 5 b := by
  have hfive : (5 : SizeT).toNat = 5 := rfl
  refine exists_congr fun b => ⟨fun h => ?_, fun h i hi => ?_⟩
  · rw [FreeBlock, hfive]
    obtain ⟨hlast, -⟩ := h 4 (by omega)
    refine ⟨by omega, fun p hbp hpb => ?_⟩
    have hp := h (p - b) (by omega)
    rw [Nat.add_sub_cancel' hbp] at hp
    exact avail_iff.mp hp
  · rw [FreeBlock, hfive] at h
    have hlt : b + i < N.NPAGE := by
      have := h.1
      omega
    exact ⟨hlt, h.2 ⟨b + i, hlt⟩ (Nat.le_add_right b i) (Nat.add_lt_add_left hi b)⟩

theorem FivePages.le_availableCount {s : Pmm N} (h : FivePages s) : 5 ≤ s.availableCount := by
  have hN := N.lt_two_pow
  obtain ⟨b, hb⟩ := h
  obtain ⟨hlast, -⟩ := hb 4 (by omega)
  have hbase : (BitVec.ofNat 64 b).toNat = b := by
    rw [BitVec.toNat_ofNat]
    omega
  have hfive : (5 : SizeT).toNat = 5 := rfl
  have hsub : pageRange N (BitVec.ofNat 64 b) 5 ⊆ Finset.univ.filter fun p => s.available p := by
    intro p hp
    rw [mem_pageRange, hbase, hfive] at hp
    have hav := hb (p - b) (by omega)
    rw [Nat.add_sub_cancel' hp.1] at hav
    exact Finset.mem_filter.mpr ⟨Finset.mem_univ p, avail_iff.mp hav⟩
  have hcard := Finset.card_le_card hsub
  rw [card_pageRange (by rw [hbase, hfive]; omega), hfive] at hcard
  exact hcard

/-- What `alloc_pages(5)` does for the check. -/
theorem run_allocPages_five (s : Pmm N) :
    (FivePages s ∧ ∃ (p : Fin N.NPAGE) (s' : Pmm N), (allocPages 5).run s = (pageNo p, s') ∧
      s'.allocated p = true ∧ ((freePages (pageNo p) 5).run s').2 = s) ∨
    (¬ FivePages s ∧ (allocPages 5).run s = (NULLPAGE, s)) := by
  have hcases := run_defaultAllocPages 5 s
  rw [starts_avail] at hcases
  rw [fivePages_iff]
  rcases hcases with ⟨b, hpos, hleast, hrun⟩ | ⟨hnone, hrun⟩
  · obtain ⟨hfit, hfree⟩ := hleast.1
    have hlt : b.toNat < N.NPAGE := by omega
    have hb : b = pageNo ⟨b.toNat, hlt⟩ := by
      rw [← BitVec.toNat_inj, pageNo_toNat]
    refine Or.inl ⟨⟨b.toNat, hleast.1⟩, ⟨b.toNat, hlt⟩, s.allocate b 5, ?_, ?_, ?_⟩
    · rw [← hb]
      exact hrun
    · rw [allocated_allocate, if_pos]
      rw [mem_pageRange]
      exact ⟨le_refl _, Nat.lt_add_of_pos_right hpos⟩
    · rw [← hb]
      exact freePages_allocPages hrun
  · refine Or.inr ⟨?_, hrun⟩
    rintro ⟨b, hb⟩
    rcases hnone with h0 | hempty
    · exact absurd h0 (by decide)
    · exact Set.eq_empty_iff_forall_notMem.mp hempty b hb

/-- `default_check` finishes exactly on the pools that it is meant to accept, and a check that
finishes leaves the pool as it was. -/
theorem exec_defaultCheck (s : Pmm N) :
    (s.nrFree.toNat = s.availableCount ∧ FivePages s ∧
      (defaultCheck N.physMem).exec s = (.ok (), s)) ∨
    (¬ (s.nrFree.toNat = s.availableCount ∧ FivePages s) ∧
      ∃ h s', (defaultCheck N.physMem).exec s = (.error h, s')) := by
  unfold defaultCheck
  rw [HaltT.exec_bind, HaltT.exec_lift, run_checkLoop]
  dsimp only [loopResult]
  rw [HaltT.exec_bind, HaltT.exec_lift]
  dsimp only
  have hcount : (· + 1)^[s.availableCount] (0 : SizeT) = (nrFreePages.run s).1 ↔
      s.nrFree.toNat = s.availableCount := by
    have hN := N.lt_two_pow
    have hle : s.availableCount ≤ N.NPAGE := by
      rw [availableCount]
      exact (Finset.card_le_univ _).trans_eq (Fintype.card_fin _)
    have hrun : (nrFreePages.run s).1 = s.nrFree := rfl
    rw [iterate_succ_zero, hrun, ← BitVec.toNat_inj, BitVec.toNat_ofNat,
      Nat.mod_eq_of_lt (by omega)]
    exact eq_comm
  by_cases hfree : s.nrFree.toNat = s.availableCount
  swap
  · rw [exec_assert_bind_of_not _ _ (mt hcount.mp hfree)]
    exact Or.inr ⟨fun h => hfree h.1, _, _, rfl⟩
  rw [exec_assert_bind _ _ (hcount.mpr hfree), HaltT.exec_bind]
  rcases exec_basicCheck s with ⟨-, hbasic⟩ | ⟨hfew, h, s', hbasic⟩
  swap
  · have hnone : ¬ FivePages s := fun hfive => by
      have := hfive.le_availableCount
      omega
    refine Or.inr ⟨fun h => hnone h.2, h, s', ?_⟩
    rw [show (nrFreePages.run s).2 = s from rfl, hbasic]
  rw [show (nrFreePages.run s).2 = s from rfl, hbasic]
  dsimp only
  rw [HaltT.exec_bind, HaltT.exec_lift]
  rcases run_allocPages_five s with ⟨hfive, p, s', hrun, hall, hundo⟩ | ⟨hnone, hrun⟩
  swap
  · rw [hrun]
    dsimp only
    rw [exec_assert_bind_of_not _ _ (not_not.mpr rfl)]
    exact Or.inr ⟨fun h => hnone h.2, _, _, rfl⟩
  have hread : (pageAllocatedAt (pageNo p)).exec s' = (.ok true, s') := by
    have hp : (pageNo p).toNat < N.NPAGE := by
      rw [pageNo_toNat]
      exact p.isLt
    have hpage : (⟨(pageNo p).toNat, hp⟩ : Fin N.NPAGE) = p := Fin.ext (pageNo_toNat p)
    rw [pageAllocatedAt, dif_pos hp, HaltT.exec_lift, run_pageAllocated, hpage, hall]
  rw [hrun]
  dsimp only
  rw [exec_assert_bind _ _ (pageNo_ne_NULLPAGE p), HaltT.exec_bind, hread]
  dsimp only
  rw [exec_assert_bind _ _ rfl, HaltT.exec_bind, HaltT.exec_lift, hundo]
  dsimp only
  -- the second loop runs on the pool that the first one counted
  rw [HaltT.exec_bind, HaltT.exec_lift, run_checkLoop]
  dsimp only
  rw [exec_assert_bind _ _ (iterate_pred_iterate_succ _ 0), exec_assert,
    if_pos (iterate_pred_iterate_succ _ 0)]
  exact Or.inl ⟨hfree, hfive, rfl⟩

/-- `default_check` finishes if and only if `nr_free` is the number of available pages and five of
these lie in a row, and it leaves the pool as it was. -/
theorem default_check_iff (s : Pmm N) :
    ((∃ s', (defaultCheck N.physMem).exec s = (.ok (), s')) ↔
      s.nrFree.toNat = s.availableCount ∧ ∃ b, ∀ i < 5, s.Avail (b + i)) ∧
    ∀ s', (defaultCheck N.physMem).exec s = (.ok (), s') → s' = s := by
  rcases exec_defaultCheck s with ⟨hcount, hfive, hexec⟩ | ⟨hnot, h, s', hexec⟩
  · rw [hexec]
    refine ⟨iff_of_true ⟨s, rfl⟩ ⟨hcount, hfive⟩, fun s' heq => ?_⟩
    exact (Prod.mk.inj heq).2.symm
  · rw [hexec]
    refine ⟨iff_of_false ?_ hnot, fun s'' heq => ?_⟩
    · rintro ⟨s'', heq⟩
      exact nomatch (Prod.mk.inj heq).1
    · exact nomatch (Prod.mk.inj heq).1

end CertiCore
