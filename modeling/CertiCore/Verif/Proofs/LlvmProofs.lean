import CertiCore.Mm.Proofs.PoolProofs
import CertiCore.Verif.Llvm

/-!
# Proofs: the allocator refines its specification, for every pool size

Each call keeps `Agree` and returns what the specification puts into `a0`. The two searches for free
pages are different algorithms: both find the first fit, which is unique.
-/

namespace CertiCore

open LlvmSpec (State bv64)

variable {N : PoolSize} {s : Pmm N} {t : State}

/-! ## The flags of the specification -/

theorem bv64_NPAGE (N : PoolSize) : bv64 N.NPAGE = N.npage := rfl

theorem pageFlagMask_reserved : LlvmSpec.pageFlagMask PG_reserved = bitMask PG_reserved := by decide

theorem pageFlagMask_allocated : LlvmSpec.pageFlagMask PG_allocated = bitMask PG_allocated := by
  decide

/-- The specification tests a flag of a page in the pool as `test_bit` does. -/
theorem Agree.pageHasFlag (h : Agree s t) {flag : ℕ} (hflag : flag < 64)
    (hmask : LlvmSpec.pageFlagMask flag = bitMask flag) (p : Fin N.NPAGE) :
    LlvmSpec.pageHasFlag N t (pageNo p) flag = testBit flag (s.flags p) := by
  have hbound : LlvmSpec.pageInBound N (pageNo p) = true := by
    simp [LlvmSpec.pageInBound, bv64_NPAGE, BitVec.lt_def]
  rw [LlvmSpec.pageHasFlag, hbound, hmask, h.flags, and_bitMask_eq_zero hflag, testBit_eq_getLsbD,
    Bool.not_not, Bool.true_and]

theorem Agree.reserved (h : Agree s t) (p : Fin N.NPAGE) :
    LlvmSpec.pageReserved N t (pageNo p) = s.reserved p :=
  h.pageHasFlag PG_reserved_lt pageFlagMask_reserved p

theorem Agree.allocated (h : Agree s t) (p : Fin N.NPAGE) :
    LlvmSpec.pageAllocated N t (pageNo p) = s.allocated p :=
  h.pageHasFlag PG_allocated_lt pageFlagMask_allocated p

theorem Agree.available (h : Agree s t) (p : Fin N.NPAGE) :
    LlvmSpec.pageAvailable N t (pageNo p) = s.available p := by
  rw [LlvmSpec.pageAvailable, h.allocated, h.reserved, Pmm.available, Bool.and_comm]

/-- A property of all page numbers `(map bv64 (range NPAGE))` is one of all pages of the pool. -/
theorem forall_mem_pages {P : BitVec 64 → Prop} :
    (∀ x ∈ LlvmSpec.pages N, P x) ↔ ∀ p : Fin N.NPAGE, P (pageNo p) := by
  simp only [LlvmSpec.pages, List.mem_map, List.mem_range, forall_exists_index, and_imp,
    forall_apply_eq_imp_iff₂]
  exact ⟨fun h p => h p p.isLt, fun h i hi => h ⟨i, hi⟩⟩

theorem Agree.pageValidFlag (h : Agree s t) {base n : SizeT}
    (hn : base.toNat + n.toNat ≤ N.NPAGE) :
    LlvmSpec.pageValidFlag N t base n PG_reserved = true ↔
      ¬ ∃ p ∈ pageRange N base n, s.reserved p = false := by
  rw [LlvmSpec.pageValidFlag, List.all_eq_true, forall_mem_pages]
  push Not
  refine forall_congr' fun p => ?_
  have hres : LlvmSpec.pageHasFlag N t (pageNo p) PG_reserved = s.reserved p := h.reserved p
  rw [hres, ← inRange_iff hn]
  by_cases h1 : base ≤ pageNo p <;> by_cases h2 : pageNo p < base + n <;> simp [h1, h2]

theorem Agree.pageSatFlag (h : Agree s t) {base n : SizeT}
    (hn : base.toNat + n.toNat ≤ N.NPAGE) :
    LlvmSpec.pageSatFlag N t base n PG_allocated = true ↔
      ∃ p ∈ pageRange N base n, s.allocated p = true := by
  rw [← not_iff_not, Bool.not_eq_true, LlvmSpec.pageSatFlag, List.any_eq_false, forall_mem_pages]
  push Not
  refine forall_congr' fun p => ?_
  have hall : LlvmSpec.pageHasFlag N t (pageNo p) PG_allocated = s.allocated p := h.allocated p
  rw [hall, ← inRange_iff hn]
  by_cases h1 : base ≤ pageNo p <;> by_cases h2 : pageNo p < base + n <;> simp [h1, h2]

/-! ## The search for free pages -/

section FindFree

variable {num : BitVec 64} {t : State}

/-- The positions of the pages that the specification finds available. -/
def SpecAvail (N : PoolSize) (t : State) (p : ℕ) : Prop :=
  LlvmSpec.pageAvailable N t (bv64 p) = true

/-- A search whose accumulator has reached `num` answers with the first fit. -/
theorem isLeast_of_acc_eq {i f : ℕ} {ans : BitVec 64} (hpos : 0 < num.toNat) (hi : i ≤ N.NPAGE)
    (hscan : FirstFit.Scan (SpecAvail N t) num.toNat i f) (hacc : num.toNat = i - f)
    (hans : num ≠ 0 → ans.toNat = f) :
    IsLeast (FirstFit.starts (SpecAvail N t) N.NPAGE num.toNat) ans.toNat := by
  have hne : num ≠ 0 := by
    rintro rfl
    exact absurd hpos (Nat.lt_irrefl 0)
  rw [hans hne]
  exact hscan.isLeast (by omega) hi

/-- `find-free-accumulate` in the middle of its list: the pages below `i` are behind it, and its
accumulator counts the run of available pages that began at `f`. -/
theorem findFreeAccumulate_spec (hpos : 0 < num.toNat) (k : ℕ) :
    ∀ (i f : ℕ) (acc ans : BitVec 64), i + k = N.NPAGE →
      FirstFit.Scan (SpecAvail N t) num.toNat i f → acc.toNat = i - f →
      (acc ≠ 0 → ans.toNat = f) →
      match LlvmSpec.findFreeAccumulate N t num ((LlvmSpec.pages N).drop i) acc ans with
      | some b => IsLeast (FirstFit.starts (SpecAvail N t) N.NPAGE num.toNat) b.toNat
      | none => FirstFit.starts (SpecAvail N t) N.NPAGE num.toNat = ∅ := by
  have hN := N.lt_two_pow
  induction k with
  | zero =>
    intro i f acc ans hi hscan hacc hans
    obtain rfl : i = N.NPAGE := hi
    have hnil : (LlvmSpec.pages N).drop N.NPAGE = [] := by
      apply List.drop_of_length_le
      simp [LlvmSpec.pages]
    rw [hnil, LlvmSpec.findFreeAccumulate]
    by_cases heq : num = acc
    · subst heq
      simp only [if_pos]
      exact isLeast_of_acc_eq hpos (le_refl _) hscan hacc hans
    · have hne : num.toNat ≠ acc.toNat := fun h => heq (BitVec.eq_of_toNat_eq h)
      have hle := hscan.le_add
      simp only [if_neg heq]
      exact hscan.starts_eq_empty (by omega)
  | succ k ih =>
    intro i f acc ans hi hscan hacc hans
    have hlen : i < (LlvmSpec.pages N).length := by simp [LlvmSpec.pages]; omega
    have hcons : (LlvmSpec.pages N).drop i = bv64 i :: (LlvmSpec.pages N).drop (i + 1) := by
      rw [List.drop_eq_getElem_cons hlen]
      simp [LlvmSpec.pages]
    rw [hcons, LlvmSpec.findFreeAccumulate]
    by_cases heq : num = acc
    · subst heq
      simp only [if_pos]
      exact isLeast_of_acc_eq hpos (by omega) hscan hacc hans
    have hne : num.toNat ≠ acc.toNat := fun h => heq (BitVec.eq_of_toNat_eq h)
    have hle := hscan.le
    have hle' := hscan.le_add
    have hlt : i < f + num.toNat := by omega
    simp only [if_neg heq]
    by_cases hav : LlvmSpec.pageAvailable N t (bv64 i) = true
    · rw [if_pos hav]
      have hacc' : (acc + 1).toNat = i + 1 - f := by
        rw [BitVec.toNat_add]
        simp only [BitVec.ofNat_eq_ofNat, BitVec.toNat_ofNat]
        omega
      refine ih (i + 1) f _ _ (by omega) (hscan.extend hlt hav) hacc' fun _ => ?_
      by_cases h0 : acc = bv64 0
      · -- a run that begins here
        rw [if_pos h0]
        have : acc.toNat = 0 := by rw [h0]; rfl
        simp only [bv64, BitVec.toNat_ofNat]
        omega
      · rw [if_neg h0]
        exact hans h0
    · rw [if_neg hav]
      exact ih (i + 1) (i + 1) _ _ (by omega) (hscan.restart hlt hav) (by simp [bv64])
        fun h => absurd rfl h

end FindFree

/-- On agreeing states the specification finds the first fit among the available pages. -/
theorem Agree.findFreePages (h : Agree s t) {num : BitVec 64} (hpos : 0 < num.toNat) :
    match LlvmSpec.findFreePages N t num with
    | some b => IsLeast (FirstFit.starts s.Avail N.NPAGE num.toNat) b.toNat
    | none => FirstFit.starts s.Avail N.NPAGE num.toNat = ∅ := by
  have hcongr : FirstFit.starts (SpecAvail N t) N.NPAGE num.toNat =
      FirstFit.starts s.Avail N.NPAGE num.toNat := by
    refine FirstFit.starts_congr fun p hp => ?_
    have hav := h.available ⟨p, hp⟩
    rw [SpecAvail, show bv64 p = pageNo (⟨p, hp⟩ : Fin N.NPAGE) from rfl, hav]
    exact (avail_iff (p := ⟨p, hp⟩)).symm
  have hspec := findFreeAccumulate_spec hpos N.NPAGE 0 0 (bv64 0) (bv64 0) (Nat.zero_add _)
    FirstFit.Scan.zero rfl (fun h => absurd rfl h) (t := t)
  rw [hcongr, List.drop_zero] at hspec
  exact hspec

/-! ## The calls -/

theorem Agree.init (h : Agree s t) :
    Agree (Prog.run defaultInit s).2 (LlvmSpec.specDefaultInit t) :=
  ⟨rfl, h.flags⟩

/-- A range update of the specification has the effect of `mapRange` on agreeing states. -/
theorem Agree.updateFunc (h : Agree s t) {base n : SizeT} {f g : BitVec 64 → BitVec 64}
    {pred : BitVec 64 → Bool} (hpred : ∀ p, pred (pageNo p) = true ↔ p ∈ pageRange N base n)
    (hfg : ∀ w, f w = g w) (p : Fin N.NPAGE) :
    LlvmSpec.updateFunc t.pagedbFlag pred f (pageNo p) = (s.mapRange g base n).flags p := by
  simp only [LlvmSpec.updateFunc, Pmm.mapRange, h.flags]
  by_cases hp : p ∈ pageRange N base n
  · rw [if_pos ((hpred p).mpr hp), if_pos hp, hfg]
  · rw [if_neg (mt (hpred p).mp hp), if_neg hp]

theorem Agree.pageClearFlagFunc (h : Agree s t) {base n : SizeT} {flag : ℕ}
    (hmask : LlvmSpec.pageFlagMask flag = bitMask flag) (hn : base.toNat + n.toNat ≤ N.NPAGE)
    (p : Fin N.NPAGE) :
    (LlvmSpec.pageClearFlagFunc t (fun pageno => decide (pageno ≥ base) &&
      decide (pageno < base + n)) flag).pagedbFlag (pageNo p) =
      (s.mapRange (clearBit flag) base n).flags p := by
  simp only [LlvmSpec.pageClearFlagFunc]
  refine h.updateFunc (fun p => ?_) (fun w => ?_) p
  · rw [Bool.and_eq_true, decide_eq_true_iff, decide_eq_true_iff]
    exact inRange_iff hn p
  · rw [hmask, clearBit, BitVec.and_comm]

theorem Agree.pageSetFlagFunc (h : Agree s t) {base n : SizeT} {flag : ℕ}
    (hmask : LlvmSpec.pageFlagMask flag = bitMask flag) (hn : base.toNat + n.toNat ≤ N.NPAGE)
    (p : Fin N.NPAGE) :
    (LlvmSpec.pageSetFlagFunc t (fun pageno => decide (base ≤ pageno) &&
      decide (pageno < n + base)) flag).pagedbFlag (pageNo p) =
      (s.mapRange (setBit flag) base n).flags p := by
  simp only [LlvmSpec.pageSetFlagFunc]
  refine h.updateFunc (fun p => ?_) (fun w => ?_) p
  · rw [Bool.and_eq_true, decide_eq_true_iff, decide_eq_true_iff, BitVec.add_comm n]
    exact inRange_iff hn p
  · rw [hmask, setBit]

theorem Agree.initMemmap (h : Agree s t) (base n : SizeT) :
    (LlvmSpec.specDefaultInitMemmap N t base n).a0 = some ((defaultInitMemmap base n).run s).1 ∧
      Agree ((defaultInitMemmap base n).run s).2 (LlvmSpec.specDefaultInitMemmap N t base n) := by
  have hkeep : ∀ code, Agree s (LlvmSpec.setReturn t code) := fun _ => ⟨h.nrFree, h.flags⟩
  rw [run_defaultInitMemmap, LlvmSpec.specDefaultInitMemmap, Pmm.initMemmapCode]
  have hpos : n > bv64 0 ↔ n.toNat ≠ 0 := pos_iff_toNat n
  simp only [hpos, bv64_NPAGE, le_npage_iff]
  by_cases h1 : n.toNat = 0
  · rw [if_pos h1, if_pos (not_not.mpr h1)]
    exact ⟨rfl, hkeep _⟩
  rw [if_neg h1, if_neg (not_not.mpr h1)]
  by_cases h2 : N.NPAGE < n.toNat
  · rw [if_pos h2, if_pos (by omega)]
    exact ⟨rfl, hkeep _⟩
  rw [if_neg h2, if_neg (by omega)]
  by_cases h3 : N.NPAGE < base.toNat
  · rw [if_pos h3, if_pos (by omega)]
    exact ⟨rfl, hkeep _⟩
  rw [if_neg h3, if_neg (by omega), toNat_add_of_le (N := N) (by omega) (by omega)]
  by_cases h4 : N.NPAGE < base.toNat + n.toNat
  · rw [if_pos h4, if_pos (by omega)]
    exact ⟨rfl, hkeep _⟩
  rw [if_neg h4, if_neg (by omega)]
  have hn : base.toNat + n.toNat ≤ N.NPAGE := by omega
  have hvalid := h.pageValidFlag hn
  have hsat := h.pageSatFlag hn
  by_cases h5 : ∃ p ∈ pageRange N base n, s.reserved p = false
  · rw [if_pos h5, if_pos (by simpa using mt hvalid.mp (not_not.mpr h5))]
    exact ⟨rfl, hkeep _⟩
  rw [if_neg h5, if_neg (by simpa using hvalid.mpr h5)]
  by_cases h6 : ∃ p ∈ pageRange N base n, s.allocated p = true
  · rw [if_pos h6, if_pos (hsat.mpr h6)]
    exact ⟨rfl, hkeep _⟩
  rw [if_neg h6, if_neg (mt hsat.mp h6)]
  refine ⟨rfl, ?_, fun p => ?_⟩
  · show t.nrfree + n = s.nrFree + n
    rw [h.nrFree]
  · exact h.pageClearFlagFunc pageFlagMask_reserved hn p

theorem Agree.allocPages (h : Agree s t) (n : SizeT) :
    (LlvmSpec.specDefaultAllocPages N t n).a0 = some ((defaultAllocPages n).run s).1 ∧
      Agree ((defaultAllocPages n).run s).2 (LlvmSpec.specDefaultAllocPages N t n) := by
  have hkeep : ∀ code, Agree s (LlvmSpec.setReturn t code) := fun _ => ⟨h.nrFree, h.flags⟩
  have hcases := run_defaultAllocPages n s
  rw [LlvmSpec.specDefaultAllocPages]
  have hpos : bv64 0 < n ↔ n.toNat ≠ 0 := pos_iff_toNat n
  simp only [hpos, bv64_NPAGE, le_npage_iff]
  by_cases h1 : n.toNat = 0
  · rw [if_pos (not_not.mpr h1)]
    rcases hcases with ⟨b, hn, -, -⟩ | ⟨-, hrun⟩
    · omega
    · rw [hrun]
      exact ⟨rfl, hkeep _⟩
  rw [if_neg (not_not.mpr h1)]
  by_cases h2 : N.NPAGE < n.toNat
  · rw [if_pos (by omega)]
    rcases hcases with ⟨b, -, hleast, -⟩ | ⟨-, hrun⟩
    · have := hleast.1.1
      omega
    · rw [hrun]
      exact ⟨rfl, hkeep _⟩
  rw [if_neg (by omega)]
  have hfind := h.findFreePages (Nat.pos_of_ne_zero h1)
  rcases hcases with ⟨b, -, hleast, hrun⟩ | ⟨hnone, hrun⟩
  · cases hff : LlvmSpec.findFreePages N t n with
    | none =>
      rw [hff] at hfind
      exact absurd hleast.1 (Set.eq_empty_iff_forall_notMem.mp hfind _)
    | some freeblk =>
      rw [hff] at hfind
      -- both blocks are the least one
      obtain rfl : freeblk = b := BitVec.eq_of_toNat_eq (hfind.unique hleast)
      have hfit : freeblk.toNat + n.toNat ≤ N.NPAGE := hleast.1.1
      simp only [hrun]
      refine ⟨rfl, ?_, fun p => ?_⟩
      · show t.nrfree - n = s.nrFree - n
        rw [h.nrFree]
      · exact h.pageSetFlagFunc pageFlagMask_allocated hfit p
  · have hempty : FirstFit.starts s.Avail N.NPAGE n.toNat = ∅ := hnone.resolve_left h1
    cases hff : LlvmSpec.findFreePages N t n with
    | none =>
      rw [hrun]
      exact ⟨rfl, hkeep _⟩
    | some freeblk =>
      rw [hff] at hfind
      exact absurd hfind.1 (Set.eq_empty_iff_forall_notMem.mp hempty _)

theorem Agree.freePages (h : Agree s t) (base n : SizeT) :
    (LlvmSpec.specDefaultFreePages N t base n).a0 = none ∧
      Agree ((defaultFreePages base n).run s).2 (LlvmSpec.specDefaultFreePages N t base n) := by
  refine ⟨rfl, ?_⟩
  have hguard : (¬ base ≥ N.npage ∧ ¬ n = bv64 0 ∧ ¬ n > N.npage ∧ ¬ base + n > N.npage) ↔
      InPool N base n := by
    have hzero : n = bv64 0 ↔ n.toNat = 0 := eq_zero_iff_toNat n
    rw [ge_npage_iff, hzero, gt_npage_iff, gt_npage_iff, InPool]
    constructor
    · rintro ⟨h1, h2, h3, h4⟩
      rw [toNat_add_of_le (N := N) (by omega) (by omega)] at h4
      omega
    · rintro ⟨h1, h2⟩
      rw [toNat_add_of_le (N := N) (by omega) (by omega)]
      omega
  rw [run_defaultFreePages, LlvmSpec.specDefaultFreePages]
  simp only [bv64_NPAGE, hguard]
  by_cases hin : InPool N base n
  · rw [if_pos hin, if_pos hin]
    refine ⟨?_, fun p => ?_⟩
    · show t.nrfree + n = s.nrFree + n
      rw [h.nrFree]
    · exact h.pageClearFlagFunc pageFlagMask_allocated hin.2 p
  · rw [if_neg hin, if_neg hin]
    exact ⟨h.nrFree, h.flags⟩

/-- One call: the same returned value, and the states agree afterwards. -/
theorem Agree.call (h : Agree s t) (c : Call) :
    (c.spec N t).a0 = (c.impl.run s).1 ∧ Agree (c.impl.run s).2 (c.spec N t) := by
  cases c with
  | init => exact ⟨rfl, h.init⟩
  | initMemmap base n =>
    simp only [Call.impl, Call.spec, Prog.run_bind, Prog.run_pure]
    exact h.initMemmap base n
  | allocPages n =>
    simp only [Call.impl, Call.spec, Prog.run_bind, Prog.run_pure]
    exact h.allocPages n
  | freePages base n =>
    simp only [Call.impl, Call.spec, Prog.run_bind, Prog.run_pure]
    exact h.freePages base n
  | nrFreePages => exact ⟨congrArg some h.nrFree, h.nrFree, h.flags⟩

/-- Every sequence of calls, run by the implementation and by the specification from states that
agree, returns the same values and ends in states that agree. -/
theorem llvm_refinement (h : Agree s t) (calls : List Call) :
    (Prog.runAll (calls.map Call.impl) s).1 = (specRun N calls t).1 ∧
      Agree (Prog.runAll (calls.map Call.impl) s).2 (specRun N calls t).2 := by
  induction calls generalizing s t with
  | nil => exact ⟨rfl, h⟩
  | cons c cs ih =>
    obtain ⟨hret, hagree⟩ := h.call c
    obtain ⟨hrets, hend⟩ := ih hagree
    refine ⟨?_, hend⟩
    simp only [List.map_cons, Prog.runAll, specRun, hret, hrets]

/-- The allocator at boot and a specification state with the same flags, run through one call of
each function. -/
theorem llvm_refinement_boot :
    (Prog.runAll ([.init, .initMemmap 0 5, .allocPages 2, .freePages 0 2, .nrFreePages].map
        Call.impl) (⟨fun _ => 1, 0⟩ : Pmm .verif)).1 =
      (specRun .verif [.init, .initMemmap 0 5, .allocPages 2, .freePages 0 2, .nrFreePages]
        ⟨none, 0, fun _ => 1⟩).1 :=
  (llvm_refinement ⟨rfl, fun _ => rfl⟩ _).1

end CertiCore
