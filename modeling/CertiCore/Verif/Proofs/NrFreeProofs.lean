import CertiCore.Mm.Proofs.CheckProofs
import CertiCore.Verif.Proofs.LlvmProofs

/-!
# `nr_free_eq`

Which calls of the specification keep the counter equal to the number of available pages, for every
size of the pool. The counting is done on the pool that agrees with the state.
-/

namespace CertiCore

open LlvmSpec Pmm

variable {N : PoolSize} {s : Pmm N} {t : State} {base n : SizeT}

/-! ## The pool -/

theorem availableCount_le (s : Pmm N) : s.availableCount ≤ N.NPAGE :=
  (Finset.card_le_univ _).trans_eq (Fintype.card_fin _)

theorem nrFreeExact_iff : NrFreeExact s ↔ s.nrFree.toNat = s.availableCount := Iff.rfl

theorem nrFreeExact_allocate (h : NrFreeExact s) (hin : base.toNat + n.toNat ≤ N.NPAGE)
    (havail : ∀ p ∈ pageRange N base n, s.available p = true) :
    NrFreeExact (s.allocate base n) := by
  have hcount := availableCount_allocate hin havail
  rw [nrFreeExact_iff] at h ⊢
  have hle : n ≤ s.nrFree := by
    rw [BitVec.le_def]
    omega
  rw [nrFree_allocate, BitVec.toNat_sub_of_le hle]
  omega

/-- Pages that become available are counted. -/
theorem availableCount_add {s' : Pmm N} (R : Finset (Fin N.NPAGE))
    (hR : ∀ p ∈ R, s.available p = false)
    (h : ∀ p, s'.available p = (s.available p || decide (p ∈ R))) :
    s'.availableCount = s.availableCount + R.card := by
  have hfilter : (Finset.univ.filter fun p => s'.available p) =
      (Finset.univ.filter fun p => s.available p) ∪ R := by
    ext p
    simp only [Finset.mem_filter, Finset.mem_univ, true_and, Finset.mem_union, h, Bool.or_eq_true,
      decide_eq_true_eq]
  have hdisj : Disjoint (Finset.univ.filter fun p => s.available p) R := by
    refine Finset.disjoint_left.mpr fun p hp hpR => ?_
    rw [Finset.mem_filter, hR p hpR] at hp
    exact Bool.false_ne_true hp.2
  rw [availableCount, availableCount, hfilter, Finset.card_union_of_disjoint hdisj]

theorem toNat_nrFree_add_exact (h : NrFreeExact s) (hin : InPool N base n) :
    (s.nrFree + n).toNat = s.availableCount + n.toNat := by
  have hle := availableCount_le s
  have hfit := hin.2
  rw [nrFreeExact_iff] at h
  rw [toNat_nrFree_add (N := N) (by omega), h]

theorem nrFreeExact_handOver (h : NrFreeExact s) (hcode : s.initMemmapCode base n = 0) :
    NrFreeExact (s.handOver base n) := by
  obtain ⟨hin, hpages⟩ := (initMemmapCode_eq_zero_iff base n s).mp hcode
  have hcount : (s.handOver base n).availableCount =
      s.availableCount + (pageRange N base n).card := by
    refine availableCount_add _ (fun p hp => ?_) fun p => ?_
    · rw [available, (hpages p hp).1]
      rfl
    · rw [available, available, reserved_handOver, allocated_handOver]
      by_cases hp : p ∈ pageRange N base n
      · simp [hp, (hpages p hp).2]
      · simp [hp]
  rw [nrFreeExact_iff, nrFree_handOver, toNat_nrFree_add_exact h hin, hcount, card_pageRange hin.2]

/-- A range that is freed is counted page by page, whether it was allocated or not. -/
theorem nrFreeExact_free_iff (h : NrFreeExact s) (hin : InPool N base n) :
    NrFreeExact (s.free base n) ↔
      ∀ p ∈ pageRange N base n, s.allocated p = true ∧ s.reserved p = false := by
  have hcount : (s.free base n).availableCount = s.availableCount +
      ((pageRange N base n).filter fun p => s.allocated p = true ∧ s.reserved p = false).card := by
    refine availableCount_add _ (fun p hp => ?_) fun p => ?_
    · rw [available, (Finset.mem_filter.mp hp).2.1]
      exact Bool.and_false _
    · simp only [available, reserved_free, allocated_free, Finset.mem_filter]
      by_cases hp : p ∈ pageRange N base n
      · cases s.allocated p <;> cases s.reserved p <;> simp [hp]
      · simp [hp]
  rw [nrFreeExact_iff, nrFree_free, toNat_nrFree_add_exact h hin, hcount, Nat.add_left_cancel_iff,
    ← card_pageRange hin.2, eq_comm, Finset.card_filter_eq_iff]

/-! ## The specification -/

theorem bvcount_eq (f : BitVec 64 → Bool) (l : List (BitVec 64)) :
    bvcount f l = BitVec.ofNat 64 (l.countP f) := by
  induction l with
  | nil => rfl
  | cons a l ih =>
    rw [bvcount, ih]
    cases hf : f a with
    | true =>
      rw [List.countP_cons_of_pos hf, BitVec.ofNat_add]
      rfl
    | false =>
      rw [List.countP_cons_of_neg (by rw [hf]; exact Bool.false_ne_true)]
      rfl

theorem pages_eq_map_pageNo (N : PoolSize) : pages N = (List.finRange N.NPAGE).map pageNo := by
  rw [pages, ← List.map_coe_finRange_eq_range, List.map_map]
  rfl

/-- `nr_free_eq` says of the state what `default_check` asserts of the pool. -/
theorem Agree.nrFreeEq (h : Agree s t) : nrFreeEq N t = true ↔ NrFreeExact s := by
  have hcount : (pages N).countP (fun idx => LlvmSpec.pageAvailable N t idx) =
      s.availableCount := by
    rw [pages_eq_map_pageNo, List.countP_map, availableCount, card_filter_univ]
    exact List.countP_congr fun p _ => by rw [Function.comp_apply, h.available]
  have hle := availableCount_le s
  have hN := N.lt_two_pow
  rw [LlvmSpec.nrFreeEq, decide_eq_true_iff, bvcount_eq, hcount, h.nrFree, nrFreeExact_iff,
    ← BitVec.toNat_inj, BitVec.toNat_ofNat, Nat.mod_eq_of_lt (by omega)]
  exact eq_comm

/-- One call, in C. -/
theorem nrFreeExact_call_iff (h : Agree s t) (hexact : NrFreeExact s) (c : Call) :
    NrFreeExact (c.impl.run s).2 ↔ c.KeepsNrFree N t := by
  cases c with
  | init =>
    have hcount : (Finset.univ.filter fun p => s.available p).card = 0 ↔
        ∀ p, s.available p = false := by
      rw [Finset.card_eq_zero, Finset.filter_eq_empty_iff]
      simp
    have hpages : (∀ page ∈ pages N, LlvmSpec.pageAvailable N t page = false) ↔
        ∀ p, s.available p = false := by
      rw [forall_mem_pages]
      simp only [h.available]
    exact eq_comm.trans (hcount.trans hpages.symm)
  | initMemmap base n =>
    simp only [Call.impl, Prog.run_bind, Prog.run_pure, run_defaultInitMemmap]
    refine iff_of_true ?_ trivial
    by_cases hcode : s.initMemmapCode base n = 0
    · rw [if_pos hcode]
      exact nrFreeExact_handOver hexact hcode
    · rw [if_neg hcode]
      exact hexact
  | allocPages n =>
    simp only [Call.impl, Prog.run_bind, Prog.run_pure]
    refine iff_of_true ?_ trivial
    rcases run_defaultAllocPages n s with ⟨b, -, hleast, hrun⟩ | ⟨-, hrun⟩
    · rw [hrun]
      refine nrFreeExact_allocate hexact hleast.1.1 fun p hp => ?_
      rw [mem_pageRange] at hp
      exact avail_iff.mp (hleast.1.2 p hp.1 hp.2)
    · rw [hrun]
      exact hexact
  | freePages base n =>
    simp only [Call.impl, Prog.run_bind, Prog.run_pure, run_defaultFreePages]
    have hpages : (∀ page ∈ pages N, base ≤ page → page < base + n →
        LlvmSpec.pageAllocated N t page = true ∧ LlvmSpec.pageReserved N t page = false) ↔
        ∀ p : Fin N.NPAGE, base ≤ pageNo p → pageNo p < base + n →
          s.allocated p = true ∧ s.reserved p = false := by
      rw [forall_mem_pages]
      simp only [h.allocated, h.reserved]
    rw [Call.KeepsNrFree, hpages]
    by_cases hin : InPool N base n
    · rw [if_pos hin, nrFreeExact_free_iff hexact hin]
      simp only [← inRange_iff hin.2, and_imp, hin.2, true_imp_iff]
    · rw [if_neg hin]
      refine iff_of_true hexact fun hle p hlo hhi => ?_
      have hempty := (inRange_iff hle p).mp ⟨hlo, hhi⟩
      rw [mem_pageRange] at hempty
      exact absurd ⟨by omega, hle⟩ hin
  | nrFreePages => exact iff_of_true hexact trivial

/-- The pool of the implementation that agrees with a state. -/
def LlvmSpec.State.toPmm (N : PoolSize) (t : State) : Pmm N :=
  ⟨fun p => t.pagedbFlag (pageNo p), t.nrfree⟩

theorem agree_toPmm (N : PoolSize) (t : State) : Agree (t.toPmm N) t := ⟨rfl, fun _ => rfl⟩

theorem nrFreeEq_call_iff (c : Call) (h : nrFreeEq N t = true) :
    nrFreeEq N (c.spec N t) = true ↔ c.KeepsNrFree N t := by
  have hagree := agree_toPmm N t
  rw [(hagree.call c).2.nrFreeEq]
  exact nrFreeExact_call_iff hagree (hagree.nrFreeEq.mp h) c

theorem specRun_append_singleton (cs : List Call) (c : Call) (t : State) :
    (specRun N (cs ++ [c]) t).2 = c.spec N (specRun N cs t).2 := by
  induction cs generalizing t with
  | nil => rfl
  | cons c' cs ih => exact ih (c'.spec N t)

/-- From a state with `nr_free_eq` on, a sequence of calls keeps it all the time if and only if
every call of it does, which `alloc_pages`, `init_memmap` and `nr_free_pages` always do. -/
theorem nr_free_preservation (calls : List Call) (h : nrFreeEq N t = true) :
    (∀ cs, cs <+: calls → nrFreeEq N (specRun N cs t).2 = true) ↔
      ∀ cs c, cs ++ [c] <+: calls → c.KeepsNrFree N (specRun N cs t).2 := by
  constructor
  · intro hall cs c hcs
    have hbefore := hall cs ((List.prefix_append cs [c]).trans hcs)
    have hafter := hall _ hcs
    rw [specRun_append_singleton] at hafter
    exact (nrFreeEq_call_iff c hbefore).mp hafter
  · intro hkeeps cs
    induction cs using List.reverseRecOn with
    | nil => exact fun _ => h
    | append_singleton cs c ih =>
      intro hcs
      have hbefore := ih ((List.prefix_append cs [c]).trans hcs)
      rw [specRun_append_singleton]
      exact (nrFreeEq_call_iff c hbefore).mpr (hkeeps cs c hcs)

/-- A block of two pages is freed, and allocated again. -/
theorem nr_free_preservation_block :
    nrFreeEq .verif (specRun .verif [.freePages 0 2, .allocPages 2]
      ⟨none, 3, fun p => if p < 2 then 2 else 0⟩).2 = true := by
  refine (nr_free_preservation _ (by decide)).mpr (fun cs c h => ?_) _ List.prefix_rfl
  rcases cs with _ | ⟨x, _ | ⟨y, cs⟩⟩
  · obtain rfl : c = .freePages 0 2 := (List.cons_prefix_cons.mp h).1
    have hpages : ∀ page ∈ pages .verif, page < 2 →
        LlvmSpec.pageAllocated .verif ⟨none, 3, fun p => if p < 2 then 2 else 0⟩ page = true ∧
          LlvmSpec.pageReserved .verif ⟨none, 3, fun p => if p < 2 then 2 else 0⟩ page = false := by
      rw [forall_mem_pages]
      decide
    exact fun _ page hmem _ hlt => hpages page hmem hlt
  · simp only [List.cons_append, List.nil_append, List.cons_prefix_cons] at h
    obtain ⟨-, rfl, -⟩ := h
    exact trivial
  · simp [List.cons_prefix_cons] at h

end CertiCore
