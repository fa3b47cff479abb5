import Mathlib.Order.Interval.Finset.Nat
import CertiCore.Mm.Pmm
import CertiCore.Mm.Proofs.PoolProofs
import CertiCore.Ownership.Ledger

/-!
# Proofs: the allocator keeps an ownership ledger

The flag bits represent a ledger, and each call does to it what its name says. The counter is exact
as long as only owned pages are freed: a free of any other page raises `nr_free` all the same.
-/

namespace CertiCore

open Pmm

variable {N : PoolSize} {s : Pmm N} {L : Ledger (Fin N.NPAGE)} {base n : SizeT}

/-! ## The state after boot -/

theorem pageInitState_eq (s₀ : Pmm N) :
    (∀ p, (pageInitState s₀).flags p = setBit PG_reserved 0) ∧ (pageInitState s₀).nrFree = 0 := by
  have hloop := Prog.run_forLoop_finRange (σ := Pmm N) (τ := Unit) (ε := Empty)
    (fun i _ => do
      .write fun s => s.setFlags i 0
      setPageReserved i
      return .ok ())
    (fun i _ s => s.nrFree = 0 ∧ ∀ p : Fin N.NPAGE, p < i → s.flags p = setBit PG_reserved 0)
    (fun _ _ => False)
    (by
      rintro i _ s ⟨hnr, hflags⟩
      refine ⟨hnr, fun p hp => ?_⟩
      by_cases hpi : p = i
      · subst hpi
        simp [Pmm.setFlags]
      · simp only [Pmm.setFlags, Function.update_of_ne hpi]
        exact hflags p ((lt_succ_iff_of_ne hpi).mp hp))
    (t := ()) (s := { s₀ with nrFree := 0 }) ⟨rfl, fun p hp => absurd hp (Nat.not_lt_zero _)⟩
  have hrun : pageInitState s₀ = (pageInitLoop.run { s₀ with nrFree := 0 }).2 := by
    unfold pageInitState defaultInit
    simp only [Prog.run_bind, run_nrFreeStore]
    rfl
  rw [hrun, pageInitLoop]
  rcases hres : (Prog.forLoop _ (List.finRange N.NPAGE) ()).run
      ({ s₀ with nrFree := 0 } : Pmm N) with ⟨e | _, s'⟩
  · exact e.elim
  · rw [hres] at hloop
    exact ⟨fun p => hloop.2 p p.isLt, hloop.1⟩

theorem reserved_pageInitState (s₀ : Pmm N) (p : Fin N.NPAGE) :
    (pageInitState s₀).reserved p = true := by
  rw [reserved, (pageInitState_eq s₀).1]
  decide

theorem allocated_pageInitState (s₀ : Pmm N) (p : Fin N.NPAGE) :
    (pageInitState s₀).allocated p = false := by
  rw [allocated, (pageInitState_eq s₀).1]
  decide

/-! ## The ledger of a state -/

/-- The flag bits represent the ledger: a page is reserved until it is handed over, and allocated
while it has an owner. -/
structure Represents (s : Pmm N) (L : Ledger (Fin N.NPAGE)) : Prop where
  reserved : ∀ p, s.reserved p = true ↔ p ∉ L.managed
  allocated : ∀ p, s.allocated p = true ↔ p ∈ L.owned

/-- The counter is the number of free pages of the ledger. -/
def Counts (s : Pmm N) (L : Ledger (Fin N.NPAGE)) : Prop := s.nrFree.toNat = L.free.card

theorem Represents.available (h : Represents s L) (p : Fin N.NPAGE) :
    s.available p = true ↔ p ∈ L.free := by
  rw [Pmm.available, Bool.and_eq_true, Bool.not_eq_true', Bool.not_eq_true', ← Bool.not_eq_true,
    ← Bool.not_eq_true, h.reserved, h.allocated, not_not, Ledger.mem_free]

theorem Represents.availableCount_eq (h : Represents s L) : s.availableCount = L.free.card := by
  rw [availableCount]
  congr 1
  ext p
  rw [Finset.mem_filter, h.available]
  exact and_iff_right (Finset.mem_univ p)

theorem Represents.nrFreeExact_iff (h : Represents s L) : NrFreeExact s ↔ Counts s L := by
  rw [NrFreeExact, h.availableCount_eq]
  rfl

theorem card_pageRange (h : base.toNat + n.toNat ≤ N.NPAGE) :
    (pageRange N base n).card = n.toNat := by
  have himage : (pageRange N base n).map Fin.valEmbedding =
      Finset.Ico base.toNat (base.toNat + n.toNat) := by
    ext i
    simp only [Finset.mem_map, mem_pageRange, Fin.valEmbedding_apply, Finset.mem_Ico]
    constructor
    · rintro ⟨p, hp, rfl⟩
      exact hp
    · intro hi
      exact ⟨⟨i, by omega⟩, hi, rfl⟩
  rw [← Finset.card_map, himage, Nat.card_Ico]
  omega

theorem card_free_le (L : Ledger (Fin N.NPAGE)) : L.free.card ≤ N.NPAGE := by
  have hle := Finset.card_le_univ L.free
  rwa [Fintype.card_fin] at hle

theorem representsEmpty (s₀ : Pmm N) : Represents (pageInitState s₀) Ledger.empty := by
  constructor
  · intro p
    exact iff_of_true (reserved_pageInitState s₀ p) (Finset.notMem_empty p)
  · intro p
    rw [allocated_pageInitState]
    exact iff_of_false Bool.false_ne_true (Finset.notMem_empty p)

theorem countsEmpty (s₀ : Pmm N) : Counts (pageInitState s₀) Ledger.empty := by
  rw [Counts, (pageInitState_eq s₀).2]
  rfl

/-! ## The three effects on the ledger -/

theorem Represents.handOver (h : Represents s L) :
    Represents (s.handOver base n) (L.handOver (pageRange N base n)) := by
  constructor
  · intro p
    rw [reserved_handOver, Ledger.handOver, Finset.mem_union, not_or, ← h.reserved]
    by_cases hp : p ∈ pageRange N base n
    · simp [hp]
    · simp [hp]
  · intro p
    rw [allocated_handOver]
    exact h.allocated p

theorem Represents.allocate (h : Represents s L) (hfree : pageRange N base n ⊆ L.free) :
    Represents (s.allocate base n) (L.acquire (pageRange N base n) hfree) := by
  constructor
  · intro p
    rw [reserved_allocate]
    exact h.reserved p
  · intro p
    rw [allocated_allocate, Ledger.acquire, Finset.mem_union, ← h.allocated]
    by_cases hp : p ∈ pageRange N base n
    · simp [hp]
    · simp [hp]

theorem Represents.free (h : Represents s L) :
    Represents (s.free base n) (L.release (pageRange N base n)) := by
  constructor
  · intro p
    rw [reserved_free]
    exact h.reserved p
  · intro p
    rw [allocated_free, Ledger.release, Finset.mem_sdiff, ← h.allocated]
    by_cases hp : p ∈ pageRange N base n
    · simp [hp]
    · simp [hp]

/-- Adding `n` to a count that stays within the pool does not wrap. -/
theorem toNat_nrFree_add {c m : SizeT} (h : c.toNat + m.toNat ≤ 2 * N.NPAGE) :
    (c + m).toNat = c.toNat + m.toNat := by
  have := N.lt_two_pow
  rw [BitVec.toNat_add]
  omega

theorem Counts.handOver (h : Counts s L) (hin : base.toNat + n.toNat ≤ N.NPAGE)
    (hdisj : Disjoint (pageRange N base n) L.managed) :
    Counts (s.handOver base n) (L.handOver (pageRange N base n)) := by
  have hle := card_free_le L
  rw [Counts] at h
  rw [Counts, nrFree_handOver, Ledger.card_free_handOver hdisj, card_pageRange hin, ← h]
  exact toNat_nrFree_add (N := N) (by omega)

theorem Counts.allocate (h : Counts s L) (hin : base.toNat + n.toNat ≤ N.NPAGE)
    (hfree : pageRange N base n ⊆ L.free) :
    Counts (s.allocate base n) (L.acquire (pageRange N base n) hfree) := by
  have hcard := Finset.card_le_card hfree
  rw [card_pageRange hin, ← show s.nrFree.toNat = L.free.card from h] at hcard
  rw [Counts] at h
  rw [Counts, nrFree_allocate, Ledger.card_free_acquire hfree, card_pageRange hin, ← h,
    BitVec.toNat_sub_of_le (BitVec.le_def.mpr hcard)]

/-- A free keeps the counter exact if all pages of the range had owners, and only then. -/
theorem Counts.free_iff (h : Counts s L) (hin : base.toNat + n.toNat ≤ N.NPAGE) :
    Counts (s.free base n) (L.release (pageRange N base n)) ↔ pageRange N base n ⊆ L.owned := by
  have hle := card_free_le L
  rw [Counts] at h
  rw [Counts, nrFree_free, Ledger.card_free_release, Ledger.subset_owned_iff_card,
    card_pageRange hin, toNat_nrFree_add (N := N) (by omega), h]
  omega

/-! ## The calls -/

/-- A call has one of the three effects, each on a range of the pool that is fit for it, or none. -/
theorem Op.exec_cases (op : Op) (s : Pmm N) :
    (∃ base n, op = .initMemmap base n ∧ ((defaultInitMemmap base n).run s).1 = 0 ∧
      InPool N base n ∧ (∀ p ∈ pageRange N base n, s.reserved p = true ∧ s.allocated p = false) ∧
      op.exec s = s.handOver base n) ∨
    (∃ page n, op = .allocPages n ∧ InPool N page n ∧
      (∀ p ∈ pageRange N page n, s.available p = true) ∧ op.exec s = s.allocate page n) ∨
    (∃ base n, op = .freePages base n ∧ InPool N base n ∧ op.exec s = s.free base n) ∨
    op.exec s = s := by
  cases op with
  | initMemmap base n =>
    simp only [Op.exec, run_defaultInitMemmap]
    by_cases hcode : s.initMemmapCode base n = 0
    · obtain ⟨hin, hall⟩ := (initMemmapCode_eq_zero_iff base n s).mp hcode
      rw [if_pos hcode]
      exact Or.inl ⟨base, n, rfl, hcode, hin, hall, rfl⟩
    · rw [if_neg hcode]
      exact Or.inr (Or.inr (Or.inr rfl))
  | allocPages n =>
    simp only [Op.exec]
    have hcases := run_defaultAllocPages n s
    rw [starts_avail] at hcases
    rcases hcases with ⟨page, hpos, hleast, hrun⟩ | ⟨-, hrun⟩
    · obtain ⟨hfit, hfree⟩ := hleast.1
      rw [hrun]
      refine Or.inr (Or.inl ⟨page, n, rfl, ⟨hpos, hfit⟩, fun p hp => ?_, rfl⟩)
      rw [mem_pageRange] at hp
      exact hfree p hp.1 hp.2
    · rw [hrun]
      exact Or.inr (Or.inr (Or.inr rfl))
  | freePages base n =>
    simp only [Op.exec, run_defaultFreePages]
    by_cases hin : InPool N base n
    · rw [if_pos hin]
      exact Or.inr (Or.inr (Or.inl ⟨base, n, rfl, hin, rfl⟩))
    · rw [if_neg hin]
      exact Or.inr (Or.inr (Or.inr rfl))

/-- No page of a range whose pages are all reserved is managed. -/
theorem Represents.disjoint_managed (h : Represents s L)
    (hall : ∀ p ∈ pageRange N base n, s.reserved p = true) :
    Disjoint (pageRange N base n) L.managed :=
  Finset.disjoint_left.mpr fun p hp hman => (h.reserved p).mp (hall p hp) hman

theorem Represents.initMemmap (h : Represents s L) (base n : SizeT) :
    (InPool N base n ∧ Disjoint (pageRange N base n) L.managed ∧
      (defaultInitMemmap base n).run s = (0, s.handOver base n)) ∨
    ∃ code : BitVec 64, code ≠ 0 ∧ (defaultInitMemmap base n).run s = (code, s) := by
  rw [run_defaultInitMemmap]
  by_cases hcode : s.initMemmapCode base n = 0
  · obtain ⟨hin, hall⟩ := (initMemmapCode_eq_zero_iff base n s).mp hcode
    rw [hcode, if_pos rfl]
    exact Or.inl ⟨hin, h.disjoint_managed fun p hp => (hall p hp).1, rfl⟩
  · rw [if_neg hcode]
    exact Or.inr ⟨_, hcode, rfl⟩

theorem Represents.allocPages (h : Represents s L) (n : SizeT) :
    (∃ page, page ≠ NULLPAGE ∧ InPool N page n ∧ pageRange N page n ⊆ L.free ∧
      (defaultAllocPages n).run s = (page, s.allocate page n)) ∨
    (defaultAllocPages n).run s = (NULLPAGE, s) := by
  have hcases := run_defaultAllocPages n s
  rw [starts_avail] at hcases
  rcases hcases with ⟨page, hpos, hleast, hrun⟩ | ⟨-, hrun⟩
  · obtain ⟨hfit, hfree⟩ := hleast.1
    refine Or.inl ⟨page, ne_NULLPAGE_of_add_le hpos hfit, ⟨hpos, hfit⟩, fun p hp => ?_, hrun⟩
    rw [mem_pageRange] at hp
    exact (h.available p).mp (hfree p hp.1 hp.2)
  · exact Or.inr hrun

/-- A call leaves a ledger; one that frees owned pages only, if it frees any, keeps the counter
exact. -/
theorem Represents.exec (h : Represents s L) (op : Op) :
    ∃ L', Represents (op.exec s) L' ∧
      ((∀ base n, op = .freePages base n → InPool N base n → pageRange N base n ⊆ L.owned) →
        Counts s L → Counts (op.exec s) L') := by
  rcases op.exec_cases s with ⟨base, n, -, -, hin, hall, heq⟩ | ⟨page, n, -, hin, havail, heq⟩ |
    ⟨base, n, hop, hin, heq⟩ | heq
  · have hdisj := h.disjoint_managed fun p hp => (hall p hp).1
    rw [heq]
    exact ⟨_, h.handOver, fun _ hc => hc.handOver hin.2 hdisj⟩
  · have hfree : pageRange N page n ⊆ L.free := fun p hp => (h.available p).mp (havail p hp)
    rw [heq]
    exact ⟨_, h.allocate hfree, fun _ hc => hc.allocate hin.2 hfree⟩
  · rw [heq]
    exact ⟨_, h.free, fun howned hc => (hc.free_iff hin.2).mpr (howned base n hop hin)⟩
  · rw [heq]
    exact ⟨L, h, fun _ hc => hc⟩

/-! ## Runs -/

theorem exec_append_singleton (ops : List Op) (op : Op) (s : Pmm N) :
    exec (ops ++ [op]) s = op.exec (exec ops s) := by
  rw [exec, List.foldl_append]
  rfl

/-- Whatever is called, the flag bits represent a ledger. -/
theorem exists_represents (s₀ : Pmm N) (ops : List Op) :
    ∃ L, Represents (exec ops (pageInitState s₀)) L := by
  induction ops using List.reverseRecOn with
  | nil => exact ⟨Ledger.empty, representsEmpty s₀⟩
  | append_singleton ops op ih =>
    obtain ⟨L, hL⟩ := ih
    obtain ⟨L', hL', -⟩ := hL.exec op
    rw [exec_append_singleton]
    exact ⟨L', hL'⟩

/-- A run that frees owned pages only keeps the counter exact. -/
theorem exists_represents_counts (s₀ : Pmm N) (ops : List Op)
    (hops : ∀ pre base n, pre ++ [.freePages base n] <+: ops → InPool N base n →
      ∀ p ∈ pageRange N base n, (exec pre (pageInitState s₀)).allocated p = true) :
    ∃ L, Represents (exec ops (pageInitState s₀)) L ∧ Counts (exec ops (pageInitState s₀)) L := by
  induction ops using List.reverseRecOn with
  | nil => exact ⟨Ledger.empty, representsEmpty s₀, countsEmpty s₀⟩
  | append_singleton ops op ih =>
    obtain ⟨L, hL, hc⟩ := ih fun pre base n hpre =>
      hops pre base n (hpre.trans (List.prefix_append ops [op]))
    obtain ⟨L', hL', hcounts⟩ := hL.exec op
    rw [exec_append_singleton]
    refine ⟨L', hL', hcounts (fun base n hop hin p hp => ?_) hc⟩
    subst hop
    exact (hL.allocated p).mp (hops ops base n (List.prefix_rfl) hin p hp)

/-- In a run from the state of `page_init`, `nr_free_pages` counts the available pages in every
state if and only if every `free_pages` that the guards accept names allocated pages only. -/
theorem nr_free_pages_exact_iff (s₀ : Pmm N) (ops : List Op) :
    (∀ pre, pre <+: ops → NrFreeExact (exec pre (pageInitState s₀))) ↔
      ∀ pre base n, pre ++ [.freePages base n] <+: ops → InPool N base n →
        ∀ p ∈ pageRange N base n, (exec pre (pageInitState s₀)).allocated p = true := by
  constructor
  · intro hexact pre base n hpre hin p hp
    obtain ⟨L, hL⟩ := exists_represents s₀ pre
    have hbefore := hL.nrFreeExact_iff.mp
      (hexact pre ((List.prefix_append pre [_]).trans hpre))
    -- the free is the step at which the counter would leave the number of available pages
    have hafter := hexact _ hpre
    rw [exec_append_singleton, Op.exec, run_defaultFreePages, if_pos hin,
      hL.free.nrFreeExact_iff, hbefore.free_iff hin.2] at hafter
    exact (hL.allocated p).mpr (hafter hp)
  · intro hops pre hpre
    obtain ⟨L, hL, hc⟩ := exists_represents_counts s₀ pre fun pre' base n hpre' =>
      hops pre' base n (hpre'.trans hpre)
    exact hL.nrFreeExact_iff.mpr hc

/-- Two pages of the verification build are freed twice: the counter says seven of five pages. -/
theorem nr_free_pages_double_free :
    ¬ ∀ (N : PoolSize) (s₀ : Pmm N) (ops : List Op), NrFreeExact (exec ops (pageInitState s₀)) := by
  intro h
  have hrun := h .verif ⟨fun _ => 0, 0⟩
    [.initMemmap 0 5, .allocPages 2, .freePages 0 2, .freePages 0 2]
  exact absurd hrun (by decide)

/-- The allocator with a ghost ledger beside it: the bits represent the ghost ledger, the counter is
the number of its free pages, and an allocation takes free pages only and makes them owned. -/
theorem LedgerRun.represents {s₀ : Pmm N} {U O : Finset (Fin N.NPAGE)}
    (h : LedgerRun s₀ s U O) :
    ∃ L : Ledger (Fin N.NPAGE), L.managed = U ∧ L.owned = O ∧ Represents s L ∧ Counts s L := by
  induction h with
  | boot => exact ⟨Ledger.empty, rfl, rfl, representsEmpty s₀, countsEmpty s₀⟩
  | @initMemmap s s' U O base n code _ call ih =>
    obtain ⟨L, rfl, rfl, hL, hc⟩ := ih
    rcases hL.initMemmap base n with ⟨hin, hdisj, hrun⟩ | ⟨code', hcode, hrun⟩
    · obtain ⟨rfl, rfl⟩ := Prod.mk.inj (hrun.symm.trans call)
      rw [if_pos rfl]
      exact ⟨L.handOver _, rfl, rfl, hL.handOver, hc.handOver hin.2 hdisj⟩
    · obtain ⟨rfl, rfl⟩ := Prod.mk.inj (hrun.symm.trans call)
      rw [if_neg hcode]
      exact ⟨L, rfl, rfl, hL, hc⟩
  | @allocPages s s' U O n page _ call ih =>
    obtain ⟨L, rfl, rfl, hL, hc⟩ := ih
    rcases hL.allocPages n with ⟨page', hne, hin, hfree, hrun⟩ | hrun
    · obtain ⟨rfl, rfl⟩ := Prod.mk.inj (hrun.symm.trans call)
      rw [if_pos hne]
      exact ⟨L.acquire _ hfree, rfl, rfl, hL.allocate hfree, hc.allocate hin.2 hfree⟩
    · obtain ⟨rfl, rfl⟩ := Prod.mk.inj (hrun.symm.trans call)
      rw [if_neg (not_not.mpr rfl)]
      exact ⟨L, rfl, rfl, hL, hc⟩
  | @freePages s s' U O base n _ call owner ih =>
    obtain ⟨L, rfl, rfl, hL, hc⟩ := ih
    rw [run_defaultFreePages] at call
    obtain ⟨-, rfl⟩ := Prod.mk.inj call
    by_cases hin : InPool N base n
    · rw [if_pos hin, if_pos hin]
      exact ⟨L.release _, rfl, rfl, hL.free, (hc.free_iff hin.2).mpr (owner hin)⟩
    · rw [if_neg hin, if_neg hin]
      exact ⟨L, rfl, rfl, hL, hc⟩

/-- Exclusive ownership, in every run in which clients free only what they own: the reserved bits
are the pages outside `U`, the allocated bits are `O`, an allocation takes `n` pages of `U` that
nobody owned and gives them to its caller, and `nr_free` is the number of pages without owner. -/
theorem exclusive_ownership {s₀ : Pmm N} {U O : Finset (Fin N.NPAGE)} (h : LedgerRun s₀ s U O) :
    (∀ p, s.reserved p = true ↔ p ∉ U) ∧ (∀ p, s.allocated p = true ↔ p ∈ O) ∧ O ⊆ U ∧
      s.nrFree.toNat = U.card - O.card ∧
      ∀ n page s', (defaultAllocPages n).run s = (page, s') → page ≠ NULLPAGE →
        page.toNat + n.toNat ≤ N.NPAGE ∧ (pageRange N page n).card = n.toNat ∧
          pageRange N page n ⊆ U \ O ∧
          ∀ p, s'.allocated p = true ↔ p ∈ O ∪ pageRange N page n := by
  obtain ⟨L, rfl, rfl, hL, hc⟩ := h.represents
  refine ⟨hL.reserved, hL.allocated, L.owned_subset, ?_, fun n page s' call hne => ?_⟩
  · rw [← Ledger.card_free]
    exact hc
  · rcases hL.allocPages n with ⟨page', -, hin, hfree, hrun⟩ | hrun
    · obtain ⟨rfl, rfl⟩ := Prod.mk.inj (hrun.symm.trans call)
      exact ⟨hin.2, card_pageRange hin.2, hfree, (hL.allocate hfree).allocated⟩
    · obtain ⟨rfl, rfl⟩ := Prod.mk.inj (hrun.symm.trans call)
      exact absurd rfl hne

/-- Five pages are handed over, three of them are allocated, and the middle one is freed: the first
and the third stay allocated. -/
theorem exclusive_ownership_part_freed :
    (Finset.univ.filter fun p : Fin PoolSize.verif.NPAGE =>
      (exec [.initMemmap 0 5, .allocPages 3, .freePages 1 1]
        (pageInitState (⟨fun _ => 0, 0⟩ : Pmm .verif))).allocated p = true) =
      Finset.univ.filter fun p => p.val = 0 ∨ p.val = 2 := by
  have hrun := LedgerRun.freePages
    (LedgerRun.allocPages
      (LedgerRun.initMemmap (LedgerRun.boot : LedgerRun (⟨fun _ => 0, 0⟩ : Pmm .verif) _ _ _)
        (rfl : (defaultInitMemmap 0 5).run _ = _))
      (rfl : (defaultAllocPages 3).run _ = _))
    (rfl : (defaultFreePages 1 1).run _ = _) (by decide)
  ext p
  rw [Finset.mem_filter, Finset.mem_filter]
  refine and_congr Iff.rfl (((exclusive_ownership hrun).2.1 p).trans ?_)
  revert p
  decide

end CertiCore
