import Mathlib.Algebra.BigOperators.Group.Finset.Piecewise
import Mathlib.Data.Multiset.Count
import CertiCore.Ownership.Ledger

/-!
# Holdings

The owners of a ledger hold their resources in blocks, and give back a block as a whole. No resource
is in two blocks, so the blocks are disjoint, and together they are what is owned.
-/

namespace Ledger

variable {α κ : Type} [DecidableEq α] {L : Ledger α} {res : κ → Finset α} {M : Multiset κ}
  {k k' : κ} {a : α}

/-- The number of blocks that `a` is in. The block `k` consists of the resources `res k`. -/
def shares (res : κ → Finset α) (M : Multiset κ) (a : α) : ℕ := M.countP fun k => a ∈ res k

theorem shares_cons_of_mem (h : a ∈ res k) : shares res (k ::ₘ M) a = shares res M a + 1 :=
  Multiset.countP_cons_of_pos (p := fun k => a ∈ res k) M h

theorem shares_cons_of_notMem (h : a ∉ res k) : shares res (k ::ₘ M) a = shares res M a :=
  Multiset.countP_cons_of_neg (p := fun k => a ∈ res k) M h

/-- Every owned resource is in exactly one of the blocks `M`, and any other is in none. -/
def Holdings (L : Ledger α) (res : κ → Finset α) (M : Multiset κ) : Prop :=
  ∀ a, shares res M a = if a ∈ L.owned then 1 else 0

theorem Holdings.empty (h : L.owned = ∅) : L.Holdings res 0 := by
  intro a
  simp [shares, h]

theorem Holdings.subset_owned (h : L.Holdings res M) (hk : k ∈ M) : res k ⊆ L.owned := by
  intro a ha
  by_contra hown
  have hcount := h a
  rw [if_neg hown, shares, Multiset.countP_eq_zero] at hcount
  exact hcount k hk ha

/-- A block of free resources is acquired. -/
theorem Holdings.acquire (h : L.Holdings res M) (hfree : res k ⊆ L.free) :
    (L.acquire (res k) hfree).Holdings res (k ::ₘ M) := by
  intro a
  have hcount := h a
  by_cases ha : a ∈ res k
  · have hown : a ∉ L.owned := (mem_free.mp (hfree ha)).2
    rw [if_neg hown] at hcount
    rw [shares_cons_of_mem ha, hcount]
    simp [Ledger.acquire, ha]
  · rw [shares_cons_of_notMem ha, hcount]
    simp [Ledger.acquire, ha]

/-- A block is given back. -/
theorem Holdings.release [DecidableEq κ] (h : L.Holdings res M) (hk : k ∈ M) :
    (L.release (res k)).Holdings res (M.erase k) := by
  intro a
  have hcount := h a
  rw [← Multiset.cons_erase hk] at hcount
  by_cases ha : a ∈ res k
  · rw [shares_cons_of_mem ha, if_pos (h.subset_owned hk ha)] at hcount
    have hnot : a ∉ (L.release (res k)).owned := by simp [Ledger.release, ha]
    rw [if_neg hnot]
    omega
  · rw [shares_cons_of_notMem ha] at hcount
    rw [hcount]
    simp [Ledger.release, ha]

/-- Two blocks have no resource in common. -/
theorem Holdings.disjoint (h : L.Holdings res (k ::ₘ k' ::ₘ M)) : Disjoint (res k) (res k') := by
  rw [Finset.disjoint_left]
  intro a ha ha'
  have hcount := h a
  rw [shares_cons_of_mem ha, shares_cons_of_mem ha'] at hcount
  split_ifs at hcount
  all_goals omega

/-- The blocks have as many resources as are owned. -/
theorem Holdings.sum_card (h : L.Holdings res M) :
    (M.map fun k => (res k).card).sum = L.owned.card := by
  -- the pairs of a block and an owned resource in it, counted by blocks and by resources
  have hpairs : ∀ M' : Multiset κ, (∀ k ∈ M', res k ⊆ L.owned) →
      (M'.map fun k => (res k).card).sum = ∑ a ∈ L.owned, shares res M' a := by
    intro M'
    induction M' using Multiset.induction with
    | empty => simp [shares]
    | cons k M' ih =>
      intro hsub
      obtain ⟨hk, hrest⟩ := Multiset.forall_mem_cons.mp hsub
      have hcard : (res k).card = ∑ a ∈ L.owned, if a ∈ res k then 1 else 0 := by
        rw [Finset.sum_ite_mem, Finset.inter_eq_right.mpr hk, Finset.card_eq_sum_ones]
      rw [Multiset.map_cons, Multiset.sum_cons, ih hrest, hcard, ← Finset.sum_add_distrib]
      refine Finset.sum_congr rfl fun a _ => ?_
      by_cases ha : a ∈ res k
      · rw [if_pos ha, shares_cons_of_mem ha, Nat.add_comm]
      · rw [if_neg ha, shares_cons_of_notMem ha, Nat.zero_add]
  rw [hpairs M fun k hk => h.subset_owned hk, Finset.card_eq_sum_ones]
  refine Finset.sum_congr rfl fun a ha => ?_
  rw [h a, if_pos ha]

end Ledger
