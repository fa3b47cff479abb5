import Mathlib.Data.Finset.Card
import Mathlib.Tactic.Tauto

/-!
# Ownership ledgers

What a resource manager is for: some resources are managed, and of these some are owned by clients.
A resource is acquired only while it is free, so it never has two owners, and it is free again after
it is released.
-/

/-- The managed resources, and those of them that clients own. -/
@[ext] structure Ledger (α : Type) [DecidableEq α] where
  managed : Finset α
  owned : Finset α
  owned_subset : owned ⊆ managed

namespace Ledger

variable {α : Type} [DecidableEq α] (L : Ledger α) (r : Finset α)

/-- Nothing is managed. -/
def empty : Ledger α := ⟨∅, ∅, Finset.Subset.refl ∅⟩

/-- The resources that are managed and not owned. -/
def free : Finset α := L.managed \ L.owned

/-- The resources `r` are managed from now on. -/
def handOver : Ledger α :=
  ⟨L.managed ∪ r, L.owned, L.owned_subset.trans Finset.subset_union_left⟩

/-- A client becomes the owner of the free resources `r`. -/
def acquire (h : r ⊆ L.free) : Ledger α :=
  ⟨L.managed, L.owned ∪ r, Finset.union_subset L.owned_subset (h.trans Finset.sdiff_subset)⟩

/-- The resources `r` have no owner any more. -/
def release : Ledger α := ⟨L.managed, L.owned \ r, Finset.sdiff_subset.trans L.owned_subset⟩

variable {L r}

theorem mem_free {a : α} : a ∈ L.free ↔ a ∈ L.managed ∧ a ∉ L.owned := Finset.mem_sdiff

theorem card_free (L : Ledger α) : L.free.card = L.managed.card - L.owned.card :=
  Finset.card_sdiff_of_subset L.owned_subset

/-- Resources that were not managed yet are free after they are handed over. -/
theorem card_free_handOver (h : Disjoint r L.managed) :
    (L.handOver r).free.card = L.free.card + r.card := by
  have hfree : (L.handOver r).free = L.free ∪ r := by
    ext a
    have hr : a ∈ r → a ∉ L.owned := fun ha hown =>
      Finset.disjoint_left.mp h ha (L.owned_subset hown)
    simp only [free, handOver, Finset.mem_sdiff, Finset.mem_union]
    tauto
  have hdisj : Disjoint L.free r := (h.mono_right Finset.sdiff_subset).symm
  rw [hfree, Finset.card_union_of_disjoint hdisj]

theorem card_free_acquire (h : r ⊆ L.free) :
    (L.acquire r h).free.card = L.free.card - r.card := by
  have hfree : (L.acquire r h).free = L.free \ r := by
    ext a
    simp only [free, acquire, Finset.mem_sdiff, Finset.mem_union]
    tauto
  rw [hfree, Finset.card_sdiff_of_subset h]

/-- A release frees the resources that had an owner, and no others. -/
theorem card_free_release (L : Ledger α) (r : Finset α) :
    (L.release r).free.card = L.free.card + (L.owned ∩ r).card := by
  have hfree : (L.release r).free = L.free ∪ (L.owned ∩ r) := by
    ext a
    have hown : a ∈ L.owned → a ∈ L.managed := fun ha => L.owned_subset ha
    simp only [free, release, Finset.mem_sdiff, Finset.mem_union, Finset.mem_inter]
    tauto
  have hdisj : Disjoint L.free (L.owned ∩ r) :=
    Finset.sdiff_disjoint.mono_right Finset.inter_subset_left
  rw [hfree, Finset.card_union_of_disjoint hdisj]

/-- Exactly if all of `r` had owners, a release frees as many resources as `r` has. -/
theorem subset_owned_iff_card : r ⊆ L.owned ↔ (L.owned ∩ r).card = r.card := by
  constructor
  · intro h
    rw [Finset.inter_eq_right.mpr h]
  · intro h
    exact Finset.inter_eq_right.mp (Finset.eq_of_subset_of_card_le Finset.inter_subset_right h.ge)

end Ledger
