import Mathlib.Data.Set.BooleanAlgebra
import Mathlib.Order.CompletePartialOrder
import Mathlib.Order.Interval.Set.Basic
import CertiCore.Mm.PageInit
import CertiCore.Ownership.Holdings

/-!
# The clients of the page allocator

What the callers of `alloc_pages` and `free_pages` hold at a point of a run, as blocks of pages and
as ranges of the physical memory.
-/

namespace CertiCore

variable {N : PoolSize}

/-- A block: the page that `alloc_pages` has returned, and the size that it was called with. -/
abbrev Block := SizeT × SizeT

/-- The pages of a block. The block of an allocation that failed has none. -/
def Block.pages (N : PoolSize) (block : Block) : Finset (Fin N.NPAGE) :=
  pageRange N block.1 block.2

/-- The physical addresses of a block. -/
def Block.bytes (g : PhysMem) (block : Block) : Set ℕ :=
  Set.Ico (page2pa g block.1).toNat ((page2pa g block.1).toNat + block.2.toNat * PGSIZE.toNat)

/-- The blocks are ranges of whole pages between the physical addresses `lo` and `hi`, and no two of
them overlap. -/
structure Placed (g : PhysMem) (lo hi : ℕ) (held : Multiset Block) : Prop where
  inside : ∀ block ∈ held, block.1 ≠ NULLPAGE →
    (page2pa g block.1).toNat % PGSIZE.toNat = 0 ∧ block.bytes g ⊆ Set.Ico lo hi
  disjoint : ∀ block block' rest, held = block ::ₘ block' ::ₘ rest → block.1 ≠ NULLPAGE →
    block'.1 ≠ NULLPAGE → Disjoint (block.bytes g) (block'.bytes g)

/-! ## Histories of calls -/

/-- What clients hold after a call and its result. -/
def PmmCall.held (held : Multiset Block) : PmmCall × Option SizeT → Multiset Block
  | (allocPages n, some page) => (page, n) ::ₘ held
  | (freePages base n, _) => held.erase (base, n)
  | _ => held

/-- What clients hold after the calls of `history`, each with its result. -/
def heldAfter (history : List (PmmCall × Option SizeT)) : Multiset Block :=
  history.foldl PmmCall.held 0

/-- The calls `calls` from the pool `s` on, one after the other, with their results. -/
def historyOf (s : Pmm N) (calls : List PmmCall) : List (PmmCall × Option SizeT) :=
  calls.zip (Prog.runAll (calls.map PmmCall.body) s).1

/-- Every free names a block that clients hold then. -/
def FreesHeld (s : Pmm N) (calls : List PmmCall) : Prop :=
  ∀ pre base n, pre ++ [.freePages base n] <+: calls → (base, n) ∈ heldAfter (historyOf s pre)

end CertiCore
