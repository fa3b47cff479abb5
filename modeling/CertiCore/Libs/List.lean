import Mathlib.Data.Set.Pairwise.Basic
import CertiCore.Memory.Bytes
import CertiCore.Rings.Ring

/-!
# `libs/list.h`

Doubly linked lists. An entry is given by the address of its `struct list_entry`.
-/

namespace CertiCore

/-! ## The fields -/

/-- `elm->prev`. -/
def listPrev (mem : Mem) (listelm : BitVec 64) : BitVec 64 := mem.load64 listelm

/-- `elm->next`. -/
def listNext (mem : Mem) (listelm : BitVec 64) : BitVec 64 := mem.load64 (listelm + 8)

/-- The store `elm->prev = v`. -/
def setPrev (mem : Mem) (elm v : BitVec 64) : Mem := mem.store64 elm v

/-- The store `elm->next = v`. -/
def setNext (mem : Mem) (elm v : BitVec 64) : Mem := mem.store64 (elm + 8) v

/-! ## The functions -/

/-- `__list_add`. -/
def listAddBetween (mem : Mem) (elm prev next : BitVec 64) : Mem :=
  let mem := setPrev mem next elm
  let mem := setNext mem prev elm
  let mem := setNext mem elm next
  setPrev mem elm prev

/-- `__list_del`. -/
def listDelBetween (mem : Mem) (prev next : BitVec 64) : Mem :=
  let mem := setNext mem prev next
  setPrev mem next prev

def listInit (mem : Mem) (elm : BitVec 64) : Mem :=
  let mem := setNext mem elm elm
  setPrev mem elm elm

def listAddBefore (mem : Mem) (listelm elm : BitVec 64) : Mem :=
  listAddBetween mem elm (listPrev mem listelm) listelm

def listAddAfter (mem : Mem) (listelm elm : BitVec 64) : Mem :=
  listAddBetween mem elm listelm (listNext mem listelm)

def listAdd (mem : Mem) (listelm elm : BitVec 64) : Mem := listAddAfter mem listelm elm

def listDel (mem : Mem) (listelm : BitVec 64) : Mem :=
  listDelBetween mem (listPrev mem listelm) (listNext mem listelm)

def listDelInit (mem : Mem) (listelm : BitVec 64) : Mem := listInit (listDel mem listelm) listelm

def listEmpty (mem : Mem) (list : BitVec 64) : Bool := listNext mem list = list

/-! ## Calls -/

/-- A call that changes a list. -/
inductive ListOp where
  | init (elm : BitVec 64)
  | add (listelm elm : BitVec 64)
  | addBefore (listelm elm : BitVec 64)
  | addAfter (listelm elm : BitVec 64)
  | del (listelm : BitVec 64)
  | delInit (listelm : BitVec 64)

def ListOp.exec (mem : Mem) : ListOp → Mem
  | init elm => listInit mem elm
  | add listelm elm => listAdd mem listelm elm
  | addBefore listelm elm => listAddBefore mem listelm elm
  | addAfter listelm elm => listAddAfter mem listelm elm
  | del listelm => listDel mem listelm
  | delInit listelm => listDelInit mem listelm

/-! ## What the calls are for -/

/-- Two entries do not overlap. -/
def Apart (a b : BitVec 64) : Prop := 16 ≤ (a - b).toNat ∧ 16 ≤ (b - a).toNat

/-- The entries that are in use, and how they are linked. -/
structure RingState where
  nodes : Set (BitVec 64)
  links : Equiv.Perm (BitVec 64)

/-- The entry can be put into a list: it is on its own, and overlaps no other entry. -/
def RingState.Free (s : RingState) (elm : BitVec 64) : Prop :=
  s.links elm = elm ∧ (insert elm s.nodes).Pairwise Apart

/-- When a call is allowed. -/
def ListOp.Legal (s : RingState) : ListOp → Prop
  | init elm => s.Free elm
  | add listelm elm => listelm ∈ s.nodes ∧ listelm ≠ elm ∧ s.Free elm
  | addBefore listelm elm => listelm ∈ s.nodes ∧ listelm ≠ elm ∧ s.Free elm
  | addAfter listelm elm => listelm ∈ s.nodes ∧ listelm ≠ elm ∧ s.Free elm
  | del listelm => listelm ∈ s.nodes
  | delInit listelm => listelm ∈ s.nodes

/-- What a call does to the rings. -/
def ListOp.relink (s : RingState) : ListOp → RingState
  | init elm => ⟨insert elm s.nodes, s.links⟩
  | add listelm elm => ⟨insert elm s.nodes, Ring.insertAfter s.links listelm elm⟩
  | addBefore listelm elm =>
    ⟨insert elm s.nodes, Ring.insertAfter s.links (s.links.symm listelm) elm⟩
  | addAfter listelm elm => ⟨insert elm s.nodes, Ring.insertAfter s.links listelm elm⟩
  | del listelm => ⟨s.nodes \ {listelm}, Ring.remove s.links listelm⟩
  | delInit listelm => ⟨s.nodes, Ring.remove s.links listelm⟩

/-- The call puts the entry `h` itself into a list, or takes it out of one. -/
def ListOp.Moves (h : BitVec 64) : ListOp → Prop
  | init _ => False
  | add _ elm => elm = h
  | addBefore _ elm => elm = h
  | addAfter _ elm => elm = h
  | del listelm => listelm = h
  | delInit listelm => listelm = h

/-- What a call does to the list at the head `h`, which holds the entries `l`. -/
def ListOp.edit (h : BitVec 64) (l : List (BitVec 64)) : ListOp → List (BitVec 64)
  | init _ => l
  | add listelm elm => if listelm = h then elm :: l else Ring.behind listelm elm l
  | addBefore listelm elm => if listelm = h then l ++ [elm] else Ring.inFront listelm elm l
  | addAfter listelm elm => if listelm = h then elm :: l else Ring.behind listelm elm l
  | del listelm => l.erase listelm
  | delInit listelm => l.erase listelm

/-! ## Sequences of calls -/

def execList (ops : List ListOp) (mem : Mem) : Mem := ops.foldl ListOp.exec mem

def relinkAll (ops : List ListOp) (s : RingState) : RingState := ops.foldl ListOp.relink s

/-- Every call is allowed when it is made. -/
def AllLegal (ops : List ListOp) (s : RingState) : Prop :=
  ∀ pre op, pre ++ [op] <+: ops → op.Legal (relinkAll pre s)

end CertiCore
