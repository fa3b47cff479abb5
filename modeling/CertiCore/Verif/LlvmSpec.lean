import CertiCore.Mm.Memlayout

/-!
# `verif/llvm-spec.rkt`

The functional specification of the allocator. A state maps every 64-bit page number to a flag word,
in and out of the pool; bit vectors are compared unsigned. Of the registers the specification uses
`a0` only, which holds the returned value.
-/

namespace CertiCore.LlvmSpec

/-- `(struct state (regs nrfree pagedb.flag))`. -/
structure State where
  /-- The field `a0` of `regs`; `none` stands for `(void)`. -/
  a0 : Option (BitVec 64)
  nrfree : BitVec 64
  pagedbFlag : BitVec 64 → BitVec 64

/-! ## Utils -/

def bv64 (x : ℕ) : BitVec 64 := BitVec.ofNat 64 x

def pageFlagMask (flag : ℕ) : BitVec 64 := 1#64 <<< bv64 flag

def setReturn (s : State) (val : Option (BitVec 64)) : State := { s with a0 := val }

def updateFunc (func : BitVec 64 → BitVec 64) (pred : BitVec 64 → Bool)
    (valueFunc : BitVec 64 → BitVec 64) : BitVec 64 → BitVec 64 :=
  fun x => if pred x then valueFunc (func x) else func x

def pageSetFlagFunc (s : State) (pred : BitVec 64 → Bool) (flag : ℕ) : State :=
  { s with pagedbFlag := updateFunc s.pagedbFlag pred fun val => val ||| pageFlagMask flag }

def pageClearFlagFunc (s : State) (pred : BitVec 64 → Bool) (flag : ℕ) : State :=
  { s with pagedbFlag := updateFunc s.pagedbFlag pred fun val => ~~~ pageFlagMask flag &&& val }

section

variable (N : PoolSize) (s : State)

def pageInBound (pageno : BitVec 64) : Bool := pageno < bv64 N.NPAGE

def pageHasFlag (pageno : BitVec 64) (flag : ℕ) : Bool :=
  pageInBound N pageno && !((s.pagedbFlag pageno &&& pageFlagMask flag) == 0)

def pageReserved (pageno : BitVec 64) : Bool := pageHasFlag N s pageno PG_reserved

def pageAllocated (pageno : BitVec 64) : Bool := pageHasFlag N s pageno PG_allocated

def pageAvailable (pageno : BitVec 64) : Bool :=
  !pageAllocated N s pageno && !pageReserved N s pageno

/-- `(map bv64 (range constant:NPAGE))`. -/
def pages : List (BitVec 64) := (List.range N.NPAGE).map bv64

/-! ## Init -/

def specDefaultInit : State := setReturn { s with nrfree := bv64 0 } none

/-! ## Init Mem -/

def pageValidFlag (base num : BitVec 64) (flag : ℕ) : Bool :=
  (pages N).all fun pageno =>
    !(decide (pageno ≥ base) && decide (pageno < base + num)) || pageHasFlag N s pageno flag

def pageSatFlag (base num : BitVec 64) (flag : ℕ) : Bool :=
  (pages N).any fun pageno =>
    (decide (pageno ≥ base) && decide (pageno < base + num)) && pageHasFlag N s pageno flag

def specDefaultInitMemmap (base num : BitVec 64) : State :=
  if ¬ num > bv64 0 then setReturn s (some (bv64 1))
  else if ¬ num ≤ bv64 N.NPAGE then setReturn s (some (bv64 2))
  else if ¬ base ≤ bv64 N.NPAGE then setReturn s (some (bv64 3))
  else if ¬ base + num ≤ bv64 N.NPAGE then setReturn s (some (bv64 4))
  else if !pageValidFlag N s base num PG_reserved then setReturn s (some (bv64 5))
  else if pageSatFlag N s base num PG_allocated then setReturn s (some (bv64 6))
  else
    let s := pageClearFlagFunc s
      (fun pageno => decide (pageno ≥ base) && decide (pageno < base + num)) PG_reserved
    let s := { s with nrfree := s.nrfree + num }
    setReturn s (some (bv64 0))

/-! ## Alloc -/

/-- `(find-free-accumulate lst acc ans)` of `find-free-pages`; `none` stands for `#f`. -/
def findFreeAccumulate (num : BitVec 64) :
    List (BitVec 64) → BitVec 64 → BitVec 64 → Option (BitVec 64)
  | lst, acc, ans =>
    if num = acc then some ans
    else
      match lst with
      | [] => none
      | page :: rest =>
        if pageAvailable N s page then
          findFreeAccumulate num rest (acc + 1) (if acc = bv64 0 then page else ans)
        else findFreeAccumulate num rest (bv64 0) (bv64 0)

def findFreePages (num : BitVec 64) : Option (BitVec 64) :=
  findFreeAccumulate N s num (pages N) (bv64 0) (bv64 0)

def specDefaultAllocPages (num : BitVec 64) : State :=
  if ¬ bv64 0 < num then setReturn s (some NULLPAGE)
  else if ¬ num ≤ bv64 N.NPAGE then setReturn s (some NULLPAGE)
  else
    match findFreePages N s num with
    | some freeblk =>
      let s := { s with nrfree := s.nrfree - num }
      let s := pageSetFlagFunc s
        (fun pageno => decide (freeblk ≤ pageno) && decide (pageno < num + freeblk)) PG_allocated
      setReturn s (some freeblk)
    | none => setReturn s (some NULLPAGE)

/-! ## Free -/

/-- `(spec-default_free_pages s base num)`, the verified version. -/
def specDefaultFreePages (base num : BitVec 64) : State :=
  let s :=
    if ¬ base ≥ bv64 N.NPAGE ∧ ¬ num = bv64 0 ∧ ¬ num > bv64 N.NPAGE ∧
        ¬ base + num > bv64 N.NPAGE then
      let s := pageClearFlagFunc s
        (fun pageno => decide (pageno ≥ base) && decide (pageno < base + num)) PG_allocated
      { s with nrfree := s.nrfree + num }
    else s
  setReturn s none

/-! ## NR Free -/

def specDefaultNrFreePages : State := setReturn s (some s.nrfree)

/-! ## Some safety property -/

def bvcount (f : BitVec 64 → Bool) : List (BitVec 64) → BitVec 64
  | [] => bv64 0
  | a :: l =>
    let cnt := bvcount f l
    if f a then cnt + 1 else cnt

def nrFreeEq : Bool := bvcount (fun idx => pageAvailable N s idx) (pages N) = s.nrfree

end

end CertiCore.LlvmSpec
