import CertiCore.Memory.Bytes

/-!
# Sv39

The translation of virtual addresses by three levels of page tables, as the privileged architecture
of RISC-V specifies it. A table is an array of 512 entries in the physical memory, and the tables of
the levels 2, 1 and 0 are indexed by the three fields of nine bits above the offset in the page. An
entry that maps memory at level `k` maps a page of `2 ^ (12 + 9 * k)` bytes.

Bits that only extensions define have to be zero, an entry faults if its accessed or dirty bit would
have to be set, and the physical memory is not protected.
-/

namespace Sv39

/-- What an address is used for. -/
inductive Access where
  | read
  | write
  | execute
  deriving DecidableEq

/-- The state of the hart that permissions depend on. -/
structure Mode where
  /-- The hart is in user mode, and not in supervisor mode. -/
  user : Bool
  /-- `SUM`: supervisor mode may read and write pages of user mode. -/
  sum : Bool
  /-- `MXR`: pages that may be executed may be read. -/
  mxr : Bool

/-! ## Entries -/

abbrev Pte := BitVec 64

namespace Pte

variable (pte : Pte)

def v : Bool := pte.getLsbD 0
def r : Bool := pte.getLsbD 1
def w : Bool := pte.getLsbD 2
def x : Bool := pte.getLsbD 3
def u : Bool := pte.getLsbD 4
def a : Bool := pte.getLsbD 6
def d : Bool := pte.getLsbD 7

/-- The physical page number. -/
def ppn : ℕ := (pte.extractLsb' 10 44).toNat

/-- The entry maps memory; otherwise it points to a table. -/
def isLeaf : Bool := pte.r || pte.x

/-- The entry is valid and has no encoding that is reserved. -/
def isValid : Bool :=
  pte.v && (pte.r || !pte.w) && pte.extractLsb' 54 10 == 0 &&
    (pte.isLeaf || !pte.u && !pte.a && !pte.d)

/-- The permissions of the entry admit the access. -/
def permits (mode : Mode) (access : Access) : Bool :=
  (if mode.user then pte.u else !pte.u || mode.sum && access != .execute) &&
    match access with
    | .read => pte.r || mode.mxr && pte.x
    | .write => pte.w
    | .execute => pte.x

/-- The accessed bit is set, and for a write also the dirty bit. -/
def isMarked (access : Access) : Bool := pte.a && (pte.d || access != .write)

/-- The page of an entry at the level `level` is aligned to its size. -/
def isAligned (level : ℕ) : Bool := pte.ppn % 2 ^ (9 * level) == 0

/-- The entry at the level `level` maps memory for the access. -/
def maps (mode : Mode) (access : Access) (level : ℕ) : Bool :=
  pte.permits mode access && pte.isAligned level && pte.isMarked access

end Pte

/-! ## Translation -/

/-- The bits of a virtual address above bit 38 are copies of it. -/
def Canonical (va : BitVec 64) : Prop := (va.setWidth 39).signExtend 64 = va

instance (va : BitVec 64) : Decidable (Canonical va) := inferInstanceAs (Decidable (_ = _))

/-- The index into the table of the level `level`. -/
def vpn (va : BitVec 64) (level : ℕ) : ℕ := va.toNat / 2 ^ (12 + 9 * level) % 2 ^ 9

/-- The place of `va` in the page that the entry maps at the level `level`. -/
def physical (pte : Pte) (level : ℕ) (va : BitVec 64) : BitVec 64 :=
  BitVec.ofNat 64 (pte.ppn * 2 ^ 12 + va.toNat % 2 ^ (12 + 9 * level))

variable (m : Mem) (mode : Mode) (access : Access) (va : BitVec 64)

/-- What an entry at the level `level` gives for `va`. If it points to another table, then `next`
goes on with that. -/
def follow (next : BitVec 64 → Option (BitVec 64)) (level : ℕ) (pte : Pte) : Option (BitVec 64) :=
  if !pte.isValid then none
  else if pte.isLeaf then
    if pte.maps mode access level then some (physical pte level va) else none
  else next (BitVec.ofNat 64 (pte.ppn * 2 ^ 12))

/-- The walk from a table of the level `level` on. There is no table below the level 0. -/
def walk : ℕ → BitVec 64 → Option (BitVec 64)
  | 0, table => follow mode access va (fun _ => none) 0 (m.word table (vpn va 0))
  | level + 1, table =>
    follow mode access va (walk level) (level + 1) (m.word table (vpn va (level + 1)))

/-- The physical address of `va`, or `none` for a page fault. -/
def translate (root : BitVec 64) : Option (BitVec 64) :=
  if Canonical va then walk m mode access va 2 root else none

/-- The root table that the register `satp` names, if its mode is Sv39. -/
def rootTable (satp : BitVec 64) : Option (BitVec 64) :=
  if satp.extractLsb' 60 4 = 8 then some ((satp.extractLsb' 0 44).setWidth 64 <<< 12) else none

/-! ## Entries of the root table -/

variable {m mode access va} {root : BitVec 64} {pte : Pte}

theorem vpn_lt (va : BitVec 64) (level : ℕ) : vpn va level < 512 :=
  Nat.mod_lt _ (Nat.two_pow_pos 9)

theorem follow_of_not_isValid {next : BitVec 64 → Option (BitVec 64)} {level : ℕ}
    (hv : pte.isValid = false) : follow mode access va next level pte = none := by
  rw [follow, hv]
  rfl

theorem follow_of_maps {next : BitVec 64 → Option (BitVec 64)} {level : ℕ}
    (hv : pte.isValid = true) (hleaf : pte.isLeaf = true)
    (hmaps : pte.maps mode access level = true) :
    follow mode access va next level pte = some (physical pte level va) := by
  rw [follow, hv, hleaf, hmaps]
  rfl

theorem translate_of_not_canonical (h : ¬ Canonical va) :
    translate m mode access va root = none := if_neg h

/-- An address whose entry in the root table is not valid is not mapped. -/
theorem translate_of_not_isValid (h : m.word root (vpn va 2) = pte) (hv : pte.isValid = false) :
    translate m mode access va root = none := by
  by_cases hcan : Canonical va
  · rw [translate, if_pos hcan, walk, h]
    exact follow_of_not_isValid hv
  · exact translate_of_not_canonical hcan

/-- An address whose entry in the root table maps a page of a gigabyte is mapped to that. -/
theorem translate_of_maps (hcan : Canonical va) (h : m.word root (vpn va 2) = pte)
    (hv : pte.isValid = true) (hleaf : pte.isLeaf = true)
    (hmaps : pte.maps mode access 2 = true) :
    translate m mode access va root = some (physical pte 2 va) := by
  rw [translate, if_pos hcan, walk, h]
  exact follow_of_maps hv hleaf hmaps

/-- The canonical addresses are the `2 ^ 38` lowest and the `2 ^ 38` highest. -/
theorem canonical_iff :
    Canonical va ↔ va.toNat < 2 ^ 38 ∨ 2 ^ 64 - 2 ^ 38 ≤ va.toNat := by
  have hmsb : (va.setWidth 39).msb = decide (2 ^ 38 ≤ va.toNat % 2 ^ 39) := by
    rw [BitVec.msb_eq_decide, BitVec.toNat_setWidth]
  have hlow : ((va.setWidth 39).setWidth 64).toNat = va.toNat % 2 ^ 39 := by
    rw [BitVec.toNat_setWidth, BitVec.toNat_setWidth]
    omega
  have hlt := va.isLt
  rw [Canonical, ← BitVec.toNat_inj, BitVec.toNat_signExtend, hmsb, hlow]
  by_cases h : 2 ^ 38 ≤ va.toNat % 2 ^ 39
  · rw [decide_eq_true h, if_pos rfl]
    omega
  · rw [decide_eq_false h, if_neg Bool.false_ne_true]
    omega

/-- The last entry of the root table is for the last gigabyte. -/
theorem canonical_and_vpn_eq_last :
    Canonical va ∧ vpn va 2 = 511 ↔ 2 ^ 64 - 2 ^ 30 ≤ va.toNat := by
  have hlt := va.isLt
  rw [canonical_iff, vpn]
  omega

/-- The place of an address of the last gigabyte in a page of that size. -/
theorem toNat_physical_last (pte : Pte) (hva : 2 ^ 64 - 2 ^ 30 ≤ va.toNat) :
    (physical pte 2 va).toNat + (2 ^ 64 - 2 ^ 30) = pte.ppn * 2 ^ 12 + va.toNat := by
  have hlt := va.isLt
  have hppn : pte.ppn < 2 ^ 44 := (pte.extractLsb' 10 44).isLt
  rw [physical, BitVec.toNat_ofNat]
  omega

end Sv39
