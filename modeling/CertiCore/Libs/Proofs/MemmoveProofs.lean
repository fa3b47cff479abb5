import CertiCore.Libs.String

/-!
# `memmove` and `memcpy`

Either loop keeps a memory in which a part of the block has been moved. It may go on as long as the
byte that it reads next is not one of those it has overwritten, and the comparison of the addresses
picks the direction in which this never happens.
-/

namespace CertiCore

variable {mem : Mem} {dst src n x : BitVec 64} {k : ℕ}

/-! ## The two loops -/

theorem copyForward_move {m : ℕ} (hm : k + m ≤ 2 ^ 64)
    (hread : ∀ j < k + m, j ≤ (src + BitVec.ofNat 64 j - dst).toNat) :
    copyForward (mem.move dst src 0 k) (dst + BitVec.ofNat 64 k) (src + BitVec.ofNat 64 k) m =
      mem.move dst src 0 (k + m) := by
  induction m generalizing k with
  | zero => rfl
  | succ m ih =>
    have hk := hread k (by omega)
    rw [copyForward, Mem.move_succ_right (Nat.zero_le k) (by omega) (by omega),
      Mem.add_ofNat_succ, Mem.add_ofNat_succ, ih (by omega) (fun j hj => hread j (by omega))]
    congr 1
    omega

theorem copyBackward_move {m : ℕ} (hm : m ≤ 2 ^ 64) (hkm : k ≤ m)
    (hread : ∀ j < k, ¬ (j + 1 ≤ (src + BitVec.ofNat 64 j - dst).toNat ∧
      (src + BitVec.ofNat 64 j - dst).toNat < m)) :
    copyBackward (mem.move dst src k m) (dst + BitVec.ofNat 64 k) (src + BitVec.ofNat 64 k) k =
      mem.move dst src 0 m := by
  induction k with
  | zero => rfl
  | succ k ih =>
    have hprev : ∀ p : BitVec 64, p + BitVec.ofNat 64 (k + 1) - 1 = p + BitVec.ofNat 64 k := by
      intro p
      rw [BitVec.ofNat_add, ← BitVec.add_assoc]
      exact BitVec.add_sub_cancel _ _
    rw [copyBackward, hprev, hprev,
      Mem.move_succ_left (by omega) (by omega) (hread k (Nat.lt_succ_self k))]
    exact ih (by omega) fun j hj => hread j (by omega)

/-! ## The direction -/

/-- Going up, the loop reads nothing that it has overwritten, unless the block is moved up to a
place that it overlaps. -/
theorem forward_reads (hsrc : src.toNat + n.toNat ≤ 2 ^ 64)
    (h : dst.toNat ≤ src.toNat ∨ src.toNat + n.toNat ≤ dst.toNat) {j : ℕ} (hj : j < n.toNat) :
    j ≤ (src + BitVec.ofNat 64 j - dst).toNat := by
  rcases h with hle | hle
  · bv_omega
  · bv_omega

/-- Going down, the loop reads nothing that it has overwritten if the block is moved up. -/
theorem backward_reads (hdst : dst.toNat + n.toNat ≤ 2 ^ 64) (h : src.toNat < dst.toNat) {j : ℕ}
    (hj : j < n.toNat) : ¬ (j + 1 ≤ (src + BitVec.ofNat 64 j - dst).toNat ∧
      (src + BitVec.ofNat 64 j - dst).toNat < n.toNat) := by
  bv_omega

theorem copyForward_eq (hsrc : src.toNat + n.toNat ≤ 2 ^ 64)
    (h : dst.toNat ≤ src.toNat ∨ src.toNat + n.toNat ≤ dst.toNat) :
    copyForward mem dst src n.toNat = mem.move dst src 0 n.toNat := by
  have hstart : ∀ p : BitVec 64, p + BitVec.ofNat 64 0 = p := BitVec.add_zero
  have hread : ∀ j < 0 + n.toNat, j ≤ (src + BitVec.ofNat 64 j - dst).toNat := by
    intro j hj
    rw [Nat.zero_add] at hj
    exact forward_reads hsrc h hj
  have hmove : copyForward (mem.move dst src 0 0) _ _ n.toNat = _ :=
    copyForward_move (by omega) hread
  rwa [Mem.move_empty, Nat.zero_add, hstart, hstart] at hmove

theorem copyBackward_eq (hdst : dst.toNat + n.toNat ≤ 2 ^ 64) (h : src.toNat < dst.toNat) :
    copyBackward mem (dst + n) (src + n) n.toNat = mem.move dst src 0 n.toNat := by
  have hend : BitVec.ofNat 64 n.toNat = n := by
    rw [BitVec.ofNat_toNat, BitVec.setWidth_eq]
  have hmove : copyBackward (mem.move dst src n.toNat n.toNat) _ _ n.toNat = _ :=
    copyBackward_move (by omega) (Nat.le_refl _) fun j hj => backward_reads hdst h hj
  rwa [Mem.move_empty, hend] at hmove

/-! ## The property -/

theorem memmove_eq (hsrc : src.toNat + n.toNat ≤ 2 ^ 64) (hdst : dst.toNat + n.toNat ≤ 2 ^ 64) :
    memmove mem dst src n = (mem.move dst src 0 n.toNat, dst) := by
  unfold memmove
  split
  case isTrue h => rw [copyBackward_eq hdst h.1]
  case isFalse h =>
    rw [copyForward_eq hsrc]
    by_contra hover
    -- the end of the source is not at the top of the memory, so that the sum did not wrap
    refine h ⟨?_, ?_⟩
    · bv_omega
    · bv_omega

theorem memcpy_eq (hsrc : src.toNat + n.toNat ≤ 2 ^ 64)
    (h : dst.toNat ≤ src.toNat ∨ src.toNat + n.toNat ≤ dst.toNat) :
    memcpy mem dst src n = (mem.move dst src 0 n.toNat, dst) := by
  rw [memcpy, copyForward_eq hsrc h]

/-- `memmove` moves the bytes and changes no others, however the areas overlap, and so does
`memcpy` if they do not. -/
theorem memmove_copies (mem : Mem) (dst src n : BitVec 64)
    (hsrc : src.toNat + n.toNat ≤ 2 ^ 64) (hdst : dst.toNat + n.toNat ≤ 2 ^ 64) :
    (∀ i < n.toNat, (memmove mem dst src n).1 (dst + BitVec.ofNat 64 i) =
      mem (src + BitVec.ofNat 64 i)) ∧
    (∀ x, ¬ (dst.toNat ≤ x.toNat ∧ x.toNat < dst.toNat + n.toNat) →
      (memmove mem dst src n).1 x = mem x) ∧
    (memmove mem dst src n).2 = dst ∧
    (src.toNat + n.toNat ≤ dst.toNat ∨ dst.toNat + n.toNat ≤ src.toNat →
      (memcpy mem dst src n).1 = (memmove mem dst src n).1) := by
  rw [memmove_eq hsrc hdst]
  refine ⟨fun i hi => ?_, fun x hx => ?_, rfl, fun hdisjoint => ?_⟩
  · exact Mem.move_of_mem (Nat.zero_le i) hi (by omega)
  · refine Mem.move_of_not_mem fun hmem => hx ?_
    bv_omega
  · rw [memcpy_eq hsrc (by omega)]

/-- An area that is moved up by one byte. -/
theorem memmove_copies_up : (memmove (·.setWidth 8) 2 1 3).1 4 = 3 :=
  (memmove_copies (·.setWidth 8) 2 1 3 (by decide) (by decide)).1 2 (by decide)

end CertiCore
