import CertiCore.Libs.Atomic

/-!
# Proofs: the bit operations

Each operation in terms of the bits of the word: the tested bit is the bit `nr`, and the writers
change the bit `nr` and no other.
-/

namespace CertiCore

theorem getLsbD_bitMask {nr : ℕ} (hnr : nr < 64) (i : ℕ) :
    (bitMask nr).getLsbD i = decide (i = nr) := by
  have hmod : nr % BITS_PER_LONG = nr := Nat.mod_eq_of_lt hnr
  simp only [bitMask, hmod, BitVec.getLsbD_shiftLeft, BitVec.getLsbD_one]
  by_cases h : i = nr
  · subst h
    simp [hnr]
  · simp [h]
    omega

@[simp] theorem testBit_eq_getLsbD (nr : ℕ) (word : BitVec 64) :
    testBit nr word = word.getLsbD nr := by
  have hbit : (word >>> nr) &&& 1 = if word.getLsbD nr then 1 else 0 := by
    ext i hi
    simp only [BitVec.getElem_and, BitVec.getElem_ushiftRight]
    cases i with
    | zero => cases word.getLsbD nr <;> simp
    | succ i => cases word.getLsbD nr <;> simp [BitVec.getElem_one]
  rw [testBit, hbit]
  cases word.getLsbD nr <;> rfl

/-- Masking with one bit tests it. -/
theorem and_bitMask_eq_zero {nr : ℕ} (hnr : nr < 64) (word : BitVec 64) :
    (word &&& bitMask nr == 0) = !word.getLsbD nr := by
  have hand : ∀ i, (word &&& bitMask nr).getLsbD i = (word.getLsbD i && decide (i = nr)) := by
    intro i
    rw [BitVec.getLsbD_and, getLsbD_bitMask hnr]
  cases hw : word.getLsbD nr
  · have hzero : word &&& bitMask nr = 0 := by
      refine BitVec.eq_of_getLsbD_eq fun i _ => ?_
      rw [hand]
      by_cases hi : i = nr
      · subst hi
        simp [hw]
      · simp [hi]
    rw [hzero]
    rfl
  · have hne : word &&& bitMask nr ≠ 0 := by
      intro h0
      have hbit := hand nr
      rw [h0] at hbit
      simp [hw] at hbit
    simpa using hne

theorem getLsbD_setBit {nr : ℕ} (hnr : nr < 64) (word : BitVec 64) (i : ℕ) :
    (setBit nr word).getLsbD i = if i = nr then true else word.getLsbD i := by
  rw [setBit, BitVec.getLsbD_or, getLsbD_bitMask hnr]
  by_cases hi : i = nr
  · simp [hi]
  · simp [hi]

theorem getLsbD_clearBit {nr : ℕ} (hnr : nr < 64) (word : BitVec 64) (i : ℕ) :
    (clearBit nr word).getLsbD i = if i = nr then false else word.getLsbD i := by
  rw [clearBit, BitVec.getLsbD_and, BitVec.getLsbD_not, getLsbD_bitMask hnr]
  by_cases hi : i = nr
  · simp [hi]
  · rw [if_neg hi, decide_eq_false hi]
    by_cases hlt : i < 64
    · simp [hlt]
    · simp [BitVec.getLsbD_of_ge word i (by omega)]

theorem getLsbD_changeBit {nr : ℕ} (hnr : nr < 64) (word : BitVec 64) (i : ℕ) :
    (changeBit nr word).getLsbD i = if i = nr then !word.getLsbD i else word.getLsbD i := by
  rw [changeBit, BitVec.getLsbD_xor, getLsbD_bitMask hnr]
  by_cases hi : i = nr
  · simp [hi]
  · simp [hi]

/-- Setting a bit that was clear and clearing it again gives back the word. -/
theorem clearBit_setBit {nr : ℕ} (hnr : nr < 64) {word : BitVec 64} (h : word.getLsbD nr = false) :
    clearBit nr (setBit nr word) = word := by
  refine BitVec.eq_of_getLsbD_eq fun i _ => ?_
  rw [getLsbD_clearBit hnr, getLsbD_setBit hnr]
  by_cases hi : i = nr
  · subst hi
    rw [if_pos rfl, h]
  · rw [if_neg hi, if_neg hi]

end CertiCore
