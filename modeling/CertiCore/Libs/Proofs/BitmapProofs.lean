import CertiCore.Libs.Proofs.AtomicProofs

/-!
# Proofs: the bit operations on arrays

The writers and the operations that return the old bit look at the word of the array that holds the
bit, but the test looks at the first word only.
-/

namespace CertiCore.Bitmap

variable {shr : BitVec 64 → ℕ → BitVec 64} {mem : Mem} {addr : BitVec 64} {n nr m : ℕ}

/-! ## The words -/

theorem load64_eq_word (mem : Mem) (addr : BitVec 64) : mem.load64 addr = mem.word addr 0 := by
  rw [Mem.word]
  exact congrArg mem.load64 (BitVec.add_zero addr).symm

/-- A writer changes the word that holds the bit, so the first word only if the bit is in it. -/
theorem word_opBit (op : BitVec 64 → BitVec 64 → BitVec 64) (mod : BitVec 64 → BitVec 64)
    (hnr : nr < 2 ^ 67) (mem : Mem) (addr : BitVec 64) :
    (opBit op mod nr addr mem).word addr 0 =
      if nr < 64 then op (mem.word addr 0) (mod (bitMask nr)) else mem.word addr 0 := by
  by_cases hlt : nr < 64
  · have hzero : bitWord nr = 0 := Nat.div_eq_of_lt hlt
    rw [if_pos hlt, opBit, amo, bitAddr, hzero]
    exact Mem.word_store64
  · have hpos : 1 ≤ bitWord nr := (Nat.one_le_div_iff (by decide)).mpr (Nat.le_of_not_lt hlt)
    have hword : bitWord nr < 2 ^ 61 := Nat.div_lt_of_lt_mul (by rw [BITS_PER_LONG]; omega)
    rw [if_neg hlt, opBit, amo, bitAddr]
    exact Mem.word_store64_of_ne hword (by omega) (by omega)

/-- The first word is all that the test looks at. -/
theorem testBit_of_lt (hshr : IsShr shr) (hm : m < 64) (addr : BitVec 64) (mem : Mem) :
    testBit shr m addr mem = (mem.word addr 0).getLsbD m := by
  rw [testBit, hshr _ _ hm, load64_eq_word]
  exact testBit_eq_getLsbD m _

theorem testBit_congr {mem' : Mem} (h : mem.word addr 0 = mem'.word addr 0) :
    testBit shr m addr mem = testBit shr m addr mem' := by
  rw [testBit, testBit, load64_eq_word, load64_eq_word, h]

/-- A shift that does `f` where it is undefined. -/
def shrOr (f : BitVec 64 → Bool) (word : BitVec 64) (count : ℕ) : BitVec 64 :=
  if count < BITS_PER_LONG then word >>> count else if f word then 1 else 0

theorem isShr_shrOr (f : BitVec 64 → Bool) : IsShr (shrOr f) := fun _ _ h => if_pos h

theorem testBit_shrOr (f : BitVec 64 → Bool) (hm : 64 ≤ m) (addr : BitVec 64) (mem : Mem) :
    testBit (shrOr f) m addr mem = f (mem.word addr 0) := by
  have hcount : ¬ m < BITS_PER_LONG := Nat.not_lt.mpr hm
  rw [testBit, shrOr, if_neg hcount, load64_eq_word]
  cases f (mem.word addr 0) with
  | true => rfl
  | false => rfl

/-! ## Writing and testing -/

/-- The test of the bit `m` sees what is written to the bit `nr`. -/
structure SeesWrites (shr : BitVec 64 → ℕ → BitVec 64) (mem : Mem) (addr : BitVec 64) (nr m : ℕ) :
    Prop where
  set : testBit shr m addr (setBit nr addr mem) = if m = nr then true else testBit shr m addr mem
  clear :
    testBit shr m addr (clearBit nr addr mem) = if m = nr then false else testBit shr m addr mem
  change : testBit shr m addr (changeBit nr addr mem) =
    if m = nr then !testBit shr m addr mem else testBit shr m addr mem

/-- A writer of a bit in another word does not change the test. -/
theorem seesWrites_of_le (hle : 64 ≤ nr) (hnr : nr < 2 ^ 67) (hne : m ≠ nr) (mem : Mem)
    (addr : BitVec 64) : SeesWrites shr mem addr nr m := by
  have hword : ∀ op mod, (opBit op mod nr addr mem).word addr 0 = mem.word addr 0 :=
    fun op mod => (word_opBit op mod hnr mem addr).trans (if_neg (Nat.not_lt.mpr hle))
  refine ⟨?_, ?_, ?_⟩
  · exact (testBit_congr (hword _ _)).trans (if_neg hne).symm
  · exact (testBit_congr (hword _ _)).trans (if_neg hne).symm
  · exact (testBit_congr (hword _ _)).trans (if_neg hne).symm

theorem seesWrites_of_lt (hshr : IsShr shr) (hnr : nr < 64) (hm : m < 64) (mem : Mem)
    (addr : BitVec 64) : SeesWrites shr mem addr nr m := by
  have hword : ∀ op mod, (opBit op mod nr addr mem).word addr 0 =
      op (mem.word addr 0) (mod (bitMask nr)) :=
    fun op mod => (word_opBit op mod (by omega) mem addr).trans (if_pos hnr)
  refine ⟨?_, ?_, ?_⟩
  · rw [testBit_of_lt hshr hm, testBit_of_lt hshr hm, setBit, hword]
    exact getLsbD_setBit hnr _ m
  · rw [testBit_of_lt hshr hm, testBit_of_lt hshr hm, clearBit, hword]
    exact getLsbD_clearBit hnr _ m
  · rw [testBit_of_lt hshr hm, testBit_of_lt hshr hm, changeBit, hword]
    exact getLsbD_changeBit hnr _ m

theorem changeBit_ne (hnr : nr < 64) (word : BitVec 64) : CertiCore.changeBit nr word ≠ word := by
  intro h
  have hbit := getLsbD_changeBit hnr word nr
  rw [h, if_pos rfl] at hbit
  exact Bool.not_ne_self _ hbit.symm

/-- Behind the first word, the test of a bit misses what is written to it, and may take notice of
what is written elsewhere. -/
theorem seesWrites_iff (hnr : nr < 2 ^ 67) (mem : Mem) (addr : BitVec 64) :
    (∀ shr, IsShr shr → SeesWrites shr mem addr nr m) ↔ m < 64 ∨ 64 ≤ nr ∧ m ≠ nr := by
  constructor
  · intro h
    by_contra hnot
    obtain ⟨hm, hor⟩ := not_or.mp hnot
    have hm := Nat.le_of_not_lt hm
    by_cases hlt : nr < 64
    · -- a shift that tells apart the first word before and after the bit is changed
      have hsees := h (shrOr (· != mem.word addr 0)) (isShr_shrOr _)
      have hword : (changeBit nr addr mem).word addr 0 = _ :=
        (word_opBit _ _ hnr mem addr).trans (if_pos hlt)
      have hne : m ≠ nr := by omega
      have hchange := hsees.change
      rw [if_neg hne, testBit_shrOr _ hm, testBit_shrOr _ hm, hword, bne_self_eq_false] at hchange
      exact changeBit_ne hlt _ (bne_eq_false_iff_eq.mp hchange)
    · have hmn : m = nr := by
        by_contra hne
        exact hor ⟨Nat.le_of_not_lt hlt, hne⟩
      have hset := (h (shrOr fun _ => false) (isShr_shrOr _)).set
      rw [if_pos hmn, testBit_shrOr _ hm] at hset
      exact nomatch hset
  · rintro h shr hshr
    by_cases hlt : nr < 64
    · exact seesWrites_of_lt hshr hlt (h.resolve_right fun hr => by omega) mem addr
    · exact seesWrites_of_le (Nat.le_of_not_lt hlt) hnr (by omega) mem addr

/-! ## Testing and writing at once -/

/-- What is returned is the result of the test before. -/
structure ReturnsTest (shr : BitVec 64 → ℕ → BitVec 64) (mem : Mem) (addr : BitVec 64) (nr : ℕ) :
    Prop where
  set : (testAndSetBit nr addr mem).2 = testBit shr nr addr mem
  clear : (testAndClearBit nr addr mem).2 = testBit shr nr addr mem

/-- What is returned is the bit, whatever word it is in. -/
theorem testAndOpBit_snd (op : BitVec 64 → BitVec 64 → BitVec 64) (mod : BitVec 64 → BitVec 64)
    (nr : ℕ) (addr : BitVec 64) (mem : Mem) : (testAndOpBit op mod nr addr mem).2 =
      (mem.word addr (bitWord nr)).getLsbD (nr % 64) := by
  have hmask : bitMask nr = bitMask (nr % 64) := by
    rw [bitMask, bitMask, BITS_PER_LONG, Nat.mod_mod]
  have hzero := and_bitMask_eq_zero (Nat.mod_lt nr (by decide)) (mem.word addr (bitWord nr))
  rw [← hmask] at hzero
  rw [← Bool.not_not (BitVec.getLsbD _ _), ← hzero]
  rfl

theorem returnsTest_iff (mem : Mem) (addr : BitVec 64) (nr : ℕ) :
    (∀ shr, IsShr shr → ReturnsTest shr mem addr nr) ↔ nr < 64 := by
  constructor
  · intro h
    by_contra hnot
    have hset := (h (shrOr fun _ => !(testAndSetBit nr addr mem).2) (isShr_shrOr _)).set
    rw [testBit_shrOr _ (Nat.le_of_not_lt hnot)] at hset
    exact Bool.not_ne_self _ hset.symm
  · intro hlt shr hshr
    have hold : ∀ op mod, (testAndOpBit op mod nr addr mem).2 = testBit shr nr addr mem := by
      intro op mod
      have hzero : bitWord nr = 0 := Nat.div_eq_of_lt hlt
      rw [testAndOpBit_snd, testBit_of_lt hshr hlt, hzero, Nat.mod_eq_of_lt hlt]
    exact ⟨hold _ _, hold _ _⟩

/-! ## The property -/

/-- The operations form a bitmap as far as the test is one of the first word; what the operations
that return the old bit write, and what the two builds write, is always the same. -/
theorem bitmap_iff (hnr : nr < 2 ^ 31) (m : ℕ) (mem : Mem) (addr : BitVec 64) :
    ((∀ shr, IsShr shr → SeesWrites shr mem addr nr m) ↔ m < 64 ∨ 64 ≤ nr ∧ m ≠ nr) ∧
    ((∀ shr, IsShr shr → ReturnsTest shr mem addr nr) ↔ nr < 64) ∧
    (testAndSetBit nr addr mem).1 = setBit nr addr mem ∧
    (testAndClearBit nr addr mem).1 = clearBit nr addr mem ∧
    setBitVerif nr addr mem = setBit nr addr mem ∧
    clearBitVerif nr addr mem = clearBit nr addr mem ∧
    changeBitVerif nr addr mem = changeBit nr addr mem :=
  ⟨seesWrites_iff (by omega) mem addr, returnsTest_iff mem addr nr, rfl, rfl, rfl, rfl, rfl⟩

theorem isShr_srl : IsShr srl := by
  intro word count hcount
  exact congrArg (word >>> ·) (Nat.mod_eq_of_lt hcount)

theorem bitmap_iff_first_word : SeesWrites srl (fun _ => 0) 0x1000 3 5 :=
  (bitmap_iff (by decide) 5 (fun _ => 0) 0x1000).1.mpr (Or.inl (by decide)) srl isShr_srl

/-- The first bit of the second of two words: `srl` shifts by no place. -/
theorem bitmap_second_word : ¬ ∀ (shr : BitVec 64 → ℕ → BitVec 64) (mem : Mem) (addr : BitVec 64)
    (n nr m : ℕ), IsShr shr → n * 8 ≤ 2 ^ 64 → nr < n * 64 → m < n * 64 →
    SeesWrites shr mem addr nr m := by
  intro h
  have hset := (h srl (fun _ => 0) 0x1000 2 64 64 isShr_srl (by decide) (by decide) (by decide)).set
  have hword := word_opBit (· ||| ·) id (by decide : 64 < 2 ^ 67) (fun _ => 0) 0x1000
  have hold : testBit srl 64 0x1000 (fun _ => 0) = true := (testBit_congr hword).symm.trans hset
  exact absurd hold (by decide)

end CertiCore.Bitmap
