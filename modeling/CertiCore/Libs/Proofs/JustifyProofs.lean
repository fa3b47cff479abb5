import CertiCore.Libs.Proofs.StringFieldProofs

/-!
# Proofs: left-justified fields

The flag `-` is kept as the pad character. The branch of `%s` takes it as a sign to pad on the
right, but `printnum` puts it in front of the digits like any other pad character.
-/

namespace CertiCore

open Loop

/-- Something else than spaces in front is not the same as spaces behind. -/
theorem replicate_append_ne {k m : ℕ} {x y : Byte} (hxy : y ≠ x) (hk : 0 < k) (l : List Byte) :
    List.replicate k x ++ l ≠ l ++ List.replicate m y := by
  intro heq
  have hcount := congrArg (List.count x) heq
  rw [List.count_append, List.count_append, List.count_replicate_self,
    List.count_replicate, if_neg (by simpa using hxy)] at hcount
  omega

theorem padAfter_of_mem {flags : List Byte} (h : ch '-' ∈ flags) (padc : Byte) :
    padAfter padc flags = ch '-' ∨ padAfter padc flags = ch '0' := by
  obtain ⟨l, r, rfl⟩ := List.append_of_mem h
  clear h
  have hrest : ∀ p, p = ch '-' ∨ p = ch '0' → padAfter p r = ch '-' ∨ padAfter p r = ch '0' := by
    induction r with
    | nil => exact fun p hp => hp
    | cons c r ih =>
      intro p hp
      apply ih
      dsimp only
      split
      case isTrue hc => exact hc
      case isFalse => exact hp
  rw [padAfter_append, padAfter, List.foldl_cons, if_pos (Or.inl rfl), ← padAfter]
  exact hrest _ (Or.inl rfl)

section

variable {M : BitVec 64 → Option Byte} {flags text mods : List Byte} {w : ℕ}
  {args : List (BitVec 64)} {c : Byte} {v : BitVec 64} {ap : List VaArg} {T F : List Byte}

/-- The pad character decides on which side a string without a precision is padded. -/
theorem stringText_flags {s : List Byte} {width : BitVec 32} (hs : s.length < 2 ^ 30)
    (hwidth : IsWidth w width) (flags : List Byte) :
    ({ Esc.init with width }.flags flags).stringText s =
      if (0 < w % 2 ^ 32 ∧ w % 2 ^ 32 < 2 ^ 31) ∧ padAfter (ch ' ') flags ≠ ch '-' then
        List.replicate (padCount w s.length) (padAfter (ch ' ') flags) ++
          (Esc.init.flags flags).shown s
      else (Esc.init.flags flags).shown s ++ List.replicate (padCount w s.length) (ch ' ') := by
  have hpos : (0 : BitVec 32).slt width = true ↔ 0 < w % 2 ^ 32 ∧ w % 2 ^ 32 < 2 ^ 31 := by
    rw [zero_slt_iff]
    rcases hwidth with rfl | ⟨rfl, rfl⟩
    · rw [BitVec.toNat_ofNat]
    · decide
  rw [stringText_eq hs]
  have hcut : ({ Esc.init with width }.flags flags).cut s = s := rfl
  rw [hcut, pad, pad, ← hwidth.padCount_eq (by omega : s.length < 2 ^ 31)]
  exact if_congr (and_congr_left' hpos) rfl rfl

end

end CertiCore
