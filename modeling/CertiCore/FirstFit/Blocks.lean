import Mathlib.Order.Bounds.Basic
import Mathlib.Data.Nat.Notation

/-!
# Blocks of positions and first fit

Among the positions below `N`, a block of size `n` is a run of `n` positions in a row that are all
available. First fit chooses the block that starts lowest. A single scan from left to right finds
it, if it only remembers where the current run of available positions began: `Scan` is the invariant
of such a scan, and the lemmas about it are the steps a scan can make.
-/

namespace FirstFit

variable {avail : ℕ → Prop} {N n i f b : ℕ}

/-- The `n` positions from `b` on are all available. -/
def Block (avail : ℕ → Prop) (n b : ℕ) : Prop := ∀ p, b ≤ p → p < b + n → avail p

/-- The positions below `N` at which a block of size `n` starts that ends at `N` at the latest. -/
def starts (avail : ℕ → Prop) (N n : ℕ) : Set ℕ := {b | b + n ≤ N ∧ Block avail n b}

/-- The scan has looked at the positions below `i`; its current run began at `f`. -/
structure Scan (avail : ℕ → Prop) (n i f : ℕ) : Prop where
  /-- The run is behind the scan. -/
  le : f ≤ i
  /-- The run is no longer than a block. -/
  le_add : i ≤ f + n
  /-- Every position of the run is available. -/
  run : ∀ p, f ≤ p → p < i → avail p
  /-- No block starts before the run. -/
  no_block : ∀ b < f, ¬ Block avail n b

theorem Scan.zero : Scan avail n 0 0 := by
  refine ⟨le_rfl, Nat.zero_le _, fun p _ hp => ?_, fun b hb => ?_⟩
  · exact absurd hp (Nat.not_lt_zero p)
  · exact absurd hb (Nat.not_lt_zero b)

/-- An available position extends the run. -/
theorem Scan.extend (h : Scan avail n i f) (hlt : i < f + n) (hi : avail i) :
    Scan avail n (i + 1) f := by
  refine ⟨Nat.le_succ_of_le h.le, hlt, fun p hfp hpi => ?_, h.no_block⟩
  rcases Nat.lt_succ_iff_lt_or_eq.mp hpi with hp | rfl
  · exact h.run p hfp hp
  · exact hi

/-- A position that is not available ends the run: every block that starts in the run would reach
over this position. -/
theorem Scan.restart (h : Scan avail n i f) (hlt : i < f + n) (hi : ¬ avail i) :
    Scan avail n (i + 1) (i + 1) := by
  refine ⟨le_rfl, Nat.le_add_right _ _, fun p hfp hpi => absurd hpi (Nat.not_lt.mpr hfp), ?_⟩
  intro b hb hblock
  by_cases hbf : b < f
  · exact h.no_block b hbf hblock
  · exact hi (hblock i (by omega) (by omega))

/-- A run as long as a block is the first fit. -/
theorem Scan.isLeast (h : Scan avail n i f) (hi : i = f + n) (hN : i ≤ N) :
    IsLeast (starts avail N n) f := by
  subst hi
  refine ⟨⟨hN, h.run⟩, fun b hb => ?_⟩
  by_contra hlt
  exact h.no_block b (Nat.lt_of_not_le hlt) hb.2

/-- A scan that reaches the end with a run shorter than a block has passed no block. -/
theorem Scan.starts_eq_empty (h : Scan avail n N f) (hlt : N < f + n) : starts avail N n = ∅ := by
  refine Set.eq_empty_of_forall_notMem fun b hb => ?_
  by_cases hbf : b < f
  · exact h.no_block b hbf hb.2
  · have := hb.1
    omega

theorem starts_congr {avail' : ℕ → Prop} (h : ∀ p < N, avail p ↔ avail' p) :
    starts avail N n = starts avail' N n := by
  ext b
  refine and_congr_right fun hb => forall_congr' fun p => imp_congr_right fun _ => ?_
  exact imp_congr_right fun hp => h p (by omega)

end FirstFit
