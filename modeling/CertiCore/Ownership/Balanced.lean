import Mathlib.Data.Multiset.MapFold

/-!
# Balanced runs

A system whose state changes when a token is acquired and when one is released. If releases commute
with each other and a release right after its acquisition undoes it, then a run that releases
whatever it acquired ends in the state it began in, in whatever order it acquires and releases.
-/

namespace Balanced

variable {σ κ : Type} [DecidableEq κ]

/-- The runs from `s₀`: the state they reach, and the tokens acquired and not yet released. -/
inductive Run (acquire : σ → κ → σ → Prop) (release : σ → κ → σ) (s₀ : σ) : σ → Multiset κ → Prop
  | start : Run acquire release s₀ s₀ 0
  | acquire {s s' : σ} {M : Multiset κ} {k : κ} (h : acquire s k s')
      (run : Run acquire release s₀ s M) : Run acquire release s₀ s' (k ::ₘ M)
  | release {s : σ} {M : Multiset κ} {k : κ} (h : k ∈ M) (run : Run acquire release s₀ s M) :
      Run acquire release s₀ (release s k) (M.erase k)

variable {acquire : σ → κ → σ → Prop} {release : σ → κ → σ} {s₀ s : σ} {M : Multiset κ}

/-- At every point of a run, releasing whatever is outstanding leads back to the first state. -/
theorem Run.foldl_release [RightCommutative release]
    (hundo : ∀ s k s', acquire s k s' → release s' k = s) (h : Run acquire release s₀ s M) :
    M.foldl release s = s₀ := by
  induction h with
  | start => rfl
  | acquire hacq _ ih =>
    -- the order does not matter, so the last acquisition may be released first
    rw [Multiset.foldl_cons, hundo _ _ _ hacq]
    exact ih
  | release hmem _ ih =>
    rw [← Multiset.foldl_cons, Multiset.cons_erase hmem]
    exact ih

/-- A run that has released whatever it acquired is back in its first state. -/
theorem Run.eq_of_balanced [RightCommutative release]
    (hundo : ∀ s k s', acquire s k s' → release s' k = s) (h : Run acquire release s₀ s 0) :
    s = s₀ := by
  have hback := h.foldl_release hundo
  rwa [Multiset.foldl_zero] at hback

end Balanced
