import Mathlib.Logic.Relation

/-!
# Computations that follow others

Two computations that may fail are compared by what they return: one follows the other if it returns
whenever that one does, and then with a related value.
-/

variable {ε α α' β β' : Type} {R : α → α' → Prop} {S : β → β' → Prop}

/-- The computation `y` follows `x`. -/
def Follows (R : α → α' → Prop) (x : Except ε α) (y : Except ε α') : Prop :=
  ∀ a, x = .ok a → ∃ a', y = .ok a' ∧ R a a'

namespace Follows

theorem ok {a : α} {a' : α'} (h : R a a') : Follows R (.ok a : Except ε α) (.ok a') := by
  intro b hb
  obtain rfl := Except.ok.inj hb
  exact ⟨a', rfl, h⟩

theorem rfl_eq (x : Except ε α) : Follows Eq x x := by
  intro a ha
  exact ⟨a, ha, rfl⟩

theorem bind {x : Except ε α} {y : Except ε α'} {f : α → Except ε β} {g : α' → Except ε β'}
    (h : Follows R x y) (hfg : ∀ a a', R a a' → Follows S (f a) (g a')) :
    Follows S (x >>= f) (y >>= g) := by
  intro b hb
  cases hx : x with
  | error e =>
    rw [hx] at hb
    exact nomatch hb
  | ok a =>
    obtain ⟨a', hy, hR⟩ := h a hx
    rw [hx] at hb
    rw [hy]
    exact hfg a a' hR b hb

/-- Both computations begin alike. -/
theorem bind_same (x : Except ε α) {f : α → Except ε β} {g : α → Except ε β'}
    (hfg : ∀ a, Follows S (f a) (g a)) : Follows S (x >>= f) (x >>= g) := by
  refine (rfl_eq x).bind ?_
  rintro a a' rfl
  exact hfg a

theorem map {x : Except ε α} {y : Except ε α'} {f : α → β} {g : α' → β'} (h : Follows R x y)
    (hfg : ∀ a a', R a a' → S (f a) (g a')) : Follows S (x.map f) (y.map g) := by
  show Follows S (f <$> x) (g <$> y)
  rw [map_eq_pure_bind, map_eq_pure_bind]
  exact h.bind fun a a' hR => Follows.ok (hfg a a' hR)

theorem ite (p : Prop) [Decidable p] {x y : Except ε α} {x' y' : Except ε α'}
    (hpos : p → Follows R x x') (hneg : ¬ p → Follows R y y') :
    Follows R (if p then x else y) (if p then x' else y') := by
  by_cases hp : p
  · rw [if_pos hp, if_pos hp]
    exact hpos hp
  · rw [if_neg hp, if_neg hp]
    exact hneg hp

end Follows
