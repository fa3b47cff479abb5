import CertiCore.Program.Prog

/-!
# Proofs: running programs

`run` is a monad morphism into state-passing functions, and a loop keeps an invariant that every
iteration keeps.
-/

namespace Prog

variable {σ τ ε ι α β : Type}

@[simp] theorem run_pure (a : α) (s : σ) : (pure a : Prog σ α).run s = (a, s) := rfl

@[simp] theorem run_write (upd : σ → σ) (s : σ) : (write upd).run s = ((), upd s) := rfl

@[simp] theorem run_bind (p : Prog σ α) (f : α → Prog σ β) (s : σ) :
    (p >>= f).run s = (f (p.run s).1).run (p.run s).2 := by
  show (p.bind f).run s = _
  induction p generalizing s with
  | ret a => rfl
  | access upd next ih => exact ih s (upd s)

@[simp] theorem run_ite (c : Prop) [Decidable c] (p q : Prog σ α) (s : σ) :
    (if c then p else q).run s = if c then p.run s else q.run s := by
  split <;> rfl

/-- What a loop establishes: `I` on the local variables and the data when it runs to its end, `Q`
on the value and the data when the body leaves it. -/
def LoopPost (I : τ → σ → Prop) (Q : ε → σ → Prop) : Except ε τ × σ → Prop
  | (.ok t, s) => I t s
  | (.error e, s) => Q e s

theorem LoopPost.imp {I I' : τ → σ → Prop} {Q Q' : ε → σ → Prop} {r : Except ε τ × σ}
    (h : LoopPost I Q r) (hI : ∀ t s, I t s → I' t s) (hQ : ∀ e s, Q e s → Q' e s) :
    LoopPost I' Q' r := by
  obtain ⟨_ | _, s⟩ := r
  · exact hQ _ _ h
  · exact hI _ _ h

theorem run_forLoop_cons (body : ι → τ → Prog σ (Except ε τ)) (i : ι) (is : List ι) (t : τ)
    (s : σ) :
    (forLoop body (i :: is) t).run s =
      match (body i t).run s with
      | (.ok t', s') => (forLoop body is t').run s'
      | (.error e, s') => (.error e, s') := by
  simp only [forLoop, run_bind]
  rcases (body i t).run s with ⟨_ | _, s'⟩ <;> rfl

/-- The loop rule for `for (i = 0; i < n; ++i)`: an invariant `I i` that holds before iteration `0`
and that every iteration either carries to the next one or leaves with `Q`. -/
theorem run_forLoop_finRange {n : ℕ} (body : Fin n → τ → Prog σ (Except ε τ))
    (I : ℕ → τ → σ → Prop) (Q : ε → σ → Prop)
    (hstep : ∀ (i : Fin n) t s, I i t s → LoopPost (I (i + 1)) Q ((body i t).run s))
    {t : τ} {s : σ} (h0 : I 0 t s) :
    LoopPost (I n) Q ((forLoop body (List.finRange n) t).run s) := by
  have hdrop : ∀ k m t s, m + k = n → I m t s →
      LoopPost (I n) Q ((forLoop body ((List.finRange n).drop m) t).run s) := by
    intro k
    induction k with
    | zero =>
      intro m t s hm hI
      rw [List.drop_of_length_le (by simp; omega)]
      obtain rfl : m = n := hm
      exact hI
    | succ k ih =>
      intro m t s hm hI
      have hmn : m < n := by omega
      rw [List.drop_eq_getElem_cons (by simpa using hmn), run_forLoop_cons]
      have hb := hstep ⟨m, hmn⟩ t s hI
      simp only [List.getElem_finRange, Fin.cast_mk]
      rcases hr : (body ⟨m, hmn⟩ t).run s with ⟨_ | t', s'⟩
      · rw [hr] at hb
        exact hb
      · rw [hr] at hb
        exact ih (m + 1) t' s' (by omega) hb
  simpa using hdrop n 0 t s (by omega) h0

theorem runAll_append_singleton (ps : List (Prog σ α)) (p : Prog σ α) (s : σ) :
    runAll (ps ++ [p]) s =
      ((runAll ps s).1 ++ [(p.run (runAll ps s).2).1], (p.run (runAll ps s).2).2) := by
  induction ps generalizing s with
  | nil => rfl
  | cons q qs ih => simp only [List.cons_append, runAll, ih]

theorem runAll_length (ps : List (Prog σ α)) (s : σ) : (runAll ps s).1.length = ps.length := by
  induction ps generalizing s with
  | nil => rfl
  | cons q qs ih => simp [runAll, ih]

/-- A program on a part of the data changes that part, and nothing else. -/
theorem run_zoom (part : Part σ τ) (p : Prog τ α) (s : σ) :
    (p.zoom part).run s = ((p.run (part.get s)).1, part.set (p.run (part.get s)).2 s) := by
  induction p generalizing s with
  | ret a => exact Prod.ext rfl (part.set_get s).symm
  | access upd next ih =>
    rw [zoom, run, ih, part.get_set, part.set_set]
    rfl

end Prog
