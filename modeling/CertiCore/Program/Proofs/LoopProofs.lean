import CertiCore.Program.Follows
import CertiCore.Program.Loop

/-!
# Proofs: loops that need not terminate

A loop has at most one result, the one that `run` computes with enough fuel. If the body of one
loop follows that of another, so do the loops.
-/

namespace Loop

variable {σ τ ρ ε : Type} {body : σ → Except ε (σ ⊕ ρ)} {s s' : σ} {r r' : Except ε ρ}

/-! ## Composition -/

theorem Step.steps (h : Step body s s') : Steps body s s' := Relation.ReflTransGen.single h

theorem Steps.refl (s : σ) : Steps body s s := Relation.ReflTransGen.refl

theorem Steps.trans {s'' : σ} (h : Steps body s s') (h' : Steps body s' s'') : Steps body s s'' :=
  Relation.ReflTransGen.trans h h'

theorem Exit.ends (h : Exit body s r) : Ends body s r := ⟨s, .refl s, h⟩

theorem Ends.of_steps (h : Ends body s' r) (hs : Steps body s s') : Ends body s r := by
  obtain ⟨t, ht, hexit⟩ := h
  exact ⟨t, hs.trans ht, hexit⟩

theorem Ends.of_step (h : Ends body s' r) (hs : Step body s s') : Ends body s r :=
  h.of_steps hs.steps

/-- Every state goes on or ends. -/
theorem step_or_exit (body : σ → Except ε (σ ⊕ ρ)) (s : σ) :
    (∃ s', Step body s s') ∨ ∃ r, Exit body s r := by
  unfold Step Exit
  rcases body s with e | (s' | r)
  · exact Or.inr ⟨.error e, rfl⟩
  · exact Or.inl ⟨s', rfl⟩
  · exact Or.inr ⟨.ok r, rfl⟩

/-! ## Determinism -/

theorem Step.unique {s'' : σ} (h : Step body s s') (h' : Step body s s'') : s' = s'' := by
  unfold Step at h h'
  rw [h] at h'
  exact Sum.inl.inj (Except.ok.inj h')

/-- Of two states that are reached, one is reached from the other. -/
theorem Steps.total {s'' : σ} (h : Steps body s s') (h' : Steps body s s'') :
    Steps body s' s'' ∨ Steps body s'' s' :=
  Relation.ReflTransGen.total_of_right_unique (fun _ _ _ h h' => h.unique h') h h'

theorem Exit.unique (h : Exit body s r) (h' : Exit body s r') : r = r' := by
  unfold Exit at h h'
  rw [h] at h'
  rcases r with e | v
  · rcases r' with e' | v'
    · exact congrArg _ (Except.error.inj h')
    · exact nomatch h'
  · rcases r' with e' | v'
    · exact nomatch h'
    · exact congrArg _ (Sum.inr.inj (Except.ok.inj h'))

theorem Step.not_exit (h : Step body s s') : ¬ Exit body s r := by
  unfold Step at h
  unfold Exit
  rw [h]
  rcases r with e | v
  · exact nofun
  · exact nofun

/-- Nothing is reached behind the end. -/
theorem Steps.of_exit (h : Steps body s s') (hexit : Exit body s r) : s' = s := by
  rcases Relation.ReflTransGen.cases_head h with rfl | ⟨_, hstep, _⟩
  · rfl
  · exact absurd hexit (Step.not_exit hstep)

theorem ends_iff_of_step (h : Step body s s') : Ends body s r ↔ Ends body s' r := by
  refine ⟨?_, fun hs' => hs'.of_step h⟩
  rintro ⟨t, hsteps, hexit⟩
  rcases Relation.ReflTransGen.cases_head hsteps with rfl | ⟨s'', hstep, hrest⟩
  · exact absurd hexit h.not_exit
  · obtain rfl := h.unique hstep
    exact ⟨t, hrest, hexit⟩

theorem ends_iff_of_steps (h : Steps body s s') : Ends body s r ↔ Ends body s' r := by
  induction h with
  | refl => exact Iff.rfl
  | tail _ hstep ih => exact ih.trans (ends_iff_of_step hstep)

theorem ends_iff_of_exit (h : Exit body s r) : Ends body s r' ↔ r' = r := by
  constructor
  · rintro ⟨t, hsteps, hexit⟩
    rcases Relation.ReflTransGen.cases_head hsteps with rfl | ⟨s', hstep, -⟩
    · exact hexit.unique h
    · exact absurd h (Step.not_exit hstep)
  · rintro rfl
    exact h.ends

theorem Ends.unique (h : Ends body s r) (h' : Ends body s r') : r = r' := by
  obtain ⟨t, hsteps, hexit⟩ := h
  exact ((ends_iff_of_exit hexit).mp ((ends_iff_of_steps hsteps).mp h')).symm

/-- A loop does not end if an invariant permits every state to go on. -/
theorem not_ends_of_invariant {I : σ → Prop} (hstep : ∀ s, I s → ∃ s', Step body s s' ∧ I s')
    (h : I s) : ¬ Ends body s r := by
  rintro ⟨t, hsteps, hexit⟩
  induction hsteps using Relation.ReflTransGen.head_induction_on with
  | refl =>
    obtain ⟨_, hgo, -⟩ := hstep t h
    exact hgo.not_exit hexit
  | head hgo _ ih =>
    obtain ⟨_, hgo', hinv⟩ := hstep _ h
    obtain rfl := hgo.unique hgo'
    exact ih hinv

/-! ## Running with fuel -/

theorem run_succ_of_step (h : Step body s s') (fuel : ℕ) :
    run body (fuel + 1) s = run body fuel s' := by
  unfold Step at h
  rw [run, h]

theorem run_succ_of_exit (h : Exit body s r) (fuel : ℕ) : run body (fuel + 1) s = some r := by
  unfold Exit at h
  rw [run, h]
  rcases r with e | v
  · rfl
  · rfl

/-- A loop that terminates does so for all fuel from some amount on. -/
theorem Ends.exists_run (h : Ends body s r) : ∃ n, ∀ fuel ≥ n, run body fuel s = some r := by
  obtain ⟨t, hsteps, hexit⟩ := h
  induction hsteps using Relation.ReflTransGen.head_induction_on with
  | refl =>
    refine ⟨1, fun fuel hfuel => ?_⟩
    obtain ⟨k, rfl⟩ := Nat.exists_eq_add_of_le' hfuel
    exact run_succ_of_exit hexit k
  | head hstep _ ih =>
    obtain ⟨n, hn⟩ := ih
    refine ⟨n + 1, fun fuel hfuel => ?_⟩
    obtain ⟨k, rfl⟩ := Nat.exists_eq_add_of_le' hfuel
    rw [← Nat.add_assoc, run_succ_of_step hstep]
    exact hn _ (Nat.le_add_left n k)

theorem ends_of_run {fuel : ℕ} (h : run body fuel s = some r) : Ends body s r := by
  induction fuel generalizing s with
  | zero => exact nomatch h
  | succ fuel ih =>
    rcases step_or_exit body s with ⟨s', hstep⟩ | ⟨r', hexit⟩
    · rw [run_succ_of_step hstep] at h
      exact (ih h).of_step hstep
    · rw [run_succ_of_exit hexit] at h
      obtain rfl := Option.some.inj h
      exact hexit.ends

theorem ends_iff_run : Ends body s r ↔ ∃ fuel, run body fuel s = some r := by
  constructor
  · intro h
    obtain ⟨n, hn⟩ := h.exists_run
    exact ⟨n, hn n (Nat.le_refl n)⟩
  · rintro ⟨fuel, h⟩
    exact ends_of_run h

/-! ## Simulation -/

/-- If the body of a loop follows that of a loop that returns, it returns too, with a related
result. -/
theorem Ends.follow {ρ' : Type} {body' : τ → Except ε (τ ⊕ ρ')} {R : σ → τ → Prop}
    {Q : ρ → ρ' → Prop} {t : τ} {v : ρ}
    (hbody : ∀ s t, R s t → Follows (Sum.LiftRel R Q) (body s) (body' t))
    (h : Ends body s (.ok v)) (hR : R s t) : ∃ v', Ends body' t (.ok v') ∧ Q v v' := by
  obtain ⟨u, hsteps, hexit⟩ := h
  induction hsteps using Relation.ReflTransGen.head_induction_on generalizing t with
  | refl =>
    obtain ⟨x, hx, hrel⟩ := hbody u t hR _ hexit
    cases hrel with
    | inr hQ => exact ⟨_, Exit.ends hx, hQ⟩
  | head hstep _ ih =>
    obtain ⟨x, hx, hrel⟩ := hbody _ t hR _ hstep
    cases hrel with
    | inl hR' =>
      obtain ⟨v', hends, hQ⟩ := ih hR'
      exact ⟨v', hends.of_step hx, hQ⟩

/-- If every iteration of a loop is matched by one of another loop, so are all of them. -/
theorem Steps.simulate {ρ' ε' : Type} {body' : τ → Except ε' (τ ⊕ ρ')} {R : σ → τ → Prop} {t : τ}
    (hbody : ∀ s t s', R s t → Step body s s' → ∃ t', Step body' t t' ∧ R s' t')
    (h : Steps body s s') (hR : R s t) : ∃ t', Steps body' t t' ∧ R s' t' := by
  induction h with
  | refl => exact ⟨t, .refl t, hR⟩
  | tail _ hstep ih =>
    obtain ⟨u, hsteps, hu⟩ := ih
    obtain ⟨t', hstep', ht'⟩ := hbody _ u _ hu hstep
    exact ⟨t', hsteps.tail hstep', ht'⟩

/-- What every iteration keeps holds in every state reached. -/
theorem Steps.invariant {I : σ → Prop} (hstep : ∀ s s', I s → Step body s s' → I s')
    (h : Steps body s s') (hs : I s) : I s' := by
  induction h with
  | refl => exact hs
  | tail _ hstep' ih => exact hstep _ _ ih hstep'

/-- A loop whose iterations are those of another one, on states and results that are mapped. -/
theorem Ends.map {ρ' : Type} {body' : τ → Except ε (τ ⊕ ρ')} {I : σ → Prop} {f : σ → τ}
    {g : ρ → ρ'} (hbody : ∀ s, I s → body' (f s) = (body s).map (Sum.map f g))
    (hstep : ∀ s s', I s → Step body s s' → I s') (h : Ends body s r) (hs : I s) :
    Ends body' (f s) (r.map g) := by
  obtain ⟨u, hsteps, hexit⟩ := h
  induction hsteps using Relation.ReflTransGen.head_induction_on with
  | refl =>
    have hexit' : Exit body' (f u) (r.map g) := by
      rw [Exit, hbody u hs, hexit]
      cases r with
      | error e => rfl
      | ok v => rfl
    exact hexit'.ends
  | @head s s' hs' _ ih =>
    have hstep' : Step body' (f s) (f s') := by
      rw [Step, hbody s hs, hs']
      rfl
    exact (ih (hstep s s' hs hs')).of_step hstep'

end Loop
