import Mathlib.Data.Set.Basic

/-!
# Noninterference

Actions change a state that domains observe, each of them up to a relation of its own. A policy says
which domains an action reads and which it writes, and need not be transitive: what a domain shows
may pass on to a second one by one action, and to a third by a later one.

If every action keeps to the policy, so does every run.
-/

namespace Noninterference

/-- Which domains the actions read and write. -/
structure Policy (ι δ : Type) where
  reads : ι → Set δ
  writes : ι → Set δ

variable {σ ι δ ο : Type} {P : Policy ι δ} {view : δ → σ → σ → Prop} {step : ι → σ → σ}
  {output : ι → σ → ο} {D W : Set δ} {s t : σ} {a : ι} {as : List ι}

namespace Policy

/-- The action writes one of the domains `D`. -/
def Affects (P : Policy ι δ) (a : ι) (D : Set δ) : Prop := ∃ d ∈ D, d ∈ P.writes a

/-- The domains that may influence what the domains `W` observe at the end of the actions. -/
def sources (P : Policy ι δ) : List ι → Set δ → Set δ
  | [], W => W
  | a :: as, W => P.sources as W ∪ {d | d ∈ P.reads a ∧ P.Affects a (P.sources as W)}

open scoped Classical in
/-- The actions that may influence what the domains `W` observe at their end. -/
noncomputable def purge (P : Policy ι δ) : List ι → Set δ → List ι
  | [], _ => []
  | a :: as, W => if P.Affects a (P.sources as W) then a :: P.purge as W else P.purge as W

theorem subset_sources (P : Policy ι δ) (as : List ι) (W : Set δ) : W ⊆ P.sources as W := by
  induction as with
  | nil => exact Set.Subset.rfl
  | cons a as ih => exact ih.trans Set.subset_union_left

theorem reads_subset_sources (h : P.Affects a (P.sources as W)) :
    P.reads a ⊆ P.sources (a :: as) W := fun _ hd => Or.inr ⟨hd, h⟩

theorem purge_cons_of_affects (h : P.Affects a (P.sources as W)) :
    P.purge (a :: as) W = a :: P.purge as W := if_pos h

theorem purge_cons_of_not_affects (h : ¬ P.Affects a (P.sources as W)) :
    P.purge (a :: as) W = P.purge as W := if_neg h

end Policy

/-! ## Steps -/

/-- All the domains `D` observe the same in both states. -/
def Alike (view : δ → σ → σ → Prop) (D : Set δ) (s t : σ) : Prop := ∀ d ∈ D, view d s t

theorem Alike.mono (h : Alike view D s t) (hW : W ⊆ D) : Alike view W s t :=
  fun d hd => h d (hW hd)

/-- What an action leaves of two states that look alike to a domain looks alike to it, if the action
does not write the domain or finds the same in both states. -/
def StepConsistent (P : Policy ι δ) (view : δ → σ → σ → Prop) (step : ι → σ → σ) : Prop :=
  ∀ a d s t, view d s t → (d ∈ P.writes a → Alike view (P.reads a) s t) →
    view d (step a s) (step a t)

/-- A domain does not observe an action that does not write it. -/
def LocalRespect (P : Policy ι δ) (view : δ → σ → σ → Prop) (step : ι → σ → σ) : Prop :=
  ∀ a d s, d ∉ P.writes a → view d (step a s) s

/-- The output of an action is determined by what the domains `W` observe, if `sees` holds of it. -/
def OutputConsistent (view : δ → σ → σ → Prop) (output : ι → σ → ο) (sees : ι → Prop)
    (W : Set δ) : Prop := ∀ a s t, sees a → Alike view W s t → output a s = output a t

/-- One action of a run keeps what the sources of the rest observe. -/
theorem alike_step (hstep : StepConsistent P view step)
    (h : Alike view (P.sources (a :: as) W) s t) :
    Alike view (P.sources as W) (step a s) (step a t) := by
  intro d hd
  refine hstep a d s t (h d (Or.inl hd)) fun hwrite => ?_
  exact h.mono (Policy.reads_subset_sources ⟨d, hd, hwrite⟩)

/-! ## Runs -/

/-- The state after the actions. -/
def run (step : ι → σ → σ) (as : List ι) (s : σ) : σ := as.foldl (fun s a => step a s) s

/-- The outputs of the actions that `sees` holds of, in a run. -/
def trace (step : ι → σ → σ) (output : ι → σ → ο) (sees : ι → Prop) [DecidablePred sees] :
    List ι → σ → List ο
  | [], _ => []
  | a :: as, s =>
    let rest := trace step output sees as (step a s)
    if sees a then output a s :: rest else rest

/-- Runs from states that look alike to the sources end in states that look alike. -/
theorem alike_run (hstep : StepConsistent P view step) (as : List ι)
    (h : Alike view (P.sources as W) s t) : Alike view W (run step as s) (run step as t) := by
  induction as generalizing s t with
  | nil => exact h
  | cons a as ih => exact ih (alike_step hstep h)

/-- They have the same outputs. -/
theorem trace_eq {sees : ι → Prop} [DecidablePred sees] (hstep : StepConsistent P view step)
    (hout : OutputConsistent view output sees W) (as : List ι)
    (h : Alike view (P.sources as W) s t) :
    trace step output sees as s = trace step output sees as t := by
  induction as generalizing s t with
  | nil => rfl
  | cons a as ih =>
    have hrest := ih (alike_step hstep h)
    by_cases hsees : sees a
    · have heq := hout a s t hsees (h.mono (P.subset_sources (a :: as) W))
      rw [trace, trace, if_pos hsees, if_pos hsees, heq, hrest]
    · rw [trace, trace, if_neg hsees, if_neg hsees, hrest]

/-- Actions that have no influence may be left out. -/
theorem alike_run_purge (hview : ∀ d, Equivalence (view d)) (hstep : StepConsistent P view step)
    (hlocal : LocalRespect P view step) (as : List ι) (h : Alike view (P.sources as W) s t) :
    Alike view W (run step as s) (run step (P.purge as W) t) := by
  induction as generalizing s t with
  | nil => exact h
  | cons a as ih =>
    by_cases haff : P.Affects a (P.sources as W)
    · rw [Policy.purge_cons_of_affects haff]
      exact ih (alike_step hstep h)
    · rw [Policy.purge_cons_of_not_affects haff]
      refine ih fun d hd => ?_
      have hquiet := hlocal a d s fun hwrite => haff ⟨d, hd, hwrite⟩
      exact (hview d).trans hquiet (h d (Or.inl hd))

end Noninterference
