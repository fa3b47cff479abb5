import CertiCore.Ni.Sfscq

/-!
# Proofs: files do not leak

A user learns of the content of a file only if it is given to him, by its owner or by somebody to
whom it was given.
-/

namespace CertiCore.Sfscq

open Noninterference

variable {s t : State} {u : Uid} {ino : Ino} {as : List Action}

/-! ## The conditions of the file -/

theorem isPerm_congr (h : vieweqv u s t) (v : Uid) (ino : Ino) :
    isPerm s v ino = isPerm t v ino := by
  rw [isPerm, isPerm, h.1 ino]

/-- Output consistency. -/
theorem output_consistent (a : Action) (h : vieweqv a.user s t) : a.output s = a.output t := by
  cases a with
  | read v ino =>
    simp only [Action.output, read, isPerm_congr h v ino]
    by_cases hperm : isPerm t v ino = true
    · have hown : v = s.perm ino := by simpa [isPerm, h.1 ino] using hperm
      rw [if_pos hperm, if_pos hperm, h.2 ino hown]
    · rw [if_neg hperm, if_neg hperm]
  | chown v ino to_ => rfl

/-- Weak step consistency and step respect in one: the content of a file that changes its owner is
seen by the one who gives it away. -/
theorem policy_stepConsistent : StepConsistent policy vieweqv Action.step := by
  rintro a u s t h hflow
  cases a with
  | read v ino => exact h
  | chown v ino to_ =>
    simp only [Action.step, chown, isPerm_congr h v ino]
    by_cases hperm : isPerm t v ino = true
    swap
    · rw [if_neg hperm, if_neg hperm]
      exact h
    rw [if_pos hperm, if_pos hperm]
    have hown : v = s.perm ino := by simpa [isPerm, h.1 ino] using hperm
    refine ⟨fun x => ?_, fun x hx => ?_⟩
    · show (if x = ino then to_ else s.perm x) = if x = ino then to_ else t.perm x
      rw [h.1 x]
    · change u = (if x = ino then to_ else s.perm x) at hx
      by_cases hino : x = ino
      · rw [if_pos hino] at hx
        have hview : vieweqv v s t := hflow (Or.inr hx.symm) v rfl
        exact hview.2 x (by rw [hino]; exact hown)
      · rw [if_neg hino] at hx
        exact h.2 x hx

/-! ## Runs -/

/-- Only the user itself is a source of what it sees if nobody else gives it a file. -/
theorem sources_eq_of_not_given
    (h : ∀ v ino, Action.chown v ino u ∈ as → v = u) : policy.sources as {u} = {u} := by
  induction as with
  | nil => rfl
  | cons a as ih =>
    have hrest := ih fun v ino hmem => h v ino (List.mem_cons_of_mem a hmem)
    rw [Policy.sources, hrest]
    refine Set.union_eq_left.mpr ?_
    rintro w ⟨rfl, d, rfl, hwrite⟩
    cases a with
    | read v ino => exact hwrite.elim id id
    | chown v ino to_ =>
      rcases hwrite with heq | heq
      · exact heq
      · obtain rfl : to_ = d := heq
        exact h v ino List.mem_cons_self

/-- Noninterference: what a user sees at the end of any sequence of actions, and every result that
it gets, is determined by what the users see before who may pass something on to it; and by what
it sees itself, if nobody else gives it a file. -/
theorem files_noninterference (as : List Action) (u : Uid) (s t : State) :
    ((∀ w ∈ policy.sources as {u}, vieweqv w s t) →
      vieweqv u (run Action.step as s) (run Action.step as t) ∧
        trace Action.step Action.output (·.user = u) as s =
          trace Action.step Action.output (·.user = u) as t) ∧
    ((∀ v ino, Action.chown v ino u ∈ as → v = u) → vieweqv u s t →
      vieweqv u (run Action.step as s) (run Action.step as t) ∧
        trace Action.step Action.output (·.user = u) as s =
          trace Action.step Action.output (·.user = u) as t) := by
  have hgeneral : Alike vieweqv (policy.sources as {u}) s t →
      vieweqv u (run Action.step as s) (run Action.step as t) ∧
        trace Action.step Action.output (·.user = u) as s =
          trace Action.step Action.output (·.user = u) as t := by
    intro h
    refine ⟨alike_run policy_stepConsistent as h u rfl,
      trace_eq policy_stepConsistent (W := {u}) ?_ as h⟩
    intro a s t hsees hview
    exact output_consistent a (hview _ hsees)
  refine ⟨hgeneral, fun hgiven hview => hgeneral ?_⟩
  rw [sources_eq_of_not_given hgiven]
  rintro w rfl
  exact hview

end CertiCore.Sfscq
