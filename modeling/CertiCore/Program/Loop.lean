import Mathlib.Data.Nat.Notation
import Mathlib.Logic.Relation

/-!
# Loops that need not terminate

A C loop is given by its body: from a state, the body goes on in a new state (`inl`), leaves the
loop with a result (`inr`), or fails. Nothing is said about termination here: `run` executes a loop
with a bound on the number of iterations, and `Ends` says that the loop terminates.
-/

namespace Loop

variable {σ ρ ε : Type}

/-- At most `fuel` iterations from the state `s`; `none` if these are not enough. -/
def run (body : σ → Except ε (σ ⊕ ρ)) : ℕ → σ → Option (Except ε ρ)
  | 0, _ => none
  | fuel + 1, s =>
    match body s with
    | .ok (.inl s') => run body fuel s'
    | .ok (.inr r) => some (.ok r)
    | .error e => some (.error e)

/-- One iteration that goes on. -/
def Step (body : σ → Except ε (σ ⊕ ρ)) (s s' : σ) : Prop := body s = .ok (.inl s')

/-- The last iteration: the loop is left with a result, or fails. -/
def Exit (body : σ → Except ε (σ ⊕ ρ)) (s : σ) (r : Except ε ρ) : Prop := body s = r.map .inr

def Steps (body : σ → Except ε (σ ⊕ ρ)) : σ → σ → Prop := Relation.ReflTransGen (Step body)

/-- From the state `s` the loop terminates, with the result `r`. -/
def Ends (body : σ → Except ε (σ ⊕ ρ)) (s : σ) (r : Except ε ρ) : Prop :=
  ∃ s', Steps body s s' ∧ Exit body s' r

end Loop
