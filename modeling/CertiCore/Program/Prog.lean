import Mathlib.Data.List.FinRange

/-!
# Programs as sequences of atomic accesses

A C function that works on shared data is a sequence of accesses to the data (loads, stores, atomic
read-modify-writes) with local computation between them. `Prog σ α` is such a sequence on the data
`σ` with a result in `α`. `Prog.run` executes it without interruption; a step semantics that lets
other code run between two accesses consumes the same sequence one constructor at a time.
-/

/-- A program on the shared data `σ` that returns an `α`. -/
inductive Prog (σ α : Type) where
  /-- The program has returned `a`. -/
  | ret (a : α)
  /-- One access: the data `s` becomes `upd s`, and the program goes on as `next s`. -/
  | access (upd : σ → σ) (next : σ → Prog σ α)

namespace Prog

variable {σ τ ε ι α β : Type}

/-- Runs the second program on the result of the first. -/
def bind : Prog σ α → (α → Prog σ β) → Prog σ β
  | ret a, f => f a
  | access upd next, f => access upd fun s => (next s).bind f

instance : Monad (Prog σ) where
  pure := ret
  bind := bind

/-- A load: returns `f s` and leaves the data as it is. -/
def read (f : σ → α) : Prog σ α := access id fun s => ret (f s)

/-- A store or an atomic update of the data. -/
def write (upd : σ → σ) : Prog σ Unit := access upd fun _ => ret ()

/-- The result of a program that runs without interruption, and the data it leaves. -/
def run : Prog σ α → σ → α × σ
  | ret a, s => (a, s)
  | access upd next, s => (next s).run (upd s)

/-- A `for` loop whose variable takes the values `is`. The body maps the local variables `t` to
their new values (`.ok`), or leaves the loop with a value (`.error`, for `break` and `return`). -/
def forLoop (body : ι → τ → Prog σ (Except ε τ)) : List ι → τ → Prog σ (Except ε τ)
  | [], t => pure (.ok t)
  | i :: is, t => do
    match ← body i t with
    | .ok t' => forLoop body is t'
    | .error e => pure (.error e)

/-- Executes a list of programs one after the other: the results, and the data at the end. -/
def runAll : List (Prog σ α) → σ → List α × σ
  | [], s => ([], s)
  | p :: ps, s =>
    let (a, s') := p.run s
    let (as, s'') := runAll ps s'
    (a :: as, s'')

/-- A part `τ` of the data `σ`: how to read it, and how to replace it. -/
structure Part (σ τ : Type) where
  get : σ → τ
  set : τ → σ → σ
  get_set : ∀ t s, get (set t s) = t
  set_get : ∀ s, set (get s) s = s
  set_set : ∀ t t' s, set t (set t' s) = set t s

/-- A program on a part of the data. -/
def zoom (part : Part σ τ) : Prog τ α → Prog σ α
  | ret a => ret a
  | access upd next =>
    access (fun s => part.set (upd (part.get s)) s) fun s => (next (part.get s)).zoom part

end Prog
