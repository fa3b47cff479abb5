import Mathlib.Data.BitVec
import CertiCore.Noninterference.Unwinding

/-!
# `racket/ni/sfscq.rkt`

Files with owners: who may read a file, who may give it away, and what a user sees of a state.
-/

namespace CertiCore.Sfscq

/-- `uid_t`, a user. -/
abbrev Uid := BitVec 32

/-- `ino_t`, a file. -/
abbrev Ino := BitVec 64

/-- `val_t`, the content of a file. -/
abbrev Val := BitVec 64

/-- `(struct state (perm data))`. -/
structure State where
  perm : Ino → Uid
  data : Ino → Val

/-- `(vieweqv u s t)`: the owners are public, and `u` sees the content of its own files. -/
def vieweqv (u : Uid) (s t : State) : Prop :=
  (∀ ino, s.perm ino = t.perm ino) ∧ ∀ ino, u = s.perm ino → s.data ino = t.data ino

/-- `(perm? s u ino)`. -/
def isPerm (s : State) (u : Uid) (ino : Ino) : Bool := u == s.perm ino

/-- The content of `ino`, or 0 if that is not permitted. -/
def read (s : State) (u : Uid) (ino : Ino) : State × Val :=
  (s, if isPerm s u ino then s.data ino else 0)

/-- Changes the owner of `ino`. -/
def chown (s : State) (u : Uid) (ino : Ino) (to_ : Uid) : State × BitVec 32 :=
  let ns := { s with perm := fun x => if x = ino then to_ else s.perm x }
  (if isPerm s u ino then ns else s, 0)

/-- `(flowsto? x0 x1 y0 y1)`. -/
def flowsto (x y : Uid × Uid) : Prop := x.1 = y.1 ∨ x.2 = y.1

/-! ## Runs -/

/-- The actions of the user `u`. -/
inductive Action where
  | read (u : Uid) (ino : Ino)
  | chown (u : Uid) (ino : Ino) (to_ : Uid)

namespace Action

/-- The user that acts. -/
def user : Action → Uid
  | read u _ => u
  | chown u _ _ => u

/-- The domain of an action, a pair of users. -/
def dom : Action → Uid × Uid
  | read u _ => (u, u)
  | chown u _ to_ => (u, to_)

def step (a : Action) (s : State) : State :=
  match a with
  | read u ino => (Sfscq.read s u ino).1
  | chown u ino to_ => (Sfscq.chown s u ino to_).1

def output (a : Action) (s : State) : Val ⊕ BitVec 32 :=
  match a with
  | read u ino => .inl (Sfscq.read s u ino).2
  | chown u ino to_ => .inr (Sfscq.chown s u ino to_).2

end Action

/-- The policy of the file: an action reads the first user of its domain, and flows to both. -/
def policy : Noninterference.Policy Action Uid where
  reads a := {a.dom.1}
  writes a := {u | flowsto a.dom (u, u)}

end CertiCore.Sfscq
