import CertiCore.Program.Proofs.ProgProofs
import Mathlib.Logic.Relation

/-!
# Programs that may be interrupted

A program makes one access after the other, and between two accesses, and after the last one, an
interrupt may change the data, in the states that permit it. If no state in front of an access
permits it, the program runs as it does without interruption, and the interrupts come afterwards.
-/

namespace Prog

variable {σ τ α β : Type}

/-- One step of a program that runs with interrupts, of which `irq s s'` is one in the state `s`. -/
inductive Step (irq : σ → σ → Prop) : Prog σ α × σ → Prog σ α × σ → Prop
  | access (upd : σ → σ) (next : σ → Prog σ α) (s : σ) :
    Step irq (.access upd next, s) (next s, upd s)
  | interrupt {s s' : σ} (p : Prog σ α) (h : irq s s') : Step irq (p, s) (p, s')

/-- Every access of the program finds the data in a state with `P`, when it runs without
interruption from the state `s`. -/
def Before (P : σ → Prop) : Prog σ α → σ → Prop
  | ret _, _ => True
  | access upd next, s => P s ∧ Before P (next s) (upd s)

variable {P : σ → Prop} {irq : σ → σ → Prop} {p q : Prog σ α} {s t : σ}

theorem before_bind (p : Prog σ α) (f : α → Prog σ β) (s : σ) :
    Before P (p >>= f) s ↔ Before P p s ∧ Before P (f (p.run s).1) (p.run s).2 := by
  show Before P (p.bind f) s ↔ _
  induction p generalizing s with
  | ret a => exact ⟨fun h => ⟨trivial, h⟩, fun h => h.2⟩
  | access upd next ih =>
    rw [Prog.bind, Before, ih, Before, and_assoc]
    rfl

theorem before_zoom {part : Part σ τ} (hP : ∀ t s, P (part.set t s) ↔ P s) (p : Prog τ α)
    (h : P s) : Before P (p.zoom part) s := by
  induction p generalizing s with
  | ret a => exact trivial
  | access upd next ih => exact ⟨h, ih _ ((hP _ s).mpr h)⟩

/-- With interrupts off in front of every access, a state that is reached is one of the run without
interruption, with the interrupts still off in front of what is left of the program, or the program
has returned and interrupts have come since. -/
theorem reaches_of_before (hP : ∀ s s', P s → ¬ irq s s') (h : Before P p s)
    (reach : Relation.ReflTransGen (Step irq) (p, s) (q, t)) :
    (Before P q t ∧ q.run t = p.run s) ∨
      q = .ret (p.run s).1 ∧ Relation.ReflTransGen irq (p.run s).2 t := by
  generalize hx : (q, t) = x at reach
  induction reach generalizing q t with
  | refl =>
    obtain ⟨rfl, rfl⟩ := Prod.mk.inj hx
    exact Or.inl ⟨h, rfl⟩
  | tail _ hstep ih =>
    cases hstep with
    | access upd next s' =>
      obtain ⟨rfl, rfl⟩ := Prod.mk.inj hx
      rcases ih rfl with ⟨hbefore, hrun⟩ | ⟨hret, -⟩
      · exact Or.inl ⟨hbefore.2, hrun⟩
      · exact nomatch hret
    | @interrupt s' s'' p' hirq =>
      obtain ⟨rfl, rfl⟩ := Prod.mk.inj hx
      rcases ih rfl with ⟨hbefore, hrun⟩ | ⟨hret, hirqs⟩
      · cases q with
        | ret a =>
          have hstate : p.run s = (a, s') := hrun.symm
          rw [hstate]
          exact Or.inr ⟨rfl, .single hirq⟩
        | access upd next => exact absurd hirq (hP s' t hbefore.1)
      · exact Or.inr ⟨hret, hirqs.tail hirq⟩

/-- A program can run to its end without interruption. -/
theorem reaches_run (irq : σ → σ → Prop) (p : Prog σ α) (s : σ) :
    Relation.ReflTransGen (Step irq) (p, s) (.ret (p.run s).1, (p.run s).2) := by
  induction p generalizing s with
  | ret a => exact .refl
  | access upd next ih => exact .head (.access upd next s) (ih s (upd s))

end Prog
