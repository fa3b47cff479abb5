import CertiCore.Debug.Assert
import CertiCore.Program.Proofs.ProgProofs

/-!
# Proofs: running programs that may stop
-/

namespace CertiCore

namespace HaltT

variable {σ τ α β : Type}

@[simp] theorem exec_pure (a : α) (s : σ) : exec (pure a : HaltT σ α) s = (.ok a, s) := rfl

@[simp] theorem exec_throw (h : Halt) (s : σ) :
    exec (throw h : HaltT σ α) s = (.error h, s) := rfl

@[simp] theorem exec_bind (p : HaltT σ α) (f : α → HaltT σ β) (s : σ) :
    exec (p >>= f) s = match exec p s with
      | (.ok a, s') => exec (f a) s'
      | (.error h, s') => (.error h, s') := by
  have hrun : exec (p >>= f) s = (Prog.bind p (ExceptT.bindCont f)).run s := rfl
  have hbind := Prog.run_bind p (ExceptT.bindCont f) s
  rw [hrun, show Prog.bind p (ExceptT.bindCont f) = (p >>= ExceptT.bindCont f : Prog σ _) from rfl,
    hbind]
  show (ExceptT.bindCont f (exec p s).1).run (exec p s).2 = _
  rcases exec p s with ⟨_ | _, s'⟩ <;> rfl

@[simp] theorem exec_lift (p : Prog σ α) (s : σ) :
    exec (liftM p : HaltT σ α) s = (.ok (p.run s).1, (p.run s).2) := by
  show Prog.run (p >>= fun a => pure (Except.ok a)) s = _
  rw [Prog.run_bind]
  rfl

@[simp] theorem exec_liftExcept (x : Except Halt α) (s : σ) :
    exec (liftM x : HaltT σ α) s = (x, s) := rfl

@[simp] theorem exec_ite (c : Prop) [Decidable c] (p q : HaltT σ α) (s : σ) :
    exec (if c then p else q) s = if c then exec p s else exec q s := by
  split <;> rfl

theorem exec_zoom (part : Prog.Part σ τ) (p : HaltT τ α) (s : σ) :
    (p.zoom part).exec s = ((p.exec (part.get s)).1, part.set (p.exec (part.get s)).2 s) :=
  Prog.run_zoom part (ExceptT.run p) s

end HaltT

@[simp] theorem exec_assert {σ : Type} (text : String) (x : Prop) [Decidable x] (s : σ) :
    (assert text x).exec s =
      (if x then .ok () else .error (.panic "assertion failed: %s" [.str text]), s) := by
  unfold assert
  by_cases hx : x
  · simp [hx]
  · simp [hx]

theorem of_exec_assert {σ : Type} {text : String} {x : Prop} [Decidable x] {s t : σ} {a : Unit}
    (h : (assert text x).exec s = (.ok a, t)) : x := by
  rw [exec_assert] at h
  split at h
  case isTrue hx => exact hx
  case isFalse => exact nomatch (Prod.mk.inj h).1

section Assert

variable {σ α : Type} {text : String} {x : Prop} [Decidable x] (f : Unit → HaltT σ α) (s : σ)

theorem exec_assert_bind (h : x) : (assert text x >>= f).exec s = (f ()).exec s := by
  rw [HaltT.exec_bind, exec_assert, if_pos h]

theorem exec_assert_bind_of_not (h : ¬ x) : (assert text x >>= f).exec s =
    (.error (.panic "assertion failed: %s" [.str text]), s) := by
  rw [HaltT.exec_bind, exec_assert, if_neg h]

end Assert

/-! ## Programs that stop by `panic` only -/

/-- From the state `s`, the program runs to its end or panics. -/
def HaltT.PanicsOnly {σ α : Type} (p : HaltT σ α) (s : σ) : Prop :=
  ∀ x s', p.exec s = (.error x, s') → ∃ fmt args, x = .panic fmt args

section PanicsOnly

open HaltT

variable {σ τ α β : Type} {s : σ}

theorem panicsOnly_ok {p : HaltT σ α} {a : α} {s' : σ} (h : p.exec s = (.ok a, s')) :
    p.PanicsOnly s := fun _ _ hx => nomatch (Prod.mk.inj (h.symm.trans hx)).1

theorem panicsOnly_pure (a : α) : (pure a : HaltT σ α).PanicsOnly s := panicsOnly_ok (exec_pure a s)

theorem panicsOnly_lift (p : Prog σ α) : (liftM p : HaltT σ α).PanicsOnly s :=
  panicsOnly_ok (exec_lift p s)

theorem panicsOnly_assert (text : String) (x : Prop) [Decidable x] :
    (assert text x).PanicsOnly s := by
  intro e s' h
  rw [exec_assert] at h
  split at h
  · exact nomatch (Prod.mk.inj h).1
  · exact ⟨_, _, (Except.error.inj (Prod.mk.inj h).1).symm⟩

theorem panicsOnly_liftExcept {x : Except Halt α}
    (hx : ∀ e, x = .error e → ∃ fmt args, e = .panic fmt args) :
    (liftM x : HaltT σ α).PanicsOnly s := by
  intro e s' h
  rw [exec_liftExcept] at h
  exact hx e (Prod.mk.inj h).1

theorem HaltT.PanicsOnly.bind {p : HaltT σ α} {f : α → HaltT σ β} (hp : p.PanicsOnly s)
    (hf : ∀ a t, p.exec s = (.ok a, t) → (f a).PanicsOnly t) : (p >>= f).PanicsOnly s := by
  intro e s' h
  rw [exec_bind] at h
  rcases hexec : p.exec s with ⟨x | a, t⟩
  · rw [hexec] at h
    obtain rfl := Except.error.inj (Prod.mk.inj h).1
    exact hp x t hexec
  · rw [hexec] at h
    exact hf a t hexec e s' h

theorem HaltT.PanicsOnly.zoom {part : Prog.Part σ τ} {p : HaltT τ α}
    (h : p.PanicsOnly (part.get s)) : (p.zoom part).PanicsOnly s := by
  intro e s' hx
  rw [exec_zoom] at hx
  exact h e _ (Prod.ext (Prod.mk.inj hx).1 rfl)

end PanicsOnly

end CertiCore
