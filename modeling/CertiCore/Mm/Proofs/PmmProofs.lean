import CertiCore.Mm.Pmm
import CertiCore.Sync.Proofs.SyncProofs

/-!
# Proofs: the allocator is safe against interrupts
-/

namespace CertiCore

variable {N : PoolSize}

/-- On a hart whose main code and trap handlers call the allocator in any interleaving: the bodies
run with `SIE` clear and do not overlap, the results and the state are those of the calls one after
the other in the order in which the bodies start, and every call and every trap leaves `SIE` as it
was. -/
theorem interrupt_safety {sstatus : BitVec 64} {s₀ : Pmm N}
    {m : Hart (Pmm N) (Option SizeT) PmmCall} (h : Hart.Reaches PmmCall.body sstatus s₀ m) :
    (∀ pt ∈ m.points, pt.inBody = true → sie m.shared.sstatus = false) ∧
    (m.points.filter Point.inBody).length ≤ 1 ∧
    (∀ i v, m.shared.returned i = some v →
      (Prog.runAll (m.shared.started.map PmmCall.body) s₀).1[i]? = some v) ∧
    ((∀ pt ∈ m.points, pt.inBody = false) →
      m.shared.mem = (Prog.runAll (m.shared.started.map PmmCall.body) s₀).2) ∧
    (m.Quiescent → ∀ i < m.shared.started.length,
      m.shared.returned i = (Prog.runAll (m.shared.started.map PmmCall.body) s₀).1[i]?) ∧
    (∀ p ∈ m.shared.calls, p.1 = p.2) ∧ ∀ p ∈ m.shared.traps, p.1 = p.2 := by
  have hsie := h.sieOk
  have hserial := h.serial
  obtain ⟨hoff, hone⟩ := hsie.inBody
  exact ⟨hoff, hone, hserial.returned, hserial.mem_eq, fun hquiet => (hserial.returned_eq hquiet).2,
    hsie.calls, hsie.traps⟩

/-- The main code is interrupted between the read of `sstatus` and `intr_disable()`, and the handler
calls the allocator too. -/
theorem interrupt_safety_in_intr_save :
    ∃ m : Hart (Pmm .verif) (Option SizeT) PmmCall,
      Hart.Reaches PmmCall.body 2 ⟨fun _ => 0, 5⟩ m ∧ m.Quiescent ∧
        m.shared.started = [.nrFreePages, .allocPages 9] ∧ m.shared.traps = [(true, true)] ∧
        m.shared.returned 1 = (Prog.runAll (m.shared.started.map PmmCall.body)
          (⟨fun _ => 0, 5⟩ : Pmm .verif)).1[1]? := by
  have hrun : Hart.Reaches PmmCall.body 2 (⟨fun _ => 0, 5⟩ : Pmm .verif) _ :=
    Relation.ReflTransGen.refl
      |>.tail (.call (.allocPages 9)) |>.tail (.exec rfl)
      -- the interrupt, and the call of the handler
      |>.tail (.interrupt rfl) |>.tail .saveAll |>.tail (.call .nrFreePages)
      |>.tail (.exec rfl) |>.tail (.exec rfl) |>.tail (.exec rfl) |>.tail (.exec rfl)
      |>.tail (.exec rfl) |>.tail (.exec rfl) |>.tail (.exec rfl)
      |>.tail .restoreAll |>.tail .sret
      -- the main code goes on with the value that it has read
      |>.tail (.exec rfl) |>.tail (.exec rfl) |>.tail (.exec rfl) |>.tail (.exec rfl)
      |>.tail (.exec rfl) |>.tail (.exec rfl) |>.tail (.exec rfl)
  exact ⟨_, hrun, ⟨rfl, rfl⟩, rfl, rfl, (interrupt_safety hrun).2.2.2.2.1 ⟨rfl, rfl⟩ 1 (by decide)⟩

end CertiCore
