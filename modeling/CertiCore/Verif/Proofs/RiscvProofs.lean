import CertiCore.Trap.Proofs.TrapProofs
import CertiCore.Trap.Proofs.TrapentryProofs
import CertiCore.Verif.Riscv

/-!
# Proofs: the refinement of the machine code

Whatever traps are taken, the assembly code and `trap()` together do what the specification does.
-/

namespace CertiCore

variable {img : Image} {c : Cpu} {visits : List Visit} {calls : List TrapCall} {k k' : Kernel}

/-- The run of a trap is one of an execution that has not begun. -/
theorem TrapRun.faithful (h : TrapRun img c visits) : ∀ v ∈ visits, v.Faithful := by
  obtain ⟨priv, cause, tval, handler, -, sp_eq⟩ := h
  have hok : ExecOk (c.get sp) (c.get sp) c [] .arg c :=
    ⟨fun _ _ => rfl, priv, rfl, fun v hv => absurd hv List.not_mem_nil⟩
  obtain ⟨-, -, hsaved, hsuper⟩ := saved_spec img cause tval c
  have hroom : (c.get sp - c.get sp).toNat + 36 * 8 < 2 ^ 64 := by
    rw [BitVec.sub_self]
    decide
  have hin := handler.ok hsaved hsuper fun a ha => onStack_frame hroom ha
  exact (hok.trap (le_refl _) hroom hin sp_eq).visits

/-- What `trap()` does to the counter is what the specification does on the cause in the frame. -/
theorem absFunction_trap (call : TrapCall) (k : Kernel) :
    absFunction (trap call k) = specTrap (absFunction k) call.tf.cause := by
  unfold specTrap
  split
  case isTrue hcause => exact congrArg RiscvSpec.State.mk (trap_timer hcause k).1
  case isFalse hcause => exact congrArg RiscvSpec.State.mk (quiet_trap hcause k).ticks

theorem absFunction_runTraps (calls : List TrapCall) (k : Kernel) :
    absFunction (runTraps calls k) =
      (calls.map fun call => call.tf.cause).foldl specTrap (absFunction k) := by
  induction calls generalizing k with
  | nil => rfl
  | cons call calls ih =>
    rw [List.map_cons, List.foldl_cons, ← absFunction_trap]
    exact ih (trap call k)

/-- The causes that `trap()` finds are those that the hart had. -/
theorem causes_eq (h : ∀ v ∈ visits, v.Faithful)
    (hcalls : calls.map (·.tf) = visits.map (·.frame)) :
    (calls.map fun call => call.tf.cause) = visits.map (·.cause) := by
  have hframes : visits.map (fun v => v.frame.cause) = visits.map (·.cause) :=
    List.map_congr_left fun v hv => congrArg Trapframe.cause (h v hv).frame
  have hcauses := congrArg (List.map Trapframe.cause) hcalls
  rw [List.map_map, List.map_map] at hcauses
  exact hcauses.trans hframes

/-- The refinement: whatever traps are taken, one after the other and one inside the other, the
counter is the one of the specification, which counts the timer interrupts that the hart took, and
every trap keeps the invariant. -/
theorem riscv_refinement (h : TrapRuns img k visits k') (bootstack : BitVec 64) :
    absFunction k' = (visits.map (·.cause)).foldl specTrap (absFunction k) ∧
    ∀ v ∈ visits, RepInvariant bootstack v.before → RepInvariant bootstack v.after := by
  induction h with
  | nil k => exact ⟨rfl, fun v hv => absurd hv List.not_mem_nil⟩
  | @trap c k k' visits more calls run frames _ ih =>
    obtain ⟨habs, hkeep⟩ := ih
    have hfaithful := run.faithful
    constructor
    · rw [habs, absFunction_runTraps, causes_eq hfaithful frames, List.map_append,
        List.foldl_append]
    · intro v hv hrep
      rcases List.mem_append.mp hv with hin | hin
      · exact ((hfaithful v hin).regs sp).trans hrep
      · exact hkeep v hin hrep

/-- One timer interrupt, taken in the state `c`. -/
theorem exists_timer_run (img : Image) {c : Cpu} (hpriv : c.priv = .supervisor) (k : Kernel) :
    ∃ v k', TrapRuns img k [v] k' ∧ v.cause = timerCause := by
  obtain ⟨tf, ra, _, hcall⟩ := Exec.exists_call img (c.get sp) (c.get sp - 36 * 8)
    (img.saved timerCause 0 c)
  obtain ⟨e, hret, hpc, hsp⟩ := hcall.exists_return (c.get sp - 36 * 8)
  have hrun := TrapRun.mk hpriv timerCause 0 hret hpc hsp
  exact ⟨_, _, @TrapRuns.trap _ _ _ _ _ _ [⟨tf, 0, 0⟩] hrun rfl (.nil _), rfl⟩

/-- After one of them the counter is 1. -/
theorem riscv_refinement_timer :
    ∃ visits k', TrapRuns ⟨0xffffffffc0200200, 0xffffffffc0200400⟩ ⟨0, 0, []⟩ visits k' ∧
      k'.ticks = 1 := by
  obtain ⟨v, k', hruns, hcause⟩ := exists_timer_run ⟨0xffffffffc0200200, 0xffffffffc0200400⟩
    (c := ⟨fun _ => 0, 0xffffffffc0200040, 2, 0, 0, 0, 0, .supervisor, fun _ => 0⟩) rfl ⟨0, 0, []⟩
  obtain ⟨habs, -⟩ := riscv_refinement hruns 0
  rw [List.map_singleton, hcause, List.foldl_cons, specTrap, if_pos rfl] at habs
  exact ⟨[v], k', hruns, congrArg RiscvSpec.State.tick habs⟩

end CertiCore
