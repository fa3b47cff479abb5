import Mathlib.Data.List.Induction
import CertiCore.Trap.Trap

/-!
# Proofs: the timer interrupt and every other trap

A timer interrupt counts one tick, arms the timer again and prints at every hundredth tick. No other
trap does any of this, whatever its cause.
-/

namespace CertiCore

variable {k k' : Kernel} {c : TrapCall}

/-! ## The dispatch on the cause -/

/-- The dispatch reaches the case `IRQ_S_TIMER` of `interrupt_handler` for one cause only: the sign
test looks at the top bit, which the shifts then strip. -/
theorem timer_dispatch_iff (cause : BitVec 64) :
    (cause.toInt < 0 ∧ ((cause <<< 1) >>> 1).toNat = IRQ_S_TIMER) ↔ cause = timerCause := by
  have hcause := cause.isLt
  have hshift : ((cause <<< 1) >>> 1).toNat = cause.toNat * 2 % 2 ^ 64 / 2 := by
    rw [BitVec.toNat_ushiftRight, BitVec.toNat_shiftLeft, Nat.shiftLeft_eq,
      Nat.shiftRight_eq_div_pow]
  have htimer : cause = timerCause ↔ cause.toNat = 2 ^ 63 + 5 := by
    rw [← BitVec.toNat_inj]
    rfl
  have hneg : cause.toInt < 0 ↔ 2 ^ 63 ≤ cause.toNat := by
    rw [BitVec.toInt_eq_toNat_cond]
    split <;> omega
  rw [hshift, htimer, hneg, IRQ_S_TIMER]
  omega

/-! ## What a trap leaves alone -/

/-- Nothing that is counted differs. -/
structure Quiet (k k' : Kernel) : Prop where
  ticks : k'.ticks = k.ticks
  printTicksCalls : k'.printTicksCalls = k.printTicksCalls
  timerArmed : k'.timerArmed = k.timerArmed

theorem Quiet.refl (k : Kernel) : Quiet k k := ⟨rfl, rfl, rfl⟩

theorem Quiet.trans {k'' : Kernel} (h : Quiet k k') (h' : Quiet k' k'') : Quiet k k'' :=
  ⟨h'.ticks.trans h.ticks, h'.printTicksCalls.trans h.printTicksCalls,
    h'.timerArmed.trans h.timerArmed⟩

/-- A line other than the one of `print_ticks`. -/
theorem quiet_cprintf {fmt : String} (hfmt : fmt ≠ "%d ticks\n") (args : List (BitVec 64))
    (k : Kernel) : Quiet k (cprintf fmt args k) := by
  refine ⟨rfl, ?_, ?_⟩
  · have hne : Event.cprintf fmt args ≠ .cprintf "%d ticks\n" [TICK_NUM] := by
      intro h
      exact hfmt (Event.cprintf.inj h).1
    simp [Kernel.printTicksCalls, cprintf, hne]
  · simp [Kernel.timerArmed, cprintf]

theorem quiet_lines (lines : List (String × BitVec 64))
    (hlines : ∀ line ∈ lines, line.1 ≠ "%d ticks\n") (k : Kernel) :
    Quiet k (lines.foldl (fun k line => cprintf line.1 [line.2] k) k) := by
  induction lines generalizing k with
  | nil => exact Quiet.refl k
  | cons line lines ih =>
    refine (quiet_cprintf (hlines line List.mem_cons_self) [line.2] k).trans ?_
    exact ih (fun l hl => hlines l (List.mem_cons_of_mem line hl)) _

theorem quiet_printRegs (gpr : PushRegs) (k : Kernel) : Quiet k (printRegs gpr k) := by
  refine quiet_lines _ ?_ k
  simp only [List.forall_mem_cons]
  simp

theorem quiet_printTrapframe (c : TrapCall) (k : Kernel) : Quiet k (printTrapframe c k) := by
  unfold printTrapframe
  refine Quiet.trans ?_ (quiet_cprintf (by decide) _ _)
  refine Quiet.trans ?_ (quiet_cprintf (by decide) _ _)
  refine Quiet.trans ?_ (quiet_cprintf (by decide) _ _)
  refine Quiet.trans ?_ (quiet_cprintf (by decide) _ _)
  refine Quiet.trans ?_ (quiet_printRegs _ _)
  exact quiet_cprintf (by decide) _ _

theorem exceptionHandler_cases (c : TrapCall) (k : Kernel) :
    exceptionHandler c k = k ∨ exceptionHandler c k = printTrapframe c k := by
  unfold exceptionHandler
  split
  iterate 12 exact Or.inl rfl
  exact Or.inr rfl

theorem interruptHandler_cases (c : TrapCall) (k : Kernel) :
    ((c.tf.cause <<< 1) >>> 1).toNat = IRQ_S_TIMER ∨
      (∃ fmt, fmt ≠ "%d ticks\n" ∧ interruptHandler c k = cprintf fmt [] k) ∨
      interruptHandler c k = printTrapframe c k := by
  by_cases htimer : ((c.tf.cause <<< 1) >>> 1).toNat = IRQ_S_TIMER
  · exact Or.inl htimer
  refine Or.inr ?_
  unfold interruptHandler
  dsimp only
  -- the causes below the timer interrupt, and those above it
  split
  iterate 5 exact Or.inl ⟨_, by decide, rfl⟩
  · exact absurd ‹_› htimer
  iterate 6 exact Or.inl ⟨_, by decide, rfl⟩
  exact Or.inr rfl

theorem quiet_exceptionHandler (c : TrapCall) (k : Kernel) : Quiet k (exceptionHandler c k) := by
  rcases exceptionHandler_cases c k with hsame | hprint
  · rw [hsame]
    exact Quiet.refl k
  · rw [hprint]
    exact quiet_printTrapframe c k

theorem quiet_interruptHandler (hcause : ((c.tf.cause <<< 1) >>> 1).toNat ≠ IRQ_S_TIMER)
    (k : Kernel) : Quiet k (interruptHandler c k) := by
  rcases interruptHandler_cases c k with htimer | ⟨fmt, hfmt, hline⟩ | hprint
  · exact absurd htimer hcause
  · rw [hline]
    exact quiet_cprintf hfmt [] k
  · rw [hprint]
    exact quiet_printTrapframe c k

/-- A trap with any cause but that of the timer interrupt. -/
theorem quiet_trap (hcause : c.tf.cause ≠ timerCause) (k : Kernel) : Quiet k (trap c k) := by
  unfold trap trapDispatch
  by_cases hint : c.tf.cause.toInt < 0
  · rw [if_pos hint]
    refine quiet_interruptHandler (fun h => ?_) k
    exact hcause ((timer_dispatch_iff _).mp ⟨hint, h⟩)
  · rw [if_neg hint]
    exact quiet_exceptionHandler c k

/-! ## The timer interrupt -/

theorem trap_timer (hcause : c.tf.cause = timerCause) (k : Kernel) :
    (trap c k).ticks = k.ticks + 1 ∧
      (trap c k).printTicksCalls =
        k.printTicksCalls + (if (k.ticks + 1) % TICK_NUM = 0 then 1 else 0) ∧
      (trap c k).timerArmed = k.timerArmed ++ [c.time + timebase] := by
  obtain ⟨hint, htimer⟩ := (timer_dispatch_iff _).mpr hcause
  have htrap : trap c k =
      if (k.ticks + 1) % TICK_NUM = 0
      then printTicks { clockSetNextEvent c.time k with ticks := k.ticks + 1 }
      else { clockSetNextEvent c.time k with ticks := k.ticks + 1 } := by
    rw [trap, trapDispatch, if_pos hint, interruptHandler]
    simp only [htimer]
    rfl
  rw [htrap]
  by_cases h100 : (k.ticks + 1) % TICK_NUM = 0
  · rw [if_pos h100, if_pos h100]
    refine ⟨rfl, ?_, ?_⟩
    · simp [Kernel.printTicksCalls, printTicks, cprintf, clockSetNextEvent, sbiSetTimer]
    · simp [Kernel.timerArmed, printTicks, cprintf, clockSetNextEvent, sbiSetTimer]
  · rw [if_neg h100, if_neg h100]
    refine ⟨rfl, ?_, ?_⟩
    · simp [Kernel.printTicksCalls, clockSetNextEvent, sbiSetTimer]
    · simp [Kernel.timerArmed, clockSetNextEvent, sbiSetTimer]

/-! ## Traces -/

theorem runTraps_append_singleton (calls : List TrapCall) (c : TrapCall) (k : Kernel) :
    runTraps (calls ++ [c]) k = trap c (runTraps calls k) := by
  rw [runTraps, List.foldl_append]
  rfl

theorem timerCount_append_singleton (calls : List TrapCall) (c : TrapCall) :
    timerCount (calls ++ [c]) = timerCount calls + if c.tf.cause = timerCause then 1 else 0 := by
  simp [timerCount, List.countP_append, List.countP_singleton]

theorem ofNat_mod_TICK_NUM {m : ℕ} (hm : m < 2 ^ 64) :
    BitVec.ofNat 64 m % TICK_NUM = 0 ↔ m % 100 = 0 := by
  rw [← BitVec.toNat_inj, BitVec.toNat_umod, BitVec.toNat_ofNat, Nat.mod_eq_of_lt hm]
  rfl

/-- The two counters after a trace, from a state in which no tick has been counted. -/
theorem runTraps_counts (calls : List TrapCall) {k : Kernel} (hticks : k.ticks = 0) :
    (runTraps calls k).ticks = BitVec.ofNat 64 (timerCount calls) ∧
      (timerCount calls < 2 ^ 64 →
        (runTraps calls k).printTicksCalls = k.printTicksCalls + timerCount calls / 100) := by
  induction calls using List.reverseRecOn with
  | nil => exact ⟨hticks, fun _ => rfl⟩
  | append_singleton calls c ih =>
    obtain ⟨iht, ihp⟩ := ih
    rw [runTraps_append_singleton, timerCount_append_singleton]
    by_cases hcause : c.tf.cause = timerCause
    · obtain ⟨ht, hp, -⟩ := trap_timer hcause (runTraps calls k)
      have hnext : (runTraps calls k).ticks + 1 = BitVec.ofNat 64 (timerCount calls + 1) := by
        rw [iht, BitVec.ofNat_add]
        rfl
      rw [if_pos hcause, ht, hp, hnext]
      refine ⟨rfl, fun hlt => ?_⟩
      rw [ihp (by omega)]
      by_cases h100 : (timerCount calls + 1) % 100 = 0
      · rw [if_pos ((ofNat_mod_TICK_NUM hlt).mpr h100)]
        omega
      · rw [if_neg (mt (ofNat_mod_TICK_NUM hlt).mp h100)]
        omega
    · have hq := quiet_trap hcause (runTraps calls k)
      rw [if_neg hcause, hq.ticks, hq.printTicksCalls]
      exact ⟨iht, ihp⟩

/-- After `clock_init` and any trace of traps: `ticks` is the number of timer interrupts, the line
of `print_ticks` was printed at every hundredth of them, and a trap with any other cause neither
counts a tick nor arms the timer. -/
theorem timer_ticks (time : BitVec 64) (k₀ : Kernel) (calls : List TrapCall) :
    (runTraps calls (clockInit time k₀)).ticks = BitVec.ofNat 64 (timerCount calls) ∧
    (timerCount calls < 2 ^ 64 →
      (runTraps calls (clockInit time k₀)).printTicksCalls =
        (clockInit time k₀).printTicksCalls + timerCount calls / 100) ∧
    ∀ pre c, pre ++ [c] <+: calls → c.tf.cause ≠ timerCause →
      (trap c (runTraps pre (clockInit time k₀))).ticks =
          (runTraps pre (clockInit time k₀)).ticks ∧
        (trap c (runTraps pre (clockInit time k₀))).timerArmed =
          (runTraps pre (clockInit time k₀)).timerArmed := by
  obtain ⟨hticks, hprint⟩ := runTraps_counts calls (k := clockInit time k₀) rfl
  refine ⟨hticks, hprint, fun pre c _ hcause => ?_⟩
  have hq := quiet_trap hcause (runTraps pre (clockInit time k₀))
  exact ⟨hq.ticks, hq.timerArmed⟩

end CertiCore
