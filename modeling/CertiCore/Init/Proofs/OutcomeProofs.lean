import CertiCore.Debug.Proofs.AssertProofs
import CertiCore.Debug.Proofs.PanicProofs
import CertiCore.Init.Proofs.InitProofs

/-!
# Proofs: how the boot ends

If `kern_init` does not reach its idle loop, then by a panic, and not by an access that is
undefined; and a panic leaves nothing but the monitor.
-/

namespace CertiCore

open Loop

/-! ## The boot only panics -/

section PanicsOnly

variable {N : PoolSize} {s : Pmm N}

theorem panicsOnly_PADDR (g : PhysMem) (kva : BitVec 64) :
    (liftM (PADDR g kva) : HaltT (Pmm N) (BitVec 64)).PanicsOnly s := by
  refine panicsOnly_liftExcept fun e he => ?_
  unfold PADDR at he
  split at he
  · exact ⟨_, _, (Except.error.inj he).symm⟩
  · exact nomatch he

theorem panicsOnly_pa2page (g : PhysMem) (pa : BitVec 64) :
    (liftM (pa2page g pa) : HaltT (Pmm N) SizeT).PanicsOnly s := by
  refine panicsOnly_liftExcept fun e he => ?_
  unfold pa2page at he
  split at he
  · exact ⟨_, _, (Except.error.inj he).symm⟩
  · exact nomatch he

theorem panicsOnly_bootPages (end_ : BitVec 64) : (bootPages (N := N) end_).PanicsOnly s := by
  unfold bootPages pageInit
  refine (panicsOnly_lift _).bind fun _ _ _ => ?_
  refine (panicsOnly_lift _).bind fun _ _ _ => ?_
  refine (panicsOnly_PADDR _ _).bind fun freemem _ _ => ?_
  have hrest : ∀ (mem_end : BitVec 64) (t : Pmm N),
      HaltT.PanicsOnly (show HaltT (Pmm N) PhysMem from do
        if freemem < mem_end then
          let init_ret ← defaultInitMemmap (N := N)
            (← pa2page N.physMem (ROUNDUP freemem PGSIZE))
            ((mem_end - ROUNDUP freemem PGSIZE) / PGSIZE)
          assert "init_ret == 0" (init_ret = 0)
        return N.physMem) t := by
    intro mem_end t
    dsimp only
    split
    · refine (panicsOnly_pa2page _ _).bind fun page _ _ => ?_
      refine (panicsOnly_lift _).bind fun init_ret _ _ => ?_
      exact (panicsOnly_assert _ _).bind fun _ _ _ => panicsOnly_pure _
    · exact panicsOnly_pure _
  dsimp only
  split
  · exact hrest _ _
  · exact hrest _ _

theorem panicsOnly_basicCheck (g : PhysMem) : (basicCheck g).PanicsOnly s := by
  unfold basicCheck
  refine (panicsOnly_lift _).bind fun _ _ _ => ?_
  refine (panicsOnly_assert _ _).bind fun _ _ _ => ?_
  refine (panicsOnly_lift _).bind fun _ _ _ => ?_
  refine (panicsOnly_assert _ _).bind fun _ _ _ => ?_
  refine (panicsOnly_lift _).bind fun _ _ _ => ?_
  refine (panicsOnly_assert _ _).bind fun _ _ _ => ?_
  refine (panicsOnly_assert _ _).bind fun _ _ _ => ?_
  refine (panicsOnly_assert _ _).bind fun _ _ _ => ?_
  refine (panicsOnly_assert _ _).bind fun _ _ _ => ?_
  refine (panicsOnly_assert _ _).bind fun _ _ _ => ?_
  refine (panicsOnly_lift _).bind fun _ _ _ => ?_
  refine (panicsOnly_lift _).bind fun _ _ _ => ?_
  exact panicsOnly_lift _

/-- The page that the check looks up is one of the pool. -/
theorem panicsOnly_defaultCheck (g : PhysMem) : (defaultCheck g).PanicsOnly s := by
  unfold defaultCheck
  refine (panicsOnly_lift _).bind fun _ _ _ => ?_
  dsimp only
  refine (panicsOnly_lift _).bind fun _ _ _ => ?_
  refine (panicsOnly_assert _ _).bind fun _ _ _ => ?_
  refine (panicsOnly_basicCheck g).bind fun _ t _ => ?_
  refine (panicsOnly_lift _).bind fun p0 t' hp0 => ?_
  refine (panicsOnly_assert _ _).bind fun _ u hp => ?_
  have hlt : p0.toNat < N.NPAGE := by
    rw [HaltT.exec_lift] at hp0
    obtain ⟨hres, -⟩ := Prod.mk.inj hp0
    obtain rfl := Except.ok.inj hres
    rcases run_allocPages_five t with ⟨-, p, t₁, hrun, -⟩ | ⟨-, hrun⟩
    · rw [hrun, pageNo_toNat]
      exact p.isLt
    · rw [hrun] at hp
      exact absurd rfl (of_exec_assert hp)
  refine HaltT.PanicsOnly.bind ?_ fun _ _ _ => ?_
  · rw [pageAllocatedAt, dif_pos hlt]
    exact panicsOnly_lift _
  refine (panicsOnly_assert _ _).bind fun _ _ _ => ?_
  refine (panicsOnly_lift _).bind fun _ _ _ => ?_
  refine (panicsOnly_lift _).bind fun _ _ _ => ?_
  refine (panicsOnly_assert _ _).bind fun _ _ _ => ?_
  exact panicsOnly_assert _ _

theorem panicsOnly_pmmInit (end_ boot_page_table_sv39 : BitVec 64) :
    (pmmInit (N := N) end_ boot_page_table_sv39).PanicsOnly s := by
  unfold pmmInit
  refine (panicsOnly_bootPages end_).bind fun g _ _ => ?_
  refine (panicsOnly_defaultCheck g).bind fun _ _ _ => ?_
  exact (panicsOnly_PADDR g _).bind fun _ _ _ => panicsOnly_pure _

theorem panicsOnly_kernInit (img : KernelImage) (time : BitVec 64) (s : Machine N) :
    (kernInit img time).PanicsOnly s := by
  unfold kernInit Machine.write
  refine (panicsOnly_lift _).bind fun _ _ _ => ?_
  refine (panicsOnly_lift _).bind fun _ _ _ => ?_
  refine (panicsOnly_pmmInit _ _).zoom.bind fun _ _ _ => ?_
  refine (panicsOnly_lift _).bind fun _ _ _ => ?_
  refine (panicsOnly_lift _).bind fun _ _ _ => ?_
  refine (panicsOnly_lift _).bind fun _ _ _ => ?_
  exact panicsOnly_lift _

end PanicsOnly

/-! ## After the panic -/

section Panic

variable {N : PoolSize} {img : KernelImage} {time : BitVec 64} {s t : Machine N}

/-- The call of `__panic` for a failed assertion, made in the file `file`. -/
def haltCall (file : List Byte) (line : BitVec 64) (fmt : String) (args : List PanicArg) :
    PanicCall :=
  ⟨file, line, cstr fmt, args.map PanicArg.vaArg⟩

/-- The first panic of the kernel that `kern_init` has left in the state `t`. The globals `is_panic`
and `buf` are still zero. -/
def bootPanic (call : PanicCall) (t : Machine N) (polls : List (BitVec 64)) (out : List Output) :
    Session :=
  panic call ⟨false, t.sstatus, 0⟩ [] (List.replicate BUFSIZE 0) polls out

/-- If the kernel stops in `kern_init`, then because the image leaves too little memory, and by a
panic. After that the message of the panic has been printed, followed by the prompt of the monitor,
and whatever is typed the kernel stays in the monitor, with interrupts off, until it waits there for
more, or `parse` leaves its array at a line with more than `MAXARGS` words. -/
theorem boot_panics (hN : N.Fits) {x : Halt} (hoff : sie s.sstatus = false)
    (reach : Boots img time s (.ret (.error x), t)) :
    ¬ Bootable N img.end_ img.boot_page_table_sv39 ∧ ∃ fmt args, x = .panic fmt args ∧
      ∀ (k : KerninfoSymbols) (file : List Byte) (line : BitVec 64) (polls : List (BitVec 64))
        (out : List Output),
        (∀ u, Steps (panicStep k) (bootPanic (haltCall file line fmt args) t polls out) u →
          u.isKernelPanic = true ∧ sie u.sstatus = false ∧
          out ++ (haltCall file line fmt args).message ++ monitorBanner ++ [promptK] <+: u.out) ∧
        (Ends (panicStep k) (bootPanic (haltCall file line fmt args) t polls out) (.error .idle) ∨
          Ends (panicStep k) (bootPanic (haltCall file line fmt args) t polls out)
            (.error (.halt (.outOfBounds MAXARGS)))) := by
  have hexec : (kernInit img time).exec s = (.error x, t) := by
    rcases boots_cases hN img time hoff reach with ⟨-, hsame⟩ | ⟨hq, -⟩
    · exact hsame.symm
    · exact nomatch hq
  obtain ⟨fmt, args, rfl⟩ := panicsOnly_kernInit img time s _ _ hexec
  refine ⟨?_, fmt, args, rfl, fun k file line polls out => ⟨fun u hu => ?_, ?_⟩⟩
  · rcases exec_kernInit hN img time s with ⟨-, s₁, hok, -⟩ | ⟨hnot, -⟩
    · exact nomatch (Prod.mk.inj (hok.symm.trans hexec)).1
    · exact hnot
  · have hdead := hu.invariant (fun _ _ => Dead.step) (dead_panic _ _ _)
    exact ⟨hdead.is_panic, hdead.sie, out_steps hu⟩
  · exact (attends_panic List.length_replicate _ _ _).ends k

/-- An image that leaves four pages only. -/
theorem boot_panics_four_pages :
    ∃ (img : KernelImage) (s t : Machine .kernel) (fmt : String) (args : List PanicArg),
      sie s.sstatus = false ∧ Boots img 7 s (.ret (.error (.panic fmt args)), t) := by
  obtain ⟨hboot, -⟩ | ⟨-, x, t, hexec, -⟩ := exec_kernInit (N := .kernel) (by decide)
    ⟨⟨0xFFFFFFFFC0204000, 0xFFFFFFFFC0206000, 0xFFFFFFFFC0200040⟩,
      0xFFFFFFFFC0208000, 0xFFFFFFFFC11FC000, 0xFFFFFFFFC0200800⟩ 7
    ⟨fun _ => 0, ⟨fun _ => 3, 17⟩, ⟨1, 2, 3⟩, 4, 5, ⟨6, 7, []⟩, ⟨8, 9⟩, 0⟩
  · exact absurd hboot.2.1 (by decide)
  have hreach := boots_exec hexec
  obtain ⟨-, fmt, args, rfl, -⟩ := boot_panics (by decide) (by decide) hreach
  exact ⟨_, _, t, fmt, args, by decide, hreach⟩

end Panic

end CertiCore
