import CertiCore.Hart.Proofs.SstatusProofs
import CertiCore.Init.Init
import CertiCore.Init.Proofs.EntryProofs
import CertiCore.Libs.Proofs.StrcpyProofs
import CertiCore.Mm.Proofs.CheckProofs
import CertiCore.Mm.Proofs.PageInitProofs
import CertiCore.Trap.Proofs.TrapProofs

/-!
# Proofs: the kernel from `kern_init` on

`kern_init` reaches its idle loop exactly if the page allocator passes its check. Interrupts stay
off until its last access, so that they find everything set up; from then on they stay on, and each
of them only does what `trap` does.
-/

namespace CertiCore

open Pmm

variable {N : PoolSize}

/-! ## `pmm_init` -/

/-- What `page_init` is for: the pages behind the physical address `freemem` are available, the
others are reserved, and `nr_free` counts the available ones. -/
structure PoolBooted (freemem : BitVec 64) (s : Pmm N) : Prop where
  available : ∀ i : Fin N.NPAGE, s.available i = true ↔
    freemem.toNat ≤ KERNEL_BEGIN_PADDR.toNat + i * PGSIZE.toNat
  reserved : ∀ i, s.available i = false → s.reserved i = true
  nrFree : s.nrFree.toNat = s.availableCount

/-- Five pages lie between the kernel image and the end of the memory, and the image, with the page
table, lies where the kernel is mapped. -/
def Bootable (N : PoolSize) (end_ boot_page_table_sv39 : BitVec 64) : Prop :=
  KERNBASE ≤ end_ ∧ end_.toNat + 5 * PGSIZE.toNat ≤ N.KERNTOP.toNat ∧
    KERNBASE ≤ boot_page_table_sv39

theorem fivePages_handOver (s₀ : Pmm N) {base n : SizeT}
    (hlast : base.toNat + n.toNat = N.NPAGE) :
    FivePages ((pageInitState s₀).handOver base n) ↔ 5 ≤ n.toNat := by
  have havail : ∀ p (hp : p < N.NPAGE), ((pageInitState s₀).handOver base n).Avail p ↔
      base.toNat ≤ p := by
    intro p hp
    have hiff := avail_iff (s := (pageInitState s₀).handOver base n) (p := ⟨p, hp⟩)
    rw [hiff, (available_handOver_pageInitState s₀ base n _).1, decide_eq_true_iff, mem_pageRange]
    show base.toNat ≤ p ∧ p < base.toNat + n.toNat ↔ base.toNat ≤ p
    omega
  constructor
  · rintro ⟨b, hb⟩
    obtain ⟨hlt, -⟩ := hb 4 (by omega)
    have hfirst := (havail (b + 0) (by omega)).mp (hb 0 (by omega))
    omega
  · intro hn
    refine ⟨base.toNat, fun i hi => ?_⟩
    exact (havail _ (by omega)).mpr (Nat.le_add_right _ i)

theorem not_fivePages_pageInitState (s₀ : Pmm N) : ¬ FivePages (pageInitState s₀) := by
  rintro ⟨b, hb⟩
  obtain ⟨hlt, hav⟩ := hb 0 (by omega)
  have hres := reserved_pageInitState s₀ ⟨b + 0, hlt⟩
  simp only [available, hres] at hav
  exact absurd hav (by simp)

/-- `page_init` and the check, for every address of `end`. -/
theorem exec_checkedPages (hN : N.Fits) (end_ : BitVec 64) (s₀ : Pmm N) :
    ((KERNBASE ≤ end_ ∧ end_.toNat + 5 * PGSIZE.toNat ≤ N.KERNTOP.toNat) ∧
      ∃ s, (bootPages end_).exec s₀ = (.ok N.physMem, s) ∧
        (defaultCheck N.physMem).exec s = (.ok (), s) ∧
        PoolBooted (end_ - PHYSICAL_MEMORY_OFFSET) s) ∨
    (¬ (KERNBASE ≤ end_ ∧ end_.toNat + 5 * PGSIZE.toNat ≤ N.KERNTOP.toNat) ∧
      ((∃ x s, (bootPages end_).exec s₀ = (.error x, s)) ∨
        ∃ s x s', (bootPages end_).exec s₀ = (.ok N.physMem, s) ∧
          (defaultCheck N.physMem).exec s = (.error x, s'))) := by
  by_cases hkern : KERNBASE ≤ end_
  swap
  · have hpa : PADDR N.physMem end_ =
        .error (.panic "PADDR called with invalid kva %08lx" [.long end_]) := by
      rw [PADDR, if_pos (BitVec.not_le.mp hkern)]
      rfl
    exact Or.inr ⟨fun h => hkern h.1, Or.inl ⟨_, _, exec_bootPages_of_error s₀ hpa⟩⟩
  have htop := toNat_KERNTOP hN
  have hle := hkern
  obtain ⟨freemem, hpa, hfree⟩ := PADDR_eq N hkern
  obtain rfl : freemem = end_ - PHYSICAL_MEMORY_OFFSET :=
    Except.ok.inj (hpa.symm.trans (PADDR_of_le N hkern))
  rw [BitVec.le_def, KERNBASE_toNat] at hle
  have hfail : ∀ s, (bootPages end_).exec s₀ = (.ok N.physMem, s) → ¬ FivePages s →
      ∃ s x s', (bootPages end_).exec s₀ = (.ok N.physMem, s) ∧
        (defaultCheck N.physMem).exec s = (.error x, s') := by
    intro s hexec hnot
    rcases exec_defaultCheck s with ⟨-, hfive, -⟩ | ⟨-, x, s', hcheck⟩
    · exact absurd hfive hnot
    · exact ⟨s, x, s', hexec, hcheck⟩
  rw [htop, PGSIZE_toNat]
  rcases Nat.lt_or_ge (end_ - PHYSICAL_MEMORY_OFFSET).toNat (0x80200000 + N.NPAGE * 4096) with
    hlt | hge
  · by_cases hpage : (end_ - PHYSICAL_MEMORY_OFFSET).toNat + 4096 ≤ 0x80200000 + N.NPAGE * 4096
    swap
    · have hexec := exec_bootPages_last_page s₀ hpa (by omega) hlt
      exact Or.inr ⟨by omega, Or.inl ⟨_, _, hexec⟩⟩
    obtain ⟨base, n, hbase, hin, hlast, hexec⟩ := exec_bootPages_of_le s₀ hpa (by omega) hpage
    have hfive := fivePages_handOver s₀ hlast
    have hcount := availableCount_handOver_pageInitState s₀ hin
    by_cases hn : 5 ≤ n.toNat
    swap
    · refine Or.inr ⟨by omega, Or.inr (hfail _ hexec (mt hfive.mp hn))⟩
    refine Or.inl ⟨⟨hkern, by omega⟩, _, hexec, ?_, fun i => ?_, fun i => ?_, hcount⟩
    · rcases exec_defaultCheck ((pageInitState s₀).handOver base n) with ⟨-, -, hcheck⟩ | ⟨hnot, -⟩
      · exact hcheck
      · exact absurd ⟨hcount, hfive.mpr hn⟩ hnot
    · rw [(available_handOver_pageInitState s₀ base n i).1, decide_eq_true_iff, mem_pageRange,
        KERNEL_BEGIN_PADDR_toNat, PGSIZE_toNat]
      omega
    · obtain ⟨hav, hres⟩ := available_handOver_pageInitState s₀ base n i
      rw [hav, hres, decide_eq_false_iff_not, decide_eq_true_iff]
      exact id
  · have hexec : (bootPages end_).exec s₀ = (.ok N.physMem, pageInitState s₀) := by
      rw [exec_bootPages end_ s₀ hpa, if_neg]
      rw [BitVec.lt_def, toNat_physMem_end]
      omega
    exact Or.inr ⟨by omega, Or.inr (hfail _ hexec (not_fivePages_pageInitState s₀))⟩

theorem exec_pmmInit (hN : N.Fits) (end_ boot_page_table_sv39 : BitVec 64) (s₀ : Pmm N) :
    (Bootable N end_ boot_page_table_sv39 ∧
      ∃ s, (pmmInit end_ boot_page_table_sv39).exec s₀ = (.ok (N.physMem, boot_page_table_sv39,
        boot_page_table_sv39 - PHYSICAL_MEMORY_OFFSET), s) ∧
        PoolBooted (end_ - PHYSICAL_MEMORY_OFFSET) s) ∨
    (¬ Bootable N end_ boot_page_table_sv39 ∧
      ∃ x s, (pmmInit end_ boot_page_table_sv39).exec s₀ = (.error x, s)) := by
  unfold pmmInit
  simp only [HaltT.exec_bind]
  rcases exec_checkedPages hN end_ s₀ with
    ⟨⟨hkern, htop⟩, s, hpages, hcheck, hbooted⟩ |
      ⟨hnot, ⟨x, s, hpages⟩ | ⟨s, x, s', hpages, hcheck⟩⟩
  · rw [hpages]
    dsimp only
    rw [hcheck]
    dsimp only
    by_cases htable : KERNBASE ≤ boot_page_table_sv39
    · rw [HaltT.exec_liftExcept, PADDR_of_le N htable]
      exact Or.inl ⟨⟨hkern, htop, htable⟩, s, rfl, hbooted⟩
    · rw [HaltT.exec_liftExcept, PADDR, if_pos (BitVec.not_le.mp htable)]
      exact Or.inr ⟨fun h => htable h.2.2, _, s, rfl⟩
  · rw [hpages]
    exact Or.inr ⟨fun h => hnot ⟨h.1, h.2.1⟩, x, s, rfl⟩
  · rw [hpages]
    dsimp only
    rw [hcheck]
    exact Or.inr ⟨fun h => hnot ⟨h.1, h.2.1⟩, x, s', rfl⟩

/-! ## `kern_init` -/

section KernInit

variable {img : KernelImage} {time : BitVec 64} {s s' : Machine N}

/-- The kernel when it becomes idle, if it entered `kern_init` in the state `s`. -/
structure Booted (img : KernelImage) (time : BitVec 64) (s s' : Machine N) : Prop where
  mem : s'.mem = s.mem.fill img.edata 0 (img.end_ - img.edata).toNat
  pool : PoolBooted (img.end_ - PHYSICAL_MEMORY_OFFSET) s'.pool
  physMem : s'.physMem = N.physMem
  satp_virtual : s'.satp_virtual = img.boot_page_table_sv39
  satp_physical : PADDR s'.physMem s'.satp_virtual = .ok s'.satp_physical
  ticks : s'.kernel.ticks = 0
  timer : MIP_STIP &&& s'.kernel.sie = MIP_STIP
  timerArmed : s'.kernel.timerArmed = s.kernel.timerArmed ++ [time + timebase]
  trapVector : s'.trapVector = ⟨0, img.alltraps⟩
  interrupts : sie s'.sstatus = true

theorem timerArmed_clockInit (time : BitVec 64) (k : Kernel) :
    (clockInit time k).timerArmed = k.timerArmed ++ [time + timebase] := by
  simp [Kernel.timerArmed, clockInit, clockSetNextEvent, sbiSetTimer, cprintf]

theorem exec_kernInit (hN : N.Fits) (img : KernelImage) (time : BitVec 64) (s : Machine N) :
    (Bootable N img.end_ img.boot_page_table_sv39 ∧
      ∃ s', (kernInit img time).exec s = (.ok (), s') ∧ Booted img time s s') ∨
    (¬ Bootable N img.end_ img.boot_page_table_sv39 ∧
      ∃ x s', (kernInit img time).exec s = (.error x, s') ∧ s'.sstatus = s.sstatus) := by
  unfold kernInit Machine.write
  simp only [HaltT.exec_bind, HaltT.exec_lift, Prog.run_write, HaltT.exec_zoom]
  have hpmm := exec_pmmInit hN img.end_ img.boot_page_table_sv39 (⟨fun _ => 0, 0⟩ : Pmm N)
  have hget : Machine.poolPart.get { clearBss img s with trapVector := idtInit img.alltraps } =
      (⟨fun _ => 0, 0⟩ : Pmm N) := rfl
  rw [hget]
  rcases hpmm with ⟨hboot, pool, hexec, hpool⟩ | ⟨hnot, x, pool, hexec⟩
  · rw [hexec]
    refine Or.inl ⟨hboot, _, rfl, ?_⟩
    refine ⟨?_, hpool, rfl, rfl, PADDR_of_le N hboot.2.2, rfl, ?_, timerArmed_clockInit time _, rfl,
      sie_intrEnable s.sstatus⟩
    · exact congrArg Prod.fst (memset_eq s.mem img.edata 0 (img.end_ - img.edata))
    · show MIP_STIP &&& (s.kernel.sie ||| MIP_STIP) = MIP_STIP
      rw [BitVec.and_comm, BitVec.or_comm]
      ext i hi
      simp only [BitVec.getElem_and, BitVec.getElem_or]
      cases MIP_STIP[i] <;> simp
  · rw [hexec]
    exact Or.inr ⟨hnot, x, _, rfl, rfl⟩

/-- The page table lies in front of the globals that are set to zero. -/
theorem Booted.holds (h : Booted img time s s')
    (hbelow : img.boot_page_table_sv39.toNat + PGSIZE.toNat ≤ img.edata.toNat)
    (hdata : img.edata ≤ img.end_)
    (htable : s.mem.Holds img.boot_page_table_sv39 bootPageTableSv39) :
    s'.mem.Holds img.boot_page_table_sv39 bootPageTableSv39 := by
  intro k hk
  rw [← htable k hk, h.mem]
  have hlen : bootPageTableSv39.length ≤ 2 ^ 61 := by
    rw [length_bootPageTableSv39]
    decide
  refine Mem.word_congr hlen hk fun x hx => if_neg ?_
  rw [length_bootPageTableSv39] at hx
  rw [PGSIZE_toNat] at hbelow
  rw [BitVec.le_def] at hdata
  bv_omega

/-- `kern_init` reaches its idle loop if and only if the image leaves five pages free behind it, and
leaves the machine as `Booted` says. As the linker script lays out the image, the page table is then
still in the memory, where the register `satp` and the variable `satp_physical` say. -/
theorem kern_init_iff (hN : N.Fits) (img : KernelImage) (time : BitVec 64) (s : Machine N) :
    ((∃ s', (kernInit img time).exec s = (.ok (), s')) ↔
      Bootable N img.end_ img.boot_page_table_sv39) ∧
    ∀ s', (kernInit img time).exec s = (.ok (), s') → Booted img time s s' ∧
      (img.boot_page_table_sv39 % PGSIZE = 0 →
        img.boot_page_table_sv39.toNat + PGSIZE.toNat ≤ img.edata.toNat → img.edata ≤ img.end_ →
        s.mem.Holds img.boot_page_table_sv39 bootPageTableSv39 →
        s'.mem.Holds s'.satp_virtual bootPageTableSv39 ∧
          Sv39.rootTable (kernEntry img.toSymbols).satp = some s'.satp_physical) := by
  rcases exec_kernInit hN img time s with ⟨hboot, s₁, hexec, hbooted⟩ | ⟨hnot, x, s₁, hexec, -⟩
  · rw [hexec]
    refine ⟨iff_of_true ⟨_, rfl⟩ hboot, fun s' heq => ?_⟩
    obtain rfl : s₁ = s' := (Prod.mk.inj heq).2
    refine ⟨hbooted, fun halign hbelow hdata htable => ⟨?_, ?_⟩⟩
    · rw [hbooted.satp_virtual]
      exact hbooted.holds hbelow hdata htable
    · have halign' : img.boot_page_table_sv39.toNat % 2 ^ 12 = 0 := by
        rw [← BitVec.toNat_inj, BitVec.toNat_umod] at halign
        exact halign
      have hpa := hbooted.satp_physical
      rw [hbooted.physMem, hbooted.satp_virtual, PADDR_of_le N hboot.2.2] at hpa
      rw [kernEntry_satp halign' hboot.2.2, Except.ok.inj hpa]
  · rw [hexec]
    refine ⟨iff_of_false ?_ hnot, fun s' heq => nomatch (Prod.mk.inj heq).1⟩
    rintro ⟨s', heq⟩
    exact nomatch (Prod.mk.inj heq).1

/-- The kernel of 16 MiB, with an image that ends in its tenth page. -/
theorem kern_init_iff_kernel :
    ∃ s', (kernInit ⟨⟨0xFFFFFFFFC0204000, 0xFFFFFFFFC0206000, 0xFFFFFFFFC0200040⟩,
      0xFFFFFFFFC0208000, 0xFFFFFFFFC0209800, 0xFFFFFFFFC0200800⟩ 7).exec
      (⟨fun _ => 0, ⟨fun _ => 3, 17⟩, ⟨1, 2, 3⟩, 4, 5, ⟨6, 7, []⟩, ⟨8, 9⟩, 0⟩ : Machine .kernel) =
        (.ok (), s') :=
  (kern_init_iff (by decide) _ _ _).1.mpr ⟨by decide, by decide, by decide⟩

/-! ## Interrupts -/

theorem before_halt_bind {σ α β : Type} {P : σ → Prop} {p : HaltT σ α} {f : α → HaltT σ β} {s : σ}
    (hp : Prog.Before P (ExceptT.run p) s)
    (hf : ∀ a t, p.exec s = (.ok a, t) → Prog.Before P (ExceptT.run (f a)) t) :
    Prog.Before P (ExceptT.run (p >>= f)) s := by
  refine (Prog.before_bind (ExceptT.run p) (ExceptT.bindCont f) s).mpr ⟨hp, ?_⟩
  have hexec : (ExceptT.run p).run s = p.exec s := rfl
  rw [hexec]
  rcases h : p.exec s with ⟨x | a, t⟩
  · exact trivial
  · exact hf a t h

/-- Interrupts are off in front of every access of `kern_init`. -/
theorem before_kernInit (img : KernelImage) (time : BitVec 64) (h : sie s.sstatus = false) :
    Prog.Before (fun s => sie s.sstatus = false) (ExceptT.run (kernInit img time)) s := by
  have hwrite : ∀ (upd : Machine N → Machine N) (p : HaltT (Machine N) Unit) (s : Machine N),
      sie s.sstatus = false →
      Prog.Before (fun s => sie s.sstatus = false) (ExceptT.run p) (upd s) →
      Prog.Before (fun s => sie s.sstatus = false)
        (ExceptT.run (do Machine.write upd; p)) s := by
    intro upd p s hs hp
    refine before_halt_bind ⟨hs, trivial⟩ fun _ t ht => ?_
    rw [Machine.write, HaltT.exec_lift] at ht
    rw [← (Prod.mk.inj ht).2]
    exact hp
  refine hwrite _ _ _ h (hwrite _ _ _ h (before_halt_bind ?_ fun r t ht => ?_))
  · exact Prog.before_zoom (fun _ _ => Iff.rfl) _ h
  · rw [HaltT.exec_zoom] at ht
    have hstatus : sie t.sstatus = false := by
      rw [← (Prod.mk.inj ht).2]
      exact h
    refine hwrite _ _ _ hstatus (hwrite _ _ _ hstatus (hwrite _ _ _ hstatus ?_))
    exact ⟨hstatus, trivial⟩

theorem timerArmed_runTraps (calls : List TrapCall) (k : Kernel) :
    (runTraps calls k).timerArmed = k.timerArmed ++
      (calls.filter fun c => c.tf.cause = timerCause).map fun c => c.time + timebase := by
  induction calls using List.reverseRecOn with
  | nil => exact (List.append_nil _).symm
  | append_singleton calls c ih =>
    rw [runTraps_append_singleton, List.filter_append, List.map_append, ← List.append_assoc, ← ih]
    by_cases hcause : c.tf.cause = timerCause
    · rw [(trap_timer hcause _).2.2, List.filter_cons_of_pos (by simpa using hcause)]
      rfl
    · rw [(quiet_trap hcause _).timerArmed, List.filter_cons_of_neg (by simpa using hcause)]
      exact (List.append_nil _).symm

theorem trapInKernel_eq (tf : Trapframe) : trapInKernel tf = spp tf.status := by
  have hzero := and_bitMask_eq_zero (by omega : 8 < 64) tf.status
  rw [trapInKernel, spp, SSTATUS_SPP_eq, ← Bool.not_not (tf.status.getLsbD 8), ← hzero]
  simp only [ne_eq, decide_not, Bool.beq_eq_decide_eq]

/-- Interrupts that come while the kernel is idle leave them on, and change nothing else but what
the handlers change. -/
theorem interrupts_idle {t : Machine N} (h : sie s.sstatus = true)
    (run : Relation.ReflTransGen Machine.Interrupt s t) :
    ∃ (calls : List TrapCall) (sstatus : BitVec 64), (∀ c ∈ calls, trapInKernel c.tf = true) ∧
      sie sstatus = true ∧ t = { s with kernel := runTraps calls s.kernel, sstatus } := by
  induction run with
  | refl => exact ⟨[], s.sstatus, fun c hc => absurd hc List.not_mem_nil, h, rfl⟩
  | tail _ hirq ih =>
    obtain ⟨calls, sstatus, hcalls, hsie, rfl⟩ := ih
    cases hirq with
    | deliver c _ _ hstatus =>
      refine ⟨calls ++ [c], sretStatus c.tf.status, fun c' hc' => ?_, ?_, ?_⟩
      · rcases List.mem_append.mp hc' with hmem | hmem
        · exact hcalls c' hmem
        · rw [List.mem_singleton.mp hmem, trapInKernel_eq, hstatus, spp_trapStatus]
      · rw [hstatus, sie_sretStatus, spie_trapStatus]
        exact hsie
      · rw [runTraps_append_singleton]
        rfl

/-- The kernel, which entered `kern_init` in the state `s`, is idle in the state `t`, after the
traps `calls`, all from the kernel: nothing has changed since `kern_init` but what the handlers
change, `ticks` counts the timer interrupts, and each of them has armed the timer again. -/
def Idles (img : KernelImage) (time : BitVec 64) (s t : Machine N) : Prop :=
  ∃ (s₁ : Machine N) (calls : List TrapCall) (sstatus : BitVec 64), Booted img time s s₁ ∧
    (∀ c ∈ calls, trapInKernel c.tf = true) ∧
    t = { s₁ with kernel := runTraps calls s₁.kernel, sstatus } ∧
    t.kernel.ticks = BitVec.ofNat 64 (timerCount calls) ∧
    t.kernel.timerArmed = s.kernel.timerArmed ++ (time + timebase) ::
      (calls.filter fun c => c.tf.cause = timerCause).map fun c => c.time + timebase

/-- Interrupts that are off are not delivered. -/
theorem not_interrupt (hoff : sie s.sstatus = false) : ¬ Machine.Interrupt s s' := by
  rintro ⟨c, hon⟩
  rw [hoff] at hon
  exact nomatch hon

/-- The kernel from `kern_init` on: interrupts are off and none has been delivered, or it is past
its last access. -/
theorem boots_cases (hN : N.Fits) (img : KernelImage) (time : BitVec 64) {s t : Machine N}
    {q : Prog (Machine N) (Except Halt Unit)} (hoff : sie s.sstatus = false)
    (reach : Boots img time s (q, t)) :
    (sie t.sstatus = false ∧ HaltT.exec q t = (kernInit img time).exec s) ∨
      (q = .ret (.ok ()) ∧ ∃ s₁, (kernInit img time).exec s = (.ok (), s₁) ∧ Booted img time s s₁ ∧
        Relation.ReflTransGen Machine.Interrupt s₁ t) := by
  have hreturned : ∀ {q t}, q = .ret ((kernInit img time).exec s).1 →
      Relation.ReflTransGen Machine.Interrupt ((kernInit img time).exec s).2 t →
      (sie t.sstatus = false ∧ HaltT.exec q t = (kernInit img time).exec s) ∨
        (q = .ret (.ok ()) ∧ ∃ s₁, (kernInit img time).exec s = (.ok (), s₁) ∧
          Booted img time s s₁ ∧ Relation.ReflTransGen Machine.Interrupt s₁ t) := by
    intro q t hq hirqs
    rcases exec_kernInit hN img time s with ⟨-, s₁, hexec, hbooted⟩ | ⟨-, x, s₁, hexec, hstatus⟩
    · rw [hexec] at hq hirqs
      exact Or.inr ⟨hq, s₁, hexec, hbooted, hirqs⟩
    · rw [hexec] at hq hirqs
      have hsie : sie s₁.sstatus = false := by
        rw [hstatus]
        exact hoff
      rcases Relation.ReflTransGen.cases_head hirqs with rfl | ⟨_, hirq, -⟩
      · rw [hexec, hq]
        exact Or.inl ⟨hsie, rfl⟩
      · exact absurd hirq (not_interrupt hsie)
  have hbefore := before_kernInit img time hoff
  rcases Prog.reaches_of_before (fun _ _ => not_interrupt) hbefore reach with
    ⟨hbefore, hsame⟩ | ⟨hq, hirqs⟩
  · cases q with
    | ret r =>
      have hstate : (kernInit img time).exec s = (r, t) := hsame.symm
      refine hreturned ?_ ?_
      · rw [hstate]
      · rw [hstate]
    | access upd next => exact Or.inl ⟨hbefore.1, hsame⟩
  · exact hreturned hq hirqs

/-- The kernel from `kern_init` on, with interrupts off at first. As long as they are off, none has
been delivered, and the kernel is in a state of its undisturbed run; if they are on, it is in its
idle loop. -/
theorem kern_init_interrupts (hN : N.Fits) (img : KernelImage) (time : BitVec 64)
    {s t : Machine N} {q : Prog (Machine N) (Except Halt Unit)} (hoff : sie s.sstatus = false)
    (reach : Boots img time s (q, t)) :
    (sie t.sstatus = false ∧ HaltT.exec q t = (kernInit img time).exec s) ∨
      (sie t.sstatus = true ∧ q = .ret (.ok ()) ∧ Idles img time s t) := by
  rcases boots_cases hN img time hoff reach with hinit | ⟨hq, s₁, -, hbooted, hirqs⟩
  · exact Or.inl hinit
  obtain ⟨calls, sstatus, hcalls, hon, rfl⟩ := interrupts_idle hbooted.interrupts hirqs
  refine Or.inr ⟨hon, hq, s₁, calls, sstatus, hbooted, hcalls, rfl, ?_, ?_⟩
  · exact (runTraps_counts calls hbooted.ticks).1
  · show (runTraps calls s₁.kernel).timerArmed = _
    rw [timerArmed_runTraps, hbooted.timerArmed, List.append_assoc]
    rfl

/-- The run without interrupts. -/
theorem boots_exec {r : Except Halt Unit} (h : (kernInit img time).exec s = (r, s')) :
    Boots img time s (.ret r, s') := by
  have hrun := Prog.reaches_run Machine.Interrupt (ExceptT.run (kernInit img time)) s
  have hstate : (ExceptT.run (kernInit img time)).run s = (r, s') := h
  rw [hstate] at hrun
  exact hrun

/-- A timer interrupt in the idle loop of the same kernel. -/
theorem kern_init_interrupts_timer :
    ∃ (img : KernelImage) (s t : Machine .kernel), sie s.sstatus = false ∧
      Boots img 7 s (.ret (.ok ()), t) ∧ t.kernel.ticks = 1 ∧ Idles img 7 s t := by
  have hboot : Bootable .kernel 0xFFFFFFFFC0209800 0xFFFFFFFFC0204000 :=
    ⟨by decide, by decide, by decide⟩
  obtain ⟨-, s₁, hexec, hbooted⟩ | ⟨hnot, -⟩ := exec_kernInit (N := .kernel) (by decide)
    ⟨⟨0xFFFFFFFFC0204000, 0xFFFFFFFFC0206000, 0xFFFFFFFFC0200040⟩,
      0xFFFFFFFFC0208000, 0xFFFFFFFFC0209800, 0xFFFFFFFFC0200800⟩ 7
    ⟨fun _ => 0, ⟨fun _ => 3, 17⟩, ⟨1, 2, 3⟩, 4, 5, ⟨6, 7, []⟩, ⟨8, 9⟩, 0⟩
  swap
  · exact absurd hboot hnot
  let c : TrapCall := ⟨⟨⟨0, 0, 0, 0, 0, 0, 0, 0, 0, 0, 0, 0, 0, 0, 0, 0, 0, 0, 0, 0, 0, 0, 0, 0, 0,
    0, 0, 0, 0, 0, 0, 0⟩, trapStatus s₁.sstatus, 0, 0, timerCause⟩, 0, 0⟩
  have hirq : Machine.Interrupt s₁ (s₁.trap c) :=
    .deliver c hbooted.interrupts (show timerCause.toInt < 0 by decide) rfl
  have hreach := (boots_exec hexec).tail (.interrupt _ hirq)
  have hon : sie (s₁.trap c).sstatus = true := by
    show sie (sretStatus (trapStatus s₁.sstatus)) = true
    rw [sie_sretStatus, spie_trapStatus]
    exact hbooted.interrupts
  refine ⟨_, _, _, by decide, hreach, ?_, ?_⟩
  · show (trap c s₁.kernel).ticks = 1
    rw [(trap_timer rfl s₁.kernel).1, hbooted.ticks]
    rfl
  · rcases kern_init_interrupts (by decide) _ 7 (by decide) hreach with ⟨hoff, -⟩ | ⟨-, -, hidle⟩
    · rw [hon] at hoff
      exact nomatch hoff
    · exact hidle

end KernInit

end CertiCore
