import CertiCore.Init.Proofs.EntryProofs
import CertiCore.Mm.Clients
import CertiCore.Mm.Proofs.BalancedProofs
import CertiCore.Mm.Proofs.PageInitProofs
import CertiCore.Mm.Proofs.PmmProofs

/-!
# Proofs: what clients hold never overlaps

Every block that a client holds lies behind the kernel image, no two blocks overlap in the physical
memory, and no page is lost, also if main code and interrupt handlers call the allocator in any
interleaving.
-/

namespace CertiCore

open Pmm

variable {N : PoolSize} {s s' : Pmm N} {L : Ledger (Fin N.NPAGE)} {held : Multiset Block}
  {base n page : SizeT}

/-! ## The calls -/

/-- The pool represents the ledger, and clients hold its owned pages in the blocks `held`. -/
structure HeldBlocks (s : Pmm N) (L : Ledger (Fin N.NPAGE)) (held : Multiset Block) : Prop where
  represents : Represents s L
  counts : Counts s L
  holdings : L.Holdings (Block.pages N) held
  inPool : ∀ block ∈ held, block.1 ≠ NULLPAGE → InPool N block.1 block.2

/-- A failed allocation yields no page. -/
theorem pages_NULLPAGE (N : PoolSize) (n : SizeT) : Block.pages N (NULLPAGE, n) = ∅ := by
  have hN := N.le_nullpage
  refine Finset.eq_empty_of_forall_notMem fun p hp => ?_
  have hlt := p.isLt
  rw [Block.pages, mem_pageRange] at hp
  change NULLPAGE.toNat ≤ _ ∧ _ at hp
  omega

theorem HeldBlocks.alloc (h : HeldBlocks s L held)
    (call : (defaultAllocPages n).run s = (page, s')) :
    ∃ L', L'.managed = L.managed ∧ HeldBlocks s' L' ((page, n) ::ₘ held) := by
  rcases h.represents.allocPages n with ⟨page', -, hin, hfree, hrun⟩ | hrun
  · obtain ⟨rfl, rfl⟩ := Prod.mk.inj (hrun.symm.trans call)
    refine ⟨L.acquire (Block.pages N (page', n)) hfree, rfl, h.represents.allocate hfree,
      h.counts.allocate hin.2 hfree, h.holdings.acquire (k := (page', n)) hfree, ?_⟩
    rw [Multiset.forall_mem_cons]
    exact ⟨fun _ => hin, h.inPool⟩
  · obtain ⟨rfl, rfl⟩ := Prod.mk.inj (hrun.symm.trans call)
    refine ⟨L, rfl, h.represents, h.counts, fun p => ?_, ?_⟩
    · rw [Ledger.shares_cons_of_notMem (by simp [pages_NULLPAGE])]
      exact h.holdings p
    · rw [Multiset.forall_mem_cons]
      exact ⟨fun hne => absurd rfl hne, h.inPool⟩

theorem HeldBlocks.free (h : HeldBlocks s L held) (hheld : (base, n) ∈ held) :
    ∃ L', L'.managed = L.managed ∧
      HeldBlocks ((defaultFreePages base n).run s).2 L' (held.erase (base, n)) := by
  have hrest : ∀ block ∈ held.erase (base, n), block.1 ≠ NULLPAGE → InPool N block.1 block.2 :=
    fun block hmem => h.inPool block (Multiset.mem_of_mem_erase hmem)
  have hrelease := h.holdings.release hheld
  rw [run_defaultFreePages]
  by_cases hin : InPool N base n
  · rw [if_pos hin]
    exact ⟨L.release (Block.pages N (base, n)), rfl, h.represents.free,
      (h.counts.free_iff hin.2).mpr (h.holdings.subset_owned hheld), hrelease, hrest⟩
  · have hnull : base = NULLPAGE := by
      by_contra hne
      exact hin (h.inPool _ hheld hne)
    subst hnull
    rw [if_neg hin]
    refine ⟨L, rfl, h.represents, h.counts, fun p => ?_, hrest⟩
    have hp := hrelease p
    rw [pages_NULLPAGE] at hp
    simpa [Ledger.release] using hp

/-- The pages that are neither free nor managed any more are those that clients hold. -/
theorem HeldBlocks.nrFree_add (h : HeldBlocks s L held) :
    s.nrFree.toNat + (held.map fun block => (block.pages N).card).sum = L.managed.card := by
  have hcard := Finset.card_le_card L.owned_subset
  rw [h.holdings.sum_card, show s.nrFree.toNat = L.free.card from h.counts, L.card_free]
  omega

/-! ## Runs -/

theorem BalancedRun.holds {s₀ : Pmm N} (h₀ : HeldBlocks s₀ L 0) (run : BalancedRun s₀ s held) :
    ∃ L', L'.managed = L.managed ∧ HeldBlocks s L' held := by
  induction run with
  | start => exact ⟨L, rfl, h₀⟩
  | acquire call _ ih =>
    obtain ⟨L', hman, hL'⟩ := ih
    obtain ⟨L'', hman', hL''⟩ := hL'.alloc call
    exact ⟨L'', hman'.trans hman, hL''⟩
  | release hheld _ ih =>
    obtain ⟨L', hman, hL'⟩ := ih
    obtain ⟨L'', hman', hL''⟩ := hL'.free hheld
    exact ⟨L'', hman'.trans hman, hL''⟩

theorem historyOf_append_singleton (s : Pmm N) (calls : List PmmCall) (c : PmmCall) :
    historyOf s (calls ++ [c]) = historyOf s calls ++
      [(c, (c.body.run (Prog.runAll (calls.map PmmCall.body) s).2).1)] := by
  have hlen := Prog.runAll_length (calls.map (PmmCall.body (N := N))) s
  rw [List.length_map] at hlen
  rw [historyOf, List.map_append, List.map_singleton, Prog.runAll_append_singleton,
    List.zip_append hlen.symm]
  rfl

theorem heldAfter_append_singleton (history : List (PmmCall × Option SizeT))
    (c : PmmCall × Option SizeT) :
    heldAfter (history ++ [c]) = PmmCall.held (heldAfter history) c := by
  rw [heldAfter, List.foldl_append]
  rfl

/-- One call of a history. -/
theorem HeldBlocks.call (h : HeldBlocks s L held) (c : PmmCall)
    (hfree : ∀ base n, c = .freePages base n → (base, n) ∈ held) :
    ∃ L', L'.managed = L.managed ∧
      HeldBlocks (c.body.run s).2 L' (PmmCall.held held (c, (c.body.run s).1)) := by
  cases c with
  | allocPages n =>
    simp only [PmmCall.body, Prog.run_bind, Prog.run_pure, PmmCall.held]
    exact h.alloc rfl
  | freePages base n =>
    simp only [PmmCall.body, Prog.run_bind, Prog.run_pure, PmmCall.held]
    exact h.free (hfree base n rfl)
  | nrFreePages => exact ⟨L, rfl, h⟩

theorem HeldBlocks.calls (h : HeldBlocks s L 0) (calls : List PmmCall)
    (hfrees : FreesHeld s calls) :
    ∃ L', L'.managed = L.managed ∧
      HeldBlocks (Prog.runAll (calls.map PmmCall.body) s).2 L' (heldAfter (historyOf s calls)) := by
  induction calls using List.reverseRecOn with
  | nil => exact ⟨L, rfl, h⟩
  | append_singleton calls c ih =>
    obtain ⟨L', hman, hL'⟩ := ih fun pre base n hpre =>
      hfrees pre base n (hpre.trans (List.prefix_append calls [c]))
    obtain ⟨L'', hman', hL''⟩ := hL'.call c fun base n hc => by
      subst hc
      exact hfrees calls base n List.prefix_rfl
    rw [historyOf_append_singleton, heldAfter_append_singleton, List.map_append,
      List.map_singleton, Prog.runAll_append_singleton]
    exact ⟨L'', hman'.trans hman, hL''⟩

/-! ## The physical memory -/

/-- Blocks of pages behind the physical address `lo` are placed behind it. -/
theorem HeldBlocks.placed (h : HeldBlocks s L held) {lo : ℕ}
    (hlo : ∀ p ∈ L.managed, lo ≤ KERNEL_BEGIN_PADDR.toNat + p * PGSIZE.toNat) :
    Placed N.physMem lo (KERNEL_BEGIN_PADDR.toNat + N.NPAGE * PGSIZE.toNat) held := by
  have hbytes : ∀ block ∈ held, block.1 ≠ NULLPAGE → InPool N block.1 block.2 ∧
      (page2pa N.physMem block.1).toNat = (block.1.toNat + 0x80200) * 4096 := by
    intro block hmem hne
    have hin := h.inPool block hmem hne
    exact ⟨hin, toNat_page2pa (by have := hin.1; have := hin.2; omega)⟩
  rw [KERNEL_BEGIN_PADDR_toNat, PGSIZE_toNat] at *
  refine ⟨fun block hmem hne => ?_, ?_⟩
  · obtain ⟨hin, hpa⟩ := hbytes block hmem hne
    obtain ⟨hpos, hfit⟩ := hin
    have hfirst : (⟨block.1.toNat, by omega⟩ : Fin N.NPAGE) ∈ block.pages N := by
      rw [Block.pages, mem_pageRange]
      exact ⟨le_refl _, Nat.lt_add_of_pos_right hpos⟩
    have hle := hlo _ (L.owned_subset (h.holdings.subset_owned hmem hfirst))
    rw [Block.bytes, hpa, PGSIZE_toNat]
    refine ⟨Nat.mul_mod_left _ _, fun a ha => ?_⟩
    rw [Set.mem_Ico] at ha ⊢
    change lo ≤ _ + block.1.toNat * 4096 at hle
    omega
  · rintro block block' rest rfl hne hne'
    obtain ⟨hin, hpa⟩ := hbytes block (Multiset.mem_cons_self _ _) hne
    obtain ⟨hin', hpa'⟩ := hbytes block' (by simp) hne'
    rw [Block.bytes, Block.bytes, hpa, hpa', PGSIZE_toNat, Set.disjoint_left]
    intro a ha ha'
    rw [Set.mem_Ico] at ha ha'
    -- the page of a common byte would be in both blocks
    have hpage : a / 4096 - 0x80200 < N.NPAGE := by
      have := hin.2
      omega
    have hmem : (⟨a / 4096 - 0x80200, hpage⟩ : Fin N.NPAGE) ∈ block.pages N := by
      rw [Block.pages, mem_pageRange]
      constructor
      all_goals dsimp only
      all_goals omega
    have hmem' : (⟨a / 4096 - 0x80200, hpage⟩ : Fin N.NPAGE) ∈ block'.pages N := by
      rw [Block.pages, mem_pageRange]
      constructor
      all_goals dsimp only
      all_goals omega
    exact Finset.disjoint_left.mp h.holdings.disjoint hmem hmem'

/-! ## From boot on -/

variable {end_ sstatus : BitVec 64} {g : PhysMem} {s₀ : Pmm N}

/-- After `page_init` nobody holds a page, and the pages that are managed lie behind the image. -/
theorem holds_bootPages (boot : (bootPages end_).exec s₀ = (.ok g, s)) :
    g = N.physMem ∧ ∃ (freemem : BitVec 64) (L : Ledger (Fin N.NPAGE)), HeldBlocks s L 0 ∧
      PADDR g end_ = .ok freemem ∧
      ∀ p ∈ L.managed, freemem.toNat ≤ KERNEL_BEGIN_PADDR.toNat + p * PGSIZE.toNat := by
  have hnone : ∀ {L : Ledger (Fin N.NPAGE)}, L.owned = ∅ → Represents s L → Counts s L →
      HeldBlocks s L 0 := fun hL hrep hcounts => ⟨hrep, hcounts, .empty hL, by simp⟩
  by_cases hlo : KERNBASE ≤ end_
  swap
  · have hpa : PADDR N.physMem end_ =
        .error (.panic "PADDR called with invalid kva %08lx" [.long end_]) := by
      rw [PADDR, if_pos (BitVec.not_le.mp hlo)]
      rfl
    rw [exec_bootPages_of_error s₀ hpa] at boot
    exact nomatch boot
  obtain ⟨freemem, hpa, hfree⟩ := PADDR_eq N hlo
  rw [BitVec.le_def, KERNBASE_toNat] at hlo
  rcases Nat.lt_or_ge freemem.toNat (0x80200000 + N.NPAGE * 4096) with hlt | hge
  · by_cases hpage : freemem.toNat + 4096 ≤ 0x80200000 + N.NPAGE * 4096
    swap
    · rw [exec_bootPages_last_page s₀ hpa (by omega) hlt] at boot
      exact nomatch boot
    obtain ⟨base, n, hbase, hin, -, hexec⟩ := exec_bootPages_of_le s₀ hpa (by omega) hpage
    rw [hexec] at boot
    obtain ⟨rfl, rfl⟩ : N.physMem = g ∧ _ = s :=
      ⟨Except.ok.inj (Prod.mk.inj boot).1, (Prod.mk.inj boot).2⟩
    have hdisj : Disjoint (pageRange N base n) (Ledger.empty (α := Fin N.NPAGE)).managed :=
      Finset.disjoint_empty_right _
    refine ⟨rfl, freemem, Ledger.empty.handOver (pageRange N base n),
      hnone rfl (representsEmpty s₀).handOver ((countsEmpty s₀).handOver hin.2 hdisj), hpa,
      fun p hp => ?_⟩
    simp only [Ledger.handOver, Ledger.empty, Finset.empty_union, mem_pageRange, hbase] at hp
    rw [KERNEL_BEGIN_PADDR_toNat, PGSIZE_toNat]
    omega
  · have hexec : (bootPages end_).exec s₀ = (.ok N.physMem, pageInitState s₀) := by
      rw [exec_bootPages end_ s₀ hpa, if_neg]
      rw [BitVec.lt_def, toNat_physMem_end]
      omega
    rw [hexec] at boot
    obtain ⟨rfl, rfl⟩ : N.physMem = g ∧ _ = s :=
      ⟨Except.ok.inj (Prod.mk.inj boot).1, (Prod.mk.inj boot).2⟩
    exact ⟨rfl, freemem, Ledger.empty, hnone rfl (representsEmpty s₀) (countsEmpty s₀), hpa,
      fun p hp => absurd hp (Finset.notMem_empty p)⟩

/-- Main code and interrupt handlers call the allocator from boot on, in any interleaving, and free
what they hold. Then the blocks that they hold lie behind the kernel image and do not overlap, every
result that a call has returned is the one by which its block is known, and while no call is in
progress no page is lost: `nr_free` is the number of available pages, and together with the pages in
the blocks the number after boot. -/
theorem concurrent_clients (boot : (bootPages end_).exec s₀ = (.ok g, s))
    {m : Hart (Pmm N) (Option SizeT) PmmCall} (reach : Hart.Reaches PmmCall.body sstatus s m)
    (frees : FreesHeld s m.shared.started) :
    ∃ freemem, PADDR g end_ = .ok freemem ∧
      Placed g freemem.toNat (KERNEL_BEGIN_PADDR.toNat + N.NPAGE * PGSIZE.toNat)
        (heldAfter (historyOf s m.shared.started)) ∧
      (∀ i v, m.shared.returned i = some v →
        ((historyOf s m.shared.started)[i]?).map Prod.snd = some v) ∧
      ((∀ pt ∈ m.points, pt.inBody = false) →
        m.shared.mem.nrFree.toNat = m.shared.mem.availableCount ∧
        m.shared.mem.nrFree.toNat + ((heldAfter (historyOf s m.shared.started)).map fun block =>
          (block.pages N).card).sum = s.nrFree.toNat) := by
  obtain ⟨rfl, freemem, L, h₀, hpa, hlo⟩ := holds_bootPages boot
  obtain ⟨L', hman, h⟩ := h₀.calls m.shared.started frees
  have hserial := reach.serial
  refine ⟨freemem, hpa, h.placed fun p hp => hlo p (hman ▸ hp), fun i v hi => ?_, fun hout => ?_⟩
  · have hseq : (Prog.runAll (m.shared.started.map PmmCall.body) s).1[i]? = some v :=
      hserial.returned i v hi
    have hlen := Prog.runAll_length (m.shared.started.map (PmmCall.body (N := N))) s
    rw [List.length_map] at hlen
    have hi : i < m.shared.started.length := by
      rw [← hlen]
      exact (List.getElem?_eq_some_iff.mp hseq).1
    have hpair : (historyOf s m.shared.started)[i]? = some (m.shared.started[i], v) :=
      List.getElem?_zip_eq_some.mpr ⟨List.getElem?_eq_getElem hi, hseq⟩
    rw [hpair]
    rfl
  · have hmem := hserial.mem_eq hout
    have hfirst := h₀.nrFree_add
    have hnow := h.nrFree_add
    rw [Multiset.map_zero, Multiset.sum_zero, Nat.add_zero] at hfirst
    rw [hmem, hfirst, ← hman]
    exact ⟨(h.counts.trans h.represents.availableCount_eq.symm), hnow⟩

/-- In the build for verification, the main code holds a page, and a handler that has interrupted it
has called `alloc_pages(2)`. -/
theorem concurrent_clients_handler :
    ∃ (s : Pmm .verif) (m : Hart (Pmm .verif) (Option SizeT) PmmCall),
      Hart.Reaches PmmCall.body 2 s m ∧ m.interrupted.length = 1 ∧
        m.shared.started = [.allocPages 1, .allocPages 2] ∧
        Placed PoolSize.verif.physMem 0x80201800 0x80205000
          (heldAfter (historyOf s m.shared.started)) := by
  have hkern : KERNBASE ≤ (0xFFFFFFFFC0201800 : BitVec 64) := by decide
  have hpa := PADDR_of_le .verif hkern
  obtain ⟨base, n, -, -, -, boot⟩ :=
    exec_bootPages_of_le (⟨fun _ => 3, 17⟩ : Pmm .verif) hpa (by decide) (by decide)
  generalize hs : (pageInitState (⟨fun _ => 3, 17⟩ : Pmm .verif)).handOver base n = s at boot
  obtain ⟨g₁, hmain, hstarted, -, hsie⟩ := @Hart.exists_call _ _ _ PmmCall.body
    (.allocPages 1) (Hart.init 2 s).shared .main []
  have hon : sie g₁.sstatus = true := hsie.trans (show sie 2 = true by decide)
  obtain ⟨g₂, hhandler, hstarted', -, -⟩ := @Hart.exists_call _ _ _ PmmCall.body
    (.allocPages 2) { g₁ with sstatus := trapStatus g₁.sstatus }
    (.handler (sie g₁.sstatus) (trapStatus g₁.sstatus)) [.code .main .idle]
  have hreach : Hart.Reaches PmmCall.body 2 s _ :=
    ((hmain.tail (.interrupt hon)).tail .saveAll).trans hhandler
  have hcalls : g₂.started = [.allocPages 1, .allocPages 2] := by
    rw [hstarted']
    exact congrArg (· ++ _) hstarted
  have hfrees : FreesHeld s g₂.started := by
    intro pre b k hpre
    have hmem := hpre.subset (List.mem_append_right pre List.mem_cons_self)
    rw [hcalls] at hmem
    exact absurd hmem (by simp)
  obtain ⟨freemem, hfree, hplaced, -⟩ := concurrent_clients boot hreach hfrees
  rw [hpa] at hfree
  obtain rfl := Except.ok.inj hfree
  exact ⟨s, _, hreach, rfl, hcalls, hplaced⟩

/-- After boot, every byte of every block that a client holds has exactly one virtual address in the
boot page table, at `va_pa_offset` from its physical address. It lies behind the kernel image, and
every access to it is permitted. -/
theorem held_blocks_mapped (hN : N.Fits) (boot : (bootPages end_).exec s₀ = (.ok g, s))
    (run : BalancedRun s s' held) {m : Mem} {root : BitVec 64}
    (table : m.Holds root bootPageTableSv39) {block : Block} (hblock : block ∈ held)
    (hpage : block.1 ≠ NULLPAGE) {a : ℕ} (ha : a ∈ block.bytes g) {mode : Sv39.Mode}
    (hmode : mode.user = false) (access : Sv39.Access) :
    ∃ va : BitVec 64, end_ ≤ va ∧ va < N.KERNTOP ∧ va - g.va_pa_offset = BitVec.ofNat 64 a ∧
      ∀ va', Sv39.translate m mode access va' root = some (BitVec.ofNat 64 a) ↔ va' = va := by
  obtain ⟨rfl, freemem, L, h₀, hpa, hlo⟩ := holds_bootPages boot
  obtain ⟨L', hman, h⟩ := BalancedRun.holds h₀ run
  have hplaced := h.placed fun p hp => hlo p (hman ▸ hp)
  obtain ⟨hle, hlt⟩ := (hplaced.inside block hblock hpage).2 ha
  have hkern : KERNBASE ≤ end_ := by
    by_contra hlow
    rw [PADDR, if_pos (BitVec.not_le.mp hlow)] at hpa
    exact nomatch hpa
  obtain ⟨freemem', hpa', hfree⟩ := PADDR_eq N hkern
  obtain rfl := Except.ok.inj (hpa'.symm.trans hpa)
  have hfits := hN.le
  have htop := toNat_KERNTOP hN
  rw [BitVec.le_def, KERNBASE_toNat] at hkern
  rw [KERNEL_BEGIN_PADDR_toNat, PGSIZE_toNat] at hlt
  have hva : (BitVec.ofNat 64 a + PHYSICAL_MEMORY_OFFSET).toNat = a + 0xFFFFFFFF40000000 := by
    rw [BitVec.toNat_add, BitVec.toNat_ofNat, PHYSICAL_MEMORY_OFFSET_toNat]
    omega
  refine ⟨BitVec.ofNat 64 a + PHYSICAL_MEMORY_OFFSET, ?_, ?_, BitVec.add_sub_cancel _ _, ?_⟩
  · rw [BitVec.le_def, hva]
    omega
  · rw [BitVec.lt_def, hva, htop]
    omega
  · intro va'
    rw [translate_bootPageTableSv39 table hmode]
    constructor
    · intro h
      split_ifs at h
      rw [← Option.some.inj h, BitVec.sub_add_cancel]
    · rintro rfl
      have hmapped : (0xFFFFFFFFC0000000 : BitVec 64) ≤
          BitVec.ofNat 64 a + PHYSICAL_MEMORY_OFFSET := by
        rw [BitVec.le_def, hva]
        show 0xFFFFFFFFC0000000 ≤ _
        omega
      rw [if_pos hmapped, BitVec.add_sub_cancel]

/-- A client of the build for verification holds the first page behind the kernel image. -/
theorem held_blocks_mapped_first :
    ∃ (s' : Pmm .verif) (held : Multiset Block) (m : Mem),
      BalancedRun ((bootPages 0xFFFFFFFFC0201800).exec (⟨fun _ => 3, 17⟩ : Pmm .verif)).2 s' held ∧
      ∃ va : BitVec 64, va - PHYSICAL_MEMORY_OFFSET = 0x80202000 ∧
        ∀ va', Sv39.translate m ⟨false, false, false⟩ .write va' 0x80204000 = some 0x80202000 ↔
          va' = va := by
  have hlen : bootPageTableSv39.length ≤ 2 ^ 61 := by
    rw [length_bootPageTableSv39]
    decide
  have hm := Mem.holds_storeWords (m := fun _ => 0) (a := 0x80204000) hlen
  have hmode : (⟨false, false, false⟩ : Sv39.Mode).user = false := rfl
  have hrun : BalancedRun
      ((bootPages 0xFFFFFFFFC0201800).exec (⟨fun _ => 3, 17⟩ : Pmm .verif)).2 _ _ :=
    .acquire (k := (2, 1)) (Prod.ext (by decide) rfl) .start
  obtain ⟨va, -, -, hva, hiff⟩ := held_blocks_mapped (N := .verif) (by decide) (Prod.ext rfl rfl)
    hrun hm (Multiset.mem_cons_self _ _) (by decide) (a := 0x80202000) (by
      rw [Block.bytes]
      exact ⟨by decide, by decide⟩) hmode .write
  exact ⟨_, _, _, hrun, va, hva, hiff⟩

end CertiCore
