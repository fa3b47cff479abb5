import CertiCore.Mm.Proofs.LedgerProofs

/-!
# Proofs: what survives careless clients

Facts about the pool after any sequence of calls on any arguments, double frees and frees of
reserved pages included: which words the flags can be, where the pages of an allocation come from,
and that the counter never falls below the number of available pages.
-/

namespace CertiCore

open Pmm

variable {N : PoolSize} {s : Pmm N} {L : Ledger (Fin N.NPAGE)} {base n : SizeT}

/-! ## The flag words -/

/-- Every flag word has at most one of the two flags, and no other bit. -/
def FlagsOk (s : Pmm N) : Prop := ∀ p, s.flags p = 0 ∨ s.flags p = 1 ∨ s.flags p = 2

theorem FlagsOk.not_reserved_allocated (h : FlagsOk s) (p : Fin N.NPAGE) :
    ¬ (s.reserved p = true ∧ s.allocated p = true) := by
  unfold reserved allocated
  rintro ⟨hres, hall⟩
  rcases h p with hp | hp | hp
  · rw [hp] at hres
    exact absurd hres (by decide)
  · rw [hp] at hall
    exact absurd hall (by decide)
  · rw [hp] at hres
    exact absurd hres (by decide)

theorem FlagsOk.flags_eq_zero (h : FlagsOk s) {p : Fin N.NPAGE} (hp : s.available p = true) :
    s.flags p = 0 := by
  rw [available, Bool.and_eq_true, Bool.not_eq_true', Bool.not_eq_true', reserved, allocated] at hp
  rcases h p with hw | hw | hw
  · exact hw
  · rw [hw] at hp
    exact absurd hp.1 (by decide)
  · rw [hw] at hp
    exact absurd hp.2 (by decide)

theorem FlagsOk.mapRange {f : BitVec 64 → BitVec 64} (h : FlagsOk s)
    (hf : ∀ p ∈ pageRange N base n, f (s.flags p) = 0 ∨ f (s.flags p) = 1 ∨ f (s.flags p) = 2) :
    FlagsOk (s.mapRange f base n) := by
  intro p
  unfold Pmm.mapRange
  by_cases hp : p ∈ pageRange N base n
  · simp only [if_pos hp]
    exact hf p hp
  · simp only [if_neg hp]
    exact h p

theorem FlagsOk.exec (h : FlagsOk s) (op : Op) : FlagsOk (op.exec s) := by
  rcases op.exec_cases s with ⟨base, n, -, -, -, -, heq⟩ | ⟨page, n, -, -, hfree, heq⟩ |
    ⟨base, n, -, -, heq⟩ | heq
  · rw [heq]
    refine h.mapRange fun p _ => ?_
    rcases h p with hp | hp | hp
    · exact Or.inl (by rw [hp]; decide)
    · exact Or.inl (by rw [hp]; decide)
    · exact Or.inr (Or.inr (by rw [hp]; decide))
  · rw [heq]
    refine h.mapRange fun p hp => Or.inr (Or.inr ?_)
    rw [h.flags_eq_zero (hfree p hp)]
    decide
  · rw [heq]
    refine h.mapRange fun p _ => ?_
    rcases h p with hp | hp | hp
    · exact Or.inl (by rw [hp]; decide)
    · exact Or.inr (Or.inl (by rw [hp]; decide))
    · exact Or.inl (by rw [hp]; decide)
  · rw [heq]
    exact h

/-- The third check of `init_memmap` never fails on such words: a page that passes the second one
is reserved, so it is not allocated. -/
theorem FlagsOk.initMemmapCode_ne_six (h : FlagsOk s) (base n : SizeT) :
    s.initMemmapCode base n ≠ 6 := by
  unfold initMemmapCode
  split_ifs with h1 h2 h3 h4 h5 h6
  · decide
  · decide
  · decide
  · decide
  · decide
  · obtain ⟨p, hp, hall⟩ := h6
    have hres : s.reserved p = true := by
      by_contra hne
      exact h5 ⟨p, hp, by simpa using hne⟩
    exact absurd ⟨hres, hall⟩ (h.not_reserved_allocated p)
  · decide

/-! ## The reserved bits -/

theorem Op.reserved_exec {op : Op} {p : Fin N.NPAGE} (h : s.reserved p = false) :
    (op.exec s).reserved p = false := by
  rcases op.exec_cases s with ⟨base, n, -, -, -, -, heq⟩ | ⟨page, n, -, -, -, heq⟩ |
    ⟨base, n, -, -, heq⟩ | heq
  · rw [heq, reserved_handOver, h, ite_self]
  · rw [heq, reserved_allocate, h]
  · rw [heq, reserved_free, h]
  · rw [heq, h]

theorem exec_cons (op : Op) (ops : List Op) (s : Pmm N) :
    exec (op :: ops) s = exec ops (op.exec s) := rfl

theorem reserved_exec {p : Fin N.NPAGE} (ops : List Op) (h : s.reserved p = false) :
    (exec ops s).reserved p = false := by
  induction ops generalizing s with
  | nil => exact h
  | cons op ops ih =>
    rw [exec_cons]
    exact ih (Op.reserved_exec h)

/-- Some call of `ops` was an `init_memmap` that succeeded and whose range holds the page. -/
def HandedOver (s₀ : Pmm N) (ops : List Op) (p : Fin N.NPAGE) : Prop :=
  ∃ pre base n, pre ++ [.initMemmap base n] <+: ops ∧
    ((defaultInitMemmap base n).run (exec pre s₀)).1 = 0 ∧ p ∈ pageRange N base n

theorem HandedOver.mono {s₀ : Pmm N} {ops ops' : List Op} {p : Fin N.NPAGE}
    (h : HandedOver s₀ ops p) (hops : ops <+: ops') : HandedOver s₀ ops' p := by
  obtain ⟨pre, base, n, hpre, hcode, hp⟩ := h
  exact ⟨pre, base, n, hpre.trans hops, hcode, hp⟩

/-- The reserved bit of a page is cleared by a successful `init_memmap` and by nothing else. -/
theorem handedOver_of_not_reserved {s₀ : Pmm N} (h₀ : ∀ p, s₀.reserved p = true) (ops : List Op)
    (p : Fin N.NPAGE) (h : (exec ops s₀).reserved p = false) : HandedOver s₀ ops p := by
  induction ops using List.reverseRecOn with
  | nil => exact nomatch (h₀ p).symm.trans h
  | append_singleton ops op ih =>
    have hmono : HandedOver s₀ ops p → HandedOver s₀ (ops ++ [op]) p := fun hops =>
      hops.mono (List.prefix_append ops [op])
    rw [exec_append_singleton] at h
    rcases op.exec_cases (exec ops s₀) with ⟨base, n, rfl, hcode, -, -, heq⟩ |
      ⟨page, n, -, -, -, heq⟩ | ⟨base, n, -, -, heq⟩ | heq
    · rw [heq, reserved_handOver] at h
      by_cases hp : p ∈ pageRange N base n
      · exact ⟨ops, base, n, List.prefix_rfl, hcode, hp⟩
      · rw [if_neg hp] at h
        exact hmono (ih h)
    · rw [heq, reserved_allocate] at h
      exact hmono (ih h)
    · rw [heq, reserved_free] at h
      exact hmono (ih h)
    · rw [heq] at h
      exact hmono (ih h)

theorem flagsOk_pageInitState (s₀ : Pmm N) : FlagsOk (pageInitState s₀) := by
  intro p
  rw [(pageInitState_eq s₀).1]
  exact Or.inr (Or.inl (by decide))

theorem flagsOk_exec {s : Pmm N} (h : FlagsOk s) (ops : List Op) : FlagsOk (exec ops s) := by
  induction ops generalizing s with
  | nil => exact h
  | cons op ops ih =>
    rw [exec_cons]
    exact ih (h.exec op)

/-- After any calls on any arguments: the flag words are `0`, `1` or `2`, no reserved bit comes
back, an allocation consists of pages that were handed over, and `init_memmap` does not find a page
that is reserved and allocated. -/
theorem flag_words_any_history (s₀ : Pmm N) (ops : List Op) :
    (∀ p, ((exec ops (pageInitState s₀)).flags p = 0 ∨ (exec ops (pageInitState s₀)).flags p = 1 ∨
        (exec ops (pageInitState s₀)).flags p = 2) ∧
      ¬ ((exec ops (pageInitState s₀)).reserved p = true ∧
        (exec ops (pageInitState s₀)).allocated p = true)) ∧
    (∀ p later, (exec ops (pageInitState s₀)).reserved p = false →
      (exec (ops ++ later) (pageInitState s₀)).reserved p = false) ∧
    (∀ n page s', (defaultAllocPages n).run (exec ops (pageInitState s₀)) = (page, s') →
      page ≠ NULLPAGE → page.toNat + n.toNat ≤ N.NPAGE ∧
        ∀ p ∈ pageRange N page n, HandedOver (pageInitState s₀) ops p) ∧
    ∀ base n, ((defaultInitMemmap base n).run (exec ops (pageInitState s₀))).1 ≠ 6 := by
  have hflags := flagsOk_exec (flagsOk_pageInitState s₀) ops
  refine ⟨fun p => ⟨hflags p, hflags.not_reserved_allocated p⟩, fun p later h => ?_,
    fun n page s' call hne => ?_, fun base n => ?_⟩
  · have happend : exec (ops ++ later) (pageInitState s₀) =
        exec later (exec ops (pageInitState s₀)) := List.foldl_append
    rw [happend]
    exact reserved_exec later h
  · have hcases := run_defaultAllocPages n (exec ops (pageInitState s₀))
    rw [starts_avail] at hcases
    rcases hcases with ⟨b, -, hleast, hrun⟩ | ⟨-, hrun⟩
    · obtain ⟨rfl, rfl⟩ := Prod.mk.inj (hrun.symm.trans call)
      obtain ⟨hfit, hfree⟩ := hleast.1
      refine ⟨hfit, fun p hp => ?_⟩
      rw [mem_pageRange] at hp
      have hav := hfree p hp.1 hp.2
      rw [available, Bool.and_eq_true, Bool.not_eq_true'] at hav
      exact handedOver_of_not_reserved (reserved_pageInitState s₀) ops p hav.1
    · obtain ⟨rfl, rfl⟩ := Prod.mk.inj (hrun.symm.trans call)
      exact absurd rfl hne
  · rw [run_defaultInitMemmap]
    exact hflags.initMemmapCode_ne_six base n

/-! ## The counter -/

/-- The counter covers the free pages of the ledger, and `k` calls have not raised it beyond `k`
times the pool. A free of pages without owner breaks the equality, but not these bounds. -/
structure Covers (s : Pmm N) (L : Ledger (Fin N.NPAGE)) (k : ℕ) : Prop where
  free_le : L.free.card ≤ s.nrFree.toNat
  nrFree_le : s.nrFree.toNat ≤ k * N.NPAGE

theorem coversEmpty (s₀ : Pmm N) : Covers (pageInitState s₀) Ledger.empty 0 := by
  constructor
  · rw [show Ledger.empty.free.card = 0 from rfl]
    exact Nat.zero_le _
  · rw [(pageInitState_eq s₀).2]
    exact Nat.zero_le _

section Covers

variable {k : ℕ}

/-- While the bound on the number of calls lasts, adding a size of the pool does not wrap. -/
theorem Covers.nrFree_add_lt (h : Covers s L k) (hk : (k + 1) * N.NPAGE < 2 ^ 64)
    (hin : InPool N base n) : s.nrFree.toNat + n.toNat < 2 ^ 64 := by
  have hle := h.nrFree_le
  have hn := hin.2
  rw [Nat.succ_mul] at hk
  omega

theorem Covers.handOver (h : Covers s L k) (hk : (k + 1) * N.NPAGE < 2 ^ 64)
    (hin : InPool N base n) (hdisj : Disjoint (pageRange N base n) L.managed) :
    Covers (s.handOver base n) (L.handOver (pageRange N base n)) (k + 1) := by
  have hlt := h.nrFree_add_lt hk hin
  have hadd : (s.nrFree + n).toNat = s.nrFree.toNat + n.toNat := BitVec.toNat_add_of_lt hlt
  have hfree := h.free_le
  have hle := h.nrFree_le
  have hn := hin.2
  constructor
  · rw [Ledger.card_free_handOver hdisj, card_pageRange hin.2, nrFree_handOver, hadd]
    omega
  · rw [nrFree_handOver, hadd, Nat.succ_mul]
    omega

/-- An allocation takes no more pages than are free, so no more than the counter says. -/
theorem Covers.le_nrFree (h : Covers s L k) (hin : InPool N base n)
    (hfree : pageRange N base n ⊆ L.free) : n.toNat ≤ s.nrFree.toNat := by
  have hcard := Finset.card_le_card hfree
  rw [card_pageRange hin.2] at hcard
  exact hcard.trans h.free_le

theorem Covers.allocate (h : Covers s L k) (hin : InPool N base n)
    (hfree : pageRange N base n ⊆ L.free) :
    Covers (s.allocate base n) (L.acquire (pageRange N base n) hfree) (k + 1) := by
  have hsub : (s.nrFree - n).toNat = s.nrFree.toNat - n.toNat :=
    BitVec.toNat_sub_of_le (BitVec.le_def.mpr (h.le_nrFree hin hfree))
  have hle := h.nrFree_le
  constructor
  · rw [Ledger.card_free_acquire hfree, card_pageRange hin.2, nrFree_allocate, hsub]
    exact Nat.sub_le_sub_right h.free_le _
  · rw [nrFree_allocate, hsub, Nat.succ_mul]
    omega

theorem Covers.free (h : Covers s L k) (hk : (k + 1) * N.NPAGE < 2 ^ 64) (hin : InPool N base n) :
    Covers (s.free base n) (L.release (pageRange N base n)) (k + 1) := by
  have hlt := h.nrFree_add_lt hk hin
  have hadd : (s.nrFree + n).toNat = s.nrFree.toNat + n.toNat := BitVec.toNat_add_of_lt hlt
  have hfree := h.free_le
  have hle := h.nrFree_le
  have hn := hin.2
  constructor
  · -- only the pages that had an owner become free, but the counter grows by the whole range
    have hcard : (L.owned ∩ pageRange N base n).card ≤ n.toNat := by
      rw [← card_pageRange hin.2]
      exact Finset.card_le_card Finset.inter_subset_right
    rw [Ledger.card_free_release, nrFree_free, hadd]
    omega
  · rw [nrFree_free, hadd, Nat.succ_mul]
    omega

theorem Covers.succ (h : Covers s L k) : Covers s L (k + 1) := by
  refine ⟨h.free_le, h.nrFree_le.trans ?_⟩
  rw [Nat.succ_mul]
  exact Nat.le_add_right _ _

theorem Covers.exec (hc : Covers s L k) (hL : Represents s L) (hk : (k + 1) * N.NPAGE < 2 ^ 64)
    (op : Op) : ∃ L', Represents (op.exec s) L' ∧ Covers (op.exec s) L' (k + 1) := by
  rcases op.exec_cases s with ⟨base, n, -, -, hin, hall, heq⟩ | ⟨page, n, -, hin, havail, heq⟩ |
    ⟨base, n, -, hin, heq⟩ | heq
  · have hdisj := hL.disjoint_managed fun p hp => (hall p hp).1
    rw [heq]
    exact ⟨_, hL.handOver, hc.handOver hk hin hdisj⟩
  · have hfree : pageRange N page n ⊆ L.free := fun p hp => (hL.available p).mp (havail p hp)
    rw [heq]
    exact ⟨_, hL.allocate hfree, hc.allocate hin hfree⟩
  · rw [heq]
    exact ⟨_, hL.free, hc.free hk hin⟩
  · rw [heq]
    exact ⟨L, hL, hc.succ⟩

end Covers

theorem exists_covers (s₀ : Pmm N) (ops : List Op) (h : ops.length * N.NPAGE < 2 ^ 64) :
    ∃ L, Represents (exec ops (pageInitState s₀)) L ∧
      Covers (exec ops (pageInitState s₀)) L ops.length := by
  induction ops using List.reverseRecOn with
  | nil => exact ⟨Ledger.empty, representsEmpty s₀, coversEmpty s₀⟩
  | append_singleton ops op ih =>
    rw [List.length_append, List.length_singleton] at h
    have hlt : ops.length * N.NPAGE < 2 ^ 64 := by
      rw [Nat.succ_mul] at h
      omega
    obtain ⟨L, hL, hc⟩ := ih hlt
    rw [exec_append_singleton, List.length_append]
    exact hc.exec hL h op

/-- A run of `k` calls with `k * NPAGE < 2^64`, in whatever way clients free: in every state at most
`nr_free` pages are available, no allocation takes more than `nr_free`, and no call that adds to
`nr_free` overflows it. -/
theorem nr_free_never_wraps (s₀ : Pmm N) (ops : List Op) (h : ops.length * N.NPAGE < 2 ^ 64) :
    (∀ pre, pre <+: ops → (exec pre (pageInitState s₀)).availableCount ≤
      (exec pre (pageInitState s₀)).nrFree.toNat) ∧
    (∀ pre n page s', pre ++ [.allocPages n] <+: ops →
      (defaultAllocPages n).run (exec pre (pageInitState s₀)) = (page, s') → page ≠ NULLPAGE →
      n.toNat ≤ (exec pre (pageInitState s₀)).nrFree.toNat) ∧
    (∀ pre base n, pre ++ [.initMemmap base n] <+: ops →
      ((defaultInitMemmap base n).run (exec pre (pageInitState s₀))).1 = 0 →
      (exec pre (pageInitState s₀)).nrFree.toNat + n.toNat < 2 ^ 64) ∧
    ∀ pre base n, pre ++ [.freePages base n] <+: ops →
      ((defaultFreePages base n).run (exec pre (pageInitState s₀))).2 ≠
        exec pre (pageInitState s₀) →
      (exec pre (pageInitState s₀)).nrFree.toNat + n.toNat < 2 ^ 64 := by
  have hcovers : ∀ pre, pre <+: ops → ∃ L, Represents (exec pre (pageInitState s₀)) L ∧
      Covers (exec pre (pageInitState s₀)) L pre.length := fun pre hpre =>
    exists_covers s₀ pre ((Nat.mul_le_mul_right _ hpre.length_le).trans_lt h)
  -- before a call there is room for one more
  have hroom : ∀ {pre : List Op} {op : Op}, pre ++ [op] <+: ops →
      (pre.length + 1) * N.NPAGE < 2 ^ 64 := by
    intro pre op hpre
    have hle := hpre.length_le
    rw [List.length_append, List.length_singleton] at hle
    exact (Nat.mul_le_mul_right _ hle).trans_lt h
  refine ⟨fun pre hpre => ?_, fun pre n page s' hpre call hne => ?_,
    fun pre base n hpre hcode => ?_, fun pre base n hpre hne => ?_⟩
  · obtain ⟨L, hL, hc⟩ := hcovers pre hpre
    rw [hL.availableCount_eq]
    exact hc.free_le
  · obtain ⟨L, hL, hc⟩ := hcovers pre ((List.prefix_append pre [_]).trans hpre)
    rcases hL.allocPages n with ⟨page', -, hin, hfree, hrun⟩ | hrun
    · exact hc.le_nrFree hin hfree
    · obtain ⟨rfl, rfl⟩ := Prod.mk.inj (hrun.symm.trans call)
      exact absurd rfl hne
  · obtain ⟨L, hL, hc⟩ := hcovers pre ((List.prefix_append pre [_]).trans hpre)
    rw [run_defaultInitMemmap] at hcode
    exact hc.nrFree_add_lt (hroom hpre) ((initMemmapCode_eq_zero_iff base n _).mp hcode).1
  · obtain ⟨L, hL, hc⟩ := hcovers pre ((List.prefix_append pre [_]).trans hpre)
    rw [run_defaultFreePages] at hne
    by_cases hin : InPool N base n
    · exact hc.nrFree_add_lt (hroom hpre) hin
    · rw [if_neg hin] at hne
      exact absurd rfl hne

/-- Pages of the verification build are freed twice, and then all of them are allocated. -/
theorem nr_free_never_wraps_double_free :
    (exec [.initMemmap 0 5, .allocPages 2, .freePages 0 2, .freePages 0 2, .allocPages 5]
        (pageInitState (⟨fun _ => 9, 4⟩ : Pmm .verif))).availableCount ≤
      (exec [.initMemmap 0 5, .allocPages 2, .freePages 0 2, .freePages 0 2, .allocPages 5]
        (pageInitState (⟨fun _ => 9, 4⟩ : Pmm .verif))).nrFree.toNat := by
  have hops := nr_free_never_wraps (⟨fun _ => 9, 4⟩ : Pmm .verif)
    [.initMemmap 0 5, .allocPages 2, .freePages 0 2, .freePages 0 2, .allocPages 5] (by decide)
  exact hops.1 _ List.prefix_rfl

end CertiCore
