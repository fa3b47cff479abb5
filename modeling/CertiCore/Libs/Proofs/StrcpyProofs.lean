import CertiCore.Libs.String
import CertiCore.Program.Proofs.LoopProofs

/-!
# `strlen`, `memset`, `strcpy`, `memcpy` and `strncpy`

What the loops leave in the memory for all addresses, those of areas that overlap included.
-/

namespace CertiCore

open Loop

variable {mem mem' : Mem} {dst src p s cnt len : BitVec 64} {c : Byte} {k n : ℕ}

/-! ## `memset` -/

theorem fillForward_eq (mem : Mem) (p : BitVec 64) (c : Byte) (hn : n ≤ 2 ^ 64) :
    fillForward mem p c n = mem.fill p c n := by
  induction n generalizing mem p with
  | zero => exact (Mem.fill_zero mem p c).symm
  | succ n ih => rw [fillForward, ih _ _ (by omega), Mem.fill_succ (by omega)]

theorem memset_eq (mem : Mem) (s : BitVec 64) (c : Byte) (n : BitVec 64) :
    memset mem s c n = (mem.fill s c n.toNat, s) := by
  rw [memset, fillForward_eq mem s c (Nat.le_of_lt n.isLt)]

/-! ## `strlen` -/

theorem strlenStep_go (h : mem s ≠ 0) : Step (strlenStep mem) (s, cnt) (s + 1, cnt + 1) :=
  congrArg Except.ok (if_pos h)

theorem strlenStep_exit (h : mem s = 0) : Exit (strlenStep mem) (s, cnt) (.ok cnt) :=
  congrArg Except.ok (if_neg (not_not.mpr h))

theorem steps_strlen (h : ∀ i < n, mem (s + BitVec.ofNat 64 i) ≠ 0) :
    Steps (strlenStep mem) (s, 0) (s + BitVec.ofNat 64 n, BitVec.ofNat 64 n) := by
  induction n with
  | zero =>
    rw [show s + BitVec.ofNat 64 0 = s from BitVec.add_zero s]
    exact .refl _
  | succ n ih =>
    have hstep : Step (strlenStep mem) (s + BitVec.ofNat 64 n, BitVec.ofNat 64 n) _ :=
      strlenStep_go (h n (Nat.lt_succ_self n))
    rw [Mem.add_ofNat_succ] at hstep
    have hcnt : BitVec.ofNat 64 n + 1 = BitVec.ofNat 64 (n + 1) := (BitVec.ofNat_add n 1).symm
    rw [hcnt] at hstep
    exact (ih fun i hi => h i (Nat.lt_succ_of_lt hi)).trans hstep.steps

/-- `strlen` returns the length of the string, and nothing if no string ends. -/
theorem strlenReturns_iff : StrlenReturns mem s cnt ↔ mem.CString s cnt.toNat := by
  have hlen : ∀ n, mem.CString s n → StrlenReturns mem s (BitVec.ofNat 64 n) := fun n h =>
    (strlenStep_exit h.nul).ends.of_steps (steps_strlen h.nonzero)
  constructor
  · intro h
    rcases mem.exists_cstring s with ⟨n, hn⟩ | hall
    · have heq : cnt = BitVec.ofNat 64 n := Except.ok.inj (h.unique (hlen n hn))
      rw [heq, BitVec.toNat_ofNat, Nat.mod_eq_of_lt hn.lt]
      exact hn
    · exact absurd h (not_ends_of_invariant (I := fun _ => True)
        (fun _ _ => ⟨_, strlenStep_go (hall _), trivial⟩) trivial)
  · intro h
    have hret := hlen _ h
    rwa [BitVec.ofNat_toNat, BitVec.setWidth_eq] at hret

/-! ## `strcpy` -/

theorem strcpyStep_go (h : mem src ≠ 0) :
    Step strcpyStep ⟨mem, p, src⟩ ⟨mem.store8 p (mem src), p + 1, src + 1⟩ :=
  congrArg Except.ok (if_pos h)

theorem strcpyStep_exit (h : mem src = 0) :
    Exit strcpyStep ⟨mem, p, src⟩ (.ok (mem.store8 p (mem src))) :=
  congrArg Except.ok (if_neg (not_not.mpr h))

/-- The `d` bytes in front of the place that is written next are characters, so that the loop reads
no NUL. -/
def Chases (d : BitVec 64) (s : CopyState) : Prop :=
  s.p - s.src = d ∧ ∀ k < d.toNat, s.mem (s.src + BitVec.ofNat 64 k) ≠ 0

theorem Chases.step {d : BitVec 64} (hd : 0 < d) (s : CopyState) (h : Chases d s) :
    ∃ s', Step strcpyStep s s' ∧ Chases d s' := by
  obtain ⟨mem, p, src⟩ := s
  obtain ⟨hp, hwindow⟩ := h
  dsimp only at hp hwindow
  have hnow : mem src ≠ 0 := by
    have h0 := hwindow 0 (BitVec.lt_def.mp hd)
    rwa [show src + BitVec.ofNat 64 0 = src from BitVec.add_zero src] at h0
  refine ⟨_, strcpyStep_go hnow, ?_, fun k hk => ?_⟩
  · show p + 1 - (src + 1) = d
    rw [← hp]
    bv_omega
  · show mem.store8 p (mem src) (src + 1 + BitVec.ofNat 64 k) ≠ 0
    by_cases hlast : src + 1 + BitVec.ofNat 64 k = p
    · rw [hlast, Mem.store8_self]
      exact hnow
    · rw [Mem.store8_of_ne hlast]
      have hnext := hwindow (k + 1) (by
        subst hp
        bv_omega)
      rwa [← Mem.add_ofNat_succ, BitVec.add_assoc, BitVec.add_comm (BitVec.ofNat 64 k),
        ← BitVec.add_assoc] at hnext

/-- Without a NUL in the memory the loop finds none. -/
theorem not_strcpyReturns_of_nonzero (h : ∀ x, mem x ≠ 0) : ¬ StrcpyReturns mem dst src mem' := by
  refine not_ends_of_invariant (I := fun s => ∀ x, s.mem x ≠ 0) (fun s hs => ?_) h
  refine ⟨_, strcpyStep_go (hs s.src), fun x => ?_⟩
  show s.mem.store8 s.p (s.mem s.src) x ≠ 0
  by_cases hx : x = s.p
  · rw [hx, Mem.store8_self]
    exact hs s.src
  · rw [Mem.store8_of_ne hx]
    exact hs x

/-- A copy that does not catch up with the string leaves it to be read. -/
theorem read_ahead (h : ¬ (0 < dst - src ∧ (dst - src).toNat ≤ n)) (hk : k ≤ n) (hn : n < 2 ^ 64) :
    ¬ (0 ≤ (src + BitVec.ofNat 64 k - dst).toNat ∧ (src + BitVec.ofNat 64 k - dst).toNat < k) := by
  bv_omega

theorem steps_strcpy (h : mem.CString src n) (hapart : ¬ (0 < dst - src ∧ (dst - src).toNat ≤ n))
    (hk : k ≤ n) : Steps strcpyStep ⟨mem, dst, src⟩
      ⟨mem.move dst src 0 k, dst + BitVec.ofNat 64 k, src + BitVec.ofNat 64 k⟩ := by
  induction k with
  | zero =>
    have hstart : ∀ p : BitVec 64, p + BitVec.ofNat 64 0 = p := BitVec.add_zero
    rw [Mem.move_empty, hstart, hstart]
    exact .refl _
  | succ k ih =>
    have hread := read_ahead hapart (Nat.le_of_lt hk) h.lt
    have hchar : mem.move dst src 0 k (src + BitVec.ofNat 64 k) ≠ 0 := by
      rw [Mem.move_of_not_mem hread]
      exact h.nonzero k hk
    have hstep := strcpyStep_go (p := dst + BitVec.ofNat 64 k) hchar
    have hlt := h.lt
    rw [Mem.move_succ_right (Nat.zero_le k) (by omega) hread, Mem.add_ofNat_succ,
      Mem.add_ofNat_succ] at hstep
    exact (ih (Nat.le_of_lt hk)).trans hstep.steps

/-- `strcpy` returns exactly if `strlen` finds a length and `dst` is neither one of the characters
behind the first nor the NUL, and then it has copied the characters and the NUL and changed no other
byte; the string at `dst` has the same length. -/
theorem strcpy_returns_iff (mem mem' : Mem) (dst src : BitVec 64) :
    (StrcpyReturns mem dst src mem' ↔ ∃ cnt, StrlenReturns mem src cnt ∧
      ¬ (0 < dst - src ∧ dst - src ≤ cnt) ∧ mem' = mem.move dst src 0 (cnt.toNat + 1)) ∧
    ∀ cnt, StrcpyReturns mem dst src mem' → StrlenReturns mem src cnt →
      StrlenReturns mem' dst cnt := by
  have hreturns : ∀ n, mem.CString src n → ¬ (0 < dst - src ∧ (dst - src).toNat ≤ n) →
      StrcpyReturns mem dst src (mem.move dst src 0 (n + 1)) := by
    intro n h hapart
    have hread := read_ahead hapart (Nat.le_refl n) h.lt
    have hexit : Exit strcpyStep ⟨mem.move dst src 0 n, dst + BitVec.ofNat 64 n, _⟩ _ :=
      strcpyStep_exit ((Mem.move_of_not_mem hread).trans h.nul)
    rw [Mem.move_succ_right (Nat.zero_le n) h.lt hread] at hexit
    exact hexit.ends.of_steps (steps_strcpy h hapart (Nat.le_refl n))
  have hiff : StrcpyReturns mem dst src mem' ↔ ∃ cnt, StrlenReturns mem src cnt ∧
      ¬ (0 < dst - src ∧ dst - src ≤ cnt) ∧ mem' = mem.move dst src 0 (cnt.toNat + 1) := by
    constructor
    · intro hret
      rcases mem.exists_cstring src with ⟨n, h⟩ | hall
      · have hcnt : (BitVec.ofNat 64 n).toNat = n := Nat.mod_eq_of_lt h.lt
        have hapart : ¬ (0 < dst - src ∧ (dst - src).toNat ≤ n) := by
          rintro ⟨hpos, hle⟩
          refine not_ends_of_invariant (Chases.step hpos) ⟨rfl, fun k hk => ?_⟩ hret
          exact h.nonzero k (hk.trans_le hle)
        refine ⟨BitVec.ofNat 64 n, strlenReturns_iff.mpr (hcnt.symm ▸ h), ?_, ?_⟩
        · rwa [BitVec.le_def, hcnt]
        · rw [hcnt]
          exact Except.ok.inj (hret.unique (hreturns n h hapart))
      · exact absurd hret (not_strcpyReturns_of_nonzero hall)
    · rintro ⟨cnt, hlen, hapart, rfl⟩
      exact hreturns _ (strlenReturns_iff.mp hlen) hapart
  refine ⟨hiff, fun cnt hret hlen => ?_⟩
  obtain ⟨cnt', hlen', -, rfl⟩ := hiff.mp hret
  obtain rfl : cnt' = cnt := Except.ok.inj (hlen'.unique hlen)
  have h := strlenReturns_iff.mp hlen
  have hmoved : ∀ i ≤ cnt'.toNat, mem.move dst src 0 (cnt'.toNat + 1) (dst + BitVec.ofNat 64 i) =
      mem (src + BitVec.ofNat 64 i) := fun i hi =>
    Mem.move_of_mem (Nat.zero_le i) (Nat.lt_succ_of_le hi) (hi.trans_lt h.lt)
  refine strlenReturns_iff.mpr ⟨h.lt, fun i hi => ?_, ?_⟩
  · rw [hmoved i (Nat.le_of_lt hi)]
    exact h.nonzero i hi
  · rw [hmoved _ (Nat.le_refl _)]
    exact h.nul

/-! ## `memcpy` -/

theorem eq_add_sub (dst src : BitVec 64) :
    dst = src + BitVec.ofNat 64 (dst - src).toNat := by
  rw [BitVec.ofNat_toNat, BitVec.setWidth_eq, BitVec.add_comm, BitVec.sub_add_cancel]

theorem copyForward_tile {d m : ℕ} (hdst : dst = src + BitVec.ofNat 64 d) (hd : d < 2 ^ 64)
    (hm : k + m ≤ 2 ^ 64) :
    copyForward (mem.tile dst src d k) (dst + BitVec.ofNat 64 k) (src + BitVec.ofNat 64 k) m =
      mem.tile dst src d (k + m) := by
  induction m generalizing k with
  | zero => rfl
  | succ m ih =>
    rw [copyForward, Mem.tile_succ hdst hd (by omega), Mem.add_ofNat_succ, Mem.add_ofNat_succ,
      ih (by omega)]
    congr 1
    omega

/-- What `memcpy` leaves in the memory, also where the areas overlap: if `dst` lies in the source,
the bytes between the two addresses are repeated. -/
theorem memcpy_result (mem : Mem) (dst src n : BitVec 64) :
    (memcpy mem dst src n).1 = mem.tile dst src (dst - src).toNat n.toNat := by
  have hstart : ∀ p : BitVec 64, p + BitVec.ofNat 64 0 = p := BitVec.add_zero
  have h : copyForward (mem.tile dst src (dst - src).toNat 0) _ _ n.toNat = _ :=
    copyForward_tile (eq_add_sub dst src) (BitVec.isLt _) (by omega)
  rwa [Mem.tile_zero, Nat.zero_add, hstart, hstart] at h

/-! ## `strncpy` -/

/-- As long as it reads characters, `strncpy` copies. -/
theorem strncpyLoop_tile {d m : ℕ} (hdst : dst = src + BitVec.ofNat 64 d) (hd : d < 2 ^ 64)
    (hm : k + m ≤ 2 ^ 64) (h : ∀ i < k, mem (src + BitVec.ofNat 64 (i % d)) ≠ 0) :
    strncpyLoop mem dst src (k + m) =
      strncpyLoop (mem.tile dst src d k) (dst + BitVec.ofNat 64 k) (src + BitVec.ofNat 64 k) m := by
  induction k generalizing m with
  | zero =>
    have hstart : ∀ p : BitVec 64, p + BitVec.ofNat 64 0 = p := BitVec.add_zero
    rw [Mem.tile_zero, Nat.zero_add, hstart, hstart]
  | succ k ih =>
    have hnext := ih (m := m + 1) (by omega) fun i hi => h i (Nat.lt_succ_of_lt hi)
    have hchar : mem.tile dst src d k (src + BitVec.ofNat 64 k) ≠ 0 := by
      rw [Mem.tile_read hdst hd (by omega)]
      exact h k (Nat.lt_succ_self k)
    rw [Nat.add_right_comm, Nat.add_assoc, hnext, strncpyLoop, if_pos hchar,
      Mem.tile_succ hdst hd (by omega), Mem.add_ofNat_succ, Mem.add_ofNat_succ]

/-- From the NUL on, `strncpy` fills. -/
theorem strncpyLoop_of_nul (h : mem src = 0) (hn : n ≤ 2 ^ 64) :
    strncpyLoop mem p src n = mem.fill p 0 n := by
  induction n generalizing mem p with
  | zero => exact (Mem.fill_zero mem p 0).symm
  | succ n ih =>
    have hstill : mem.store8 p 0 src = 0 := by
      by_cases hp : src = p
      · rw [hp, Mem.store8_self]
      · rw [Mem.store8_of_ne hp, h]
    rw [strncpyLoop, h, if_neg (not_not.mpr rfl), ih hstill (by omega), Mem.fill_succ (by omega)]

/-- The characters among the first `len` bytes. -/
theorem exists_strnlen (mem : Mem) (src : BitVec 64) (len : ℕ) :
    ∃ n ≤ len, (∀ i < n, mem (src + BitVec.ofNat 64 i) ≠ 0) ∧
      (n < len → mem (src + BitVec.ofNat 64 n) = 0) := by
  induction len with
  | zero => exact ⟨0, Nat.le_refl 0, fun i hi => absurd hi (Nat.not_lt_zero i), nofun⟩
  | succ len ih =>
    obtain ⟨n, hle, hchars, hnul⟩ := ih
    rcases Nat.lt_or_eq_of_le hle with hlt | rfl
    · exact ⟨n, by omega, hchars, fun _ => hnul hlt⟩
    · by_cases hzero : mem (src + BitVec.ofNat 64 n) = 0
      · exact ⟨n, by omega, hchars, fun _ => hzero⟩
      · refine ⟨n + 1, Nat.le_refl _, fun i hi => ?_, fun hlt => absurd hlt (Nat.lt_irrefl _)⟩
        rcases Nat.lt_or_eq_of_le (Nat.le_of_lt_succ hi) with hlt | rfl
        · exact hchars i hlt
        · exact hzero

/-- What `strncpy` leaves in the memory: the `n` characters among the first `len` bytes, and NULs up
to `len` bytes; but if `dst` is the address of a character after the first, or of the byte behind
the characters, then `len` bytes in which the characters between the two addresses are repeated. -/
theorem strncpy_result (mem : Mem) (dst src len : BitVec 64) :
    ∃ n ≤ len.toNat, (∀ i < n, mem (src + BitVec.ofNat 64 i) ≠ 0) ∧
      (n < len.toNat → mem (src + BitVec.ofNat 64 n) = 0) ∧
      (strncpy mem dst src len).1 = if 0 < dst - src ∧ (dst - src).toNat ≤ n then
        mem.tile dst src (dst - src).toNat len.toNat
      else (mem.move dst src 0 n).fill (dst + BitVec.ofNat 64 n) 0 (len.toNat - n) := by
  obtain ⟨n, hle, hchars, hnul⟩ := exists_strnlen mem src len.toNat
  refine ⟨n, hle, hchars, hnul, ?_⟩
  have hdst := eq_add_sub dst src
  have hd := (dst - src).isLt
  split
  case isTrue h =>
    obtain ⟨hpos, hd_le⟩ := h
    have hall := strncpyLoop_tile (k := len.toNat) (m := 0) hdst hd (by omega) fun i _ =>
      hchars _ ((Nat.mod_lt i (BitVec.lt_def.mp hpos)).trans_le hd_le)
    exact hall
  case isFalse h =>
    have hmod : ∀ i ≤ n, i % (dst - src).toNat = i := by
      intro i hi
      rcases Nat.eq_zero_or_pos (dst - src).toNat with hzero | hpos
      · rw [hzero, Nat.mod_zero]
      · refine Nat.mod_eq_of_lt ?_
        by_contra hge
        exact h ⟨BitVec.lt_def.mpr hpos, by omega⟩
    have htile : mem.tile dst src (dst - src).toNat n = mem.move dst src 0 n := by
      funext x
      unfold Mem.tile Mem.move
      by_cases hx : (x - dst).toNat < n
      · rw [if_pos hx, if_pos ⟨Nat.zero_le _, hx⟩, hmod _ (Nat.le_of_lt hx), BitVec.ofNat_toNat,
          BitVec.setWidth_eq]
      · rw [if_neg hx, if_neg fun h => hx h.2]
    have hcopy := strncpyLoop_tile (k := n) (m := len.toNat - n) hdst hd (by omega) fun i hi => by
      rw [hmod i (Nat.le_of_lt hi)]
      exact hchars i hi
    rw [Nat.add_sub_cancel' hle, htile] at hcopy
    rw [strncpy, hcopy]
    rcases Nat.lt_or_eq_of_le hle with hlt | heq
    · refine strncpyLoop_of_nul ?_ (by omega)
      rw [← htile, Mem.tile_read hdst hd (by omega), hmod n (Nat.le_refl n)]
      exact hnul hlt
    · rw [heq, Nat.sub_self, Mem.fill_zero]
      rfl

end CertiCore
