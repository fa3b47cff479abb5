import CertiCore.Libs.Proofs.FormatProofs

/-!
# Proofs: the lookups of the formatter

A lookup is in range if it does not show what is behind the table. The remainders that `printnum`
looks up are digits at every level of its recursion. The index of `%e` is one of its table, unless
it is the least `int`.
-/

namespace CertiCore

open Loop

section

variable {σ : Type} {D : Device σ} {O : Outside} {s : FmtState σ} {e : Esc} {c : Byte}

/-! ## The tables -/

/-- The indices of the digits are those with which nothing else is read. -/
theorem digit_withOutside_iff (i : ℕ) :
    (∀ O, (D.withOutside O).digit i = D.digit i) ↔ i ≤ 15 := by
  constructor
  · intro h
    by_contra hlarge
    have hout : ∀ O, (D.withOutside O).digit i = O.digit i := fun O => if_neg (by omega)
    have heq := (h ⟨fun _ => .ok 0, Outside.checked.error⟩).trans
      (h ⟨fun _ => .error .noArg, Outside.checked.error⟩).symm
    rw [hout, hout] at heq
    exact nomatch heq
  · intro hle O
    have hlt : i < 16 := by omega
    rw [Device.digit_eq hlt, Device.digit_eq hlt]

theorem errorString_of_le {err : BitVec 32} (h : err.toNat ≤ 6) :
    (D.withOutside O).errorString err = D.errorString err := by
  have hlt : err.toNat < errorTable.length := Nat.lt_succ_of_le h
  rw [Device.errorString, Device.errorString, List.getElem?_eq_getElem hlt]

/-- The indices of the error codes are those with which nothing else is read. -/
theorem errorString_withOutside_iff (err : BitVec 32) :
    (∀ O, (D.withOutside O).errorString err = D.errorString err) ↔
      0 ≤ err.toInt ∧ err.toInt ≤ MAXERROR.toInt := by
  have hmax : MAXERROR.toInt = 6 := rfl
  have hrange : 0 ≤ err.toInt ∧ err.toInt ≤ MAXERROR.toInt ↔ err.toNat ≤ 6 := by
    have hlt := err.isLt
    rw [hmax, BitVec.toInt_eq_toNat_cond]
    split
    · omega
    · omega
  rw [hrange]
  refine ⟨fun h => ?_, fun h O => errorString_of_le h⟩
  by_contra hlarge
  have hnone : errorTable[err.toNat]? = none := List.getElem?_eq_none (Nat.lt_of_not_le hlarge)
  have hout : ∀ O, (D.withOutside O).errorString err = O.error err := by
    intro O
    rw [Device.errorString, hnone]
    rfl
  have heq := (h ⟨Outside.checked.digit, fun _ => .ok none⟩).trans
    (h ⟨Outside.checked.digit, fun _ => .error .noArg⟩).symm
  rw [hout, hout] at heq
  cases heq

/-! ## What does not show -/

@[simp] theorem Device.withOutside_putch : (D.withOutside O).putch = D.putch := rfl

/-- Every digit that `printnum` looks up is one of its base. -/
theorem printnum_withOutside (num : BitVec 64) (base : Base) (width : BitVec 32) (padc : Byte)
    (dat : σ) : printnum (D.withOutside O) num base width padc dat =
      printnum D num base width padc dat := by
  induction hn : num.toNat using Radix.digit_induction base.one_lt generalizing num width with
  | one n h =>
    subst hn
    rw [printnum_of_lt h, printnum_of_lt h]
    rfl
  | more n h ih =>
    subst hn
    rw [printnum_of_le h, printnum_of_le h]
    refine bind_congr fun width => ?_
    rw [ih _ width (toNat_doDiv_fst num base)]
    rfl

theorem deref_withOutside (dat : σ) (p : CharPtr) :
    p.deref (D.withOutside O) dat = p.deref D dat := by
  cases p with
  | addr a => rfl
  | const l => rfl

theorem strnlen_withOutside (dat : σ) (len : ℕ) (p : CharPtr) :
    strnlen (D.withOutside O) dat len p = strnlen D dat len p := by
  induction len generalizing p with
  | zero => rfl
  | succ len ih =>
    rw [strnlen, strnlen, deref_withOutside]
    refine bind_congr fun c => ?_
    rw [ih]

theorem fmtSwitch_withOutside (hmin : ∀ v ap, c = ch 'e' → s.frame.ap = .word v :: ap →
    v.setWidth 32 ≠ BitVec.intMin 32) :
    fmtSwitch (D.withOutside O) s e c = fmtSwitch D s e c := by
  unfold fmtSwitch
  cases hc : label c
  all_goals dsimp only
  case error =>
    have hc := (label_eq_error_iff c).mp hc
    cases hap : s.frame.ap with
    | nil => rfl
    | cons arg ap =>
      cases arg with
      | const l => rfl
      | word v =>
        obtain ⟨hpos, -⟩ := abs_of_ne_intMin (hmin v ap hc hap)
        have hint : vaInt (.word v :: ap) = .ok (v.setWidth 32, ap) := rfl
        simp only [hint, bind, Except.bind]
        generalize (if (v.setWidth 32).slt 0 then -v.setWidth 32 else v.setWidth 32) = err at hpos ⊢
        by_cases hlarge : MAXERROR.slt err = true
        · rw [if_pos hlarge, if_pos hlarge]
        · have hle := Nat.le_of_not_lt (mt (MAXERROR_slt hpos).mpr hlarge)
          rw [if_neg hlarge, if_neg hlarge, errorString_of_le hle]
  case string => simp only [strnlen_withOutside, Device.withOutside_putch]
  all_goals simp only [printnum_withOutside, Device.withOutside_putch]

/-- The least `int` as an argument of `%e` is all that shows what is behind a table. -/
theorem step_withOutside_iff : (∀ O, vprintfmtStep (D.withOutside O) s = vprintfmtStep D s) ↔
    ¬ s.TakesIntMin := by
  constructor
  · intro h hmin
    have hexit : ∀ x, vprintfmtStep D s = .error x := fun x =>
      (h ⟨Outside.checked.digit, fun _ => .error x⟩).symm.trans (hmin.exit rfl)
    exact nomatch (hexit .noArg).symm.trans (hexit (.unmapped 0))
  · intro hnot O
    unfold vprintfmtStep
    cases hctl : s.frame.ctl with
    | scan => simp only [hctl, Device.withOutside_putch]
    | digits e c => simp only [hctl]
    | string e p => simp only [hctl, deref_withOutside, Device.withOutside_putch]
    | escape e =>
      simp only [hctl]
      cases hread : loadByte s.frame.fmt s.frame.pos with
      | error x => rfl
      | ok c =>
        simp only [bind, Except.bind]
        rw [fmtSwitch_withOutside]
        rintro v ap rfl hap hmin
        exact hnot ⟨e, v, ap, hctl, hread, hap, hmin⟩

theorem looksUpInRange_iff (D : Device σ) (s : FmtState σ) :
    LooksUpInRange D s ↔ ∀ s', Steps (vprintfmtStep D) s s' → ¬ s'.TakesIntMin :=
  forall₂_congr fun s' _ => step_withOutside_iff

/-- For a whole format this can be read off its items and the arguments. -/
theorem looksUpInRange_items_iff {M : BitVec 64 → Option Byte} {fmt : List Byte}
    {args : List (BitVec 64)} (hnul : ∀ c ∈ fmt, c ≠ 0)
    (hserved : ForItems (Item.Served M) (items fmt) args) :
    LooksUpInRange (collector M) (vprintfmtInit (fmt ++ [0]) (vaWords args) []) ↔
      ForItems Item.InTable (items fmt) args := by
  have hwf : ItemsWellFormed (items fmt) := itemsFrom_wellFormed hnul none nofun
  have htext := textOf_items fmt
  rw [looksUpInRange_iff]
  constructor
  · intro h
    by_contra hbad
    obtain ⟨s, hsteps, hmin⟩ := comesTo_items hwf hserved hbad [] [0] [] []
    rw [htext] at hsteps
    exact h s hsteps hmin
  · intro htable s hsteps hmin
    obtain ⟨ap', T, hT⟩ := exists_printsLast_items hwf hserved htable
    have hemits := hT.emits
    rw [htext] at hemits
    exact nomatch hemits.unique ⟨s, hsteps, hmin.exit rfl⟩

/-! ## The property -/

/-- The indices in range are those with which the tables do not show what is behind them. Those of
`printnum` all are. The lookups of a run are in range exactly if no `%e` of the run takes the least
`int`; which is so for a format whose arguments serve it exactly if none of its items does. -/
theorem lookups_in_range_iff (D : Device σ) (fmt : List Byte) (ap : List VaArg) (dat : σ)
    (M : BitVec 64 → Option Byte) (args : List (BitVec 64)) :
    (∀ i, (∀ O, (D.withOutside O).digit i = D.digit i) ↔ i ≤ 15) ∧
    (∀ err, (∀ O, (D.withOutside O).errorString err = D.errorString err) ↔
      0 ≤ err.toInt ∧ err.toInt ≤ MAXERROR.toInt) ∧
    (∀ O num base width padc dat,
      printnum (D.withOutside O) num base width padc dat = printnum D num base width padc dat) ∧
    (LooksUpInRange D (vprintfmtInit fmt ap dat) ↔
      ∀ s, Steps (vprintfmtStep D) (vprintfmtInit fmt ap dat) s → ¬ s.TakesIntMin) ∧
    ((∀ c ∈ fmt, c ≠ 0) → ForItems (Item.Served M) (items fmt) args →
      (LooksUpInRange (collector M) (vprintfmtInit (fmt ++ [0]) (vaWords args) []) ↔
        ForItems Item.InTable (items fmt) args)) :=
  ⟨digit_withOutside_iff, errorString_withOutside_iff, fun _ => printnum_withOutside,
    looksUpInRange_iff D (vprintfmtInit fmt ap dat),
    fun hnul hserved => looksUpInRange_items_iff hnul hserved⟩

end

/-- The largest error code, and a number with sixteen digits. -/
theorem lookups_in_range_iff_max : LooksUpInRange (collector fun _ => none)
    (vprintfmtInit (bytes "%e%lx" ++ [0]) (vaWords [0x7fffffff, -1]) []) := by
  have hitems : items (bytes "%e%lx") = [.escape [] (ch 'e'), .escape [ch 'l'] (ch 'x')] := rfl
  have hnul : ∀ c ∈ bytes "%e%lx", c ≠ 0 := ne_zero_of_mem_bytes (by decide)
  have hiff := (lookups_in_range_iff (collector fun _ => none) (bytes "%e%lx") [] [] (fun _ => none)
    [0x7fffffff, -1]).2.2.2.2 hnul
  refine (hiff ?_).mpr ?_
  · rw [hitems]
    refine ⟨served_of_not_string (by decide) ?_, served_of_not_string (by decide) ?_, trivial⟩
    · intro mods h
      exact absurd (Item.escape.inj h).2 (by decide)
    · intro mods h
      exact absurd (Item.escape.inj h).2 (by decide)
  · rw [hitems]
    refine ⟨?_, ?_, trivial⟩
    · intro mods v h harg
      obtain ⟨rfl, -⟩ := Item.escape.inj h
      obtain rfl : 0x7fffffff = v := Option.some.inj harg
      decide
    · intro mods v h
      exact absurd (Item.escape.inj h).2 (by decide)

/-- `%e` with the least `int` looks up an index far before its table. -/
theorem lookups_in_range_intMin : ¬ ∀ (σ : Type) (D : Device σ) (fmt : List Byte) (ap : List VaArg)
    (dat : σ), LooksUpInRange D (vprintfmtInit fmt ap dat) := by
  intro h
  have hrange := h _ (collector fun _ => none) (bytes "%e" ++ [0]) (vaWords [0x80000000]) []
  have hstep : Step (vprintfmtStep (collector fun _ => none))
      (vprintfmtInit (bytes "%e" ++ [0]) (vaWords [0x80000000]) [])
      (fmtAt [ch '%'] [ch 'e', 0] (vaWords [0x80000000]) (.escape .init) [] []) :=
    scan_percent (a := []) (b := [ch 'e', 0])
  exact (looksUpInRange_iff _ _).mp hrange _ hstep.steps (takesIntMin_fmtAt rfl)

end CertiCore
