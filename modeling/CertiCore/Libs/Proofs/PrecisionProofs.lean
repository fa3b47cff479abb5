import CertiCore.Libs.Proofs.JustifyProofs

/-!
# Proofs: the precision of a string

The digits behind a point go through the same cases as the flags, so that a precision of `0` and
the zeros in front of another one are taken for the flag `0`, and such a flag takes the place of
`-`.
-/

namespace CertiCore

open Loop

/-! ## Precisions -/

/-- A precision as it stands in a format. -/
inductive Precision where
  | none
  /-- The precision zero, written as `k + 1` digits `0`. -/
  | zero (k : ℕ)
  /-- Another precision, with `k` digits `0` in front. -/
  | digits (k q : ℕ) (ne_zero : q ≠ 0)
  | star (v : BitVec 64) (nonneg : 0 ≤ (v.setWidth 32).toInt)

/-- The variables after a point. -/
def Esc.point (e : Esc) : Esc := if e.width.slt 0 then { e with width := 0 } else e

namespace Precision

/-- The digits that are taken for flags. -/
def zeros : Precision → List Byte
  | zero k => List.replicate (k + 1) (ch '0')
  | digits k _ _ => List.replicate k (ch '0')
  | _ => []

def text : Precision → List Byte
  | none => []
  | zero k => ch '.' :: List.replicate (k + 1) (ch '0')
  | digits k q _ => ch '.' :: (List.replicate k (ch '0') ++ numeral 10 q)
  | star _ _ => bytes ".*"

/-- The argument that it takes. -/
def args : Precision → List (BitVec 64)
  | star v _ => [v]
  | _ => []

def value : Precision → Option ℕ
  | none => .none
  | zero _ => some 0
  | digits _ q _ => some q
  | star v _ => some (v.setWidth 32).toInt.toNat

/-- The variables after it. -/
def modify (e : Esc) (p : Precision) : Esc :=
  match p with
  | none => e
  | zero _ => e.point.flags p.zeros
  | digits _ q _ => { e.point.flags p.zeros with precision := BitVec.ofNat 32 q }
  | star v _ => { e.point with precision := v.setWidth 32 }

theorem eq_zero_of_mem_zeros {p : Precision} {c : Byte} (h : c ∈ p.zeros) : c = ch '0' := by
  cases p with
  | none | star => exact absurd h List.not_mem_nil
  | zero | digits => exact (List.mem_replicate.mp h).2

end Precision

section

variable {M : BitVec 64 → Option Byte} {flags text : List Byte} {w : ℕ}
  {args : List (BitVec 64)} {v : BitVec 64} {e : Esc} {s : List Byte}

theorem Esc.point_width (e : Esc) : ¬ e.point.width.slt 0 = true := by
  unfold Esc.point
  split
  case isTrue =>
    show ¬ (0 : BitVec 32).slt 0 = true
    decide
  case isFalse h => exact h

theorem Esc.point_padc (e : Esc) : e.point.padc = e.padc := by
  unfold Esc.point
  split
  · rfl
  · rfl

theorem Esc.point_precision (e : Esc) : e.point.precision = e.precision := by
  unfold Esc.point
  split
  · rfl
  · rfl

theorem Esc.point_altflag (e : Esc) : e.point.altflag = e.altflag := by
  unfold Esc.point
  split
  · rfl
  · rfl

theorem escape_precision (p : Precision) (e : Esc) {c : Byte} (hc : isDigit c = false)
    (a b : List Byte) (ap : List VaArg) (callers : List FmtFrame) (t : List (BitVec 32)) :
    Steps (vprintfmtStep (collector M))
      (fmtAt a (p.text ++ c :: b) (vaWords p.args ++ ap) (.escape e) callers t)
      (fmtAt (a ++ p.text) (c :: b) ap (.escape (p.modify e)) callers t) := by
  have hpoint : ∀ b, Step (vprintfmtStep (collector M))
      (fmtAt a (ch '.' :: b) (vaWords p.args ++ ap) (.escape e) callers t)
      (fmtAt (a ++ [ch '.']) b (vaWords p.args ++ ap) (.escape e.point) callers t) :=
    fun b => escape_flag rfl
  have hzeros : ∀ b, Steps (vprintfmtStep (collector M))
      (fmtAt (a ++ [ch '.']) (p.zeros ++ b) ap (.escape e.point) callers t)
      (fmtAt (a ++ [ch '.'] ++ p.zeros) b ap (.escape (e.point.flags p.zeros)) callers t) := by
    intro b
    refine escape_flags ?_ e.point (a ++ [ch '.']) b ap callers t
    intro c hc
    rw [Precision.eq_zero_of_mem_zeros hc]
    rfl
  have hprocess : ∀ (e' : Esc) (q : BitVec 32), e'.width = e.point.width →
      { e' with precision := q }.processPrecision = { e' with precision := q } := by
    intro e' q hwidth
    refine if_neg ?_
    show ¬ e'.width.slt 0 = true
    rw [hwidth]
    exact e.point_width
  cases p with
  | none =>
    rw [Precision.text, List.append_nil]
    exact Steps.refl _
  | zero k =>
    have hflags := hzeros (c :: b)
    rw [List.append_assoc] at hflags
    exact (hpoint _).steps.trans hflags
  | digits k q hq =>
    generalize hzs : (Precision.digits k q hq).zeros = zs at hzeros
    have hdigits := escape_numeral (M := M) (u := wrapped) hq (e.point.flags zs) hc
      (a ++ [ch '.'] ++ zs) b ap callers t
    have hsteps := (hzeros _).trans hdigits
    rw [hprocess (e.point.flags zs) _ rfl, ← List.append_assoc zs, List.append_assoc (a ++ _),
      List.append_assoc a, ← hzs] at hsteps
    exact (hpoint _).steps.trans hsteps
  | star v hv =>
    have hstar : Step (vprintfmtStep (collector M))
        (fmtAt (a ++ [ch '.']) (ch '*' :: c :: b) (.word v :: ap) (.escape e.point) callers t)
        (fmtAt (a ++ [ch '.'] ++ [ch '*']) (c :: b) ap
          (.escape { e.point with precision := v.setWidth 32 }.processPrecision) callers t) :=
      escape_star v rfl
    rw [hprocess e.point _ rfl, List.append_assoc] at hstar
    exact (hpoint _).steps.trans hstar.steps

/-- The variables at the conversion of a string field. -/
theorem exists_modifies_precision (hflags : ∀ c ∈ flags, isAnyFlag c = true)
    (hw : Width w text args) (p : Precision) (ap : List VaArg) :
    ∃ width, IsWidth w width ∧ Modifies M (flags ++ text ++ p.text) (vaWords (args ++ p.args) ++ ap)
      (p.modify ({ Esc.init with width }.flags flags)) ap := by
  have hhead : ∀ c b, isDigit c = false →
      ∃ d r, p.text ++ c :: b = d :: r ∧ isDigit d = false := by
    intro c b hc
    cases p with
    | none => exact ⟨c, b, rfl, hc⟩
    | zero | digits | star => exact ⟨ch '.', _, rfl, rfl⟩
  have hargs : vaWords (args ++ p.args) ++ ap = vaWords args ++ (vaWords p.args ++ ap) := by
    rw [vaWords, List.map_append]
    exact List.append_assoc _ _ _
  rw [hargs]
  exact exists_modifies_tail hflags hw hhead fun e a c b callers t hc =>
    escape_precision p e hc a b ap callers t

/-! ## The text of a string field -/

/-- The characters of a string that a precision lets through. -/
def Precision.cut (p : Precision) (s : List Byte) : List Byte :=
  match p.value with
  | .none => s
  | some q => s.take q

/-- The padding of a string field. -/
def fieldPad (flags : List Byte) : Byte :=
  if ch '0' ∈ flags ∧ ch '-' ∉ flags then ch '0' else ch ' '

/-- A string field: what the precision lets through, with the padding behind it if there is a `-`
among the flags, and else in front of it. -/
def stringField (flags : List Byte) (w : ℕ) (p : Precision) (s : List Byte) : List Byte :=
  let shown := (p.cut s).map (Esc.init.flags flags).out
  if ch '-' ∈ flags then shown ++ List.replicate (w - shown.length) (fieldPad flags)
  else List.replicate (w - shown.length) (fieldPad flags) ++ shown

theorem Precision.length_cut_le (p : Precision) (s : List Byte) :
    (p.cut s).length ≤ s.length := by
  unfold Precision.cut
  split
  · exact Nat.le_refl _
  · rw [List.length_take]
    exact Nat.min_le_right _ _

theorem length_stringField (flags : List Byte) (w : ℕ) (p : Precision) (s : List Byte) :
    (stringField flags w p s).length = max w (p.cut s).length := by
  unfold stringField
  dsimp only
  split
  · rw [List.length_append, List.length_replicate, List.length_map]
    omega
  · rw [List.length_append, List.length_replicate, List.length_map]
    omega

/-- The `int` that digits leave in `precision` cuts the string like the number does. -/
def Precision.Fits (s : List Byte) : Precision → Prop
  | digits _ q _ => min (q % 2 ^ 32) s.length = min q s.length
  | _ => True

/-- The string whose first characters are printed; the precision zero lets all of them through. -/
def Precision.printed (p : Precision) (s : List Byte) : List Byte :=
  match p with
  | zero _ => s
  | p => p.cut s

theorem cut_ofNat {q : ℕ} (hs : s.length < 2 ^ 30)
    (hfits : min (q % 2 ^ 32) s.length = min q s.length) (h : e.precision = BitVec.ofNat 32 q) :
    e.cut s = s.take q := by
  have hnat : e.precision.toNat = q % 2 ^ 32 := by
    rw [h, BitVec.toNat_ofNat]
  have htake : s.take (q % 2 ^ 32) = s.take q := by
    rw [List.take_eq_take_min, hfits, ← List.take_eq_take_min]
  unfold Esc.cut
  split
  case isTrue hneg =>
    have hlarge := (slt_zero_iff _).mp hneg
    rw [← htake, List.take_of_length_le (by omega)]
  case isFalse => rw [hnat, htake]

theorem cut_modify (p : Precision) {width : BitVec 32} (hs : s.length < 2 ^ 30)
    (hfits : p.Fits s) (flags : List Byte) :
    (p.modify ({ Esc.init with width }.flags flags)).cut s = p.printed s := by
  cases p with
  | none => rfl
  | zero k =>
    have hneg : ((Precision.zero k).modify ({ Esc.init with width }.flags flags)).precision = -1 :=
      Esc.point_precision _
    unfold Esc.cut
    rw [hneg]
    rfl
  | digits k q hq => exact cut_ofNat hs hfits rfl
  | star v hv =>
    have hlt := BitVec.toInt_pos_iff.mp hv
    have hnat : (v.setWidth 32).toInt.toNat = (v.setWidth 32).toNat := by
      rw [BitVec.toInt_eq_toNat_of_lt hlt, Int.toNat_natCast]
    show Esc.cut _ s = s.take (v.setWidth 32).toInt.toNat
    refine cut_ofNat hs ?_ ?_
    · rw [hnat, Nat.mod_eq_of_lt (v.setWidth 32).isLt]
    · rw [hnat, BitVec.ofNat_toNat, BitVec.setWidth_eq]
      rfl

/-- The variables after flags, a width and a precision. -/
def precisionEsc (flags : List Byte) (width : BitVec 32) (p : Precision) : Esc :=
  p.modify ({ Esc.init with width }.flags flags)

theorem precisionEsc_padc (flags : List Byte) (width : BitVec 32) (p : Precision) :
    (precisionEsc flags width p).padc = padAfter (ch ' ') (flags ++ p.zeros) := by
  have hpoint : (Esc.point ({ Esc.init with width }.flags flags)).padc = padAfter (ch ' ') flags :=
    Esc.point_padc _
  rw [padAfter_append, ← hpoint]
  cases p with
  | none => exact hpoint.symm
  | zero | digits | star => rfl

theorem precisionEsc_out (flags : List Byte) (width : BitVec 32) (p : Precision) :
    (precisionEsc flags width p).out = (Esc.init.flags flags).out := by
  have hpoint : (Esc.point ({ Esc.init with width }.flags flags)).altflag =
      (Esc.init.flags flags).altflag := Esc.point_altflag _
  have hzeros : p.zeros.contains (ch '#') = false := by
    rw [List.contains_eq_mem, decide_eq_false_iff_not]
    intro h
    exact absurd (Precision.eq_zero_of_mem_zeros h) (by decide)
  have halt : (precisionEsc flags width p).altflag = (Esc.init.flags flags).altflag := by
    cases p with
    | none => rfl
    | zero | digits =>
      show ((Esc.point _).altflag || List.contains _ _) = _
      rw [hzeros, hpoint, Bool.or_false]
    | star => exact hpoint
  funext c
  unfold Esc.out
  rw [halt]

/-- Behind a point the width is not negative. -/
theorem precisionEsc_width (flags : List Byte) (width : BitVec 32) {p : Precision}
    (hp : p ≠ .none) :
    (precisionEsc flags width p).width = if width.slt 0 then 0 else width := by
  have hpoint : (Esc.point ({ Esc.init with width }.flags flags)).width =
      if width.slt 0 then 0 else width := by
    unfold Esc.point
    split
    case isTrue h => exact (if_pos h).symm
    case isFalse h => exact (if_neg h).symm
  cases p with
  | none => exact absurd rfl hp
  | zero | digits | star => exact hpoint

theorem isWidth_precisionEsc {width : BitVec 32} (hwidth : IsWidth w width) (hw : w < 2 ^ 31)
    (flags : List Byte) (p : Precision) : IsWidth w (precisionEsc flags width p).width := by
  by_cases hp : p = .none
  · subst hp
    exact hwidth
  · rw [precisionEsc_width flags width hp]
    rcases hwidth with rfl | ⟨rfl, rfl⟩
    · rw [if_neg]
      · exact Or.inl rfl
      · rw [slt_zero_iff, BitVec.toNat_ofNat]
        omega
    · exact Or.inl rfl

theorem prints_precision (hflags : ∀ c ∈ flags, isAnyFlag c = true) (hw : Width w text args)
    (p : Precision) (hs : ReadsString M (VaArg.word v).charPtr s) (ap : List VaArg) :
    ∃ width, IsWidth w width ∧ Prints M (ch '%' :: (flags ++ text ++ p.text ++ [ch 's']))
      (vaWords (args ++ p.args) ++ .word v :: ap) ap
      (chars ((precisionEsc flags width p).stringText s)) := by
  obtain ⟨width, hwidth, hmodifies⟩ :=
    exists_modifies_precision (M := M) hflags hw p (.word v :: ap)
  exact ⟨width, hwidth, hmodifies.prints rfl (converts_string rfl hs)⟩

/-! ## The property -/

/-- The pad character that puts the padding where the flags have it. -/
def wantedPadc (flags : List Byte) : Byte := if ch '-' ∈ flags then ch '-' else fieldPad flags

/-- What makes a string field come out right. -/
def StringFieldOk (flags : List Byte) (w : ℕ) (s : List Byte) (p : Precision) : Prop :=
  let shown := (p.printed s).map (Esc.init.flags flags).out
  match p with
  -- only by chance: there are as many characters as are due, and all of them are padding
  | .zero _ => s.length ≤ w ∧ w < 2 ^ 31 ∧ (∀ c ∈ shown, c = fieldPad flags) ∧
      (w = s.length ∨ fieldPad flags = ch '0')
  | p => w ≤ shown.length ∨
      w < 2 ^ 31 ∧ padAfter (ch ' ') (flags ++ p.zeros) = wantedPadc flags ∨
      -- a width that is negative as an `int`, and counted down until it is positive
      p = .none ∧ 2 ^ 31 ≤ w ∧ w < 2 ^ 31 + s.length ∧
        (ch '-' ∈ flags ∨ ch '0' ∉ flags ∧ ∀ c ∈ shown, c = ch ' ')

/-- Only a list of `x` can be moved past some `x`. -/
theorem eq_of_append_replicate {k : ℕ} {x : Byte} (hk : 0 < k) {l : List Byte}
    (h : l ++ List.replicate k x = List.replicate k x ++ l) : ∀ c ∈ l, c = x := by
  obtain ⟨k, rfl⟩ := Nat.exists_eq_succ_of_ne_zero hk.ne'
  induction l with
  | nil => exact nofun
  | cons c l ih =>
    have hmove : List.replicate (k + 1) x ++ x :: l = x :: (List.replicate (k + 1) x ++ l) := by
      rw [List.append_cons, ← List.replicate_succ', List.replicate_succ]
      rfl
    obtain rfl : c = x := (List.cons.inj h).1
    rw [hmove] at h
    have hrest := ih (List.cons.inj h).2
    intro d hd
    rcases List.mem_cons.mp hd with rfl | hd
    · rfl
    · exact hrest d hd

theorem append_replicate_comm {k : ℕ} {x : Byte} {l : List Byte} (h : ∀ c ∈ l, c = x) :
    l ++ List.replicate k x = List.replicate k x ++ l := by
  rw [List.eq_replicate_of_mem h, List.replicate_append_replicate, List.replicate_append_replicate,
    Nat.add_comm]

theorem fieldPad_of_mem (h : ch '-' ∈ flags) : fieldPad flags = ch ' ' := if_neg fun h' => h'.2 h

theorem fieldPad_of_not_mem (h : ch '-' ∉ flags) :
    fieldPad flags = padAfter (ch ' ') flags := by
  rw [padAfter_of_not_mem h, fieldPad]
  exact if_congr (and_iff_left h) rfl rfl

theorem shown_precisionEsc (p : Precision) {width : BitVec 32} (hs : s.length < 2 ^ 30)
    (hfits : p.Fits s) (flags : List Byte) :
    (precisionEsc flags width p).shown s = (p.printed s).map (Esc.init.flags flags).out := by
  rw [Esc.shown, precisionEsc_out, precisionEsc, cut_modify p hs hfits]

theorem padAfter_zeros (padc : Byte) (k : ℕ) :
    padAfter padc (List.replicate (k + 1) (ch '0')) = ch '0' := by
  rw [List.replicate_succ', padAfter_append]
  rfl

/-- A precision zero that is written in digits. -/
theorem stringText_zero_iff (k : ℕ) {width : BitVec 32} (hs : s.length < 2 ^ 30)
    (hwidth : IsWidth w width) (hw : w < 2 ^ 31) (flags : List Byte) :
    (precisionEsc flags width (.zero k)).stringText s = stringField flags w (.zero k) s ↔
      StringFieldOk flags w s (.zero k) := by
  have hfield : stringField flags w (.zero k) s = List.replicate w (fieldPad flags) := by
    unfold stringField
    split
    · rfl
    · exact List.append_nil _
  have htext := stringText_of_width hs (isWidth_precisionEsc hwidth hw flags (.zero k)) hw
  have hlen : ((precisionEsc flags width (.zero k)).cut s).length = s.length :=
    congrArg _ (cut_modify (.zero k) hs trivial flags)
  have hpadc : (precisionEsc flags width (.zero k)).padc = ch '0' := by
    rw [precisionEsc_padc, padAfter_append]
    exact padAfter_zeros _ k
  rw [hpadc, if_neg (by decide), shown_precisionEsc (.zero k) hs trivial, hlen] at htext
  rw [htext, hfield, List.eq_replicate_iff, List.length_append, List.length_replicate,
    List.length_map]
  show _ + s.length = w ∧ _ ↔ s.length ≤ w ∧ w < 2 ^ 31 ∧ _ ∧ _
  constructor
  · rintro ⟨hlength, hall⟩
    refine ⟨by omega, hw, fun c hc => hall c (List.mem_append_right _ hc), ?_⟩
    by_cases heq : w = s.length
    · exact Or.inl heq
    · right
      have hmem : ch '0' ∈ List.replicate (w - s.length) (ch '0') :=
        List.mem_replicate.mpr ⟨by omega, rfl⟩
      exact (hall _ (List.mem_append_left _ hmem)).symm
  · rintro ⟨hle, -, hall, hpad⟩
    refine ⟨by omega, ?_⟩
    intro c hc
    rcases List.mem_append.mp hc with hc | hc
    · obtain ⟨hne, rfl⟩ := List.mem_replicate.mp hc
      exact (hpad.resolve_left (by omega)).symm
    · exact hall c hc

theorem length_cut_lt (p : Precision) (hs : s.length < 2 ^ 30) : (p.cut s).length < 2 ^ 30 :=
  (p.length_cut_le s).trans_lt hs

theorem printed_of_ne_zero {p : Precision} (hp : ∀ k, p ≠ .zero k) : p.printed s = p.cut s := by
  cases p with
  | zero k => exact absurd rfl (hp k)
  | none | digits | star => rfl

theorem padAfter_flags_zeros (flags : List Byte) (p : Precision) (hminus : ch '-' ∉ flags) :
    padAfter (ch ' ') (flags ++ p.zeros) ≠ ch '-' := by
  have hnot : ch '-' ∉ flags ++ p.zeros := by
    intro h
    rcases List.mem_append.mp h with h | h
    · exact hminus h
    · exact absurd (Precision.eq_zero_of_mem_zeros h) (by decide)
  rw [padAfter_of_not_mem hnot]
  split
  · decide
  · decide

/-- A width that fits in an `int`. -/
theorem stringText_small_iff {width : BitVec 32} {p : Precision} (hp : ∀ k, p ≠ .zero k)
    (hs : s.length < 2 ^ 30) (hfits : p.Fits s) (hwidth : IsWidth w width) (hw : w < 2 ^ 31)
    (flags : List Byte) :
    (precisionEsc flags width p).stringText s = stringField flags w p s ↔
      w ≤ (p.cut s).length ∨ padAfter (ch ' ') (flags ++ p.zeros) = wantedPadc flags := by
  have htext := stringText_of_width hs (isWidth_precisionEsc hwidth hw flags p) hw
  have hlen : ((precisionEsc flags width p).cut s).length = (p.cut s).length := by
    rw [precisionEsc, cut_modify p hs hfits, printed_of_ne_zero hp]
  have hdue : w - (p.cut s).length = 0 ↔ w ≤ (p.cut s).length := Nat.sub_eq_zero_iff_le
  rw [precisionEsc_padc, shown_precisionEsc p hs hfits, printed_of_ne_zero hp, hlen] at htext
  rw [htext]
  unfold stringField wantedPadc
  dsimp only
  rw [List.length_map, ← hdue]
  by_cases hminus : ch '-' ∈ flags
  · rw [if_pos hminus, if_pos hminus, fieldPad_of_mem hminus]
    rcases padAfter_of_mem (List.mem_append_left p.zeros hminus) (ch ' ') with hlast | hlast
    · rw [hlast, if_pos rfl]
      exact iff_of_true rfl (Or.inr rfl)
    · rw [hlast, if_neg (by decide)]
      constructor
      · intro heq
        by_contra hnone
        have hpos := Nat.pos_of_ne_zero fun h => hnone (Or.inl h)
        exact replicate_append_ne (by decide) hpos _ heq
      · rintro (hnone | hover)
        · rw [hnone, List.replicate_zero, List.replicate_zero, List.nil_append, List.append_nil]
        · exact absurd hover (by decide)
  · rw [if_neg hminus, if_neg hminus, if_neg (padAfter_flags_zeros flags p hminus),
      List.append_cancel_right_eq]
    exact List.replicate_right_inj'

/-- Behind a point a width that does not fit in an `int` is lost. -/
theorem stringText_ne_of_large {width : BitVec 32} {p : Precision} (hp : p ≠ .none)
    (hs : s.length < 2 ^ 30) (hw : 2 ^ 31 ≤ w) (flags : List Byte) :
    (precisionEsc flags width p).stringText s ≠ stringField flags w p s := by
  intro heq
  have hwidth : ¬ (precisionEsc flags width p).width.slt 0 = true := by
    rw [precisionEsc_width flags width hp]
    split
    case isTrue => decide
    case isFalse h => exact h
  have hsmall := mt (slt_zero_iff _).mpr hwidth
  have hcut := ((precisionEsc flags width p).length_cut_le s).trans_lt hs
  have hlength := congrArg List.length heq
  rw [length_stringText hs hwidth, length_stringField] at hlength
  omega

/-- Without a precision, such a width may come out right after all. -/
theorem stringText_large_iff {width : BitVec 32} (hs : s.length < 2 ^ 30)
    (hwidth : IsWidth w width) (hw : 2 ^ 31 ≤ w) (flags : List Byte) :
    (precisionEsc flags width .none).stringText s = stringField flags w .none s ↔
      w < 2 ^ 31 + s.length ∧ (ch '-' ∈ flags ∨
        ch '0' ∉ flags ∧ ∀ c ∈ s.map (Esc.init.flags flags).out, c = ch ' ') := by
  have htext : (precisionEsc flags width .none).stringText s = _ := stringText_flags hs hwidth flags
  have hshown : (Esc.init.flags flags).shown s = s.map (Esc.init.flags flags).out := rfl
  have hcount := padCount_eq w (by omega : s.length < 2 ^ 31)
  rw [hshown] at htext
  generalize hout : s.map (Esc.init.flags flags).out = shown at htext ⊢
  have hlen : shown.length = s.length := by
    rw [← hout, List.length_map]
  have hfield : stringField flags w .none s =
      if ch '-' ∈ flags then shown ++ List.replicate (w - s.length) (fieldPad flags)
      else List.replicate (w - s.length) (fieldPad flags) ++ shown := by
    rw [← hlen, ← hout]
    rfl
  by_cases hfar : w < 2 ^ 31 + s.length
  · have hright :
        ¬ ((0 < w % 2 ^ 32 ∧ w % 2 ^ 32 < 2 ^ 31) ∧ padAfter (ch ' ') flags ≠ ch '-') := by
      rintro ⟨hpos, -⟩
      omega
    have hdue : padCount w s.length = w - s.length := by
      rw [hcount]
      split
      · omega
      · omega
    rw [htext, if_neg hright, hfield, hdue]
    by_cases hminus : ch '-' ∈ flags
    · rw [if_pos hminus, fieldPad_of_mem hminus]
      exact iff_of_true rfl ⟨hfar, Or.inl hminus⟩
    · rw [if_neg hminus, fieldPad_of_not_mem hminus, padAfter_of_not_mem hminus]
      by_cases hzero : ch '0' ∈ flags
      · rw [if_pos hzero]
        refine iff_of_false ?_ fun h => ?_
        · intro heq
          exact replicate_append_ne (by decide) (by omega) _ heq.symm
        · exact h.2.elim hminus fun h => h.1 hzero
      · rw [if_neg hzero]
        constructor
        · intro heq
          exact ⟨hfar, Or.inr ⟨hzero, eq_of_append_replicate (by omega) heq⟩⟩
        · rintro ⟨-, h⟩
          exact append_replicate_comm (h.resolve_left hminus).2
  · refine iff_of_false ?_ fun h => hfar h.1
    intro heq
    have hlengths := congrArg List.length heq
    have hshort : padCount w s.length < 2 ^ 31 := by
      rw [hcount]
      split
      · assumption
      · omega
    have hle : ((precisionEsc flags width .none).stringText s).length =
        s.length + padCount w s.length := by
      rw [htext]
      split
      · rw [List.length_append, List.length_replicate, hlen, Nat.add_comm]
      · rw [List.length_append, List.length_replicate, hlen]
    have hcut : (Precision.none.cut s).length = s.length := rfl
    rw [hle, length_stringField, hcut] at hlengths
    omega

theorem stringFieldOk_iff {p : Precision} (hp : ∀ k, p ≠ .zero k) : StringFieldOk flags w s p ↔
    w ≤ (p.cut s).length ∨
      w < 2 ^ 31 ∧ padAfter (ch ' ') (flags ++ p.zeros) = wantedPadc flags ∨
      p = .none ∧ 2 ^ 31 ≤ w ∧ w < 2 ^ 31 + s.length ∧ (ch '-' ∈ flags ∨
        ch '0' ∉ flags ∧ ∀ c ∈ (p.cut s).map (Esc.init.flags flags).out, c = ch ' ') := by
  have hlength : ((p.cut s).map (Esc.init.flags flags).out).length = (p.cut s).length :=
    List.length_map _
  rw [← hlength, ← printed_of_ne_zero hp]
  cases p with
  | zero k => exact absurd rfl (hp k)
  | none | digits | star => exact Iff.rfl

theorem stringText_eq_stringField_iff {width : BitVec 32} (p : Precision) (hs : s.length < 2 ^ 30)
    (hfits : p.Fits s) (hwidth : IsWidth w width) (flags : List Byte) :
    (precisionEsc flags width p).stringText s = stringField flags w p s ↔
      StringFieldOk flags w s p := by
  by_cases hw : w < 2 ^ 31
  · by_cases hzero : ∃ k, p = .zero k
    · obtain ⟨k, rfl⟩ := hzero
      exact stringText_zero_iff k hs hwidth hw flags
    · have hp : ∀ k, p ≠ .zero k := not_exists.mp hzero
      rw [stringText_small_iff hp hs hfits hwidth hw, stringFieldOk_iff hp]
      refine or_congr_right ⟨fun h => Or.inl ⟨hw, h⟩, ?_⟩
      rintro (h | ⟨-, hlarge, -⟩)
      · exact h.2
      · exact absurd hlarge (Nat.not_le.mpr hw)
  · have hlarge : 2 ^ 31 ≤ w := Nat.le_of_not_lt hw
    have hcut := length_cut_lt p hs
    by_cases hp : p = .none
    · subst hp
      have hne : ∀ k, Precision.none ≠ .zero k := nofun
      rw [stringText_large_iff hs hwidth hlarge, stringFieldOk_iff hne]
      constructor
      · intro h
        exact Or.inr (Or.inr ⟨rfl, hlarge, h⟩)
      · rintro (hle | ⟨hlt, -⟩ | ⟨-, -, h⟩)
        · omega
        · exact absurd hlt hw
        · exact h
    · refine iff_of_false (stringText_ne_of_large hp hs hlarge flags) ?_
      by_cases hzero : ∃ k, p = .zero k
      · obtain ⟨k, rfl⟩ := hzero
        rintro ⟨-, hlt, -⟩
        exact hw hlt
      · rw [stringFieldOk_iff (not_exists.mp hzero)]
        rintro (hle | ⟨hlt, -⟩ | ⟨hnone, -⟩)
        · omega
        · exact hw hlt
        · exact hp hnone

/-- `%s` with the flags, the width and the precision prints the field `stringField`. -/
def PrintsStringField (M : BitVec 64 → Option Byte) (flags text : List Byte) (w : ℕ)
    (args : List (BitVec 64)) (p : Precision) (v : BitVec 64) (s : List Byte) (ap : List VaArg) :
    Prop :=
  Prints M (ch '%' :: (flags ++ text ++ p.text ++ [ch 's']))
    (vaWords (args ++ p.args) ++ .word v :: ap) ap (chars (stringField flags w p s))

theorem printsStringField_iff (hM : Mapped M) (hflags : ∀ c ∈ flags, isAnyFlag c = true)
    (hw : Width w text args) {p : Precision} (hs : ReadsString M (VaArg.word v).charPtr s)
    (hfits : p.Fits s) (ap : List VaArg) :
    PrintsStringField M flags text w args p v s ap ↔ StringFieldOk flags w s p := by
  obtain ⟨width, hwidth, hprints⟩ := prints_precision (M := M) hflags hw p hs ap
  rw [← stringText_eq_stringField_iff p (hs.length_lt hM) hfits hwidth flags]
  constructor
  · intro h
    exact chars_injective (hprints.unique h)
  · intro h
    rw [h] at hprints
    exact hprints

theorem count_letter_stringText (hs : s.length < 2 ^ 30) {e : Esc} {k : ℕ} {x : Byte}
    (hx : x ≠ e.padc) (hspace : x ≠ ch ' ') (hshown : e.shown s = List.replicate k x) :
    (e.stringText s).count x = k := by
  rw [stringText_eq hs, hshown]
  split
  · rw [List.count_append, pad, List.count_replicate, if_neg (by simpa using hx.symm),
      List.count_replicate_self, Nat.zero_add]
  · rw [List.count_append, pad, List.count_replicate_self, List.count_replicate,
      if_neg (by simpa using hspace.symm), Nat.add_zero]

theorem count_letter_stringField {k : ℕ} {x : Byte} (p : Precision) (hzero : x ≠ ch '0')
    (hspace : x ≠ ch ' ') (flags : List Byte)
    (hshown : (p.cut s).map (Esc.init.flags flags).out = List.replicate k x) :
    (stringField flags w p s).count x = k := by
  have hpad : fieldPad flags ≠ x := by
    unfold fieldPad
    split
    · exact hzero.symm
    · exact hspace.symm
  unfold stringField
  rw [hshown]
  dsimp only
  split
  · rw [List.count_append, List.count_replicate_self, List.count_replicate,
      if_neg (by simpa using hpad), Nat.add_zero]
  · rw [List.count_append, List.count_replicate_self, List.count_replicate,
      if_neg (by simpa using hpad), Nat.zero_add]

theorem padAfter_ne_letter (flags : List Byte) : ch 'a' ≠ padAfter (ch ' ') flags := by
  by_cases hminus : ch '-' ∈ flags
  · rcases padAfter_of_mem hminus (ch ' ') with h | h
    · rw [h]
      decide
    · rw [h]
      decide
  · rw [padAfter_of_not_mem hminus]
    split
    · decide
    · decide

/-- A precision whose `int` is less than the number cuts some strings too early. -/
theorem exists_not_printsStringField (hflags : ∀ c ∈ flags, isAnyFlag c = true)
    (hw : Width w text args) (k : ℕ) {q : ℕ} (hq : q ≠ 0) (hlarge : 2 ^ 32 ≤ q)
    (hsmall : q % 2 ^ 32 < 2 ^ 30 - 1) :
    ∃ M v s, Mapped M ∧ ReadsString M (VaArg.word v).charPtr s ∧
      ∀ ap, ¬ PrintsStringField M flags text w args (.digits k q hq) v s ap := by
  have hplain : ∀ c ∈ List.replicate (q % 2 ^ 32 + 1) (ch 'a'), c ≠ 0 := by
    intro c hc
    rw [(List.mem_replicate.mp hc).2]
    decide
  have hlen := List.length_replicate (a := ch 'a') (n := q % 2 ^ 32 + 1)
  have hread := readsString_base hplain (by omega)
  have hout : ∀ k (e : Esc), (List.replicate k (ch 'a')).map e.out = List.replicate k (ch 'a') := by
    intro k e
    have hletter : e.out (ch 'a') = ch 'a' := if_neg fun h => absurd h.2 (by decide)
    rw [List.map_replicate, hletter]
  refine ⟨_, _, _, mapped_bufferAt ?_, hread, ?_⟩
  · rw [List.length_append, List.length_singleton]
    omega
  · intro ap h
    obtain ⟨width, -, hprints⟩ := prints_precision hflags hw (.digits k q hq) hread ap
    have heq := congrArg (List.count (ch 'a')) (chars_injective (hprints.unique h))
    have hcut : (precisionEsc flags width (.digits k q hq)).cut
        (List.replicate (q % 2 ^ 32 + 1) (ch 'a')) = List.replicate (q % 2 ^ 32) (ch 'a') := by
      have hnat : (BitVec.ofNat 32 q).toNat = q % 2 ^ 32 := BitVec.toNat_ofNat q 32
      have hpos : ¬ (BitVec.ofNat 32 q).slt 0 = true := by
        rw [slt_zero_iff, hnat]
        omega
      show (if (BitVec.ofNat 32 q).slt 0 then _ else List.take (BitVec.ofNat 32 q).toNat _) = _
      rw [if_neg hpos, hnat, List.take_replicate, Nat.min_eq_left (Nat.le_succ _)]
    have hall : (Precision.digits k q hq).cut (List.replicate (q % 2 ^ 32 + 1) (ch 'a')) =
        List.replicate (q % 2 ^ 32 + 1) (ch 'a') := by
      show List.take q _ = _
      rw [List.take_replicate, Nat.min_eq_right (by omega)]
    have hpadc : ch 'a' ≠ (precisionEsc flags width (.digits k q hq)).padc := by
      rw [precisionEsc_padc]
      exact padAfter_ne_letter _
    rw [count_letter_stringText (by omega) hpadc (by decide)
        (by rw [Esc.shown, hcut, hout]),
      count_letter_stringField _ (by decide) (by decide) flags (by rw [hall, hout])] at heq
    omega

/-- A string field comes out right exactly under `StringFieldOk`, as long as the `int` of a decimal
precision cuts the string like the number; else the format is wrong for some string. -/
theorem string_field_iff (hflags : ∀ c ∈ flags, isAnyFlag c = true) (hw : Width w text args) :
    (∀ M v s p ap, Mapped M → ReadsString M (VaArg.word v).charPtr s → p.Fits s →
      (PrintsStringField M flags text w args p v s ap ↔ StringFieldOk flags w s p)) ∧
    ∀ k q (hq : q ≠ 0), 2 ^ 32 ≤ q → q % 2 ^ 32 < 2 ^ 30 - 1 →
      ∃ M v s, Mapped M ∧ ReadsString M (VaArg.word v).charPtr s ∧
        ∀ ap, ¬ PrintsStringField M flags text w args (.digits k q hq) v s ap :=
  ⟨fun _ _ _ _ ap hM hs hfits => printsStringField_iff hM hflags hw hs hfits ap,
    fun k _ hq hlarge hsmall => exists_not_printsStringField hflags hw k hq hlarge hsmall⟩

end

/-- The first two letters of a string, in a field of five characters. -/
theorem string_field_iff_star :
    PrintsStringField (bufferAt 0xffffffffc0000000 (bytes "abc" ++ [0])) [] [ch '*'] 5 [5]
      (.star 2 (by decide)) 0xffffffffc0000000 (bytes "abc") [] := by
  have hread := readsString_base (s := bytes "abc") (ne_zero_of_mem_bytes (by decide)) (by decide)
  have hwidth : Width 5 [ch '*'] [5] := Width.star 5 (by decide)
  have hiff := (@string_field_iff [] [ch '*'] 5 [5] nofun hwidth).1 _ _ _ (.star 2 (by decide)) []
    (mapped_bufferAt (by decide)) hread trivial
  exact hiff.mpr (Or.inr (Or.inl ⟨by omega, rfl⟩))

/-- `%.0s` prints the whole string. -/
theorem string_field_zero : ¬ ∀ (M : BitVec 64 → Option Byte) (flags text : List Byte) (w : ℕ)
    (args : List (BitVec 64)) (p : Precision) (v : BitVec 64) (s : List Byte) (ap : List VaArg),
    Mapped M → (∀ c ∈ flags, isAnyFlag c = true) → Width w text args →
    ReadsString M (VaArg.word v).charPtr s → PrintsStringField M flags text w args p v s ap := by
  intro h
  have hplain : ∀ c ∈ bytes "a", c ≠ 0 := ne_zero_of_mem_bytes (by decide)
  have hread := readsString_base hplain (by decide)
  have hM : Mapped (bufferAt 0xffffffffc0000000 (bytes "a" ++ [0])) := mapped_bufferAt (by decide)
  have hflags : ∀ c ∈ ([] : List Byte), isAnyFlag c = true := nofun
  have hfits : (Precision.zero 0).Fits (bytes "a") := trivial
  have hfield := h _ [] [] 0 [] (.zero 0) _ _ [] hM hflags .none hread
  obtain ⟨hle, -⟩ := (printsStringField_iff hM hflags .none hread hfits []).mp hfield
  exact absurd hle (by decide)

end CertiCore
