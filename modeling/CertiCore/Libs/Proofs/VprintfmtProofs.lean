import CertiCore.Libs.Proofs.PrintnumProofs
import CertiCore.Libs.Proofs.StringProofs
import CertiCore.Program.Proofs.LoopProofs

/-!
# Proofs: what the iterations of `vprintfmt` do

The characters that `vprintfmt` emits are collected in a list. Each lemma here says what happens
from a place in the format to a later one, whatever stands before and behind.
-/

namespace CertiCore

open Loop

/-- The device that collects the characters. Strings are read from `M`, where `none` is an address
without memory, and `u` is the least `int` less one. -/
def collector (M : BitVec 64 → Option Byte) (u : Except Halt (BitVec 32) := wrapped) :
    Device (List (BitVec 32)) where
  putch c t := t ++ [c]
  load _ a := M a
  underflow := u

/-- `vprintfmt` returns, and the characters that it has emitted are `T`. -/
def Emits (M : BitVec 64 → Option Byte) (fmt : List Byte) (ap : List VaArg) (T : List (BitVec 32))
    (u : Except Halt (BitVec 32) := wrapped) : Prop :=
  Ends (vprintfmtStep (collector M u)) (vprintfmtInit fmt ap []) (.ok T)

/-- Words as arguments. -/
def vaWords (args : List (BitVec 64)) : List VaArg := args.map .word

/-- The state with `a` behind the pointer into the format and `b` before it. -/
def fmtAt (a b : List Byte) (ap : List VaArg) (ctl : Ctl) (callers : List FmtFrame)
    (t : List (BitVec 32)) : FmtState (List (BitVec 32)) :=
  ⟨⟨a ++ b, a.length, ap, ctl⟩, callers, t⟩

/-- Wherever the piece `f` of a format stands, `vprintfmt` comes to its end, emits `text`, and
leaves of the arguments `ap` those in `ap'`. -/
def Prints (M : BitVec 64 → Option Byte) (f : List Byte) (ap ap' : List VaArg)
    (text : List (BitVec 32)) (u : Except Halt (BitVec 32) := wrapped) : Prop :=
  ∀ a b callers t, Steps (vprintfmtStep (collector M u)) (fmtAt a (f ++ b) ap .scan callers t)
    (fmtAt (a ++ f) b ap' .scan callers (t ++ text))

/-- After the `%` and the characters `mods` of an escape sequence, the variables are `e`. -/
def Modifies (M : BitVec 64 → Option Byte) (mods : List Byte) (ap : List VaArg) (e : Esc)
    (ap' : List VaArg) (u : Except Halt (BitVec 32) := wrapped) : Prop :=
  ∀ a c b callers t, isDigit c = false →
    Steps (vprintfmtStep (collector M u)) (fmtAt a (ch '%' :: (mods ++ c :: b)) ap .scan callers t)
      (fmtAt (a ++ ch '%' :: mods) (c :: b) ap' (.escape e) callers t)

/-- The last character `c` of an escape sequence ends it, and `text` is emitted. -/
def Converts (M : BitVec 64 → Option Byte) (e : Esc) (c : Byte) (ap ap' : List VaArg)
    (text : List (BitVec 32)) (u : Except Halt (BitVec 32) := wrapped) : Prop :=
  ∀ a b callers t, Steps (vprintfmtStep (collector M u)) (fmtAt a (c :: b) ap (.escape e) callers t)
    (fmtAt (a ++ [c]) b ap' .scan callers (t ++ text))

/-- From the pointer `p` on, the memory holds the string `s`. -/
def ReadsString (M : BitVec 64 → Option Byte) : CharPtr → List Byte → Prop
  | p, [] => p.deref (collector M) [] = .ok 0
  | p, c :: s => p.deref (collector M) [] = .ok c ∧ c ≠ 0 ∧ ReadsString M p.next s

/-- The pointer that `va_arg(ap, char *)` and the test for `NULL` make of an argument. -/
def VaArg.charPtr : VaArg → CharPtr
  | word v => if v = 0 then .const (cstr "(null)") else .addr v
  | const s => .const s

section

variable {M : BitVec 64 → Option Byte} {u : Except Halt (BitVec 32)} {a b : List Byte} {c : Byte}
  {ap : List VaArg} {callers : List FmtFrame} {t : List (BitVec 32)} {e : Esc}

theorem collector_putAll (cs : List (BitVec 32)) (t : List (BitVec 32)) :
    (collector M u).putAll cs t = t ++ cs := by
  induction cs generalizing t with
  | nil => exact (List.append_nil t).symm
  | cons c cs ih =>
    show (collector M u).putAll cs (t ++ [c]) = t ++ c :: cs
    rw [ih, List.append_assoc]
    rfl

theorem fmtAt_snoc (ctl : Ctl) : fmtAt (a ++ [c]) b ap ctl callers t =
    ⟨⟨a ++ c :: b, a.length + 1, ap, ctl⟩, callers, t⟩ := by
  rw [fmtAt, List.append_assoc, List.length_append]
  rfl

/-! ## The outer loop -/

theorem scan_char (hpct : c ≠ ch '%') (hnul : c ≠ 0) :
    Step (vprintfmtStep (collector M u)) (fmtAt a (c :: b) ap .scan callers t)
      (fmtAt (a ++ [c]) b ap .scan callers (t ++ [c.setWidth 32])) := by
  unfold Step
  rw [fmtAt_snoc]
  simp only [vprintfmtStep, fmtAt, loadByte_append, bind, Except.bind, pure, Except.pure,
    if_pos hpct, if_neg hnul]
  rfl

theorem scan_percent :
    Step (vprintfmtStep (collector M u)) (fmtAt a (ch '%' :: b) ap .scan callers t)
      (fmtAt (a ++ [ch '%']) b ap (.escape .init) callers t) := by
  unfold Step
  rw [fmtAt_snoc]
  simp only [vprintfmtStep, fmtAt, loadByte_append, bind, Except.bind, pure, Except.pure, ne_eq,
    not_true, if_false]
  rfl

theorem scan_exit :
    Exit (vprintfmtStep (collector M u)) (fmtAt a (0 :: b) ap .scan [] t) (.ok t) := by
  have hpct : (0 : Byte) ≠ ch '%' := by decide
  unfold Exit
  simp only [vprintfmtStep, fmtAt, loadByte_append, bind, Except.bind, pure, Except.pure,
    if_pos hpct, if_true]
  rfl

/-- A call of `printfmt` returns to its caller. -/
theorem scan_return (caller : FmtFrame) :
    Step (vprintfmtStep (collector M u)) (fmtAt a (0 :: b) ap .scan (caller :: callers) t)
      ⟨caller, callers, t⟩ := by
  have hpct : (0 : Byte) ≠ ch '%' := by decide
  unfold Step
  simp only [vprintfmtStep, fmtAt, loadByte_append, bind, Except.bind, pure, Except.pure,
    if_pos hpct, if_true]

/-- Characters other than `%` and NUL are emitted as they are. -/
theorem scan_chars (l : List Byte) (hl : ∀ c ∈ l, c ≠ ch '%' ∧ c ≠ 0) :
    Steps (vprintfmtStep (collector M u)) (fmtAt a (l ++ b) ap .scan callers t)
      (fmtAt (a ++ l) b ap .scan callers (t ++ chars l)) := by
  induction l generalizing a t with
  | nil =>
    rw [List.nil_append, List.append_nil, chars_nil, List.append_nil]
    exact Steps.refl _
  | cons c l ih =>
    obtain ⟨hpct, hnul⟩ := hl c List.mem_cons_self
    have hrest := ih (a := a ++ [c]) (t := t ++ [c.setWidth 32])
      fun d hd => hl d (List.mem_cons_of_mem c hd)
    rw [List.append_assoc, List.append_assoc] at hrest
    exact (scan_char hpct hnul).steps.trans hrest

/-! ## The switch -/

theorem escape_eq : vprintfmtStep (collector M u) (fmtAt a (c :: b) ap (.escape e) callers t) =
    (fmtSwitch (collector M u) (fmtAt (a ++ [c]) b ap (.escape e) callers t) e c).map .inl := by
  rw [fmtAt_snoc]
  simp only [vprintfmtStep, fmtAt, loadByte_append, bind, Except.bind, pure, Except.pure]
  rfl

theorem escape_step {s : FmtState (List (BitVec 32))}
    (h : fmtSwitch (collector M u) (fmtAt (a ++ [c]) b ap (.escape e) callers t) e c = .ok s) :
    Step (vprintfmtStep (collector M u)) (fmtAt a (c :: b) ap (.escape e) callers t) s := by
  unfold Step
  rw [escape_eq, h]
  rfl

theorem escape_exit {x : Halt}
    (h : fmtSwitch (collector M u) (fmtAt (a ++ [c]) b ap (.escape e) callers t) e c = .error x) :
    Exit (vprintfmtStep (collector M u)) (fmtAt a (c :: b) ap (.escape e) callers t)
      (.error x) := by
  unfold Exit
  rw [escape_eq, h]
  rfl

/-- What the flags, the point and the modifier do to the variables. -/
def Esc.flag (e : Esc) : Label → Option Esc
  | .minus => some { e with padc := ch '-' }
  | .zero => some { e with padc := ch '0' }
  | .dot => some (if e.width.slt 0 then { e with width := 0 } else e)
  | .hash => some { e with altflag := true }
  | .long => some { e with lflag := e.lflag + 1 }
  | _ => none

theorem escape_flag {e' : Esc} (h : e.flag (label c) = some e') :
    Step (vprintfmtStep (collector M u)) (fmtAt a (c :: b) ap (.escape e) callers t)
      (fmtAt (a ++ [c]) b ap (.escape e') callers t) := by
  apply escape_step
  unfold fmtSwitch
  cases hc : label c
  all_goals
    rw [hc] at h
    first
    | obtain rfl := Option.some.inj h; rfl
    | exact nomatch h

theorem escape_star (v : BitVec 64) (hc : label c = .star) :
    Step (vprintfmtStep (collector M u)) (fmtAt a (c :: b) (.word v :: ap) (.escape e) callers t)
      (fmtAt (a ++ [c]) b ap (.escape { e with precision := v.setWidth 32 }.processPrecision)
        callers t) := by
  apply escape_step
  simp only [fmtSwitch, hc]
  rfl

theorem escape_digit (hc : label c = .digit) :
    Step (vprintfmtStep (collector M u)) (fmtAt a (c :: b) ap (.escape e) callers t)
      (fmtAt (a ++ [c]) b ap (.digits { e with precision := 0 } c) callers t) := by
  apply escape_step
  simp only [fmtSwitch, hc]
  rfl

/-- The precision after one more digit. -/
def Esc.addDigit (e : Esc) (d : Byte) : Esc :=
  { e with precision := e.precision * 10 + d.setWidth 32 - (ch '0').setWidth 32 }

theorem digits_digit (d : Byte) (hc : isDigit c = true) :
    Step (vprintfmtStep (collector M u)) (fmtAt a (c :: b) ap (.digits e d) callers t)
      (fmtAt (a ++ [c]) b ap (.digits (e.addDigit d) c) callers t) := by
  unfold Step
  rw [fmtAt_snoc]
  simp only [vprintfmtStep, fmtAt, loadByte_append, bind, Except.bind, pure, Except.pure, if_pos hc]
  rfl

theorem digits_end (d : Byte) (hc : isDigit c = false) :
    Step (vprintfmtStep (collector M u)) (fmtAt a (c :: b) ap (.digits e d) callers t)
      (fmtAt a (c :: b) ap (.escape (e.addDigit d).processPrecision) callers t) := by
  have hne : ¬ isDigit c = true := by
    rw [hc]
    exact Bool.false_ne_true
  unfold Step
  simp only [vprintfmtStep, fmtAt, loadByte_append, bind, Except.bind, pure, Except.pure,
    if_neg hne]
  rfl

/-! ## Pieces of a format -/

section Pieces

variable {f g mods : List Byte} {ap' ap'' : List VaArg} {text text' : List (BitVec 32)}

theorem Prints.append (h : Prints M f ap ap' text u) (h' : Prints M g ap' ap'' text' u) :
    Prints M (f ++ g) ap ap'' (text ++ text') u := by
  intro a b callers t
  have hf := h a (g ++ b) callers t
  have hg := h' (a ++ f) b callers (t ++ text)
  rw [← List.append_assoc] at hf
  rw [List.append_assoc, List.append_assoc] at hg
  exact hf.trans hg

theorem prints_chars (f : List Byte) (ap : List VaArg) (hf : ∀ c ∈ f, c ≠ ch '%' ∧ c ≠ 0) :
    Prints M f ap ap (chars f) := by
  intro a b callers t
  exact scan_chars f hf

theorem modifies_nil (ap : List VaArg) : Modifies M [] ap .init ap := by
  intro a c b callers t hc
  exact scan_percent.steps

theorem Modifies.prints (h : Modifies M mods ap e ap' u) (hc : isDigit c = false)
    (h' : Converts M e c ap' ap'' text u) : Prints M (ch '%' :: (mods ++ [c])) ap ap'' text u := by
  intro a b callers t
  have hmods := h a c b callers t hc
  have hconv := h' (a ++ ch '%' :: mods) b callers t
  rw [List.append_assoc] at hconv
  rw [List.cons_append, List.append_assoc]
  exact hmods.trans hconv

/-- A whole format. -/
theorem Prints.emits (h : Prints M f ap ap' text u) : Emits M (f ++ [0]) ap text u := by
  have hsteps := h [] [0] [] []
  exact scan_exit.ends.of_steps hsteps

theorem Prints.unique {text' : List (BitVec 32)} (h : Prints M f ap ap' text u)
    (h' : Prints M f ap ap'' text' u) : text = text' :=
  Except.ok.inj (Ends.unique h.emits h'.emits)

/-- The format of a call of `printfmt`. -/
theorem Prints.call (h : Prints M f ap ap' text u) (caller : FmtFrame) :
    Steps (vprintfmtStep (collector M u)) ⟨⟨f ++ [0], 0, ap, .scan⟩, caller :: callers, t⟩
      ⟨caller, callers, t ++ text⟩ := by
  have hsteps := h [] [0] (caller :: callers) t
  exact hsteps.trans (scan_return caller).steps

end Pieces

/-- The characters `0` to `9` have two labels. -/
theorem isDigit_iff (c : Byte) : isDigit c = true ↔ label c = .zero ∨ label c = .digit := by
  revert c
  decide +kernel

theorem isDigit_eq_false (hzero : label c ≠ .zero) (hdigit : label c ≠ .digit) :
    isDigit c = false := by
  by_contra hd
  rcases (isDigit_iff c).mp (Bool.not_eq_false _ ▸ hd) with hc | hc
  · exact hzero hc
  · exact hdigit hc

theorem converts_char (v : BitVec 64) (hc : label c = .char) :
    Converts M e c (.word v :: ap) ap [v.setWidth 32] := by
  intro a b callers t
  apply Step.steps
  apply escape_step
  simp only [fmtSwitch, hc]
  rfl

theorem converts_percent (hc : label c = .percent) : Converts M e c ap ap (chars [c]) := by
  intro a b callers t
  apply Step.steps
  apply escape_step
  simp only [fmtSwitch, hc]
  rfl

/-! ## Numbers -/

/-- What a numeric conversion prints: a text in front of the padding, and a number. -/
structure Number where
  sign : List Byte
  base : ℕ
  abs : ℕ

/-- The value of `getint`. -/
def intValue (lflag : BitVec 32) (v : BitVec 64) : BitVec 64 :=
  if lflag = 0 then (v.setWidth 32).signExtend 64 else v

/-- The value of `getuint`. -/
def uintValue (lflag : BitVec 32) (v : BitVec 64) : BitVec 64 :=
  if lflag = 0 then (v.setWidth 32).setWidth 64 else v

/-- The number that a conversion makes of its argument. -/
def Label.number (lflag : BitVec 32) (v : BitVec 64) : Label → Option Number
  | .decimal =>
    let z := (intValue lflag v).toInt
    some ⟨if z < 0 then [ch '-'] else [], 10, z.natAbs⟩
  | .unsigned => some ⟨[], 10, (uintValue lflag v).toNat⟩
  | .octal => some ⟨[], 8, (uintValue lflag v).toNat⟩
  | .pointer => some ⟨bytes "0x", 16, v.toNat⟩
  | .hex => some ⟨[], 16, (uintValue lflag v).toNat⟩
  | _ => none

def Number.digits (n : Number) : List Byte := numeral n.base n.abs

/-- The characters of a numeric conversion. -/
def Number.text (n : Number) (e : Esc) : List Byte :=
  n.sign ++ (pad (e.width - BitVec.ofNat 32 n.digits.length) e.padc ++ n.digits)

theorem ite_lflag {α : Type} (lflag : BitVec 32) (x y : α) :
    (if (2 : BitVec 32).sle lflag then x else if lflag ≠ 0 then x else y) =
      if lflag = 0 then y else x := by
  by_cases h0 : lflag = 0
  · have htwo : ¬ (2 : BitVec 32).sle 0 = true := by decide
    rw [h0, if_neg htwo, if_neg (not_not_intro rfl), if_pos rfl]
  · rw [if_pos h0, ite_self, if_neg h0]

theorem getint_word (lflag : BitVec 32) (v : BitVec 64) :
    getint lflag (.word v :: ap) = .ok (intValue lflag v, ap) := by
  refine (ite_lflag lflag _ _).trans ?_
  rw [intValue]
  split
  · rfl
  · rfl

theorem getuint_word (lflag : BitVec 32) (v : BitVec 64) :
    getuint lflag (.word v :: ap) = .ok (uintValue lflag v, ap) := by
  refine (ite_lflag lflag _ _).trans ?_
  rw [uintValue]
  split
  · rfl
  · rfl

theorem toNat_neg_of_slt {num : BitVec 64} (h : num.slt 0 = true) :
    num.toInt < 0 ∧ (-num).toNat = num.toInt.natAbs := by
  have hneg : num.toInt < 0 := by simpa [BitVec.slt] using h
  refine ⟨hneg, ?_⟩
  rw [BitVec.toInt_eq_toNat_cond] at hneg ⊢
  have hlt := num.isLt
  rw [BitVec.toNat_neg]
  split at hneg
  · omega
  · rw [if_neg ‹_›]
    omega

theorem toNat_of_not_slt {num : BitVec 64} (h : ¬ num.slt 0 = true) :
    ¬ num.toInt < 0 ∧ num.toNat = num.toInt.natAbs := by
  have hneg : ¬ num.toInt < 0 := by simpa [BitVec.slt] using h
  refine ⟨hneg, ?_⟩
  rw [BitVec.toInt_eq_toNat_cond] at hneg ⊢
  have hlt := num.isLt
  split at hneg
  · rw [if_pos ‹_›]
    omega
  · omega

/-- What the switch does for a numeric conversion. -/
theorem fmtSwitch_number {v : BitVec 64} {n : Number} (h : (label c).number e.lflag v = some n) :
    ∃ (base : Base) (num : BitVec 64), n.base = base.val.toNat ∧ n.abs = num.toNat ∧
      ∀ a b ap callers t,
        fmtSwitch (collector M u) (fmtAt a b (.word v :: ap) (.escape e) callers t) e c =
          (printnum (collector M u) num base e.width e.padc (t ++ chars n.sign)).map fun t =>
            fmtAt a b ap .scan callers t := by
  cases hc : label c
  all_goals
    rw [hc] at h
    simp only [fmtSwitch, hc, fmtAt, bind, Except.bind]
  case decimal =>
    obtain rfl := Option.some.inj h
    by_cases hneg : (intValue e.lflag v).slt 0 = true
    · obtain ⟨hlt, habs⟩ := toNat_neg_of_slt hneg
      refine ⟨.decimal, -intValue e.lflag v, rfl, habs.symm, fun a b ap callers t => ?_⟩
      simp only [getint_word, if_pos hneg, if_pos hlt]
      rfl
    · obtain ⟨hge, habs⟩ := toNat_of_not_slt hneg
      refine ⟨.decimal, intValue e.lflag v, rfl, habs.symm, fun a b ap callers t => ?_⟩
      simp only [getint_word, if_neg hneg, if_neg hge, chars_nil, List.append_nil]
      rfl
  case unsigned =>
    obtain rfl := Option.some.inj h
    refine ⟨.decimal, _, rfl, rfl, fun a b ap callers t => ?_⟩
    simp only [getuint_word, chars_nil, List.append_nil]
    rfl
  case octal =>
    obtain rfl := Option.some.inj h
    refine ⟨.octal, _, rfl, rfl, fun a b ap callers t => ?_⟩
    simp only [getuint_word, chars_nil, List.append_nil]
    rfl
  case hex =>
    obtain rfl := Option.some.inj h
    refine ⟨.hex, _, rfl, rfl, fun a b ap callers t => ?_⟩
    simp only [getuint_word, chars_nil, List.append_nil]
    rfl
  case pointer =>
    obtain rfl := Option.some.inj h
    refine ⟨.hex, v, rfl, rfl, fun a b ap callers t => ?_⟩
    have hput : (collector M u).putch ((ch 'x').setWidth 32)
        ((collector M u).putch ((ch '0').setWidth 32) t) = t ++ chars (bytes "0x") := by
      show t ++ [(ch '0').setWidth 32] ++ [(ch 'x').setWidth 32] = t ++ chars (bytes "0x")
      rw [List.append_assoc]
      rfl
    simp only [vaWord, hput]
    rfl
  all_goals exact nomatch h

/-- A numeric conversion whose width can be counted down. -/
theorem converts_counted {v : BitVec 64} {n : Number} (h : (label c).number e.lflag v = some n)
    (hcount : (collector M u).CountsDown n.digits.length e.width) :
    Converts M e c (.word v :: ap) ap (chars (n.text e)) u := by
  intro a b callers t
  obtain ⟨base, num, hbase, habs, hswitch⟩ := fmtSwitch_number (M := M) (u := u) h
  apply Step.steps
  apply escape_step
  rw [Number.digits, hbase, habs] at hcount
  rw [hswitch, printnum_eq num base e.width e.padc _ hcount, collector_putAll, List.append_assoc,
    ← chars_append, Number.text, Number.digits, hbase, habs]
  rfl

theorem collector_countsDown (k : ℕ) (width : BitVec 32) : (collector M).CountsDown k width :=
  (collector M).countsDown_of_wrapped rfl k width

theorem converts_number {v : BitVec 64} {n : Number} (h : (label c).number e.lflag v = some n) :
    Converts M e c (.word v :: ap) ap (chars (n.text e)) :=
  converts_counted h (collector_countsDown _ _)

/-! ## Strings -/

/-- What the loop over the characters of a string emits for one of them. -/
def Esc.out (e : Esc) (c : Byte) : Byte :=
  if e.altflag ∧ (c < ch ' ' ∨ ch '~' < c) then ch '?' else c

/-- The characters of a string that the precision lets through. -/
def Esc.cut (e : Esc) (s : List Byte) : List Byte :=
  if e.precision.slt 0 then s else s.take e.precision.toNat

/-- The padding on the left of a string whose `strnlen` is `len`. -/
def Esc.padLeft (e : Esc) (len : ℕ) : List Byte :=
  if (0 : BitVec 32).slt e.width ∧ e.padc ≠ ch '-' then pad (e.width - BitVec.ofNat 32 len) e.padc
  else []

/-- The width that is left after this padding. -/
def Esc.afterPad (e : Esc) (len : ℕ) : Esc :=
  if (0 : BitVec 32).slt e.width ∧ e.padc ≠ ch '-' then
    let width := e.width - BitVec.ofNat 32 len
    { e with width := if (0 : BitVec 32).slt width then 0 else width }
  else e

/-- What the loops over the characters and over the spaces behind them emit. -/
def Esc.body (e : Esc) (s : List Byte) : List Byte :=
  (e.cut s).map e.out ++ pad (e.width - BitVec.ofNat 32 (e.cut s).length) (ch ' ')

/-- The characters of the conversion of a string. -/
def Esc.stringText (e : Esc) (s : List Byte) : List Byte :=
  let len := min (e.precision.signExtend 64).toNat s.length
  e.padLeft len ++ (e.afterPad len).body s

theorem vaString_cons (v : VaArg) : vaString (v :: ap) = .ok (v.charPtr, ap) := by
  cases v with
  | word v => rfl
  | const s => rfl

theorem deref_collector (p : CharPtr) (t : List (BitVec 32)) :
    p.deref (collector M) t = p.deref (collector M) [] := by
  cases p with
  | addr a => rfl
  | const s => rfl

theorem readsString_const (s : List Byte) (hs : ∀ c ∈ s, c ≠ 0) :
    ReadsString M (.const (s ++ [0])) s := by
  induction s with
  | nil => rfl
  | cons c s ih =>
    exact ⟨rfl, hs c List.mem_cons_self, ih fun d hd => hs d (List.mem_cons_of_mem c hd)⟩

theorem strnlen_eq {p : CharPtr} {s : List Byte} (h : ReadsString M p s) (len : ℕ) :
    strnlen (collector M) t len p = .ok (min len s.length) := by
  induction len generalizing p s with
  | zero =>
    rw [Nat.zero_min]
    rfl
  | succ len ih =>
    rw [strnlen, deref_collector]
    cases s with
    | nil =>
      have hread : p.deref (collector M) [] = .ok 0 := h
      rw [hread]
      rfl
    | cons c s =>
      obtain ⟨hread, hne, hrest⟩ := h
      rw [hread, ih hrest, List.length_cons, Nat.succ_min_succ]
      simp only [bind, Except.bind, pure, Except.pure, if_pos hne]

/-- The state of the loop after one more character. -/
def Esc.next (e : Esc) : Esc :=
  { e with
    precision := if e.precision.slt 0 then e.precision else e.precision - 1
    width := e.width - 1 }

theorem precision_room (e : Esc) :
    (e.precision.slt 0 ∨ (0 : BitVec 32).sle
      (if e.precision.slt 0 then e.precision else e.precision - 1)) ↔ e.precision ≠ 0 := by
  have hlt := e.precision.isLt
  constructor
  · intro h h0
    rw [h0] at h
    exact absurd h (by decide)
  · intro hne
    by_cases hneg : e.precision.slt 0 = true
    · exact Or.inl hneg
    · right
      have hsmall := mt (slt_zero_iff e.precision).mpr hneg
      rw [if_neg hneg, zero_sle_iff, toNat_sub_one hne]
      omega

theorem string_char {p : CharPtr} (hread : p.deref (collector M) [] = .ok c) (hc : c ≠ 0)
    (hroom : e.precision ≠ 0) :
    Step (vprintfmtStep (collector M)) (fmtAt a b ap (.string e p) callers t)
      (fmtAt a b ap (.string e.next p.next) callers (t ++ chars [e.out c])) := by
  unfold Step
  simp only [vprintfmtStep, fmtAt, deref_collector p t, hread, bind, Except.bind, pure, Except.pure]
  rw [if_pos ⟨hc, (precision_room e).mpr hroom⟩]
  rfl

theorem string_end {p : CharPtr} (hread : p.deref (collector M) [] = .ok c)
    (hend : c = 0 ∨ e.precision = 0) :
    Step (vprintfmtStep (collector M)) (fmtAt a b ap (.string e p) callers t)
      (fmtAt a b ap .scan callers (t ++ chars (pad e.width (ch ' ')))) := by
  have hstop : ¬ (c ≠ 0 ∧ (e.precision.slt 0 ∨ (0 : BitVec 32).sle
      (if e.precision.slt 0 then e.precision else e.precision - 1))) := by
    rw [precision_room]
    rintro ⟨hc, hroom⟩
    exact hend.elim hc hroom
  unfold Step
  simp only [vprintfmtStep, fmtAt, deref_collector p t, hread, bind, Except.bind, pure, Except.pure]
  rw [if_neg hstop, Device.putAll_pad, collector_putAll]
  rfl

theorem body_of_cut_eq_nil {s : List Byte} (h : e.cut s = []) :
    e.body s = pad e.width (ch ' ') := by
  rw [Esc.body, h]
  show [] ++ pad (e.width - 0) (ch ' ') = _
  rw [sub_zero, List.nil_append]

theorem cut_cons (h0 : e.precision ≠ 0) (c : Byte) (s : List Byte) :
    e.cut (c :: s) = c :: e.next.cut s := by
  unfold Esc.cut Esc.next
  dsimp only
  by_cases hneg : e.precision.slt 0 = true
  · rw [if_pos hneg, if_pos hneg, if_pos hneg]
  · have hsmall := mt (slt_zero_iff e.precision).mpr hneg
    have hnext : ¬ (e.precision - 1).slt 0 = true := by
      rw [slt_zero_iff, toNat_sub_one h0]
      omega
    have hpos : 0 < e.precision.toNat := by
      apply Nat.pos_of_ne_zero
      intro hzero
      exact h0 (BitVec.eq_of_toNat_eq hzero)
    rw [if_neg hneg, if_neg hneg, if_neg hnext, toNat_sub_one h0]
    obtain ⟨k, hk⟩ := Nat.exists_eq_succ_of_ne_zero hpos.ne'
    rw [hk, List.take_succ_cons]
    rfl

theorem body_cons (h0 : e.precision ≠ 0) (c : Byte) (s : List Byte) :
    e.body (c :: s) = e.out c :: e.next.body s := by
  unfold Esc.body
  rw [cut_cons h0, List.length_cons, sub_ofNat_succ]
  rfl

/-- The loop over the characters, and the one over the spaces behind them. -/
theorem string_chars {p : CharPtr} {s : List Byte} (h : ReadsString M p s) :
    Steps (vprintfmtStep (collector M)) (fmtAt a b ap (.string e p) callers t)
      (fmtAt a b ap .scan callers (t ++ chars (e.body s))) := by
  induction s generalizing p e t with
  | nil =>
    have hread : p.deref (collector M) [] = .ok 0 := h
    have hcut : e.cut [] = [] := by
      rw [Esc.cut, List.take_nil, ite_self]
    rw [body_of_cut_eq_nil hcut]
    exact (string_end hread (Or.inl rfl)).steps
  | cons c s ih =>
    obtain ⟨hread, hc, hrest⟩ := h
    by_cases h0 : e.precision = 0
    · have hcut : e.cut (c :: s) = [] := by
        rw [Esc.cut, h0]
        rfl
      rw [body_of_cut_eq_nil hcut]
      exact (string_end hread (Or.inr h0)).steps
    · have hnext := ih hrest (e := e.next) (t := t ++ chars [e.out c])
      rw [List.append_assoc, ← chars_append, List.singleton_append, ← body_cons h0] at hnext
      exact (string_char hread hc h0).steps.trans hnext

/-- The conversion of a string up to its loop. Its length is only taken if padding may be due in
front. -/
theorem escape_string {v : VaArg} {len : ℕ} (hc : label c = .string)
    (hlen : (0 : BitVec 32).slt e.width ∧ e.padc ≠ ch '-' →
      strnlen (collector M) t (e.precision.signExtend 64).toNat v.charPtr = .ok len) :
    Step (vprintfmtStep (collector M)) (fmtAt a (c :: b) (v :: ap) (.escape e) callers t)
      (fmtAt (a ++ [c]) b ap (.string (e.afterPad len) v.charPtr) callers
        (t ++ chars (e.padLeft len))) := by
  apply escape_step
  simp only [fmtSwitch, hc, fmtAt, vaString_cons, bind, Except.bind, pure, Except.pure]
  by_cases hpad : (0 : BitVec 32).slt e.width ∧ e.padc ≠ ch '-'
  · rw [if_pos hpad, hlen hpad, Esc.padLeft, if_pos hpad, Esc.afterPad, if_pos hpad,
      ← collector_putAll, ← Device.putAll_pad]
  · rw [if_neg hpad, Esc.padLeft, if_neg hpad, Esc.afterPad, if_neg hpad, chars_nil,
      List.append_nil]

/-- The conversion of a string: the padding in front, and what the loop emits. -/
theorem converts_of_loop {v : VaArg} {len : ℕ} {body : List Byte} (hc : label c = .string)
    (hlen : ∀ t, strnlen (collector M) t (e.precision.signExtend 64).toNat v.charPtr = .ok len)
    (hloop : ∀ a b callers t, Steps (vprintfmtStep (collector M))
      (fmtAt a b ap (.string (e.afterPad len) v.charPtr) callers t)
      (fmtAt a b ap .scan callers (t ++ chars body))) :
    Converts M e c (v :: ap) ap (chars (e.padLeft len ++ body)) := by
  intro a b callers t
  have hstep : Step (vprintfmtStep (collector M))
      (fmtAt a (c :: b) (v :: ap) (.escape e) callers t)
      (fmtAt (a ++ [c]) b ap (.string (e.afterPad len) v.charPtr) callers
        (t ++ chars (e.padLeft len))) := escape_string hc fun _ => hlen t
  have hrest := hloop (a ++ [c]) b callers (t ++ chars (e.padLeft len))
  rw [List.append_assoc, ← chars_append] at hrest
  exact hstep.steps.trans hrest

theorem converts_string {v : VaArg} {s : List Byte} (hc : label c = .string)
    (h : ReadsString M v.charPtr s) : Converts M e c (v :: ap) ap (chars (e.stringText s)) :=
  converts_of_loop hc (fun _ => strnlen_eq h _) fun _ _ _ _ => string_chars h

/-! ## Error codes -/

/-- The text of an error code, without its sign. -/
def errorText (n : ℕ) : List Byte :=
  match errorTable[n]? with
  | some (some s) => s.dropLast
  | _ => bytes "error " ++ numeral 10 n

/-- A number whose width is not given has no padding. -/
theorem text_init (sign : List Byte) (base : Base) (num : BitVec 64) :
    Number.text ⟨sign, base.val.toNat, num.toNat⟩ .init =
      sign ++ numeral base.val.toNat num.toNat := by
  have hlt : (numeral base.val.toNat num.toNat).length < 2 ^ 31 :=
    (length_numeral_le base num).trans_lt (by omega)
  rw [Number.text]
  show sign ++ (pad (-1 - _) (ch ' ') ++ _) = _
  rw [Number.digits, pad_neg_one_sub hlt]
  rfl

theorem prints_error_decimal {err : BitVec 32} (hpos : ¬ err.slt 0 = true) :
    Prints M (bytes "error %d") [.word (err.signExtend 64)] []
      (chars (bytes "error " ++ numeral 10 err.toNat)) := by
  have hplain : ∀ c ∈ bytes "error ", c ≠ ch '%' ∧ c ≠ 0 := by decide
  have hsmall := mt (slt_zero_iff err).mpr hpos
  have hnat : (err.setWidth 64).toNat = err.toNat := by
    rw [BitVec.toNat_setWidth]
    omega
  have hint : (err.setWidth 64).toInt = err.toNat := by
    rw [BitVec.toInt_eq_toNat_of_lt (by omega), hnat]
  have hval : intValue 0 (err.setWidth 64) = err.setWidth 64 := by
    rw [intValue, if_pos rfl, BitVec.setWidth_setWidth_of_le _ (by omega), BitVec.setWidth_eq,
      signExtend_of_not_slt hpos]
  have hnum : (label (ch 'd')).number Esc.init.lflag (err.setWidth 64) =
      some ⟨[], 10, err.toNat⟩ := by
    show some (⟨if (intValue 0 (err.setWidth 64)).toInt < 0 then [ch '-'] else [], 10,
      (intValue 0 (err.setWidth 64)).toInt.natAbs⟩ : Number) = _
    rw [hval, hint, if_neg (by omega), Int.natAbs_natCast]
  have htext : Number.text ⟨[], 10, err.toNat⟩ .init = numeral 10 err.toNat := by
    have htext := text_init [] .decimal (err.setWidth 64)
    rw [hnat] at htext
    exact htext
  have hd := (modifies_nil (M := M) [.word (err.setWidth 64)]).prints rfl (converts_number hnum)
  rw [htext] at hd
  rw [signExtend_of_not_slt hpos, chars_append]
  exact (prints_chars _ _ hplain).append hd

/-- A string whose width and precision are not given is printed as it is. -/
theorem stringText_init {s : List Byte} (hlen : s.length < 2 ^ 31) :
    Esc.init.stringText s = s := by
  have hout : s.map Esc.init.out = s := List.map_id' s
  show [] ++ (s.map Esc.init.out ++ pad (-1 - BitVec.ofNat 32 s.length) (ch ' ')) = s
  rw [pad_neg_one_sub hlen, hout, List.nil_append, List.append_nil]

/-- The entries of the table are strings. -/
theorem errorTable_string {s : List Byte} (hs : some s ∈ errorTable) :
    ∃ u, s = u ++ [0] ∧ (∀ c ∈ u, c ≠ 0) ∧ u.length < 2 ^ 31 := by
  have hcases : s = cstr "unspecified error" ∨ s = cstr "bad process" ∨
      s = cstr "invalid parameter" ∨ s = cstr "out of memory" ∨ s = cstr "out of processes" ∨
      s = cstr "segmentation fault" := by
    simpa [errorTable] using hs
  rcases hcases with rfl | rfl | rfl | rfl | rfl | rfl
  · exact ⟨bytes "unspecified error", rfl, ne_zero_of_mem_bytes (by decide), by decide⟩
  · exact ⟨bytes "bad process", rfl, ne_zero_of_mem_bytes (by decide), by decide⟩
  · exact ⟨bytes "invalid parameter", rfl, ne_zero_of_mem_bytes (by decide), by decide⟩
  · exact ⟨bytes "out of memory", rfl, ne_zero_of_mem_bytes (by decide), by decide⟩
  · exact ⟨bytes "out of processes", rfl, ne_zero_of_mem_bytes (by decide), by decide⟩
  · exact ⟨bytes "segmentation fault", rfl, ne_zero_of_mem_bytes (by decide), by decide⟩

theorem prints_error_string {s : List Byte} (hs : some s ∈ errorTable) :
    Prints M (bytes "%s") [.const s] [] (chars s.dropLast) := by
  obtain ⟨u, rfl, hne, hlen⟩ := errorTable_string hs
  have hread : ReadsString M (VaArg.const (u ++ [0])).charPtr u := readsString_const u hne
  have hconv := (modifies_nil (M := M) [.const (u ++ [0])]).prints rfl
    (converts_string (c := ch 's') rfl hread)
  rw [stringText_init hlen] at hconv
  rw [List.dropLast_concat]
  exact hconv

/-- The absolute value that `%e` takes is one, except of the least `int`. -/
theorem abs_of_ne_intMin {err : BitVec 32} (hmin : err ≠ BitVec.intMin 32) :
    ¬ (if err.slt 0 then -err else err).slt 0 = true ∧
      (if err.slt 0 then -err else err).toNat = err.toInt.natAbs := by
  have hne : err.toNat ≠ 2 ^ 31 := by
    intro h
    exact hmin (BitVec.eq_of_toNat_eq h)
  have hlt := err.isLt
  by_cases hneg : err.slt 0 = true
  · have hlarge := (slt_zero_iff err).mp hneg
    have hint : err.toInt = err.toNat - 2 ^ 32 := by
      rw [BitVec.toInt_eq_toNat_cond, if_neg (by omega)]
      rfl
    rw [if_pos hneg, slt_zero_iff, hint, BitVec.toNat_neg]
    omega
  · have hsmall := mt (slt_zero_iff err).mpr hneg
    rw [if_neg hneg, BitVec.toInt_eq_toNat_of_lt (by omega)]
    exact ⟨hneg, rfl⟩

theorem MAXERROR_slt {err : BitVec 32} (hpos : ¬ err.slt 0 = true) :
    MAXERROR.slt err = true ↔ 6 < err.toNat := by
  have hsmall := mt (slt_zero_iff err).mpr hpos
  rw [BitVec.slt_iff_toInt_lt, BitVec.toInt_eq_toNat_of_lt (x := err) (by omega)]
  show (6 : ℤ) < _ ↔ _
  omega

theorem converts_error {v : BitVec 64} (hc : label c = .error)
    (hmin : v.setWidth 32 ≠ BitVec.intMin 32) :
    Converts M e c (.word v :: ap) ap (chars (errorText (v.setWidth 32).toInt.natAbs)) := by
  intro a b callers t
  obtain ⟨hpos, habs⟩ := abs_of_ne_intMin hmin
  have hint : vaInt (.word v :: ap) = .ok (v.setWidth 32, ap) := rfl
  rw [← habs]
  generalize herr : (if (v.setWidth 32).slt 0 then -v.setWidth 32 else v.setWidth 32) = err at hpos
  have hcall : ∀ f arg text, Prints M f [arg] [] text →
      fmtSwitch (collector M) (fmtAt (a ++ [c]) b (.word v :: ap) (.escape e) callers t) e c =
        .ok ((fmtAt (a ++ [c]) b (.word v :: ap) (.escape e) callers t).printfmt ap (f ++ [0])
          arg) →
      Steps (vprintfmtStep (collector M)) (fmtAt a (c :: b) (.word v :: ap) (.escape e) callers t)
        (fmtAt (a ++ [c]) b ap .scan callers (t ++ text)) := by
    intro f arg text hf heq
    exact (escape_step heq).steps.trans (hf.call _)
  by_cases hlarge : 6 < err.toNat
  · have hnone : errorTable[err.toNat]? = none := List.getElem?_eq_none hlarge
    rw [errorText, hnone]
    refine hcall _ _ _ (prints_error_decimal hpos) ?_
    simp only [fmtSwitch, hc, fmtAt, hint, bind, Except.bind, pure, Except.pure, herr,
      if_pos ((MAXERROR_slt hpos).mpr hlarge)]
    rfl
  · have hlt : err.toNat < errorTable.length := Nat.lt_succ_of_le (Nat.le_of_not_lt hlarge)
    have hsome : errorTable[err.toNat]? = some errorTable[err.toNat] := List.getElem?_eq_getElem hlt
    have hlookup : (collector M).errorString err = .ok errorTable[err.toNat] := by
      rw [Device.errorString, hsome]
    have hmem : errorTable[err.toNat] ∈ errorTable := List.getElem_mem hlt
    rw [errorText, hsome]
    cases hp : errorTable[err.toNat] with
    | none =>
      refine hcall _ _ _ (prints_error_decimal hpos) ?_
      simp only [fmtSwitch, hc, fmtAt, hint, bind, Except.bind, pure, Except.pure, herr,
        if_neg (mt (MAXERROR_slt hpos).mp hlarge), hlookup, hp]
      rfl
    | some s =>
      rw [hp] at hmem
      refine hcall _ _ _ (prints_error_string hmem) ?_
      simp only [fmtSwitch, hc, fmtAt, hint, bind, Except.bind, pure, Except.pure, herr,
        if_neg (mt (MAXERROR_slt hpos).mp hlarge), hlookup, hp]
      rfl

/-- The next character is a `%e`'s whose argument is the least `int`. -/
def FmtState.TakesIntMin {σ : Type} (s : FmtState σ) : Prop :=
  ∃ e v ap, s.frame.ctl = .escape e ∧ loadByte s.frame.fmt s.frame.pos = .ok (ch 'e') ∧
    s.frame.ap = .word v :: ap ∧ v.setWidth 32 = BitVec.intMin 32

theorem takesIntMin_fmtAt {v : BitVec 64} (hmin : v.setWidth 32 = BitVec.intMin 32) :
    (fmtAt a (ch 'e' :: b) (.word v :: ap) (.escape e) callers t).TakesIntMin :=
  ⟨e, v, ap, rfl, loadByte_append a (ch 'e') b, rfl, hmin⟩

/-- The negation of the least `int` is itself, and the table is read far before its beginning. -/
theorem FmtState.TakesIntMin.exit {σ : Type} {D : Device σ} {s : FmtState σ} {x : Halt}
    (h : s.TakesIntMin) (hD : D.outside.error (BitVec.intMin 32) = .error x) :
    Exit (vprintfmtStep D) s (.error x) := by
  obtain ⟨e, v, ap, hctl, hread, hap, hmin⟩ := h
  have hint : vaInt (.word v :: ap) = .ok (BitVec.intMin 32, ap) := by
    rw [← hmin]
    rfl
  have hlabel : label (ch 'e') = .error := rfl
  have hneg : (if (BitVec.intMin 32).slt 0 then -BitVec.intMin 32 else BitVec.intMin 32) =
      BitVec.intMin 32 := rfl
  have hlarge : ¬ MAXERROR.slt (BitVec.intMin 32) = true := by decide
  have hlookup : D.errorString (BitVec.intMin 32) = .error x := hD
  unfold Exit
  simp only [vprintfmtStep, hctl, hread, fmtSwitch, hlabel, hap, hint, bind, Except.bind, hneg,
    if_neg hlarge, hlookup]
  rfl

end

end CertiCore
