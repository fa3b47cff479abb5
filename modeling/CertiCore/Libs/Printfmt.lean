import CertiCore.Libs.Riscv
import CertiCore.Libs.String
import CertiCore.Memory.Bytes
import CertiCore.Program.Loop

/-!
# `libs/printfmt.c`

The formatter, one iteration of a loop or one round of the switch at a time, and the functions that
print into a buffer. Arithmetic on `int` wraps; what `printnum` gets where its width overflows, and
what the tables hold behind their ends, are parameters, so that a result can be stated for whatever
they are. A pointer into a format is an index of its array.
-/

namespace CertiCore

def E_INVAL : BitVec 32 := 3

def MAXERROR : BitVec 32 := 6

/-- The table `error_string`. -/
def errorTable : List (Option (List Byte)) :=
  [none, some (cstr "unspecified error"), some (cstr "bad process"),
    some (cstr "invalid parameter"), some (cstr "out of memory"), some (cstr "out of processes"),
    some (cstr "segmentation fault")]

/-- What is read behind the end of a table: with an index that is not one of the sixteen digits, and
with one that is not an error code of `error_string`. -/
structure Outside where
  digit : ℕ → Except Halt Byte
  error : BitVec 32 → Except Halt (Option (List Byte))

/-- Behind the digits there is a NUL. No other index is one of the table. -/
def Outside.checked : Outside where
  digit := loadByte (cstr "0123456789abcdef")
  error err := .error (.outOfBounds err.toNat)

/-- The least `int` less one, if it wraps. -/
def wrapped : Except Halt (BitVec 32) := .ok (BitVec.intMin 32 - 1)

/-- `putch` with the data behind `putdat`, the memory that `%s` reads, what is behind the tables,
and what `printnum` gets for the least `int` less one. -/
structure Device (σ : Type) where
  putch : BitVec 32 → σ → σ
  load : σ → BitVec 64 → Option Byte
  outside : Outside := .checked
  underflow : Except Halt (BitVec 32) := wrapped

/-- A pointer to a character: an address, or a place in a string constant of this file. -/
inductive CharPtr where
  | addr (a : BitVec 64)
  | const (s : List Byte)

/-- An argument: a word, or the address of a string constant of this file. -/
inductive VaArg where
  | word (v : BitVec 64)
  | const (s : List Byte)

/-- `va_arg` for a type other than a pointer to a string. -/
def vaWord : List VaArg → Except Halt (BitVec 64 × List VaArg)
  | .word v :: ap => .ok (v, ap)
  | _ => .error .noArg

/-- `va_arg(ap, int)`. -/
def vaInt (ap : List VaArg) : Except Halt (BitVec 32 × List VaArg) := do
  let (v, ap) ← vaWord ap
  return (v.setWidth 32, ap)

/-- `va_arg(ap, char *)`, where `NULL` becomes `"(null)"`. -/
def vaString : List VaArg → Except Halt (CharPtr × List VaArg)
  | .word v :: ap => .ok (if v = 0 then .const (cstr "(null)") else .addr v, ap)
  | .const s :: ap => .ok (.const s, ap)
  | [] => .error .noArg

/-- The bases of the conversions. -/
structure Base where
  val : BitVec 32
  two_le : 2 ≤ val.toNat
  le_sixteen : val.toNat ≤ 16

def Base.octal : Base := ⟨8, by decide, by decide⟩

def Base.decimal : Base := ⟨10, by decide, by decide⟩

def Base.hex : Base := ⟨16, by decide, by decide⟩

section Formatter

variable {σ : Type} (D : Device σ)

/-- `"0123456789abcdef"[i]`. -/
def Device.digit (i : ℕ) : Except Halt Byte :=
  if i < 16 then loadByte (cstr "0123456789abcdef") i else D.outside.digit i

/-- `error_string[err]`. -/
def Device.errorString (err : BitVec 32) : Except Halt (Option (List Byte)) :=
  match errorTable[err.toNat]? with
  | some p => .ok p
  | none => D.outside.error err

/-- `width - 1`. -/
def Device.pred (width : BitVec 32) : Except Halt (BitVec 32) :=
  if width = BitVec.intMin 32 then D.underflow else .ok (width - 1)

/-- `printnum`. The loop `while (-- width > 0)` makes as many rounds as `width - 1` says. -/
def printnum (num : BitVec 64) (base : Base) (width : BitVec 32) (padc : Byte) (dat : σ) :
    Except Halt σ := do
  let result := (doDiv num base.val).1
  let mod := (doDiv num base.val).2
  let width ← D.pred width
  let dat ← if h : num ≥ base.val.setWidth 64 then
      printnum result base width padc dat
    else
      pure ((D.putch (padc.setWidth 32))^[width.toInt.toNat] dat)
  let digit ← D.digit mod.toNat
  return D.putch (digit.setWidth 32) dat
termination_by num.toNat
decreasing_by
  have htwo := base.two_le
  have hval : (base.val.setWidth 64).toNat = base.val.toNat := by
    rw [BitVec.toNat_setWidth]
    exact Nat.mod_eq_of_lt (base.val.isLt.trans (by decide))
  rw [ge_iff_le, BitVec.le_def, hval] at h
  rw [doDiv, BitVec.toNat_udiv, hval]
  exact Nat.div_lt_self (by omega) (by omega)

/-- `*p` for a pointer that `%s` got. -/
def CharPtr.deref (dat : σ) : CharPtr → Except Halt Byte
  | addr a =>
    match D.load dat a with
    | some c => .ok c
    | none => .error (.unmapped a)
  | const s => CertiCore.deref s

/-- `p ++`. -/
def CharPtr.next : CharPtr → CharPtr
  | addr a => addr (a + 1)
  | const s => const s.tail

/-- `strnlen(p, len)`. -/
def strnlen (dat : σ) : ℕ → CharPtr → Except Halt ℕ
  | 0, _ => .ok 0
  | len + 1, p => do
    if (← p.deref D dat) ≠ 0 then return (← strnlen dat len p.next) + 1
    return 0

/-- The variables of an escape sequence. -/
structure Esc where
  padc : Byte
  width : BitVec 32
  precision : BitVec 32
  lflag : BitVec 32
  altflag : Bool

/-- Their values at the `%`. -/
def Esc.init : Esc := ⟨ch ' ', -1, -1, 0, false⟩

/-- The code at the label `process_precision`. -/
def Esc.processPrecision (e : Esc) : Esc :=
  if e.width.slt 0 then { e with width := e.precision, precision := -1 } else e

/-- Where `vprintfmt` is. -/
inductive Ctl where
  /-- The loop that looks for a `%`. -/
  | scan
  /-- The label `reswitch`. -/
  | escape (e : Esc)
  /-- The loop over the digits of a width, with the digit `ch`. -/
  | digits (e : Esc) (ch : Byte)
  /-- The loop over the characters of a string. -/
  | string (e : Esc) (p : CharPtr)

/-- A call of `vprintfmt`: the array of its format, the pointer into it, and the arguments. -/
structure FmtFrame where
  fmt : List Byte
  pos : ℕ
  ap : List VaArg
  ctl : Ctl

/-- The running call, those that wait for it, and the data of `putch`. -/
structure FmtState (σ : Type) where
  frame : FmtFrame
  callers : List FmtFrame
  dat : σ

/-- The labels of the switch. -/
inductive Label where
  | minus | zero | digit | star | dot | hash | long
  | char | error | string | decimal | unsigned | octal | pointer | hex | percent | default
  deriving DecidableEq

def label (c : Byte) : Label :=
  if c = ch '-' then .minus
  else if c = ch '0' then .zero
  else if ch '1' ≤ c ∧ c ≤ ch '9' then .digit
  else if c = ch '*' then .star
  else if c = ch '.' then .dot
  else if c = ch '#' then .hash
  else if c = ch 'l' then .long
  else if c = ch 'c' then .char
  else if c = ch 'e' then .error
  else if c = ch 's' then .string
  else if c = ch 'd' then .decimal
  else if c = ch 'u' then .unsigned
  else if c = ch 'o' then .octal
  else if c = ch 'p' then .pointer
  else if c = ch 'x' then .hex
  else if c = ch '%' then .percent
  else .default

/-- The macro `getuint`. -/
def getuint (lflag : BitVec 32) (ap : List VaArg) : Except Halt (BitVec 64 × List VaArg) := do
  let (v, ap) ← vaWord ap
  if (2 : BitVec 32).sle lflag then return (v, ap)
  else if lflag ≠ 0 then return (v, ap)
  else return ((v.setWidth 32).setWidth 64, ap)

/-- The macro `getint`. -/
def getint (lflag : BitVec 32) (ap : List VaArg) : Except Halt (BitVec 64 × List VaArg) := do
  let (v, ap) ← vaWord ap
  if (2 : BitVec 32).sle lflag then return (v, ap)
  else if lflag ≠ 0 then return (v, ap)
  else return ((v.setWidth 32).signExtend 64, ap)

/-- The loop of the default case, `for (fmt --; fmt[-1] != '%'; fmt --)`, after its `fmt --`. -/
def rewind (fmt : List Byte) : ℕ → Except Halt ℕ
  | 0 => .error (.outOfBounds 0)
  | p + 1 => do
    if (← loadByte fmt p) ≠ ch '%' then rewind fmt p
    else return p + 1

/-- The state at the next round of the outer loop, with the arguments `ap`. -/
def FmtState.scanOn (s : FmtState σ) (ap : List VaArg) (dat : σ) : FmtState σ :=
  { s with frame := { s.frame with ap, ctl := .scan }, dat }

/-- The state at the label `reswitch`. -/
def FmtState.reswitch (s : FmtState σ) (ap : List VaArg) (e : Esc) : FmtState σ :=
  { s with frame := { s.frame with ap, ctl := .escape e } }

/-- The call `printfmt(putch, putdat, fmt, arg)`. -/
def FmtState.printfmt (s : FmtState σ) (ap : List VaArg) (fmt : List Byte) (arg : VaArg) :
    FmtState σ :=
  { s with
    frame := ⟨fmt, 0, [arg], .scan⟩
    callers := { s.frame with ap, ctl := .scan } :: s.callers }

/-- The switch, on the character `c` behind which the pointer into the format stands already. -/
def fmtSwitch (s : FmtState σ) (e : Esc) (c : Byte) : Except Halt (FmtState σ) :=
  let ap := s.frame.ap
  match label c with
  | .minus => .ok (s.reswitch ap { e with padc := ch '-' })
  | .zero => .ok (s.reswitch ap { e with padc := ch '0' })
  | .digit =>
    .ok { s with frame := { s.frame with ctl := .digits { e with precision := 0 } c } }
  | .star => do
    let (precision, ap) ← vaInt ap
    return s.reswitch ap { e with precision }.processPrecision
  | .dot => .ok (s.reswitch ap (if e.width.slt 0 then { e with width := 0 } else e))
  | .hash => .ok (s.reswitch ap { e with altflag := true })
  | .long => .ok (s.reswitch ap { e with lflag := e.lflag + 1 })
  | .char => do
    let (v, ap) ← vaInt ap
    return s.scanOn ap (D.putch v s.dat)
  | .error => do
    let (err, ap) ← vaInt ap
    let err := if err.slt 0 then -err else err
    if MAXERROR.slt err then
      return s.printfmt ap (cstr "error %d") (.word (err.signExtend 64))
    match ← D.errorString err with
    | none => return s.printfmt ap (cstr "error %d") (.word (err.signExtend 64))
    | some p => return s.printfmt ap (cstr "%s") (.const p)
  | .string => do
    let (p, ap) ← vaString ap
    if (0 : BitVec 32).slt e.width ∧ e.padc ≠ ch '-' then
      let len ← strnlen D s.dat (e.precision.signExtend 64).toNat p
      let width := e.width - BitVec.ofNat 32 len
      let dat := (D.putch (e.padc.setWidth 32))^[width.toInt.toNat] s.dat
      let width := if (0 : BitVec 32).slt width then 0 else width
      return { s with frame := { s.frame with ap, ctl := .string { e with width } p }, dat }
    else
      return { s with frame := { s.frame with ap, ctl := .string e p } }
  | .decimal => do
    let (num, ap) ← getint e.lflag ap
    if num.slt 0 then
      let dat := D.putch ((ch '-').setWidth 32) s.dat
      return s.scanOn ap (← printnum D (-num) .decimal e.width e.padc dat)
    else
      return s.scanOn ap (← printnum D num .decimal e.width e.padc s.dat)
  | .unsigned => do
    let (num, ap) ← getuint e.lflag ap
    return s.scanOn ap (← printnum D num .decimal e.width e.padc s.dat)
  | .octal => do
    let (num, ap) ← getuint e.lflag ap
    return s.scanOn ap (← printnum D num .octal e.width e.padc s.dat)
  | .pointer => do
    let dat := D.putch ((ch 'x').setWidth 32) (D.putch ((ch '0').setWidth 32) s.dat)
    let (num, ap) ← vaWord ap
    return s.scanOn ap (← printnum D num .hex e.width e.padc dat)
  | .hex => do
    let (num, ap) ← getuint e.lflag ap
    return s.scanOn ap (← printnum D num .hex e.width e.padc s.dat)
  | .percent => .ok (s.scanOn ap (D.putch (c.setWidth 32) s.dat))
  | .default => do
    let pos ← rewind s.frame.fmt (s.frame.pos - 1)
    let s := s.scanOn ap (D.putch ((ch '%').setWidth 32) s.dat)
    return { s with frame := { s.frame with pos } }

/-- The digits of a character. -/
def isDigit (c : Byte) : Bool := ch '0' ≤ c ∧ c ≤ ch '9'

/-- `vprintfmt`, one iteration of a loop or one round of the switch at a time. -/
def vprintfmtStep (s : FmtState σ) : Except Halt (FmtState σ ⊕ σ) :=
  let f := s.frame
  match f.ctl with
  | .scan => do
    let c ← loadByte f.fmt f.pos
    let s := { s with frame := { f with pos := f.pos + 1 } }
    if c ≠ ch '%' then
      if c = 0 then
        match s.callers with
        | [] => return .inr s.dat
        | caller :: callers => return .inl ⟨caller, callers, s.dat⟩
      else
        return .inl { s with dat := D.putch (c.setWidth 32) s.dat }
    else
      return .inl (s.reswitch f.ap .init)
  | .escape e => do
    let c ← loadByte f.fmt f.pos
    return .inl (← fmtSwitch D { s with frame := { f with pos := f.pos + 1 } } e c)
  | .digits e c => do
    let e := { e with precision := e.precision * 10 + c.setWidth 32 - (ch '0').setWidth 32 }
    let c ← loadByte f.fmt f.pos
    if isDigit c then
      return .inl { s with frame := { f with pos := f.pos + 1, ctl := .digits e c } }
    else
      return .inl (s.reswitch f.ap e.processPrecision)
  | .string e p => do
    let c ← p.deref D s.dat
    let precision := if e.precision.slt 0 then e.precision else e.precision - 1
    if c ≠ 0 ∧ (e.precision.slt 0 ∨ (0 : BitVec 32).sle precision) then
      let out := if e.altflag ∧ (c < ch ' ' ∨ ch '~' < c) then ch '?' else c
      let e := { e with precision, width := e.width - 1 }
      return .inl { s with
        frame := { f with ctl := .string e p.next }
        dat := D.putch (out.setWidth 32) s.dat }
    else
      let dat := (D.putch ((ch ' ').setWidth 32))^[e.width.toInt.toNat] s.dat
      return .inl (s.scanOn f.ap dat)

/-- `vprintfmt(putch, putdat, fmt, ap)` at its beginning. -/
def vprintfmtInit (fmt : List Byte) (ap : List VaArg) (dat : σ) : FmtState σ :=
  ⟨⟨fmt, 0, ap, .scan⟩, [], dat⟩

/-- The same device, with other contents behind the tables. -/
def Device.withOutside (O : Outside) : Device σ := { D with outside := O }

/-- In every run from the state `s`, all lookups are in range: whatever is behind the tables, each
iteration does the same. -/
def LooksUpInRange (s : FmtState σ) : Prop :=
  ∀ s', Loop.Steps (vprintfmtStep D) s s' → ∀ O,
    vprintfmtStep (D.withOutside O) s' = vprintfmtStep D s'

end Formatter

/-! ## Printing into a buffer -/

/-- `struct sprintbuf`, and the memory that holds the buffer. -/
structure SprintBuf where
  buf : BitVec 64
  ebuf : BitVec 64
  cnt : BitVec 32
  mem : Mem

def sprintputch (c : BitVec 32) (b : SprintBuf) : SprintBuf :=
  let b := { b with cnt := b.cnt + 1 }
  if b.buf < b.ebuf then
    { b with mem := Function.update b.mem b.buf (c.setWidth 8), buf := b.buf + 1 }
  else b

def sprintDevice : Device SprintBuf where
  putch := sprintputch
  load b a := some (b.mem a)

/-- `vsnprintf`, with a bound on the iterations of `vprintfmt`: the memory that it leaves, and its
result. -/
def vsnprintf (fuel : ℕ) (mem : Mem) (str : BitVec 64) (size : SizeT) (fmt : List Byte)
    (ap : List VaArg) : Option (Except Halt (Mem × BitVec 32)) :=
  let b : SprintBuf := ⟨str, str + size - 1, 0, mem⟩
  if str = 0 ∨ b.buf > b.ebuf then some (.ok (mem, -E_INVAL))
  else
    (Loop.run (vprintfmtStep sprintDevice) fuel (vprintfmtInit fmt ap b)).map fun r =>
      r.map fun b => (Function.update b.mem b.buf 0, b.cnt)

end CertiCore
