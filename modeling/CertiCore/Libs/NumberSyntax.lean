import CertiCore.Libs.String
import CertiCore.Text.Longest
import CertiCore.Text.Radix

/-!
# What a number looks like

The syntax of numbers as the comment of `strtol` describes it. Which characters are whitespace it
does not say, so this is left open: the blank and the tab are, and perhaps others.
-/

namespace CertiCore

/-- Whitespace, as a set of characters between that of `strtol` and that of the C library. -/
structure IsWhitespace (space : Byte → Bool) : Prop where
  blank : space (ch ' ') = true
  tab : space (ch '\t') = true
  le_isspace : ∀ c, space c = true → c = ch ' ' ∨ (9 ≤ c ∧ c ≤ 13)

/-- The whitespace of the C library. -/
def isspace (c : Byte) : Bool := c = ch ' ' ∨ (9 ≤ c ∧ c ≤ 13)

theorem isWhitespace_isspace : IsWhitespace isspace :=
  ⟨rfl, rfl, fun _ h => of_decide_eq_true h⟩

def isSign (c : Byte) : Bool := c = ch '+' ∨ c = ch '-'

/-- The value of a digit or of a letter of either case. -/
def digitValue (c : Byte) : Option ℕ :=
  ((bytes "0123456789abcdefghijklmnopqrstuvwxyz").idxOf? c).or
    ((bytes "0123456789ABCDEFGHIJKLMNOPQRSTUVWXYZ").idxOf? c)

/-- The character is a digit for the radix `b`. -/
def isDigitOf (b : ℕ) (c : Byte) : Bool := (digitValue c).any (· < b)

/-- The parts of a number. -/
structure NumberText where
  spaces : List Byte
  sign : Option Byte
  /-- The prefix that selects the radix. -/
  mark : List Byte
  radix : ℕ
  digits : List Byte

namespace NumberText

/-- What follows the sign. -/
def body (t : NumberText) : List Byte := t.mark ++ t.digits

def text (t : NumberText) : List Byte := t.spaces ++ (t.sign.toList ++ t.body)

/-- The number that the digits denote, without the sign. -/
def magnitude (t : NumberText) : ℕ := Radix.value t.radix (t.digits.filterMap digitValue)

def value (t : NumberText) : ℤ :=
  if t.sign = some (ch '-') then -(t.magnitude : ℤ) else t.magnitude

end NumberText

/-- The prefixes for a base, with the radix that they select for the digits `ds`. -/
inductive BaseMark : ℕ → List Byte → ℕ → List Byte → Prop
  | none {base : ℕ} {ds : List Byte} (h : base ≠ 0) : BaseMark base [] base ds
  | hex {ds : List Byte} : BaseMark 16 (bytes "0x") 16 ds
  | hexUpper {ds : List Byte} : BaseMark 16 (bytes "0X") 16 ds
  | autoHex {ds : List Byte} : BaseMark 0 (bytes "0x") 16 ds
  | autoOctal {ds : List Byte} : BaseMark 0 (bytes "0") 8 ds
  /-- Digits that begin with a zero are octal ones. -/
  | autoDecimal {ds : List Byte} (h : ds.head? ≠ some (ch '0')) : BaseMark 0 [] 10 ds

/-- The parts make up a number for the base. -/
structure NumberText.Follows (space : Byte → Bool) (base : ℕ) (t : NumberText) : Prop where
  spaces : ∀ c ∈ t.spaces, space c = true
  sign : ∀ c ∈ t.sign, isSign c = true
  mark : BaseMark base t.mark t.radix t.digits
  digits : ∀ c ∈ t.digits, isDigitOf t.radix c = true

/-- The texts of the numbers for the base. -/
def IsNumber (space : Byte → Bool) (base : ℕ) (p : List Byte) : Prop :=
  ∃ t : NumberText, t.Follows space base ∧ t.text = p

end CertiCore
