import CertiCore.Libs.Printfmt

/-!
# What a format consists of

The items of a format, as a reader of its documentation finds them, and the arguments that they
take. A format is given without its NUL.
-/

namespace CertiCore

/-- The flags, digits, the star, the point and the modifier of an escape sequence. -/
def isModifier (c : Byte) : Bool := c ∈ bytes "-0123456789*.#l"

/-- The characters that end an escape sequence. -/
def isConversion (c : Byte) : Bool := c ∈ bytes "cesduopx%"

/-- A part of a format. -/
inductive Item where
  /-- A character outside of escape sequences. -/
  | char (c : Byte)
  /-- An escape sequence with the last character `c`. -/
  | escape (mods : List Byte) (c : Byte)
  /-- An escape sequence at whose last character the format ends. -/
  | unfinished (mods : List Byte)
  deriving DecidableEq

/-- The items of what is left of a format, of which `mods` have been read if an escape sequence has
begun. -/
def itemsFrom : Option (List Byte) → List Byte → List Item
  | none, [] => []
  | some mods, [] => [.unfinished mods]
  | none, c :: fmt =>
    if c = ch '%' then itemsFrom (some []) fmt else .char c :: itemsFrom none fmt
  | some mods, c :: fmt =>
    if isModifier c then itemsFrom (some (mods ++ [c])) fmt
    else .escape mods c :: itemsFrom none fmt

def items (fmt : List Byte) : List Item := itemsFrom none fmt

namespace Item

/-- The characters of an item. -/
def text : Item → List Byte
  | char c => [c]
  | escape mods c => ch '%' :: (mods ++ [c])
  | unfinished mods => ch '%' :: mods

/-- The escape sequences that are not recognized, or not finished. -/
def literal : Item → Bool
  | char _ => false
  | escape _ c => !isConversion c
  | unfinished _ => true

/-- The argument that a conversion takes behind those of the stars. -/
def arg? : Item → List (BitVec 64) → Option (BitVec 64)
  | escape mods _, args => args[mods.count (ch '*')]?
  | _, _ => none

/-- The number of arguments that an item takes. -/
def takes : Item → ℕ
  | char _ => 0
  | escape mods c => mods.count (ch '*') + if isConversion c ∧ c ≠ ch '%' then 1 else 0
  | unfinished mods => mods.count (ch '*')

end Item

/-- The characters of a part of a format. -/
def textOf (its : List Item) : List Byte := its.flatMap Item.text

/-- Each of the items satisfies `P` with the arguments that are left for it. -/
def ForItems (P : Item → List (BitVec 64) → Prop) : List Item → List (BitVec 64) → Prop
  | [], _ => True
  | it :: its, args => P it args ∧ ForItems P its (args.drop it.takes)

end CertiCore
