/-!
# JSON values

The values that settings documents are read from.  Objects keep their members
in the order of the text, repeated keys included, because a document that
gives a known field twice is refused.  A number keeps the form in which it was
written, because an integer literal is told from `1.0`.

A JSON string may name one half of a surrogate pair.  Such a string has no
text.  It is allowed wherever its content does not matter.
-/

namespace TransitTransfers

/-- A number as it was written: `± mantissa * 10 ^ exponent`. -/
structure Numeral where
  /-- Whether a minus sign stands in front. -/
  negative : Bool
  /-- All digits, those of the fraction included up to its last one that is
  not zero. -/
  mantissa : Nat
  /-- The power of ten that the last digit counts. -/
  exponent : Int
  /-- Whether it has neither a fraction nor an exponent. -/
  isInteger : Bool
deriving DecidableEq, Repr

/-- A JSON value. -/
inductive Json where
  | null
  /-- One of `true` and `false`. -/
  | bool (value : Bool)
  | number (value : Numeral)
  /-- A string, with its text if it has one. -/
  | string (text : Option String)
  | array (items : List Json)
  /-- Members in the order of the text. -/
  | object (members : List (Option String × Json))

namespace Json

/-- Lists and objects stand in each other on some levels at most; on none, there
are neither. -/
def Within : Nat → Json → Prop
  | 0, .array _ => False
  | 0, .object _ => False
  | levels + 1, .array items => ∀ item ∈ items, item.Within levels
  | levels + 1, .object members => ∀ member ∈ members, member.2.Within levels
  | _, _ => True

end Json

end TransitTransfers
