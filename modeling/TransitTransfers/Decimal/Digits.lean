/-!
# Decimal digits

Natural numbers written in ASCII decimal digits, and read back.  `ofNat`
writes the digits without leading zeros, `padded` with at least a given
number of places, and `value?` reads any non-empty run of digits, leading
zeros included.
-/

namespace TransitTransfers.Digits

/-- The value of an ASCII digit. -/
def digit? (c : Char) : Option Nat :=
  if '0' ≤ c ∧ c ≤ '9' then some (c.toNat - '0'.toNat) else none

/-- Whether a character is an ASCII digit. -/
def isDigit (c : Char) : Bool := (digit? c).isSome

/-- The digits of a number, without leading zeros; zero is one digit. -/
def ofNat (n : Nat) : List Char := Nat.toDigits 10 n

/-- The digits of a number, with zeros in front up to `width` places. -/
def padded (width n : Nat) : List Char :=
  List.replicate (width - (ofNat n).length) '0' ++ ofNat n

/-- The number that `digits` continue, if `value` stands in front of them. -/
def valueFrom? (value : Nat) : List Char → Option Nat
  | [] => some value
  | c :: rest =>
    match digit? c with
    | some d => valueFrom? (10 * value + d) rest
    | none => none

/-- The number written by a non-empty run of digits. -/
def value? : List Char → Option Nat
  | [] => none
  | digits => valueFrom? 0 digits

end TransitTransfers.Digits
