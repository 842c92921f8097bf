import TransitTransfers.Decimal.Shortest

/-!
# Styles of written numbers

Floating-point numbers stand in messages for people and in documents.  Both
write the shortest decimal that reads back.  They differ in where the point
stands, in what marks a whole number and in what stands for a value that is no
number, and a `NumberStyle` holds these decisions.  The style of messages is
defined here; that of documents belongs to their format.
-/

namespace TransitTransfers

/-- How a floating-point number is written. -/
structure NumberStyle where
  /-- Where a value between two equally short decimals goes. -/
  tie : Tie
  /-- The powers of ten of the first digit that are written without an
  exponent: from the first number on, and below the second.  All of them if
  there is no range. -/
  plain : Option (Int × Int)
  /-- What stands behind a whole number. -/
  whole : String
  /-- The text of what is not a number. -/
  nan : String
  /-- The text of an infinity with its sign, if it is negative. -/
  infinite : Bool → String

namespace NumberStyle

/-- A decimal without exponent; `whole` follows it if it has no fraction. -/
def positional (whole : String) (d : Decimal) : String :=
  if d.leading < 0 then
    "0." ++ String.ofList (List.replicate (-d.leading - 1).toNat '0' ++ d.digits)
  else
    let places := d.leading.toNat + 1
    let zeros := List.replicate (places - d.digits.length) '0'
    let front := String.ofList (d.digits.take places ++ zeros)
    match d.digits.drop places with
    | [] => front ++ whole
    | fraction => front ++ "." ++ String.ofList fraction

/-- A decimal with one digit before the point, and a signed power of ten. -/
def scientific (d : Decimal) : String :=
  let front := String.ofList (d.digits.take 1)
  let fraction := String.ofList (d.digits.drop 1)
  let point := if fraction.isEmpty then "" else "."
  let sign := if d.leading < 0 then "-" else "+"
  front ++ point ++ fraction ++ "e" ++ sign ++ toString d.leading.natAbs

/-- A positive decimal in a style. -/
def layout (style : NumberStyle) (d : Decimal) : String :=
  match style.plain with
  | none => positional style.whole d
  | some (least, bound) =>
    if least ≤ d.leading ∧ d.leading < bound then positional style.whole d
    else scientific d

/-- The text of a value in a style. -/
def write (style : NumberStyle) : Binary64 → String
  | .nan => style.nan
  | .infinite negative => style.infinite negative
  | .finite negative mantissa exponent =>
    let sign := if negative then "-" else ""
    if mantissa = 0 then sign ++ "0" ++ style.whole
    else sign ++ style.layout (Decimal.shortest style.tie mantissa exponent)

/-- Messages write every digit before the point, and a whole number as an
integer. -/
def message : NumberStyle where
  tie := .up
  plain := none
  whole := ""
  nan := "NaN"
  infinite := fun negative => if negative then "-inf" else "inf"

end NumberStyle

end TransitTransfers
