/-!
# Binary floating-point values as exact numbers

A 64-bit floating-point value is not a number, an infinity, or
`± mantissa * 2 ^ exponent` for a natural mantissa below `2 ^ 53`.
`Binary64.ofFloat` reads which of the three from the bits, and everything that
rounds or prints such a value works on that exact form.
-/

namespace TransitTransfers

/-- What a 64-bit floating-point value stands for. -/
inductive Binary64 where
  | nan
  | infinite (negative : Bool)
  /-- The number `± mantissa * 2 ^ exponent`. -/
  | finite (negative : Bool) (mantissa : Nat) (exponent : Int)
deriving DecidableEq, Repr

namespace Binary64

/-- Reads a value from its sign bit, its eleven exponent bits and its 52
fraction bits. -/
def ofFields (negative : Bool) (biased fraction : Nat) : Binary64 :=
  if biased = 2047 then
    if fraction = 0 then .infinite negative else .nan
  else if biased = 0 then .finite negative fraction (-1074)
  else .finite negative (Nat.pow 2 52 + fraction) (biased - 1075)

/-- What `x` stands for. -/
def ofFloat (x : Float) : Binary64 :=
  let bits := x.toBits.toNat
  ofFields (bits / Nat.pow 2 63 = 1) (bits / Nat.pow 2 52 % Nat.pow 2 11) (bits % Nat.pow 2 52)

/-- The natural number nearest to `mantissa * 2 ^ exponent`; a half goes up. -/
def nearestNat (mantissa : Nat) (exponent : Int) : Nat :=
  match exponent with
  | .ofNat e => mantissa * Nat.pow 2 e
  | .negSucc e => (mantissa + Nat.pow 2 e) / Nat.pow 2 (e + 1)

/-- The integer nearest to a value, a half going away from zero, cut off at
`least` and `greatest`.  What is not a number counts as zero. -/
def nearestInt (least greatest : Int) : Binary64 → Int
  | .nan => 0
  | .infinite true => least
  | .infinite false => greatest
  | .finite negative mantissa exponent =>
    let n : Int := nearestNat mantissa exponent
    max least (min greatest (if negative then -n else n))

end Binary64

end TransitTransfers
