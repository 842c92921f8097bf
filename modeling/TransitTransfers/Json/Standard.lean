import TransitTransfers.Decimal.Style
import TransitTransfers.Json.Format
import TransitTransfers.Json.Reader

/-!
# The standard format

`Format.standard` keeps values in JSON texts.  A record is read from an object member
by member, and it is written without blanks.  In place of an object a list of the
fields in their order will do; it may be shorter.

An integer is read from an integer literal only.  A floating-point number is read
as the nearest one, by its first 768 digits and by whether there are more.  It is
written by the shortest digits that are read back.
-/

namespace TransitTransfers

/-! ## Numbers -/

namespace Numeral

/-- The integer that an integer literal stands for.  `-0` is no integer: it
stands for the negative zero of floating-point numbers. -/
def toInt? (n : Numeral) : Option Int :=
  if ¬ n.isInteger then none
  else if ¬ n.negative then some n.mantissa
  else if n.mantissa = 0 then none
  else some (-n.mantissa)

/-- The number of digits of a numeral that count one by one. -/
def digitLimit : Nat := 768

/-- The mantissa and the exponent, where a single one stands for all digits
beyond the limit.  No half-way point between two floating-point numbers has
more digits than the limit, so it is still told on which side of it the number
lies.  A number on a half-way point whose mantissa runs on in zeros beyond the
limit comes to lie above it. -/
def shorten (mantissa : Nat) (exponent : Int) : Nat × Int :=
  let excess := (Digits.ofNat mantissa).length - digitLimit
  if excess = 0 then (mantissa, exponent)
  else (mantissa / Nat.pow 10 excess * 10 + 1, exponent + excess - 1)

/-- The magnitude of the floating-point number nearest to
`mantissa * 10 ^ exponent`, unless it passes the range.  Numbers that are out
of range by many orders of magnitude are told by their count of digits. -/
def magnitude? (mantissa : Nat) (exponent : Int) : Option Float :=
  let (mantissa, exponent) := shorten mantissa exponent
  let order := exponent + (Digits.ofNat mantissa).length
  if mantissa = 0 ∨ order < -400 then some 0
  else if 400 < order then none
  else
    let x := Float.ofScientific mantissa (exponent < 0) exponent.natAbs
    if x.isInf then none else some x

/-- The floating-point number nearest to a numeral, unless it passes the
range. -/
def toFloat? (n : Numeral) : Option Float :=
  (magnitude? n.mantissa n.exponent).map fun x => if n.negative then -x else x

end Numeral

/-- Documents write a whole number with one zero behind the point, very large
and very small numbers with an exponent, and `null` for what has no digits. -/
def NumberStyle.document : NumberStyle where
  tie := .even
  plain := some (-5, 16)
  whole := ".0"
  nan := "null"
  infinite := fun _ => "null"

/-! ## Single values -/

namespace Json

/-- The truth value that a document gives. -/
def toBool? : Json → Option Bool
  | .bool value => some value
  | _ => none

/-- The integer that a document gives by an integer literal. -/
def toInt? : Json → Option Int
  | .number n => n.toInt?
  | _ => none

/-- The natural number that a document gives by an integer literal. -/
def toNat? (value : Json) : Option Nat :=
  match value.toInt? with
  | some (.ofNat n) => some n
  | _ => none

/-- The floating-point number that a document gives by any number in range. -/
def toFloat? : Json → Option Float
  | .number n => n.toFloat?
  | _ => none

end Json

/-! ## Records -/

namespace Record

variable {σ : Type}

/-- Reads the members of an object into a record. -/
def readMembers (r : Record σ) : σ → List (Option String × Json) → Option σ
  | record, [] => some record
  | _, (none, _) :: _ => none
  | record, (some key, value) :: members =>
    match r.fields.find? (·.name = key) with
    | none => r.readMembers record members
    | some field =>
      if some key ∈ members.map Prod.fst then none
      else (field.codec.read value).bind fun x => r.readMembers (field.set x record) members

/-- Reads a list of values into the fields of a record, in order. -/
def readItems : List (Field σ) → σ → List Json → Option σ
  | _, record, [] => some record
  | [], _, _ :: _ => none
  | field :: fields, record, value :: values =>
    (field.codec.read value).bind fun x => readItems fields (field.set x record) values

/-- Reads a document into a record. -/
def read (r : Record σ) (start : σ) : Json → Option σ
  | .object members => r.readMembers start members
  | .array items => readItems r.fields start items
  | _ => none

/-- The text of a record: an object with all fields in order. -/
def text (r : Record σ) (record : σ) : String :=
  let members := r.fields.map fun field =>
    "\"" ++ field.name ++ "\":" ++ field.codec.text (field.get record)
  "\x7b" ++ ",".intercalate members ++ "\x7d"

end Record

/-- A format that reads whatever is JSON and writes without blanks. -/
def Format.standard : Format where
  read := Json.read
  bool := ⟨Json.toBool?, fun x => if x then "true" else "false"⟩
  float := ⟨Json.toFloat?, fun x => NumberStyle.document.write (.ofFloat x)⟩
  cost := ⟨fun value => value.toInt?.bind Cost.ofInt?, fun c => toString c.units⟩
  duration := ⟨fun value => value.toNat?.bind Duration.ofSeconds?, fun d => toString d.seconds⟩
  record r start := ⟨r.read start, r.text⟩

end TransitTransfers
