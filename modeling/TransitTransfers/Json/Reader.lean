import TransitTransfers.Decimal.Digits
import TransitTransfers.Json

/-!
# Reading JSON texts

`Json.read` takes a text that is exactly one JSON value, with blanks around
it.  The pieces read from the front of a list of characters and return what
follows them.

A string is read in two steps.  `stringUnits` cuts it at its closing quote
into characters and 16-bit escapes, and `unitsText` joins the escapes of a
surrogate pair.  A string whose escapes do not pair up is well-formed JSON
without a text.
-/

namespace TransitTransfers.Json.Reader

/-- The blanks that may stand between the parts of a value. -/
def isBlank (c : Char) : Bool := c = ' ' || c = '\t' || c = '\n' || c = '\r'

/-- The characters from the first that is no blank on. -/
def skipBlanks (chars : List Char) : List Char := chars.dropWhile isBlank

/-! ## Strings -/

/-- A part of a JSON string. -/
inductive StringUnit where
  /-- A character, plain or by a short escape. -/
  | char (c : Char)
  /-- A 16-bit unit, by an escape of four hexadecimal digits. -/
  | code (n : Nat)
deriving DecidableEq, Repr

/-- The value of a hexadecimal digit. -/
def hexDigit? (c : Char) : Option Nat :=
  if '0' ≤ c ∧ c ≤ '9' then some (c.toNat - '0'.toNat)
  else if 'a' ≤ c ∧ c ≤ 'f' then some (c.toNat - 'a'.toNat + 10)
  else if 'A' ≤ c ∧ c ≤ 'F' then some (c.toNat - 'A'.toNat + 10)
  else none

/-- The value of four hexadecimal digits. -/
def hexCode? (a b c d : Char) : Option Nat := do
  let a ← hexDigit? a
  let b ← hexDigit? b
  let c ← hexDigit? c
  let d ← hexDigit? d
  return ((a * 16 + b) * 16 + c) * 16 + d

/-- The character of a short escape. -/
def shortEscape? : Char → Option Char
  | '"' => some '"'
  | '\\' => some '\\'
  | '/' => some '/'
  | 'b' => some '\x08'
  | 'f' => some '\x0c'
  | 'n' => some '\n'
  | 'r' => some '\r'
  | 't' => some '\t'
  | _ => none

/-- The parts of a string from behind its opening quote, and what follows its
closing quote.  Control characters are not allowed. -/
def stringUnits : List Char → Option (List StringUnit × List Char)
  | [] => none
  | '"' :: rest => some ([], rest)
  | '\\' :: 'u' :: a :: b :: c :: d :: rest => do
    let code ← hexCode? a b c d
    let (units, rest) ← stringUnits rest
    return (.code code :: units, rest)
  | '\\' :: e :: rest => do
    let escaped ← shortEscape? e
    let (units, rest) ← stringUnits rest
    return (.char escaped :: units, rest)
  | c :: rest =>
    if c.toNat < 32 ∨ c = '\\' then none
    else do
      let (units, rest) ← stringUnits rest
      return (.char c :: units, rest)

/-- Whether a 16-bit unit is the first half of a surrogate pair. -/
def isHighSurrogate (n : Nat) : Bool := 0xD800 ≤ n && n < 0xDC00

/-- Whether a 16-bit unit is the second half of a surrogate pair. -/
def isLowSurrogate (n : Nat) : Bool := 0xDC00 ≤ n && n < 0xE000

/-- The characters of a string, unless a half of a surrogate pair stands
alone. -/
def unitsText : List StringUnit → Option (List Char)
  | [] => some []
  | .char c :: rest => (unitsText rest).map (c :: ·)
  | .code high :: .code low :: rest =>
    if isHighSurrogate high then
      if isLowSurrogate low then
        let code := 0x10000 + (high - 0xD800) * 0x400 + (low - 0xDC00)
        (unitsText rest).map (Char.ofNat code :: ·)
      else none
    else if isLowSurrogate high then none
    else (unitsText (.code low :: rest)).map (Char.ofNat high :: ·)
  | .code n :: rest =>
    if isHighSurrogate n || isLowSurrogate n then none
    else (unitsText rest).map (Char.ofNat n :: ·)

/-- A string from behind its opening quote: its text, if it has one, and what
follows its closing quote. -/
def string (chars : List Char) : Option (Option String × List Char) :=
  (stringUnits chars).map fun (units, rest) => ((unitsText units).map String.ofList, rest)

/-! ## Numbers -/

/-- A run of digits, and what follows it. -/
def digits (chars : List Char) : Option (List Char × List Char) :=
  match chars.takeWhile Digits.isDigit with
  | [] => none
  | run => some (run, chars.dropWhile Digits.isDigit)

/-- The digits behind a decimal point, if there is a point. -/
def fraction : List Char → Option (List Char × List Char)
  | '.' :: rest => digits rest
  | rest => some ([], rest)

/-- The exponent behind an `e`, if there is one. -/
def exponent (chars : List Char) : Option (Option Int × List Char) :=
  match chars with
  | [] => some (none, [])
  | e :: rest =>
    if e = 'e' ∨ e = 'E' then do
      let (negative, rest) :=
        match rest with
        | '-' :: rest => (true, rest)
        | '+' :: rest => (false, rest)
        | _ => (false, rest)
      let (run, rest) ← digits rest
      let value : Int := (← Digits.value? run)
      return (some (if negative then -value else value), rest)
    else some (none, chars)

/-- Digits without the zeros at their end. -/
def trimZeros (run : List Char) : List Char :=
  (run.reverse.dropWhile (· = '0')).reverse

/-- A number, and what follows it.  A whole part of several digits does not
start with zero.  Zeros that end the fraction are not kept. -/
def number (chars : List Char) : Option (Numeral × List Char) := do
  let (negative, rest) :=
    match chars with
    | '-' :: rest => (true, rest)
    | _ => (false, chars)
  let (whole, rest) ← digits rest
  if whole.head? = some '0' ∧ whole.length ≠ 1 then none
  let (places, rest) ← fraction rest
  let (power, rest) ← exponent rest
  let kept := trimZeros places
  let mantissa ← Digits.value? (whole ++ kept)
  let value : Numeral :=
    { negative, mantissa
      exponent := power.getD 0 - kept.length
      isInteger := places.isEmpty && power.isNone }
  return (value, rest)

/-! ## Values -/

mutual

/-- A value, and what follows it.  The first argument bounds the depth of the
recursion. -/
def value : Nat → List Char → Option (Json × List Char)
  | 0, _ => none
  | depth + 1, chars =>
    match skipBlanks chars with
    | '[' :: rest =>
      match skipBlanks rest with
      | ']' :: rest => some (.array [], rest)
      | _ => (items depth rest).map fun (found, rest) => (.array found, rest)
    | '\x7b' :: rest =>
      match skipBlanks rest with
      | '\x7d' :: rest => some (.object [], rest)
      | _ => (members depth rest).map fun (found, rest) => (.object found, rest)
    | '"' :: rest => (string rest).map fun (text, rest) => (.string text, rest)
    | 't' :: 'r' :: 'u' :: 'e' :: rest => some (.bool true, rest)
    | 'f' :: 'a' :: 'l' :: 's' :: 'e' :: rest => some (.bool false, rest)
    | 'n' :: 'u' :: 'l' :: 'l' :: rest => some (.null, rest)
    | rest => (number rest).map fun (found, rest) => (.number found, rest)

/-- The items of a list from the first one on, and what follows the closing
bracket. -/
def items : Nat → List Char → Option (List Json × List Char)
  | 0, _ => none
  | depth + 1, chars => do
    let (first, rest) ← value depth chars
    match skipBlanks rest with
    | ']' :: rest => return ([first], rest)
    | ',' :: rest =>
      let (others, rest) ← items depth rest
      return (first :: others, rest)
    | _ => none

/-- The members of an object from the first one on, and what follows the
closing brace. -/
def members : Nat → List Char → Option (List (Option String × Json) × List Char)
  | 0, _ => none
  | depth + 1, chars => do
    let '"' :: rest := skipBlanks chars | none
    let (key, rest) ← string rest
    let ':' :: rest := skipBlanks rest | none
    let (first, rest) ← value depth rest
    match skipBlanks rest with
    | '\x7d' :: rest => return ([(key, first)], rest)
    | ',' :: rest =>
      let (others, rest) ← members depth rest
      return ((key, first) :: others, rest)
    | _ => none

end

end Reader

/-- The value that a text is, with nothing but blanks around it.  Every level
of nesting takes a character, so twice the length bounds the recursion. -/
def read (text : String) : Option Json := do
  let chars := text.toList
  let (found, rest) ← Reader.value (2 * chars.length + 1) chars
  if (Reader.skipBlanks rest).isEmpty then some found else none

end TransitTransfers.Json
