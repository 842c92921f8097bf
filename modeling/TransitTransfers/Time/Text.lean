import TransitTransfers.Time
import TransitTransfers.Decimal.Digits

/-!
# Texts of clock times and durations

A clock time is written `HH:MM:SS`, with at least two digits in every field
and as many hours as it takes.  Reading is more liberal than writing: a field
is any number that fits a word, with an optional plus sign, and minutes and
seconds may pass 59.  Three fields make a time, any other number of fields is
no time.

The fields are read from the left, and each is turned into seconds before the
next one is looked at.  So a text whose hours alone pass the range of a word
faults, whatever stands behind them.
-/

namespace TransitTransfers

/-! ## Writing -/

/-- The characters of a clock time, as in `25:05:00`. -/
def Time.chars (t : Time) : List Char :=
  Digits.padded 2 (t.seconds / 3600) ++ ':' ::
    (Digits.padded 2 (t.seconds % 3600 / 60) ++ ':' ::
      Digits.padded 2 (t.seconds % 60))

/-- A clock time as text, as in `25:05:00`. -/
def Time.text (t : Time) : String := String.ofList t.chars

/-- A duration as text: `45s`, `2m`, `2m30s`, and `1h2m5s` from one hour on. -/
def Duration.text (d : Duration) : String :=
  let h := d.seconds / 3600
  let m := d.seconds % 3600 / 60
  let s := d.seconds % 60
  if h ≠ 0 then s!"{h}h{m}m{s}s"
  else if m = 0 then s!"{s}s"
  else if s = 0 then s!"{m}m"
  else s!"{m}m{s}s"

/-! ## Reading -/

/-- The parts of a text between its colons; there is always one at least. -/
def colonFields : List Char → List (List Char)
  | [] => [[]]
  | c :: rest =>
    if c = ':' then [] :: colonFields rest
    else
      match colonFields rest with
      | field :: fields => (c :: field) :: fields
      | [] => [[c]]

/-- A field of a clock text: a number that fits a word, with an optional plus
sign in front. -/
def readField (chars : List Char) : Option Duration :=
  let digits :=
    match chars with
    | '+' :: rest => rest
    | _ => chars
  (Digits.value? digits).bind Duration.ofSeconds?

/-- The time that hours, minutes and seconds past midnight add up to. -/
def Time.ofParts (hours minutes seconds : Duration) : Except Fault Time := do
  let whole ← hours.add minutes
  let total ← whole.add seconds
  return ⟨total.seconds, total.fits⟩

/-- The time that a clock text stands for, if it is one. -/
def Time.ofChars (chars : List Char) : Except Fault (Option Time) :=
  match colonFields chars with
  | [] => return none
  | hourField :: fields => do
    let some h := readField hourField | return none
    let hours ← Duration.ofHours h.seconds
    let minuteField :: fields := fields | return none
    let some m := readField minuteField | return none
    let minutes ← Duration.ofMinutes m.seconds
    let secondField :: fields := fields | return none
    let some seconds := readField secondField | return none
    let [] := fields | return none
    return some (← Time.ofParts hours minutes seconds)

/-- The time that a clock text stands for, if it is one. -/
def Time.read (text : String) : Except Fault (Option Time) :=
  Time.ofChars text.toList

end TransitTransfers
