import TransitTransfers.Cost
import TransitTransfers.Json
import TransitTransfers.Time

/-!
# Formats of documents

How values are kept in JSON texts is not decided here.  A `Format` stands for the
library that decides it.  It reads a text as a JSON value, it has a `Codec` for each
kind of single value, and it makes the codec of a `Record` from its fields.

What settings need of such a library is that it is lawful.  That leaves open what a
list is read as in place of an object, and how the digits of a floating-point number
are read.
-/

namespace TransitTransfers

/-- How values of a type are kept in documents. -/
structure Codec (α : Type) where
  /-- The value that a document gives. -/
  read : Json → Option α
  /-- The document of a value. -/
  text : α → String

/-! ## Records -/

/-- A field of a record. -/
structure Field (σ : Type) where
  {Value : Type}
  name : String
  codec : Codec Value
  get : σ → Value
  set : Value → σ → σ
  get_set : ∀ x record, get (set x record) = x

/-- A character that stands for itself in a JSON string. -/
def Json.isPlain (c : Char) : Bool := 32 ≤ c.toNat && c ≠ '"' && c ≠ '\\'

/-- The fields of a record, in order. -/
structure Record (σ : Type) where
  fields : List (Field σ)
  /-- Names stand for themselves in a text. -/
  plain : ∀ field ∈ fields, ∀ c ∈ field.name.toList, Json.isPlain c = true
  distinct : (fields.map Field.name).Nodup
  /-- No field changes with another. -/
  separate : ∀ field ∈ fields, ∀ other ∈ fields, field.name ≠ other.name →
    ∀ x record, field.get (other.set x record) = field.get record
  /-- There is nothing in a record but its fields. -/
  ext : ∀ a b, (∀ field ∈ fields, field.get a = field.get b) → a = b

/-! ## Formats -/

/-- A library that keeps values in JSON texts. -/
structure Format where
  /-- The value that a text is. -/
  read : String → Option Json
  bool : Codec Bool
  float : Codec Float
  /-- A cost is a signed word. -/
  cost : Codec Cost
  /-- A duration is a word of seconds. -/
  duration : Codec Duration
  /-- The codec of a record whose missing fields are taken from another one. -/
  record : {σ : Type} → Record σ → σ → Codec σ

end TransitTransfers
