/-!
# Faults

Times and durations are 32-bit words and costs are signed 32-bit words.  A
sum, difference or product that does not fit its word has no value here: the
computation stops with a `Fault`.  So does a look-up past the end of a list.

A `Fault` is told apart from the refusals of `TransitTransfers.Error`, which
are ordinary answers about ill-formed input.  Everything that can only
overflow or look past an end lives in `Except Fault`.
-/

namespace TransitTransfers

/-- Why a computation on words or positions stops. -/
inductive Fault where
  /-- A sum does not fit its word. -/
  | addition
  /-- A difference does not fit its word. -/
  | subtraction
  /-- A product does not fit its word. -/
  | multiplication
  /-- A list of `length` entries has none at `position`. -/
  | index (length position : Nat)
deriving DecidableEq, Repr

/-- The text of a fault. -/
def Fault.message : Fault → String
  | .addition => "attempt to add with overflow"
  | .subtraction => "attempt to subtract with overflow"
  | .multiplication => "attempt to multiply with overflow"
  | .index length position =>
      s!"index out of bounds: the len is {length} but the index is {position}"

/-- The number of values of an unsigned 32-bit word. -/
abbrev wordSize : Nat := UInt32.size

/-- The entry of `xs` at `position`. -/
def entryAt {α : Type} (xs : List α) (position : Nat) : Except Fault α :=
  match xs[position]? with
  | some x => .ok x
  | none => .error (.index xs.length position)

theorem entryAt_eq_ok_iff {α : Type} {xs : List α} {position : Nat} {x : α} :
    entryAt xs position = .ok x ↔ xs[position]? = some x := by
  unfold entryAt
  split <;> simp_all

theorem entryAt_of_lt {α : Type} {xs : List α} {position : Nat}
    (h : position < xs.length) : entryAt xs position = .ok (xs.get ⟨position, h⟩) := by
  simp [entryAt, h]

end TransitTransfers
