import TransitTransfers.Fault

/-!
# Costs

A cost is a whole number of units that fits a signed 32-bit word.  Costs may
be negative.  Sums and differences fault when they leave the word; a number
taken over from elsewhere is cut off at the ends of the word instead.
-/

namespace TransitTransfers

/-- The least cost. -/
abbrev leastCost : Int := -2147483648

/-- The greatest cost. -/
abbrev greatestCost : Int := 2147483647

/-- A cost in whole units. -/
@[ext] structure Cost where
  units : Int
  /-- They are not below the range of a word. -/
  ge_least : leastCost ≤ units
  /-- They are not above the range of a word. -/
  le_greatest : units ≤ greatestCost
deriving DecidableEq, Repr

namespace Cost

/-- No cost. -/
def zero : Cost := ⟨0, by decide, by decide⟩

instance : Inhabited Cost := ⟨zero⟩

/-- The cost of `n` units, if they fit a word. -/
def ofInt? (n : Int) : Option Cost :=
  if h : leastCost ≤ n ∧ n ≤ greatestCost then some ⟨n, h.1, h.2⟩ else none

/-- The cost nearest to `n` units. -/
def clamp (n : Int) : Cost :=
  if h : n < leastCost then ⟨leastCost, by decide, by decide⟩
  else if h' : greatestCost < n then ⟨greatestCost, by decide, by decide⟩
  else ⟨n, Int.not_lt.mp h, Int.not_lt.mp h'⟩

/-- Two costs together. -/
def add (a b : Cost) : Except Fault Cost :=
  match ofInt? (a.units + b.units) with
  | some c => .ok c
  | none => .error .addition

/-- One cost less another. -/
def sub (a b : Cost) : Except Fault Cost :=
  match ofInt? (a.units - b.units) with
  | some c => .ok c
  | none => .error .subtraction

/-- The total of a list of costs, added from the left. -/
def total (cs : List Cost) : Except Fault Cost := cs.foldlM add zero

theorem ofInt?_eq_some_iff {n : Int} {c : Cost} :
    ofInt? n = some c ↔ n = c.units := by
  have h₁ := c.ge_least
  have h₂ := c.le_greatest
  unfold ofInt?
  split
  · simp [Cost.ext_iff]
  · simp only [reduceCtorEq, false_iff]; omega

theorem add_eq_ok_iff {a b c : Cost} :
    a.add b = .ok c ↔ a.units + b.units = c.units := by
  rw [← ofInt?_eq_some_iff]
  unfold add
  split <;> simp_all

theorem sub_eq_ok_iff {a b c : Cost} :
    a.sub b = .ok c ↔ a.units - b.units = c.units := by
  rw [← ofInt?_eq_some_iff]
  unfold sub
  split <;> simp_all

end Cost

end TransitTransfers
