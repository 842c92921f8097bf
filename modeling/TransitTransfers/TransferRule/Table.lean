import TransitTransfers.TransferRule

/-!
# The table of transfer rules

Rules are kept in shelves, one for every pair of stops that some rule joins.
A change is looked up on the shelf of its two stops only.  Of the rules there
that cover it, the most specific one decides, and among equally specific ones
the one that was added first.
-/

namespace TransitTransfers

/-- The rules between one pair of stops. -/
structure RuleShelf where
  /-- The stop where riders come from. -/
  origin : Nat
  /-- The stop where riders go on. -/
  destination : Nat
  /-- The rules, in the order in which they were added. -/
  rules : List TransferRule
deriving DecidableEq, Repr

/-- All rules, by pairs of stops. -/
structure RuleTable where
  /-- One shelf for each pair of stops. -/
  shelves : List RuleShelf
deriving DecidableEq, Repr

namespace RuleTable

/-- The table without rules. -/
def empty : RuleTable := ⟨[]⟩

instance : Inhabited RuleTable := ⟨empty⟩

/-- Puts a rule at the end of its shelf, on a new shelf if it has none. -/
def addTo (rule : TransferRule) : List RuleShelf → List RuleShelf
  | [] => [⟨rule.arriving.stopIndex, rule.departing.stopIndex, [rule]⟩]
  | shelf :: shelves =>
    if shelf.origin = rule.arriving.stopIndex ∧
        shelf.destination = rule.departing.stopIndex then
      { shelf with rules := shelf.rules ++ [rule] } :: shelves
    else shelf :: addTo rule shelves

/-- The table with one rule more. -/
def add (table : RuleTable) (rule : TransferRule) : RuleTable :=
  ⟨addTo rule table.shelves⟩

/-- The table of a list of rules, added in order. -/
def ofList (rules : List TransferRule) : RuleTable := rules.foldl add empty

/-- The number of rules. -/
def size (table : RuleTable) : Nat :=
  table.shelves.foldl (fun total shelf => total + shelf.rules.length) 0

/-- The rules between two stops. -/
def between (table : RuleTable) (origin destination : Nat) : List TransferRule :=
  match table.shelves.find? fun shelf =>
      shelf.origin = origin && shelf.destination = destination with
  | some shelf => shelf.rules
  | none => []

/-- The more specific of two rules, the first one if they are equal in
that. -/
def moreSpecific (best : Option TransferRule) (rule : TransferRule) :
    Option TransferRule :=
  match best with
  | none => some rule
  | some held => if held.rank < rule.rank then some rule else some held

/-- The rule that decides the change from a call of `source` at `origin` to a
call of `target` at `destination`. -/
def find? (table : RuleTable) (origin destination : Nat) (source target : Trip) :
    Option TransferRule :=
  ((table.between origin destination).filter
    (·.covers origin destination source target)).foldl moreSpecific none

end RuleTable

end TransitTransfers
