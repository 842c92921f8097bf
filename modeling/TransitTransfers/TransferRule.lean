import TransitTransfers.Schedule
import TransitTransfers.Cost

/-!
# Transfer rules

An operator states how riders may change between trips: at which stops, from
which route or trip to which, how much the change is wanted, and whether it is
forbidden.  Each side of a rule is an `Endpoint`, which always names a stop
and may name a route or a trip besides.  The more it names, the more specific
it is.

`TransferRule.score` is the weight of a rule: a change without leaving the
seat counts 100, a guaranteed connection counts 10, and the operator's
priority counts up to 2.  A forbidden change has no score.
-/

namespace TransitTransfers

/-- How much an operator wants a change, from forbidden on. -/
inductive Priority where
  | notAllowed
  | allowed
  /-- Better than other changes. -/
  | preferred
  /-- The best change. -/
  | recommended
deriving DecidableEq, Repr

namespace Priority

/-- The priority of a rule that states none. -/
def default : Priority := .allowed

instance : Inhabited Priority := ⟨default⟩

/-- Whether a change may be used at all. -/
def isAllowed : Priority → Bool
  | .notAllowed => false
  | _ => true

/-- The place of a priority in the order from forbidden to most wanted. -/
def rank : Priority → Nat
  | .notAllowed => 0
  | .allowed => 1
  | .preferred => 2
  | .recommended => 3

instance : Ord Priority := ⟨fun a b => compare a.rank b.rank⟩

/-- What a priority adds to the score of a rule, unless it forbids. -/
def score : Priority → Option Nat
  | .notAllowed => none
  | .allowed => some 0
  | .preferred => some 1
  | .recommended => some 2

/-- The word for a priority in documents. -/
def word : Priority → String
  | .notAllowed => "NOT_ALLOWED"
  | .allowed => "ALLOWED"
  | .preferred => "PREFERRED"
  | .recommended => "RECOMMENDED"

/-- All priorities, from forbidden to most wanted. -/
def all : List Priority := [.notAllowed, .allowed, .preferred, .recommended]

/-- The priority with a given word. -/
def ofWord? (word : String) : Option Priority := all.find? (·.word = word)

end Priority

/-- One side of a rule: a stop, or the calls of a route or a trip at a
stop. -/
inductive Endpoint where
  | stop (stop : Nat)
  | route (stop route : Nat)
  | trip (stop trip : Nat)
deriving DecidableEq, Repr

namespace Endpoint

/-- The stop that an endpoint names. -/
def stopIndex : Endpoint → Nat
  | .stop s => s
  | .route s _ => s
  | .trip s _ => s

/-- How specific an endpoint is. -/
def rank : Endpoint → Nat
  | .stop _ => 0
  | .route _ _ => 1
  | .trip _ _ => 2

/-- Whether an endpoint covers a call of the trip `vehicle` at the stop
`place`. -/
def covers (endpoint : Endpoint) (place : Nat) (vehicle : Trip) : Bool :=
  endpoint.stopIndex = place &&
    match endpoint with
    | .stop _ => true
    | .route _ r => r = vehicle.route
    | .trip _ i => i = vehicle.index

end Endpoint

/-- What an operator states about changing between trips. -/
structure TransferRule where
  /-- Where the rider comes from. -/
  arriving : Endpoint
  /-- Where the rider goes on. -/
  departing : Endpoint
  /-- How much the change is wanted. -/
  priority : Priority
  /-- The vehicle itself goes on as the other trip. -/
  staySeated : Bool
  /-- The departing vehicle waits for the arriving one. -/
  guaranteed : Bool
  /-- How long the change takes at least, by the operator.  It is for
  information: slack decides what can be reached. -/
  minimum : Option Duration
deriving DecidableEq, Repr

namespace TransferRule

/-- How specific a rule is. -/
def rank (rule : TransferRule) : Nat := rule.arriving.rank + rule.departing.rank

/-- Whether a rule covers the change from a call of `source` at `origin` to a
call of `target` at `destination`. -/
def covers (rule : TransferRule) (origin destination : Nat) (source target : Trip) : Bool :=
  rule.arriving.covers origin source && rule.departing.covers destination target

/-- Whether the change may be used at all. -/
def isAllowed (rule : TransferRule) : Bool := rule.priority.isAllowed

/-- The weight of a rule, unless it forbids the change. -/
def score (rule : TransferRule) : Option Nat :=
  rule.priority.score.map fun base =>
    base + (if rule.staySeated then 100 else 0) + (if rule.guaranteed then 10 else 0)

end TransferRule

end TransitTransfers
