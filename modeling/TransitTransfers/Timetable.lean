import TransitTransfers.TransferRule.Table
import TransitTransfers.Error

/-!
# Timetables

A timetable holds stops, routes, patterns, trips, footpaths and transfer
rules.  Each kind of entry is numbered from zero, and data outside refers to an
entry by its id.  Beside the lists stand indices that give the number of an id,
and the footpaths are sorted by the stop that they leave.

A timetable does not change any more once a `Builder` has made it.
-/

namespace TransitTransfers

/-- Stops, routes, patterns and trips, each kind in the order of its numbers. -/
structure Catalogue where
  stops : List Stop
  routes : List Route
  patterns : List Pattern
  trips : List Trip
deriving DecidableEq, Repr

/-- Everything that is scheduled or stated about changing. -/
structure Timetable extends Catalogue where
  /-- Where the stop with an id stands. -/
  stopIndices : List (String × Nat)
  /-- Where the route with an id stands. -/
  routeIndices : List (String × Nat)
  /-- Where the trip with an id stands. -/
  tripIndices : List (String × Nat)
  /-- For each stop the footpaths that leave it. -/
  footpathsByStop : List (List Footpath)
  rules : RuleTable
deriving DecidableEq, Repr

namespace Timetable

/-- The timetable without entries. -/
def empty : Timetable :=
  { stops := [], routes := [], patterns := [], trips := []
    stopIndices := [], routeIndices := [], tripIndices := []
    footpathsByStop := [], rules := .empty }

instance : Inhabited Timetable := ⟨empty⟩

/-! ## Look-up -/

/-- The stop with an id. -/
def stopById? (table : Timetable) (id : String) : Option Stop := do
  let index ← table.stopIndices.lookup id
  table.stops[index]?

/-- The route with an id. -/
def routeById? (table : Timetable) (id : String) : Option Route := do
  let index ← table.routeIndices.lookup id
  table.routes[index]?

/-- The trip with an id. -/
def tripById? (table : Timetable) (id : String) : Option Trip := do
  let index ← table.tripIndices.lookup id
  table.trips[index]?

/-- The footpaths that leave a stop; none if there is no such stop. -/
def footpathsFrom (table : Timetable) (stop : Nat) : List Footpath :=
  table.footpathsByStop[stop]?.getD []

/-- All footpaths, stop by stop. -/
def footpaths (table : Timetable) : List Footpath := table.footpathsByStop.flatten

end Timetable

end TransitTransfers
