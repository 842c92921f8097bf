import TransitTransfers.Timetable.Builder

/-!
# What a step enters

The entries of a timetable grow step by step.  `Entries.apply` says what a step
makes of the entries before it, without indices and without writing anything in
place: an id is looked up by a search.  A step that is refused has no entries as
its result, so it changes nothing.

`Builder.run` takes the same steps with its indices, and `run_follows` compares
the two.
-/

namespace TransitTransfers

namespace Entries

open Timetable (Step)

/-! ## Look-up -/

/-- The stop with an id. -/
def stopById? (entries : Entries) (id : String) : Option Stop :=
  entries.stops.find? (·.id = id)

/-- The route with an id. -/
def routeById? (entries : Entries) (id : String) : Option Route :=
  entries.routes.find? (·.id = id)

/-- The trip with an id. -/
def tripById? (entries : Entries) (id : String) : Option Trip :=
  entries.trips.find? (·.id = id)

/-- The index of the stop with an id. -/
def stopIndex (entries : Entries) (id : String) : Except Error Nat :=
  match entries.stopById? id with
  | some stop => .ok stop.index
  | none => .error (.unknownStop id)

/-- The index of the route with an id. -/
def routeIndex (entries : Entries) (id : String) : Except Error Nat :=
  match entries.routeById? id with
  | some route => .ok route.index
  | none => .error (.unknownRoute id)

/-- The index of the trip with an id. -/
def tripIndex (entries : Entries) (id : String) : Except Error Nat :=
  match entries.tripById? id with
  | some trip => .ok trip.index
  | none => .error (.unknownTrip id)

/-- The endpoint that ids stand for. -/
def endpoint (entries : Entries) : NamedEndpoint → Except Error Endpoint
  | .stop stop => return .stop (← entries.stopIndex stop)
  | .route stop route => do
    let place ← entries.stopIndex stop
    return .route place (← entries.routeIndex route)
  | .trip stop trip => do
    let place ← entries.stopIndex stop
    return .trip place (← entries.tripIndex trip)

/-! ## Growth -/

/-- Enters a stop. -/
def addStop (entries : Entries) (id name : String) : Except Error Entries :=
  if (entries.stopById? id).isSome then .error (.duplicateId id)
  else .ok { entries with stops := entries.stops ++ [⟨entries.stops.length, id, name⟩] }

/-- Enters a route. -/
def addRoute (entries : Entries) (id : String) (shortName : Option String) :
    Except Error Entries :=
  if (entries.routeById? id).isSome then .error (.duplicateId id)
  else .ok { entries with routes := entries.routes ++ [⟨entries.routes.length, id, shortName⟩] }

/-- The stops of the calls of `trip` from `position` on, where the call
before them, if there is one, departs at `left`.  Every stop has to be known,
and the times must not run backwards. -/
def stopsOfCalls (entries : Entries) (trip : String) :
    Nat → Option Time → List PlannedCall → Except Error (List Nat)
  | _, _, [] => return []
  | position, left, call :: calls => do
    let stop ← entries.stopIndex call.stop
    if call.departure < call.arrival then
      throw (.badCalls trip (.departsEarly position))
    if left.any (call.arrival < ·) then
      throw (.badCalls trip (.arrivesEarly position))
    let stops ← entries.stopsOfCalls trip (position + 1) (some call.departure) calls
    return stop :: stops

/-- The pattern for a route and stops, and all patterns with it; a new one is
entered if there is none yet. -/
def withPattern (entries : Entries) (route : Nat) (stops : List Nat) :
    Pattern × List Pattern :=
  match entries.patterns.find? fun p => p.route = route && p.stops = stops with
  | some pattern => (pattern, entries.patterns)
  | none =>
    let pattern : Pattern := ⟨entries.patterns.length, route, stops⟩
    (pattern, entries.patterns ++ [pattern])

/-- Enters a trip. -/
def addTrip (entries : Entries) (id route : String) (calls : List PlannedCall) :
    Except Error Entries := do
  if (entries.tripById? id).isSome then throw (.duplicateId id)
  let route ← entries.routeIndex route
  if calls.length < 2 then throw (.badCalls id .tooFew)
  let stops ← entries.stopsOfCalls id 0 none calls
  let (pattern, patterns) := entries.withPattern route stops
  let trip : Trip :=
    { index := entries.trips.length, id, route, pattern
      arrivals := calls.map (·.arrival)
      departures := calls.map (·.departure) }
  return { entries with patterns, trips := entries.trips ++ [trip] }

/-- Enters a footpath, one way. -/
def addFootpath (entries : Entries) (origin destination : String) (duration : Duration) :
    Except Error Entries := do
  let origin ← entries.stopIndex origin
  let destination ← entries.stopIndex destination
  return { entries with footpaths := entries.footpaths ++ [⟨origin, destination, duration⟩] }

/-- Enters a transfer rule. -/
def addRule (entries : Entries) (rule : TransferRule) : Entries :=
  { entries with rules := entries.rules.add rule }

/-- The entries after a step, unless the step is refused. -/
def apply (entries : Entries) : Step → Except Error Entries
  | .stop id name => entries.addStop id name
  | .route id shortName => entries.addRoute id shortName
  | .trip id route calls => entries.addTrip id route calls
  | .footpath origin destination duration => entries.addFootpath origin destination duration
  | .rule rule => .ok (entries.addRule rule)

/-- The entries after a step; a refused step changes nothing. -/
def advance (entries : Entries) (step : Step) : Entries :=
  match entries.apply step with
  | .ok grown => grown
  | .error _ => entries

/-- What is entered in some steps, from nothing on. -/
def ofSteps (steps : List Step) : Entries := steps.foldl advance empty

end Entries

end TransitTransfers
