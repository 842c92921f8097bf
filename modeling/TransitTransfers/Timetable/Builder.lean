import TransitTransfers.Timetable

/-!
# Building a timetable

A `Builder` takes in one entry after another.  Each kind of entry is numbered
from zero in the order of its steps, and its ids are unique within the kind.
Trips of one route that call at the same stops share a pattern: a new pattern is
entered only if there is none yet for the route and the stops.

A builder is changed in place, and keeps indices beside its lists: where each
stop, route and trip stands by its id, and which pattern a route and its stops
have.  Every write to a list or an index is a step of its own, and a program that
stops halfway leaves behind what it has written so far; nothing is ever taken
back.  So it is a property of the programs, and not of their type, that a refused
step leaves no trace.

In the end `Builder.build` makes a timetable of what has been entered.  Only then
the footpaths are sorted by the stop that they leave.
-/

namespace TransitTransfers

/-- A call of a trip that is to be entered. -/
structure PlannedCall where
  stop : String
  arrival : Time
  departure : Time
deriving DecidableEq, Repr

/-- One side of a transfer rule, by ids. -/
inductive NamedEndpoint where
  | stop (stop : String)
  | route (stop route : String)
  | trip (stop trip : String)
deriving DecidableEq, Repr

/-- A step in which a timetable grows. -/
inductive Timetable.Step where
  | stop (id name : String)
  | route (id : String) (shortName : Option String)
  | trip (id route : String) (calls : List PlannedCall)
  /-- A footpath, one way. -/
  | footpath (origin destination : String) (duration : Duration)
  | rule (rule : TransferRule)
deriving DecidableEq, Repr

/-- What has been entered into a timetable so far. -/
structure Entries extends Catalogue where
  /-- The footpaths, in the order in which they were added. -/
  footpaths : List Footpath
  rules : RuleTable
deriving DecidableEq, Repr

/-- Nothing has been entered yet. -/
def Entries.empty : Entries :=
  { stops := [], routes := [], patterns := [], trips := [], footpaths := [], rules := .empty }

instance : Inhabited Entries := ⟨.empty⟩

/-- A timetable under construction, with indices.  The latest entry of an index
comes first. -/
structure Builder extends Entries where
  /-- Where the stop with an id stands. -/
  stopIndices : List (String × Nat)
  /-- Where the route with an id stands. -/
  routeIndices : List (String × Nat)
  /-- Where the trip with an id stands. -/
  tripIndices : List (String × Nat)
  /-- Where the pattern for a route and its stops stands. -/
  patternIndices : List ((Nat × List Nat) × Nat)
deriving DecidableEq, Repr

namespace Builder

/-- A program that changes a builder in place.  When it stops with an error, the
builder is left as it is at that point. -/
abbrev Program := EStateM Error Builder

/-- Nothing is built yet. -/
def empty : Builder := ⟨.empty, [], [], [], []⟩

instance : Inhabited Builder := ⟨empty⟩

/-! ## Look-up -/

/-- Looks up where something stands, and stops if it is nowhere. -/
def standing (place : Builder → Option Nat) (missing : Error) : Program Nat := do
  match place (← get) with
  | some index => return index
  | none => throw missing

/-- Stops if an id stands for something already. -/
def refuseUsed (place : Builder → Option Nat) (id : String) : Program Unit := do
  if (place (← get)).isSome then throw (.duplicateId id)

/-- Where the stop with an id stands. -/
def stopIndex (id : String) : Program Nat :=
  standing (·.stopIndices.lookup id) (.unknownStop id)

/-- Where the route with an id stands. -/
def routeIndex (id : String) : Program Nat :=
  standing (·.routeIndices.lookup id) (.unknownRoute id)

/-- Where the trip with an id stands. -/
def tripIndex (id : String) : Program Nat :=
  standing (·.tripIndices.lookup id) (.unknownTrip id)

/-- The endpoint that ids stand for. -/
def endpoint : NamedEndpoint → Program Endpoint
  | .stop stop => return .stop (← stopIndex stop)
  | .route stop route => do
    let place ← stopIndex stop
    return .route place (← routeIndex route)
  | .trip stop trip => do
    let place ← stopIndex stop
    return .trip place (← tripIndex trip)

/-! ## Stops and routes -/

/-- Gives the next entry of a list its number, which is noted in an index before
the entry is put behind the list. -/
def append (length : Builder → Nat) (note put : Nat → Builder → Builder) : Program Nat := do
  let index := length (← get)
  modify (note index)
  modify (put index)
  return index

/-- Enters a stop. -/
def stop (id name : String) : Program Nat := do
  refuseUsed (·.stopIndices.lookup id) id
  append (·.stops.length)
    (fun index builder => { builder with stopIndices := (id, index) :: builder.stopIndices })
    (fun index builder =>
      { builder with stops := builder.stops ++ [⟨index, id, name⟩] })

/-- Enters a route. -/
def route (id : String) (shortName : Option String) : Program Nat := do
  refuseUsed (·.routeIndices.lookup id) id
  append (·.routes.length)
    (fun index builder => { builder with routeIndices := (id, index) :: builder.routeIndices })
    (fun index builder =>
      { builder with routes := builder.routes ++ [⟨index, id, shortName⟩] })

/-! ## Trips -/

/-- What is known of a trip after some of its calls. -/
structure Draft where
  /-- The position of the next call. -/
  position : Nat
  /-- The last departure, if there is one. -/
  left : Option Time
  stops : List Nat
  arrivals : List Time
  departures : List Time

/-- Nothing is known of a trip before its first call. -/
def Draft.empty : Draft := ⟨0, none, [], [], []⟩

/-- Takes the next call into a draft. -/
def Draft.add (draft : Draft) (stop : Nat) (call : PlannedCall) : Draft where
  position := draft.position + 1
  left := some call.departure
  stops := draft.stops ++ [stop]
  arrivals := draft.arrivals ++ [call.arrival]
  departures := draft.departures ++ [call.departure]

/-- Takes the next call of `trip` into a draft, unless something is wrong with
it. -/
def call (trip : String) (draft : Draft) (call : PlannedCall) : Program Draft := do
  let stop ← stopIndex call.stop
  if call.departure < call.arrival then
    throw (.badCalls trip (.departsEarly draft.position))
  if draft.left.any (call.arrival < ·) then
    throw (.badCalls trip (.arrivesEarly draft.position))
  return draft.add stop call

/-- The pattern for a route and stops, which is entered if there is none. -/
def pattern (route : Nat) (stops : List Nat) : Program Pattern := do
  match (← get).patternIndices.lookup (route, stops) with
  | some index =>
    match entryAt (← get).patterns index with
    | .ok pattern => return pattern
    | .error fault => throw (.fault fault)
  | none =>
    let index ← append (·.patterns.length)
      (fun index builder =>
        { builder with patternIndices := ((route, stops), index) :: builder.patternIndices })
      (fun index builder =>
        { builder with patterns := builder.patterns ++ [⟨index, route, stops⟩] })
    return ⟨index, route, stops⟩

/-- Enters a trip whose calls make a draft. -/
def enter (id : String) (route : Nat) (pattern : Pattern) (draft : Draft) : Program Nat :=
  append (·.trips.length)
    (fun index builder => { builder with tripIndices := (id, index) :: builder.tripIndices })
    (fun index builder => { builder with
      trips := builder.trips ++
        [⟨index, id, route, pattern, draft.arrivals, draft.departures⟩] })

/-- Enters a trip. -/
def trip (id route : String) (calls : List PlannedCall) : Program Nat := do
  refuseUsed (·.tripIndices.lookup id) id
  let route ← routeIndex route
  if calls.length < 2 then throw (.badCalls id .tooFew)
  let draft ← calls.foldlM (call id) .empty
  let pattern ← pattern route draft.stops
  enter id route pattern draft

/-! ## Footpaths and rules -/

/-- Enters a footpath, one way. -/
def footpath (origin destination : String) (duration : Duration) : Program Unit := do
  let origin ← stopIndex origin
  let destination ← stopIndex destination
  modify fun builder => { builder with
    footpaths := builder.footpaths ++ [⟨origin, destination, duration⟩] }

/-- Enters a transfer rule. -/
def rule (rule : TransferRule) : Program Unit :=
  modify fun builder => { builder with rules := builder.rules.add rule }

/-! ## Runs -/

/-- Takes a step.  For a stop, a route or a trip this gives its number. -/
def run : Timetable.Step → Program (Option Nat)
  | .stop id name => some <$> stop id name
  | .route id shortName => some <$> route id shortName
  | .trip id route calls => some <$> trip id route calls
  | .footpath origin destination duration => do
    footpath origin destination duration
    return none
  | .rule entered => do
    rule entered
    return none

/-- The builder after a step, as the step leaves it behind. -/
def after (builder : Builder) (step : Timetable.Step) : Builder :=
  match run step builder with
  | .ok _ later => later
  | .error _ later => later

/-- The builder after some steps, from the empty one on. -/
def ofSteps (steps : List Timetable.Step) : Builder := steps.foldl after empty

/-- The steps of a run from `builder` on that are not refused, in order. -/
def succeeding : Builder → List Timetable.Step → List Timetable.Step
  | _, [] => []
  | builder, step :: steps =>
    match run step builder with
    | .ok _ later => step :: later.succeeding steps
    | .error _ later => later.succeeding steps

/-! ## The timetable -/

/-- Puts a footpath behind the others that leave the same stop. -/
def shelve (lists : List (List Footpath)) (path : Footpath) :
    Except Fault (List (List Footpath)) := do
  let others ← entryAt lists path.origin
  return lists.set path.origin (others ++ [path])

/-- The timetable of all that has been entered. -/
def build (builder : Builder) : Except Fault Timetable := do
  let bare := List.replicate builder.stops.length []
  let footpathsByStop ← builder.footpaths.foldlM shelve bare
  return { builder with footpathsByStop }

end Builder

/-- The timetable that is built in some steps. -/
def Timetable.ofSteps (steps : List Timetable.Step) : Timetable :=
  match (Builder.ofSteps steps).build with
  | .ok table => table
  | .error _ => .empty

end TransitTransfers
