import TransitTransfers.Time.Text

/-!
# Stops, routes, patterns, trips and calls

A trip is one journey of a vehicle.  It calls at the stops of its `Pattern`,
in order, and has an arrival and a departure at each position.  Trips of one
route with the same stops share a pattern.  A pattern may visit a stop more
than once, so a place on a trip is a position and not a stop.

A trip that is made by hand may have fewer times than its pattern has stops.
Reading a missing time is a fault.

Two searches find a position by stop and time.  `Trip.boarding?` first passes
over the calls that depart too early and then takes the first one at the stop;
`Trip.alighting?` does the same from the end of the trip.
-/

namespace TransitTransfers

/-- A place where riders board and alight. -/
structure Stop where
  /-- The place of the stop in the timetable. -/
  index : Nat
  /-- The name that other data refers to the stop by. -/
  id : String
  /-- The name shown to riders. -/
  name : String
deriving DecidableEq, Repr

/-- A line, as riders know it. -/
structure Route where
  /-- The place of the route in the timetable. -/
  index : Nat
  /-- The name that other data refers to the route by. -/
  id : String
  /-- The name shown to riders, if there is one. -/
  shortName : Option String
deriving DecidableEq, Repr

/-- The stops that trips of one route share, in the order of the calls. -/
structure Pattern where
  /-- The place of the pattern in the timetable. -/
  index : Nat
  /-- The route of the trips. -/
  route : Nat
  /-- The stop at each position. -/
  stops : List Nat
deriving DecidableEq, Repr

/-- A walk from one stop to another that the street network offers. -/
structure Footpath where
  origin : Nat
  destination : Nat
  duration : Duration
deriving DecidableEq, Repr

/-- One journey of a vehicle. -/
structure Trip where
  /-- The place of the trip in the timetable. -/
  index : Nat
  /-- The name that other data refers to the trip by. -/
  id : String
  route : Nat
  /-- The stops that the trip calls at. -/
  pattern : Pattern
  arrivals : List Time
  departures : List Time
deriving DecidableEq, Repr

namespace Trip

/-- The number of stops that a trip calls at. -/
def length (trip : Trip) : Nat := trip.pattern.stops.length

/-- The stop at a position. -/
def stopAt (trip : Trip) (position : Nat) : Except Fault Nat :=
  entryAt trip.pattern.stops position

/-- The arrival at a position. -/
def arrivalAt (trip : Trip) (position : Nat) : Except Fault Time :=
  entryAt trip.arrivals position

/-- The departure at a position. -/
def departureAt (trip : Trip) (position : Nat) : Except Fault Time :=
  entryAt trip.departures position

/-! ## Searches by stop and time -/

/-- Whether a trip calls at `stop` at a position. -/
def callsAt (trip : Trip) (stop position : Nat) : Bool :=
  trip.pattern.stops[position]? = some stop

/-- The number of calls, from the first one on, that depart before
`earliest`.  It is a fault if they run past the last departure. -/
def callsBefore (trip : Trip) (earliest : Time) : Except Fault Nat :=
  let early := (trip.departures.take trip.length).takeWhile (· < earliest)
  if early.length = trip.departures.length ∧ early.length < trip.length then
    .error (.index trip.departures.length early.length)
  else .ok early.length

/-- The first position, once the departures have reached `earliest`, where a
trip calls at `stop`. -/
def boarding? (trip : Trip) (earliest : Time) (stop : Nat) : Except Fault (Option Nat) := do
  let first ← trip.callsBefore earliest
  return (List.range' first (trip.length - first)).find? (trip.callsAt stop)

/-- The number of calls that are left when those that arrive after `latest`
are taken away from the end.  It is a fault if the last arrival is missing. -/
def callsUpTo (trip : Trip) (latest : Time) : Except Fault Nat :=
  if trip.arrivals.length < trip.length then
    .error (.index trip.arrivals.length (trip.length - 1))
  else
    let late := (trip.arrivals.take trip.length).reverse.takeWhile (latest < ·)
    .ok (trip.length - late.length)

/-- The last position, before the arrivals pass `latest`, where a trip calls
at `stop`. -/
def alighting? (trip : Trip) (latest : Time) (stop : Nat) : Except Fault (Option Nat) := do
  let bound ← trip.callsUpTo latest
  return (List.range bound).reverse.find? (trip.callsAt stop)

end Trip

/-! ## Calls -/

/-- What a trip does at a stop. -/
inductive Event where
  | arrival
  | departure
deriving DecidableEq, Repr

/-- An arrival or a departure of a trip at one of its positions. -/
structure Call where
  trip : Trip
  position : Nat
  event : Event
deriving DecidableEq, Repr

namespace Call

/-- The stop of a call. -/
def stop (call : Call) : Except Fault Nat := call.trip.stopAt call.position

/-- The time of a call. -/
def time (call : Call) : Except Fault Time :=
  match call.event with
  | .arrival => call.trip.arrivalAt call.position
  | .departure => call.trip.departureAt call.position

/-- Whether two calls are the same event at the same position of the same
trip; trips are told apart by their index. -/
def same (a b : Call) : Bool :=
  a.trip.index = b.trip.index && a.position = b.position && a.event = b.event

/-- A call as text: its stop, its time and its trip. -/
def text (call : Call) : Except Fault String := do
  let stop ← call.stop
  let time ← call.time
  return s!"[{stop} {time.text} {call.trip.id}]"

end Call

end TransitTransfers
