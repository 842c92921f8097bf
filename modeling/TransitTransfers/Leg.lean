import TransitTransfers.Schedule
import TransitTransfers.Cost
import TransitTransfers.Error

/-!
# Legs

An itinerary consists of legs: an access leg to the first stop, rides, walks
between rides, and an egress leg from the last stop.  Access and egress legs
come from outside and are never changed.

A `Ride` goes forward between two positions of its trip, and its type says so.
Hence the stops of a ride always exist, while its times may be missing on a
trip that was made by hand.  `Ride.locate` finds a ride again by the stops and
times at which it starts and ends.
-/

namespace TransitTransfers

/-! ## Kinds of legs -/

/-- From the origin to the first stop. -/
structure Access where
  stop : Nat
  departure : Time
  arrival : Time
  cost : Cost
deriving DecidableEq, Repr

/-- From the last stop to the destination. -/
structure Egress where
  stop : Nat
  departure : Time
  arrival : Time
  cost : Cost
deriving DecidableEq, Repr

/-- A walk from one stop to another between two rides. -/
structure Walk where
  origin : Nat
  destination : Nat
  departure : Time
  arrival : Time
  cost : Cost
deriving DecidableEq, Repr

/-- A ride on one trip, from one position to a later one. -/
structure Ride where
  trip : Trip
  board : Nat
  alight : Nat
  cost : Cost
  /-- The ride goes forward. -/
  forward : board < alight
  /-- It ends on the trip. -/
  within : alight < trip.length
deriving DecidableEq, Repr

/-- A leg of an itinerary. -/
inductive Leg where
  | access (leg : Access)
  | ride (leg : Ride)
  | walk (leg : Walk)
  | egress (leg : Egress)
deriving DecidableEq, Repr

/-- How long a walk takes. -/
def Walk.duration (walk : Walk) : Except Fault Duration :=
  walk.arrival.since walk.departure

/-! ## Rides -/

namespace Ride

/-- The ride between two positions of a trip, if it goes forward. -/
def of? (trip : Trip) (board alight : Nat) (cost : Cost) : Option Ride :=
  if h : board < alight ∧ alight < trip.length then
    some ⟨trip, board, alight, cost, h.1, h.2⟩
  else none

/-- The ride between two positions of a trip. -/
def between (trip : Trip) (board alight : Nat) (cost : Cost) : Except Error Ride :=
  match of? trip board alight cost with
  | some ride => .ok ride
  | none => .error (.badItinerary (.notRidable trip.id board alight))

/-- The position where a ride from `stop` at `time` boards: the one that is
found from `time` on, if it departs at that very time. -/
def locateBoard (trip : Trip) (stop : Nat) (time : Time) : Except Fault (Option Nat) := do
  let some position ← trip.boarding? time stop | return none
  let departure ← trip.departureAt position
  return if departure = time then some position else none

/-- The position where a ride to `stop` at `time` alights: the one that is
found up to `time`, if it arrives at that very time and is behind `board`. -/
def locateAlight (trip : Trip) (board stop : Nat) (time : Time) :
    Except Fault (Option Nat) := do
  let some position ← trip.alighting? time stop | return none
  let arrival ← trip.arrivalAt position
  return if arrival = time ∧ board < position then some position else none

/-- The ride that starts and ends at given stops and times. -/
def locate (trip : Trip) (boardStop : Nat) (boardTime : Time) (alightStop : Nat)
    (alightTime : Time) (cost : Cost) : Except Error Ride := do
  let some board ← locateBoard trip boardStop boardTime
    | throw (.noSuchCall trip.id boardStop boardTime)
  let some alight ← locateAlight trip board alightStop alightTime
    | throw (.noSuchCall trip.id alightStop alightTime)
  between trip board alight cost

theorem board_within (ride : Ride) : ride.board < ride.trip.length :=
  Nat.lt_trans ride.forward ride.within

/-- The stop where the rider boards. -/
def boardStop (ride : Ride) : Nat :=
  ride.trip.pattern.stops.get ⟨ride.board, ride.board_within⟩

/-- The stop where the rider alights. -/
def alightStop (ride : Ride) : Nat :=
  ride.trip.pattern.stops.get ⟨ride.alight, ride.within⟩

theorem stopAt_board (ride : Ride) : ride.trip.stopAt ride.board = .ok ride.boardStop :=
  entryAt_of_lt ride.board_within

theorem stopAt_alight (ride : Ride) : ride.trip.stopAt ride.alight = .ok ride.alightStop :=
  entryAt_of_lt ride.within

/-- When the rider boards. -/
def boardTime (ride : Ride) : Except Fault Time := ride.trip.departureAt ride.board

/-- When the rider alights. -/
def alightTime (ride : Ride) : Except Fault Time := ride.trip.arrivalAt ride.alight

/-- The departure with which a ride starts. -/
def boardCall (ride : Ride) : Call := ⟨ride.trip, ride.board, .departure⟩

/-- The arrival with which a ride ends. -/
def alightCall (ride : Ride) : Call := ⟨ride.trip, ride.alight, .arrival⟩

/-- How long a ride takes. -/
def duration (ride : Ride) : Except Fault Duration := do
  let arrival ← ride.alightTime
  arrival.since (← ride.boardTime)

/-- The trip of a ride and its two positions, which tell where it goes. -/
def stretch (ride : Ride) : Nat × Nat × Nat := (ride.trip.index, ride.board, ride.alight)

/-- Whether two rides cover the same stretch at the same cost. -/
def same (a b : Ride) : Bool := a.stretch = b.stretch && a.cost = b.cost

end Ride

/-! ## Legs of any kind -/

namespace Leg

/-- When a leg starts. -/
def departure : Leg → Except Fault Time
  | .access leg => .ok leg.departure
  | .ride leg => leg.boardTime
  | .walk leg => .ok leg.departure
  | .egress leg => .ok leg.departure

/-- When a leg ends. -/
def arrival : Leg → Except Fault Time
  | .access leg => .ok leg.arrival
  | .ride leg => leg.alightTime
  | .walk leg => .ok leg.arrival
  | .egress leg => .ok leg.arrival

/-- The stop where a leg starts, if it starts at a stop. -/
def origin? : Leg → Option Nat
  | .access _ => none
  | .ride leg => some leg.boardStop
  | .walk leg => some leg.origin
  | .egress leg => some leg.stop

/-- The stop where a leg ends, if it ends at a stop. -/
def destination? : Leg → Option Nat
  | .access leg => some leg.stop
  | .ride leg => some leg.alightStop
  | .walk leg => some leg.destination
  | .egress _ => none

/-- What a leg costs. -/
def cost : Leg → Cost
  | .access leg => leg.cost
  | .ride leg => leg.cost
  | .walk leg => leg.cost
  | .egress leg => leg.cost

/-- The ride that a leg is, if it is one. -/
def ride? : Leg → Option Ride
  | .ride leg => some leg
  | .access _ | .walk _ | .egress _ => none

/-- The walk that a leg is, if it is one. -/
def walk? : Leg → Option Walk
  | .walk leg => some leg
  | .access _ | .ride _ | .egress _ => none

/-- Whether two legs agree; trips are told apart by their index. -/
def same : Leg → Leg → Bool
  | .access a, .access b => a = b
  | .ride a, .ride b => a.same b
  | .walk a, .walk b => a = b
  | .egress a, .egress b => a = b
  | _, _ => false

/-- A leg as text. -/
def text : Leg → Except Fault String
  | .access leg => .ok s!"Access {leg.departure.text} {leg.arrival.text}"
  | .ride leg => do
    let board ← leg.boardTime
    let alight ← leg.alightTime
    return s!"{leg.trip.id} {board.text} {alight.text}"
  | .walk leg => do
    let duration ← leg.duration
    return s!"Walk {duration.text}"
  | .egress leg => .ok s!"Egress {leg.departure.text} {leg.arrival.text}"

end Leg

end TransitTransfers
