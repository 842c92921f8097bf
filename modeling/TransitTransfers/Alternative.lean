import TransitTransfers.Alternative.Chains
import TransitTransfers.Pricing

/-!
# Alternatives of an itinerary

An alternative rides the same trips between the same ends, and changes
between them at other places.  A planner lists all of them in three steps.

* Every junction makes an `Offer`: the joins that are found between its trips,
  and its own join if that is not among them.  The search for joins starts at
  the first position where the trip can be boarded at all.
* `Planner.chainsOf` combines one join of every offer, where each trip is
  boarded before it is left.
* `Planner.retime` makes an itinerary of each chain of joins, with new times
  and prices for all legs between access and egress.
-/

namespace TransitTransfers

/-! ## Offers -/

/-- The joins that may be used at a junction. -/
structure Offer where
  found : List Join
  own : Join
deriving DecidableEq, Repr

namespace Offer

/-- The joins to choose from: those that were found, and behind them the
itinerary's own join, unless one of them has its positions. -/
def joins (offer : Offer) : List Join :=
  if offer.found.any fun join => join.positions = offer.own.positions then offer.found
  else offer.found ++ [offer.own]

/-- The first position where the next trip can be boarded. -/
def earliestBoard (offer : Offer) : Nat :=
  ((offer.joins.map (·.board)).min?).getD offer.own.board

end Offer

/-! ## Planners -/

/-- An alternative with the joins that it was made of. -/
structure Alternative where
  itinerary : Itinerary
  /-- Its joins, one for every junction. -/
  joins : List Join
deriving DecidableEq

/-- What alternatives are made from. -/
structure Planner where
  table : Timetable
  slack : SlackPolicy
  weights : CostWeights
deriving DecidableEq

namespace Planner

/-- The offers of junctions, where the first trip can be boarded at `start`. -/
def offersFrom (planner : Planner) : Nat → List Junction → Except Fault (List Offer)
  | _, [] => return []
  | start, junction :: junctions => do
    let own ← Join.ofJunction planner.table junction
    let found ← Join.find planner.table planner.slack junction.arriving.trip start
      junction.departing.trip
    let offer : Offer := ⟨found, own⟩
    let offers ← planner.offersFrom offer.earliestBoard junctions
    return offer :: offers

/-- The offers of the junctions of an itinerary. -/
def offers (planner : Planner) (itinerary : Itinerary) : Except Fault (List Offer) :=
  planner.offersFrom itinerary.first.board itinerary.junctions

/-- The chains of joins that make an alternative of an itinerary: the first
trip is left behind the position where it is boarded. -/
def chainsOf (itinerary : Itinerary) (offers : List Offer) : Except Fault (List (List Join)) :=
  let arena := Arena.build itinerary.lastRide.alight (offers.map Offer.joins)
  let tails := arena.tails.toList.filter fun tail => itinerary.first.board < tail.alight
  tails.mapM fun tail => arena.follow tail.node

/-! ## New times and prices -/

/-- The ride between two positions of a trip by a rider who is ready at a
given time, unless the trip is missed or does not go forward. -/
def rideFrom (planner : Planner) (isFirst : Bool) (ready : Time) (trip : Trip)
    (board alight : Nat) : Except Fault (Option Ride) := do
  let departure ← trip.departureAt board
  let some wait := departure.since? ready | return none
  let arrival ← trip.arrivalAt alight
  let some ride := arrival.since? departure | return none
  let cost ← planner.weights.transitCost isFirst wait ride
  return Ride.of? trip board alight cost

/-- When a walk of a given duration starts: once the alighting slack has
passed, but not so late that the next departure is missed, and not before the
arrival. -/
def walkStart (alighted preferred nextDeparture : Time) (walk : Duration) : Time :=
  max (min preferred (nextDeparture.monus walk)) alighted

/-- The walk of a join, and the time when the rider is ready to board. -/
def walkOver (planner : Planner) (join : Join) : Except Fault (Option Walk × Time) := do
  let alighted ← join.arriving.time
  let nextDeparture ← join.departing.time
  let some path := join.footpath | return (none, alighted)
  let preferred ← alighted.add (planner.slack.alighting join.source.pattern)
  let departure := walkStart alighted preferred nextDeparture path.duration
  let arrival ← departure.add path.duration
  let cost := planner.weights.walkCost path.duration
  let ready ← alighted.add path.duration
  return (some ⟨path.origin, path.destination, departure, arrival, cost⟩, ready)

/-- Rides on from a position of the trip of `ride` at the time `ready`, over
joins that lead to the rides behind it. -/
def ridesFrom (planner : Planner) (isFirst : Bool) (ride : Ride) (board : Nat)
    (ready : Time) : List (Join × Ride) → Except Fault (Option (Ride × List Change))
  | [] => do
    let some taken ← planner.rideFrom isFirst ready ride.trip board ride.alight | return none
    return some (taken, [])
  | (join, next) :: rest => do
    let some taken ← planner.rideFrom isFirst ready ride.trip board join.alight | return none
    let (walk, ready) ← planner.walkOver join
    let some (nextTaken, changes) ← planner.ridesFrom false next join.board ready rest
      | return none
    return some (taken, ⟨walk, nextTaken⟩ :: changes)

/-- The itinerary of parts, or none if its legs do not follow each other. -/
def assemble (access : Access) (first : Ride) (changes : List Change) (egress : Egress) :
    Except Fault (Option Itinerary) :=
  match Itinerary.ofParts access first changes egress with
  | .ok itinerary => .ok (some itinerary)
  | .error (.fault f) => .error f
  | .error _ => .ok none

/-- The itinerary that changes by the joins of a chain. -/
def retime (planner : Planner) (itinerary : Itinerary) (chain : List Join) :
    Except Fault (Option Itinerary) := do
  let others := itinerary.changes.map (·.ride)
  let some (first, changes) ← planner.ridesFrom true itinerary.first itinerary.first.board
      itinerary.access.arrival (chain.zip others)
    | return none
  assemble itinerary.access first changes itinerary.egress

/-- The alternative of each chain, or none where the legs of a chain do not
follow each other. -/
def retimeAll (planner : Planner) (itinerary : Itinerary) (chains : List (List Join)) :
    Except Fault (List (Option Alternative)) :=
  chains.mapM fun chain => do
    let some retimed ← planner.retime itinerary chain | return none
    return some ⟨retimed, chain⟩

/-- All alternatives of an itinerary.  An itinerary without junctions is its
own only alternative. -/
def alternatives (planner : Planner) (itinerary : Itinerary) :
    Except Fault (List Alternative) := do
  if itinerary.changes.isEmpty then return [⟨itinerary, []⟩]
  let offers ← planner.offers itinerary
  let chains ← chainsOf itinerary offers
  let retimed ← planner.retimeAll itinerary chains
  return retimed.filterMap id

end Planner

end TransitTransfers
