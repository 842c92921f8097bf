import TransitTransfers.Itinerary.Junction

/-!
# Texts of itineraries

An itinerary is written in two ways.  `Itinerary.text` names every leg and
ends with the total cost.  `Itinerary.summary` names the rides with the stops
and times where they start and end, and the waits between them.
-/

namespace TransitTransfers

/-- A leg behind the start of an itinerary, as text.  Access and egress legs
are written elsewhere. -/
def Leg.onward : Leg → Except Fault String
  | .ride leg => do
    let board ← leg.boardTime
    let alight ← leg.alightTime
    return s!" ~ BUS {leg.trip.id} {board.text} {alight.text} ~ {leg.alightStop}"
  | .walk leg => do
    let duration ← leg.duration
    return s!" ~ Walk {duration.text} ~ {leg.destination}"
  | .access _ => .ok ""
  | .egress _ => .ok ""

/-- A ride with the stops and times where it starts and ends, as text. -/
def Ride.summary (ride : Ride) : Except Fault String := do
  let board ← ride.boardTime
  let alight ← ride.alightTime
  return s!"{ride.trip.id} {ride.boardStop}@{board.text} {ride.alightStop}@{alight.text}"

namespace Itinerary

/-- An itinerary as text, leg by leg. -/
def text (itinerary : Itinerary) : Except Fault String := do
  let start := s!"Access {itinerary.departure.text} ~ {itinerary.access.stop}"
  let onward ← itinerary.innerLegs.mapM Leg.onward
  let cost ← itinerary.cost
  return start ++ String.join onward ++
    s!" ~ Egress {itinerary.arrival.text} [${cost.units}]"

/-- The junctions as text, each with the ride that follows it. -/
def junctionSummaries (itinerary : Itinerary) : Except Fault (List String) := do
  let parts ← itinerary.junctions.mapM fun junction => do
    let wait ← junction.wait
    let ride ← junction.departing.summary
    return [s!"wait {wait.text}", ride]
  return parts.flatten

/-- The rides of an itinerary with the waits between them, as text. -/
def summary (itinerary : Itinerary) : Except Fault String := do
  let first ← itinerary.first.summary
  let others ← itinerary.junctionSummaries
  let cost ← itinerary.cost
  let journey := " ~ ".intercalate (first :: others)
  return s!"{journey} [${cost.units}]"

end Itinerary

end TransitTransfers
