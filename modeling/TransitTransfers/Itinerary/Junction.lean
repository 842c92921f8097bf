import TransitTransfers.Itinerary

/-!
# Junctions

A junction is the place of an itinerary where one ride ends and the next one
starts, with the walk between them.  An itinerary with `n` rides has `n - 1`
junctions.  The wait at a junction is what is left of the time between the two
rides after the walk.

`Itinerary.junctions` reads them from the changes of an itinerary, and
`Junction.ofLegs` from any list of legs, one leg after the other.
-/

namespace TransitTransfers

/-- Where a rider changes from one trip to the next. -/
structure Junction where
  arriving : Ride
  walk : Option Walk
  departing : Ride
deriving DecidableEq, Repr

namespace Junction

/-- How long the walk takes; no time without a walk. -/
def walkDuration (junction : Junction) : Except Fault Duration :=
  match junction.walk with
  | some walk => walk.duration
  | none => .ok .zero

/-- How long the rider stands at the stop where the next ride starts. -/
def wait (junction : Junction) : Except Fault Duration := do
  let board ← junction.departing.boardTime
  let alight ← junction.arriving.alightTime
  let walk ← junction.walkDuration
  let ready ← alight.add walk
  return (board.since? ready).getD .zero

/-- Whether the next ride starts at the stop where the last one ends. -/
def sameStop (junction : Junction) : Bool :=
  junction.arriving.alightStop = junction.departing.boardStop

/-- The legs behind the first ride of a junction. -/
def legs (junction : Junction) : List Leg :=
  Change.legs ⟨junction.walk, junction.departing⟩

end Junction

namespace Itinerary

/-- The junctions of changes that follow a ride. -/
def junctionsFrom (ride : Ride) : List Change → List Junction
  | [] => []
  | change :: changes => ⟨ride, change.walk, change.ride⟩ :: junctionsFrom change.ride changes

/-- The junctions of an itinerary, in order. -/
def junctions (itinerary : Itinerary) : List Junction :=
  junctionsFrom itinerary.first itinerary.changes

/-- How many times the rider changes between trips. -/
def numberOfChanges (itinerary : Itinerary) : Nat := itinerary.changes.length

end Itinerary

/-! ## Reading junctions leg by leg -/

/-- What is known of the junctions of the legs that were read. -/
structure JunctionScan where
  /-- The junctions that are complete. -/
  found : List Junction
  /-- The last ride. -/
  arriving : Option Ride
  /-- The walk behind the last ride. -/
  walk : Option Walk
deriving DecidableEq, Repr

/-- Reads one more leg.  A ride completes a junction if there is a ride before it,
and uses up the walk. -/
def JunctionScan.step (scan : JunctionScan) : Leg → JunctionScan
  | .ride departing =>
    let completed := scan.arriving.map fun arriving => Junction.mk arriving scan.walk departing
    ⟨scan.found ++ completed.toList, some departing, none⟩
  | .walk walk => { scan with walk := some walk }
  | .access _ | .egress _ => scan

/-- The junctions of a list of legs, in order. -/
def Junction.ofLegs (legs : List Leg) : List Junction :=
  (legs.foldl JunctionScan.step ⟨[], none, none⟩).found

end TransitTransfers
