import TransitTransfers.Leg

/-!
# Itineraries

An itinerary leads from an access leg over a first ride and any number of
changes to an egress leg.  A `Change` is the next ride, with the walk to it if
there is one.  So the shape of an itinerary is given by its type: rides and
walks cannot come in a wrong order.  Its legs also follow each other in time
and space, and every itinerary carries the proof of that check.

`Itinerary.ofLegs` reads an itinerary from a list of legs, and reports the
first thing that is wrong with the list: first its ends, then the order of the
kinds of legs, then times and stops along the way.
-/

namespace TransitTransfers

/-- The next ride, with the walk that leads to it. -/
structure Change where
  walk : Option Walk
  ride : Ride
deriving DecidableEq, Repr

/-- The legs of a change, in order. -/
def Change.legs (change : Change) : List Leg :=
  (change.walk.map Leg.walk).toList ++ [.ride change.ride]

/-! ## Legs that follow each other -/

/-- Where and when a leg ends. -/
structure Reached where
  /-- The stop, if the leg ends at a stop. -/
  stop : Option Nat
  time : Time
deriving DecidableEq, Repr

/-- Whether a leg may start at `origin` after one that ends at `reached`. -/
def Reached.misses (reached origin : Option Nat) : Option (Nat × Nat) :=
  match reached, origin with
  | some previous, some start => if previous = start then none else some (start, previous)
  | _, _ => none

/-- The first thing that is wrong with the leg at `index`, which departs from
`origin` and arrives at given times, after a leg that ends at `last`. -/
def legDefect (index : Nat) (last : Option Reached) (origin : Option Nat)
    (departure arrival : Time) : Option ItineraryDefect :=
  if arrival < departure then some (.backwards index arrival departure)
  else
    match last with
    | none => none
    | some reached =>
      if departure < reached.time then some (.tooEarly index departure reached.time)
      else
        (Reached.misses reached.stop origin).map fun (start, previous) =>
          .elsewhere index start previous

/-- Checks the leg at `index` after one that ends at `last`, and tells where
it ends itself. -/
def checkLeg (index : Nat) (last : Option Reached) (leg : Leg) : Except Error Reached := do
  let departure ← leg.departure
  let arrival ← leg.arrival
  match legDefect index last leg.origin? departure arrival with
  | some defect => throw (.badItinerary defect)
  | none => return ⟨leg.destination?, arrival⟩

/-- Checks legs one after the other. -/
def checkLegs : Nat → Option Reached → List Leg → Except Error Unit
  | _, _, [] => return ()
  | index, last, leg :: legs => do
    let reached ← checkLeg index last leg
    checkLegs (index + 1) (some reached) legs

/-! ## The type -/

/-- The legs from access to egress. -/
def joinLegs (access : Access) (first : Ride) (changes : List Change) (egress : Egress) :
    List Leg :=
  .access access :: .ride first :: (changes.flatMap Change.legs ++ [.egress egress])

/-- A journey from an access leg over rides to an egress leg. -/
structure Itinerary where
  access : Access
  first : Ride
  /-- The changes to the other rides. -/
  changes : List Change
  egress : Egress
  /-- The legs follow each other in time and space. -/
  sound : checkLegs 0 none (joinLegs access first changes egress) = .ok ()
deriving DecidableEq

namespace Itinerary

/-- The itinerary of given parts, if its legs follow each other. -/
def ofParts (access : Access) (first : Ride) (changes : List Change) (egress : Egress) :
    Except Error Itinerary :=
  match h : checkLegs 0 none (joinLegs access first changes egress) with
  | .ok () => .ok ⟨access, first, changes, egress, h⟩
  | .error e => .error e

theorem ofParts_eq_ok_iff {access : Access} {first : Ride} {changes : List Change}
    {egress : Egress} {itinerary : Itinerary} :
    ofParts access first changes egress = .ok itinerary ↔
      itinerary.access = access ∧ itinerary.first = first ∧
        itinerary.changes = changes ∧ itinerary.egress = egress := by
  rcases itinerary with ⟨a, f, c, e, sound⟩
  unfold ofParts
  constructor
  · intro h
    split at h
    · cases h; exact ⟨rfl, rfl, rfl, rfl⟩
    · cases h
  · rintro ⟨rfl, rfl, rfl, rfl⟩
    split
    · rfl
    · simp_all

/-! ## Reading a list of legs -/

/-- The changes that rides and walks behind a first ride make up. -/
def changesOf : List Leg → Except ItineraryDefect (List Change)
  | [] => .ok []
  | .ride ride :: legs => (changesOf legs).map (⟨none, ride⟩ :: ·)
  | .walk walk :: .ride ride :: legs => (changesOf legs).map (⟨some walk, ride⟩ :: ·)
  | [.walk _] => .error .walkLast
  | .walk _ :: .walk _ :: _ => .error .twoWalks
  | _ => .error .strayEnd

/-- The first ride and the changes that the legs between access and egress
make up. -/
def ridesOf : List Leg → Except ItineraryDefect (Ride × List Change)
  | [] => .error .noRide
  | .ride ride :: legs => (changesOf legs).map (ride, ·)
  | .walk _ :: _ => .error .walkFirst
  | _ => .error .strayEnd

/-- The access leg, the legs between, and the egress leg of a list of legs. -/
def endsOf : List Leg → Except ItineraryDefect (Access × List Leg × Egress)
  | .access access :: legs =>
    match legs.getLast? with
    | some (.egress egress) => .ok (access, legs.dropLast, egress)
    | _ => .error .noEgress
  | _ => .error .noAccess

/-- The parts of an itinerary, told from the kinds of its legs. -/
def partsOf (legs : List Leg) :
    Except ItineraryDefect (Access × Ride × List Change × Egress) := do
  let (access, between, egress) ← endsOf legs
  let (first, changes) ← ridesOf between
  return (access, first, changes, egress)

/-- The itinerary that a list of legs is. -/
def ofLegs (legs : List Leg) : Except Error Itinerary :=
  match partsOf legs with
  | .ok (access, first, changes, egress) => ofParts access first changes egress
  | .error defect => .error (.badItinerary defect)

/-! ## Parts and sums -/

/-- All legs, from access to egress. -/
def legs (itinerary : Itinerary) : List Leg :=
  joinLegs itinerary.access itinerary.first itinerary.changes itinerary.egress

/-- The rides and walks between access and egress. -/
def innerLegs (itinerary : Itinerary) : List Leg :=
  .ride itinerary.first :: itinerary.changes.flatMap Change.legs

/-- The rides, in order. -/
def rides (itinerary : Itinerary) : List Ride :=
  itinerary.first :: itinerary.changes.map (·.ride)

/-- The last ride. -/
def lastRide (itinerary : Itinerary) : Ride :=
  match itinerary.changes.getLast? with
  | some change => change.ride
  | none => itinerary.first

/-- When the journey starts. -/
def departure (itinerary : Itinerary) : Time := itinerary.access.departure

/-- When the journey ends. -/
def arrival (itinerary : Itinerary) : Time := itinerary.egress.arrival

/-- The generalized cost: what all legs cost together. -/
def cost (itinerary : Itinerary) : Except Fault Cost := do
  let inner ← Cost.total (itinerary.innerLegs.map Leg.cost)
  let start ← itinerary.access.cost.add inner
  start.add itinerary.egress.cost

/-- The time spent in vehicles. -/
def rideDuration (itinerary : Itinerary) : Except Fault Duration := do
  let durations ← itinerary.rides.mapM Ride.duration
  Duration.total durations

/-- Whether two itineraries agree leg by leg; trips are told apart by their
index. -/
def same (a b : Itinerary) : Bool :=
  let left := a.legs
  let right := b.legs
  left.length = right.length && (left.zip right).all fun (x, y) => x.same y

/-- Whether two itineraries ride the same stretches of the same trips, so that
they change at the same positions. -/
def sameStretches (a b : Itinerary) : Bool :=
  a.rides.map Ride.stretch = b.rides.map Ride.stretch

end Itinerary

end TransitTransfers
