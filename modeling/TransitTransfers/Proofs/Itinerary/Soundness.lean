import TransitTransfers.Itinerary.Junction
import TransitTransfers.Proofs.Timetable.Built

/-!
# What a sound itinerary looks like

An itinerary is accepted when `checkLegs` finds nothing wrong with its legs.
That check goes leg by leg.  What later proofs need goes junction by junction:
the rider is at the stop where a ride starts, and is there in time.

* `Junction.Sound` says that the walk of a junction fits between its two
  rides, and that the rides meet if there is no walk.
* `Onward` says this of all junctions behind a ride, and of the egress leg.
* `checkLegs_joinLegs_eq_ok_iff` proves that `checkLegs` accepts legs exactly
  if they are sound in this sense.  Read from left to right it opens the proof
  that every itinerary carries (`Itinerary.onward`, `Itinerary.sound_of_mem`),
  and from right to left it builds new itineraries.
* `Itinerary.RidesOn` says that an itinerary rides on trips of a timetable,
  and `Itinerary.RidesOn.timed` that these trips are timed.
-/

namespace TransitTransfers

/-! ## One leg after another -/

/-- A leg can follow one that ends at `last`, and ends itself at `here`. -/
structure Leg.Follows (last : Option Reached) (leg : Leg) (here : Reached) : Prop where
  stop : here.stop = leg.destination?
  arrival : leg.arrival = .ok here.time
  /-- It starts where the last leg ends and not before that one ends. -/
  departure : ∃ departure, leg.departure = .ok departure ∧ departure ≤ here.time ∧
    ∀ reached ∈ last, reached.time ≤ departure ∧
      ∀ place ∈ reached.stop, ∀ origin ∈ leg.origin?, place = origin

theorem misses_eq_none_iff {reached origin : Option Nat} :
    Reached.misses reached origin = none ↔
      ∀ place ∈ reached, ∀ start ∈ origin, place = start := by
  cases reached with
  | none => simp [Reached.misses]
  | some place =>
    cases origin with
    | none => simp [Reached.misses]
    | some start => simp [Reached.misses]

theorem legDefect_eq_none_iff {index : Nat} {last : Option Reached} {origin : Option Nat}
    {departure arrival : Time} :
    legDefect index last origin departure arrival = none ↔
      departure ≤ arrival ∧ ∀ reached ∈ last, reached.time ≤ departure ∧
        ∀ place ∈ reached.stop, ∀ start ∈ origin, place = start := by
  unfold legDefect
  by_cases hback : arrival < departure
  · have hle : ¬departure ≤ arrival := Nat.not_le.mpr hback
    simp [hback, hle]
  · have hle : departure ≤ arrival := Nat.not_lt.mp hback
    rw [if_neg hback]
    cases last with
    | none => simp [hle]
    | some reached =>
      dsimp only
      by_cases hearly : departure < reached.time
      · have hlate : ¬reached.time ≤ departure := Nat.not_le.mpr hearly
        simp [hearly, hlate]
      · have hlate : reached.time ≤ departure := Nat.not_lt.mp hearly
        rw [if_neg hearly, Option.map_eq_none_iff, misses_eq_none_iff]
        simp [hle, hlate]

theorem checkLeg_eq_ok_iff {index : Nat} {last : Option Reached} {leg : Leg}
    {here : Reached} : checkLeg index last leg = .ok here ↔ leg.Follows last here := by
  unfold checkLeg
  rw [bind_eq_ok_iff]
  constructor
  · intro h
    rcases h with ⟨departure, hdeparture, h⟩
    obtain ⟨arrival, harrival, h⟩ := bind_eq_ok_iff.mp h
    split at h
    · cases h
    · rename_i hnone
      cases h
      obtain ⟨hforward, hlast⟩ := legDefect_eq_none_iff.mp hnone
      exact ⟨rfl, liftFault_eq_ok_iff.mp harrival, departure,
        liftFault_eq_ok_iff.mp hdeparture, hforward, hlast⟩
  · intro h
    rcases h with ⟨hstop, harrival, departure, hdeparture, hforward, hlast⟩
    refine ⟨departure, liftFault_eq_ok_iff.mpr hdeparture, ?_⟩
    rw [bind_eq_ok_iff]
    refine ⟨here.time, liftFault_eq_ok_iff.mpr harrival, ?_⟩
    rw [legDefect_eq_none_iff.mpr ⟨hforward, hlast⟩, ← hstop]
    rfl

theorem checkLegs_cons_eq_ok_iff {index : Nat} {last : Option Reached} {leg : Leg}
    {legs : List Leg} :
    checkLegs index last (leg :: legs) = .ok () ↔
      ∃ here, leg.Follows last here ∧ checkLegs (index + 1) (some here) legs = .ok () := by
  rw [checkLegs, bind_eq_ok_iff]
  simp only [checkLeg_eq_ok_iff]

/-! ## Rides, junctions and the way onward -/

/-- A ride has both of its times, and they run forward. -/
def Ride.Forward (ride : Ride) : Prop :=
  ∃ boarded alighted, ride.boardTime = .ok boarded ∧ ride.alightTime = .ok alighted ∧
    boarded ≤ alighted

/-- A rider who is at `stop` at `time` catches a ride. -/
def Ride.CaughtFrom (ride : Ride) (stop : Nat) (time : Time) : Prop :=
  stop = ride.boardStop ∧ ∃ boarded, ride.boardTime = .ok boarded ∧ time ≤ boarded

/-- An egress leg can follow a ride. -/
def Ride.Reaches (ride : Ride) (egress : Egress) : Prop :=
  ride.alightStop = egress.stop ∧ egress.departure ≤ egress.arrival ∧
    ∃ alighted, ride.alightTime = .ok alighted ∧ alighted ≤ egress.departure

/-- A walk leads from one stop to another within given times.  Without a walk
it is one stop. -/
def WalkFits (origin : Nat) (alighted : Time) (destination : Nat) (boarded : Time) :
    Option Walk → Prop
  | none => origin = destination ∧ alighted ≤ boarded
  | some walk => walk.origin = origin ∧ walk.destination = destination ∧
      alighted ≤ walk.departure ∧ walk.departure ≤ walk.arrival ∧ walk.arrival ≤ boarded

/-- The walk of a junction fits between its rides. -/
def Junction.Sound (junction : Junction) : Prop :=
  ∃ alighted boarded, junction.arriving.alightTime = .ok alighted ∧
    junction.departing.boardTime = .ok boarded ∧
      WalkFits junction.arriving.alightStop alighted junction.departing.boardStop boarded
        junction.walk

/-- A ride, the changes behind it and an egress leg follow each other. -/
def Onward (egress : Egress) : Ride → List Change → Prop
  | ride, [] => ride.Forward ∧ ride.Reaches egress
  | ride, change :: changes =>
    ride.Forward ∧ (Junction.mk ride change.walk change.ride).Sound ∧
      Onward egress change.ride changes

/-- Only the trip of a ride and the position where it ends count for what
follows. -/
theorem Ride.Reaches.of_same {ride taken : Ride} {egress : Egress} (h : ride.Reaches egress)
    (htrip : taken.trip = ride.trip) (halight : taken.alight = ride.alight) :
    taken.Reaches egress := by
  rcases taken with ⟨trip, board, alight, cost, hforward, hwithin⟩
  obtain rfl : trip = ride.trip := htrip
  obtain rfl : alight = ride.alight := halight
  exact h

/-- Only the trip of a ride and the position where it starts count for what
comes before. -/
theorem Ride.boardStop_of_same {ride taken : Ride} (htrip : taken.trip = ride.trip)
    (hboard : taken.board = ride.board) : taken.boardStop = ride.boardStop := by
  rcases taken with ⟨trip, board, alight, cost, hforward, hwithin⟩
  obtain rfl : trip = ride.trip := htrip
  obtain rfl : board = ride.board := hboard
  rfl

theorem follows_none_iff {leg : Leg} {here : Reached} :
    leg.Follows none here ↔
      here.stop = leg.destination? ∧ leg.arrival = .ok here.time ∧
        ∃ departure, leg.departure = .ok departure ∧ departure ≤ here.time := by
  constructor
  · intro h
    rcases h with ⟨hstop, harrival, departure, hdeparture, hforward, -⟩
    exact ⟨hstop, harrival, departure, hdeparture, hforward⟩
  · intro h
    rcases h with ⟨hstop, harrival, departure, hdeparture, hforward⟩
    exact ⟨hstop, harrival, departure, hdeparture, hforward, by simp⟩

theorem follows_some_iff {leg : Leg} {stop : Nat} {time : Time} {here : Reached} :
    leg.Follows (some ⟨some stop, time⟩) here ↔
      here.stop = leg.destination? ∧ leg.arrival = .ok here.time ∧
        ∃ departure, leg.departure = .ok departure ∧ time ≤ departure ∧
          departure ≤ here.time ∧ ∀ origin ∈ leg.origin?, stop = origin := by
  constructor
  · intro h
    rcases h with ⟨hstop, harrival, departure, hdeparture, hforward, hlast⟩
    obtain ⟨htime, hplace⟩ := hlast _ rfl
    exact ⟨hstop, harrival, departure, hdeparture, htime, hforward, hplace _ rfl⟩
  · intro h
    rcases h with ⟨hstop, harrival, departure, hdeparture, htime, hforward, horigin⟩
    refine ⟨hstop, harrival, departure, hdeparture, hforward, ?_⟩
    intro reached hreached
    cases hreached
    refine ⟨htime, ?_⟩
    intro place hplace
    cases hplace
    exact horigin

theorem checkLegs_access_iff {index : Nat} {access : Access} {legs : List Leg} :
    checkLegs index none (.access access :: legs) = .ok () ↔
      access.departure ≤ access.arrival ∧
        checkLegs (index + 1) (some ⟨some access.stop, access.arrival⟩) legs = .ok () := by
  rw [checkLegs_cons_eq_ok_iff]
  simp only [follows_none_iff, Leg.destination?, Leg.arrival, Leg.departure]
  constructor
  · intro h
    rcases h with ⟨⟨place, time⟩, ⟨rfl, harrival, departure, hdeparture, hforward⟩, hlegs⟩
    cases harrival
    cases hdeparture
    exact ⟨hforward, hlegs⟩
  · intro h
    rcases h with ⟨hforward, hlegs⟩
    exact ⟨_, ⟨rfl, rfl, _, rfl, hforward⟩, hlegs⟩

theorem checkLegs_ride_iff {index stop : Nat} {time : Time} {ride : Ride} {legs : List Leg} :
    checkLegs index (some ⟨some stop, time⟩) (.ride ride :: legs) = .ok () ↔
      ride.CaughtFrom stop time ∧ ride.Forward ∧ ∃ alighted, ride.alightTime = .ok alighted ∧
        checkLegs (index + 1) (some ⟨some ride.alightStop, alighted⟩) legs = .ok () := by
  rw [checkLegs_cons_eq_ok_iff]
  simp only [follows_some_iff, Leg.destination?, Leg.arrival, Leg.departure, Leg.origin?,
    Option.mem_some, forall_eq']
  constructor
  · intro h
    rcases h with ⟨⟨place, alighted⟩, ⟨rfl, halighted, boarded, hboarded, htime, hforward, hstop⟩,
      hlegs⟩
    exact ⟨⟨hstop, boarded, hboarded, htime⟩, ⟨boarded, alighted, hboarded, halighted,
      hforward⟩, alighted, halighted, hlegs⟩
  · intro h
    rcases h with ⟨⟨hstop, boarded, hboarded, htime⟩, ⟨board, alight, hboard, halight, hforward⟩,
      alighted, halighted, hlegs⟩
    obtain rfl : board = boarded := Except.ok.inj (hboard.symm.trans hboarded)
    obtain rfl : alight = alighted := Except.ok.inj (halight.symm.trans halighted)
    exact ⟨_, ⟨rfl, halight, board, hboard, htime, hforward, hstop⟩, hlegs⟩

theorem checkLegs_walk_iff {index stop : Nat} {time : Time} {walk : Walk} {legs : List Leg} :
    checkLegs index (some ⟨some stop, time⟩) (.walk walk :: legs) = .ok () ↔
      walk.origin = stop ∧ time ≤ walk.departure ∧ walk.departure ≤ walk.arrival ∧
        checkLegs (index + 1) (some ⟨some walk.destination, walk.arrival⟩) legs = .ok () := by
  rw [checkLegs_cons_eq_ok_iff]
  simp only [follows_some_iff, Leg.destination?, Leg.arrival, Leg.departure, Leg.origin?,
    Option.mem_some, forall_eq']
  constructor
  · intro h
    rcases h with ⟨⟨place, arrival⟩, ⟨rfl, harrival, departure, hdeparture, htime, hforward,
      hstop⟩, hlegs⟩
    cases harrival
    cases hdeparture
    exact ⟨hstop.symm, htime, hforward, hlegs⟩
  · intro h
    rcases h with ⟨hstop, htime, hforward, hlegs⟩
    exact ⟨_, ⟨rfl, rfl, _, rfl, htime, hforward, hstop.symm⟩, hlegs⟩

theorem checkLegs_egress_iff {index stop : Nat} {time : Time} {egress : Egress} :
    checkLegs index (some ⟨some stop, time⟩) [.egress egress] = .ok () ↔
      stop = egress.stop ∧ time ≤ egress.departure ∧ egress.departure ≤ egress.arrival := by
  rw [checkLegs_cons_eq_ok_iff]
  simp only [follows_some_iff, Leg.destination?, Leg.arrival, Leg.departure, Leg.origin?,
    Option.mem_some, forall_eq']
  constructor
  · intro h
    rcases h with ⟨⟨place, arrival⟩, ⟨rfl, harrival, departure, hdeparture, htime, hforward,
      hstop⟩, -⟩
    cases harrival
    cases hdeparture
    exact ⟨hstop, htime, hforward⟩
  · intro h
    rcases h with ⟨hstop, htime, hforward⟩
    exact ⟨⟨none, egress.arrival⟩, ⟨rfl, rfl, _, rfl, htime, hforward, hstop⟩, rfl⟩

/-! ## Legs of an itinerary -/

/-- The legs behind the place `stop` at `time` are accepted exactly if the
first ride is caught there and the rest follows. -/
theorem checkLegs_rides_iff {index stop : Nat} {time : Time} {ride : Ride}
    {changes : List Change} {egress : Egress} :
    checkLegs index (some ⟨some stop, time⟩)
        (.ride ride :: (changes.flatMap Change.legs ++ [.egress egress])) = .ok () ↔
      ride.CaughtFrom stop time ∧ Onward egress ride changes := by
  induction changes generalizing index stop time ride with
  | nil =>
    rw [List.flatMap_nil, List.nil_append, checkLegs_ride_iff, Onward, Ride.Reaches]
    simp only [checkLegs_egress_iff]
    constructor
    · intro h
      rcases h with ⟨hcaught, hforward, alighted, halighted, hstop, htime, hegress⟩
      exact ⟨hcaught, hforward, hstop, hegress, alighted, halighted, htime⟩
    · intro h
      rcases h with ⟨hcaught, hforward, hstop, hegress, alighted, halighted, htime⟩
      exact ⟨hcaught, hforward, alighted, halighted, hstop, htime, hegress⟩
  | cons change changes ih =>
    rcases change with ⟨walk, next⟩
    rw [checkLegs_ride_iff, Onward, List.flatMap_cons, Change.legs]
    refine and_congr_right fun _ => and_congr_right fun _ => ?_
    cases walk with
    | none =>
      simp only [Option.map_none, Option.toList_none, List.nil_append, List.cons_append, ih,
        Junction.Sound, WalkFits, Ride.CaughtFrom]
      constructor
      · intro h
        rcases h with ⟨alighted, halighted, ⟨hstop, boarded, hboarded, htime⟩, honward⟩
        exact ⟨⟨alighted, boarded, halighted, hboarded, hstop, htime⟩, honward⟩
      · intro h
        rcases h with ⟨⟨alighted, boarded, halighted, hboarded, hstop, htime⟩, honward⟩
        exact ⟨alighted, halighted, ⟨hstop, boarded, hboarded, htime⟩, honward⟩
    | some walk =>
      simp only [Option.map_some, Option.toList_some, List.nil_append, List.cons_append,
        checkLegs_walk_iff, ih, Junction.Sound, WalkFits, Ride.CaughtFrom]
      constructor
      · intro h
        rcases h with ⟨alighted, halighted, horigin, hstart, hwalk, ⟨hstop, boarded, hboarded,
          htime⟩, honward⟩
        exact ⟨⟨alighted, boarded, halighted, hboarded, horigin, hstop, hstart, hwalk, htime⟩,
          honward⟩
      · intro h
        rcases h with ⟨⟨alighted, boarded, halighted, hboarded, horigin, hstop, hstart, hwalk,
          htime⟩, honward⟩
        exact ⟨alighted, halighted, horigin, hstart, hwalk, ⟨hstop, boarded, hboarded, htime⟩,
          honward⟩

/-- The legs of an itinerary are accepted exactly if they are sound junction
by junction. -/
theorem checkLegs_joinLegs_eq_ok_iff {access : Access} {first : Ride} {changes : List Change}
    {egress : Egress} :
    checkLegs 0 none (joinLegs access first changes egress) = .ok () ↔
      access.departure ≤ access.arrival ∧ first.CaughtFrom access.stop access.arrival ∧
        Onward egress first changes := by
  rw [joinLegs, checkLegs_access_iff, checkLegs_rides_iff]

/-! ## Where the rides of a junction meet -/

theorem Junction.Sound.sameStop {junction : Junction} (h : junction.Sound)
    (hwalk : junction.walk = none) : junction.sameStop = true := by
  rcases h with ⟨alighted, boarded, -, -, hfits⟩
  rw [hwalk] at hfits
  exact decide_eq_true hfits.1

/-- A sound junction walks from the stop where its first ride ends to the stop
where the next one starts. -/
theorem Junction.Sound.walk_ends {junction : Junction} (h : junction.Sound) {walk : Walk}
    (hwalk : junction.walk = some walk) :
    walk.origin = junction.arriving.alightStop ∧
      walk.destination = junction.departing.boardStop := by
  rcases h with ⟨alighted, boarded, -, -, hfits⟩
  rw [hwalk] at hfits
  exact ⟨hfits.1, hfits.2.1⟩

/-! ## The way onward, ride by ride and junction by junction -/

/-- The last of a ride and the rides that follow it. -/
def lastFrom (ride : Ride) : List Change → Ride
  | [] => ride
  | change :: changes => lastFrom change.ride changes

theorem onward_iff {egress : Egress} {ride : Ride} {changes : List Change} :
    Onward egress ride changes ↔
      (∀ taken ∈ ride :: changes.map (·.ride), taken.Forward) ∧
        (∀ junction ∈ Itinerary.junctionsFrom ride changes, junction.Sound) ∧
          (lastFrom ride changes).Reaches egress := by
  induction changes generalizing ride with
  | nil => simp [Onward, Itinerary.junctionsFrom, lastFrom]
  | cons change changes ih =>
    simp only [Onward, ih, List.map_cons, Itinerary.junctionsFrom, List.forall_mem_cons,
      lastFrom]
    constructor
    · intro h
      rcases h with ⟨hforward, hsound, hrides, hjunctions, hlast⟩
      exact ⟨⟨hforward, hrides⟩, ⟨hsound, hjunctions⟩, hlast⟩
    · intro h
      rcases h with ⟨⟨hforward, hrides⟩, ⟨hsound, hjunctions⟩, hlast⟩
      exact ⟨hforward, hsound, hrides, hjunctions, hlast⟩

namespace Itinerary

theorem lastFrom_eq_getD (ride : Ride) (changes : List Change) :
    lastFrom ride changes = (changes.getLast?.map (·.ride)).getD ride := by
  induction changes generalizing ride with
  | nil => rfl
  | cons change changes ih =>
    rw [lastFrom, ih, List.getLast?_cons]
    cases changes.getLast? <;> rfl

theorem lastRide_eq_lastFrom (itinerary : Itinerary) :
    itinerary.lastRide = lastFrom itinerary.first itinerary.changes := by
  rw [lastFrom_eq_getD]
  unfold lastRide
  cases itinerary.changes.getLast? <;> rfl

variable (itinerary : Itinerary)

theorem onward : Onward itinerary.egress itinerary.first itinerary.changes :=
  (checkLegs_joinLegs_eq_ok_iff.mp itinerary.sound).2.2

theorem access_forward : itinerary.access.departure ≤ itinerary.access.arrival :=
  (checkLegs_joinLegs_eq_ok_iff.mp itinerary.sound).1

theorem first_caught :
    itinerary.first.CaughtFrom itinerary.access.stop itinerary.access.arrival :=
  (checkLegs_joinLegs_eq_ok_iff.mp itinerary.sound).2.1

theorem forward_of_mem : ∀ ride ∈ itinerary.rides, ride.Forward :=
  (onward_iff.mp itinerary.onward).1

theorem sound_of_mem : ∀ junction ∈ itinerary.junctions, junction.Sound :=
  (onward_iff.mp itinerary.onward).2.1

theorem lastRide_reaches : itinerary.lastRide.Reaches itinerary.egress := by
  rw [lastRide_eq_lastFrom]
  exact (onward_iff.mp itinerary.onward).2.2

/-! ## Riding on a timetable -/

/-- All rides are on trips of a timetable. -/
def RidesOn (itinerary : Itinerary) (table : Timetable) : Prop :=
  ∀ ride ∈ itinerary.rides, ride.trip ∈ table.trips

instance (itinerary : Itinerary) (table : Timetable) : Decidable (itinerary.RidesOn table) :=
  inferInstanceAs (Decidable (∀ ride ∈ itinerary.rides, ride.trip ∈ table.trips))

variable {itinerary} {table : Timetable}

theorem RidesOn.timed (hrides : itinerary.RidesOn table) (hbuilt : table.Built) {ride : Ride}
    (hride : ride ∈ itinerary.rides) : ride.trip.Timed :=
  hbuilt.timed (hrides ride hride)

theorem length_junctionsFrom (ride : Ride) (changes : List Change) :
    (junctionsFrom ride changes).length = changes.length := by
  induction changes generalizing ride with
  | nil => rfl
  | cons change changes ih => rw [junctionsFrom, List.length_cons, ih, List.length_cons]

/-- Both rides of a junction are rides of the itinerary. -/
theorem mem_rides_of_mem_junctionsFrom {ride : Ride} {changes : List Change}
    {junction : Junction} (h : junction ∈ junctionsFrom ride changes) :
    junction.arriving ∈ ride :: changes.map (·.ride) ∧
      junction.departing ∈ ride :: changes.map (·.ride) := by
  induction changes generalizing ride with
  | nil => cases h
  | cons change changes ih =>
    rcases List.mem_cons.mp h with rfl | hrest
    · exact ⟨List.mem_cons_self, List.mem_cons_of_mem _ List.mem_cons_self⟩
    · obtain ⟨harriving, hdeparting⟩ := ih hrest
      exact ⟨List.mem_cons_of_mem _ harriving, List.mem_cons_of_mem _ hdeparting⟩

end Itinerary

/-! ## Journeys on the small network -/

namespace Network

/-- The first trip from A to B. -/
def redToB : Ride := ⟨red, 0, 1, .zero, by decide, by decide⟩

/-- The second trip from B to C. -/
def blueToC : Ride := ⟨blue, 1, 2, .zero, by decide, by decide⟩

/-- The second trip from B to D. -/
def blueToD : Ride := ⟨blue, 1, 3, .zero, by decide, by decide⟩

/-- The third trip from X to E. -/
def greenFromX : Ride := ⟨green, 1, 3, .zero, by decide, by decide⟩

/-- A journey from A to E that changes at B and at D. -/
def journey : Itinerary where
  access := ⟨0, clock 0, clock 30, .zero⟩
  first := ⟨red, 0, 1, .zero, by decide, by decide⟩
  changes := [⟨none, ⟨blue, 1, 3, .zero, by decide, by decide⟩⟩,
    ⟨none, ⟨green, 2, 3, .zero, by decide, by decide⟩⟩]
  egress := ⟨4, clock 2400, clock 2460, .zero⟩
  sound := by decide +kernel

/-- A journey from A to E that changes at B and walks from C to X as soon as
it is there.  Nothing is paid for it. -/
def earlyWalk : Itinerary where
  access := ⟨0, clock 0, clock 30, .zero⟩
  first := redToB
  changes := [⟨none, blueToC⟩, ⟨some ⟨2, 5, clock 900, clock 1020, .zero⟩, greenFromX⟩]
  egress := ⟨4, clock 2400, clock 2460, .zero⟩
  sound := by decide +kernel

end Network

end TransitTransfers
