import TransitTransfers.Proofs.Itinerary.Soundness

/-!
# What the junctions of an itinerary hold

The junctions of an itinerary are its legs behind the first ride, cut behind every
ride.

* `JunctionScan.foldl_step_legs` is the step of the scan over one change: it
  completes one junction, and no walk is left over for the next one.
* `JunctionScan.foldl_step_flatMap` is the run over all changes, so the scan finds
  the junctions of the itinerary (`Itinerary.ofLegs_innerLegs`).
* `Itinerary.junctions_lossless` puts these together.
-/

namespace TransitTransfers

/-! ## The scan -/

/-- The legs of a change complete the junction with the ride before them, and leave
their own ride and no walk behind. -/
theorem JunctionScan.foldl_step_legs (found : List Junction) (ride : Ride) (change : Change) :
    change.legs.foldl step ⟨found, some ride, none⟩ =
      ⟨found ++ [⟨ride, change.walk, change.ride⟩], some change.ride, none⟩ := by
  rcases change with ⟨_ | walk, next⟩ <;> rfl

/-- The run over the changes behind a ride. -/
theorem JunctionScan.foldl_step_flatMap (found : List Junction) (ride : Ride)
    (changes : List Change) :
    (changes.flatMap Change.legs).foldl step ⟨found, some ride, none⟩ =
      ⟨found ++ Itinerary.junctionsFrom ride changes, some (lastFrom ride changes), none⟩ := by
  induction changes generalizing found ride with
  | nil => rw [Itinerary.junctionsFrom, List.append_nil]; rfl
  | cons change changes ih =>
    rw [List.flatMap_cons, List.foldl_append, foldl_step_legs, ih, List.append_assoc]
    rfl

namespace Itinerary

theorem ofLegs_innerLegs (itinerary : Itinerary) :
    Junction.ofLegs itinerary.innerLegs = itinerary.junctions :=
  congrArg JunctionScan.found (JunctionScan.foldl_step_flatMap [] itinerary.first itinerary.changes)

/-! ## Rides and walks -/

theorem flatMap_legs_junctionsFrom (ride : Ride) (changes : List Change) :
    (junctionsFrom ride changes).flatMap Junction.legs = changes.flatMap Change.legs := by
  induction changes generalizing ride with
  | nil => rfl
  | cons change changes ih =>
    rw [junctionsFrom, List.flatMap_cons, List.flatMap_cons, ih]
    rfl

/-- The junction at an index goes from the ride at this index to the next one. -/
theorem rides_of_junctionsFrom {ride : Ride} {changes : List Change} {index : Nat}
    {junction : Junction} (h : (junctionsFrom ride changes)[index]? = some junction) :
    (ride :: changes.map (·.ride))[index]? = some junction.arriving ∧
      (ride :: changes.map (·.ride))[index + 1]? = some junction.departing := by
  induction changes generalizing ride index with
  | nil => cases h
  | cons change changes ih =>
    cases index with
    | zero =>
      cases h
      exact ⟨rfl, rfl⟩
    | succ index => exact ih h

end Itinerary

theorem Junction.filterMap_walk?_legs (junction : Junction) :
    junction.legs.filterMap Leg.walk? = junction.walk.toList := by
  rcases junction with ⟨arriving, _ | walk, departing⟩ <;> rfl

theorem Change.filterMap_ride?_legs (change : Change) :
    change.legs.filterMap Leg.ride? = [change.ride] := by
  rcases change with ⟨_ | walk, ride⟩ <;> rfl

/-! ## Nothing is lost -/

/-- The junctions of an itinerary have all its legs behind the first ride, each leg in
one junction: there is one junction fewer than rides, each goes from a ride to the
next one, and the walks of the legs are those of the junctions.  Reading the legs one
by one finds the same junctions. -/
theorem Itinerary.junctions_lossless (itinerary : Itinerary) :
    Junction.ofLegs itinerary.innerLegs = itinerary.junctions ∧
      itinerary.innerLegs.filterMap Leg.ride? = itinerary.rides ∧
      itinerary.numberOfChanges = itinerary.rides.length - 1 ∧
      itinerary.junctions.length = itinerary.numberOfChanges ∧
      (∀ index junction, itinerary.junctions[index]? = some junction →
        itinerary.rides[index]? = some junction.arriving ∧
          itinerary.rides[index + 1]? = some junction.departing) ∧
      .ride itinerary.first :: itinerary.junctions.flatMap Junction.legs = itinerary.innerLegs ∧
      itinerary.innerLegs.filterMap Leg.walk? = itinerary.junctions.filterMap Junction.walk ∧
      ∀ junction ∈ itinerary.junctions,
        (junction.walk = none → junction.sameStop = true) ∧
          ∀ walk, junction.walk = some walk → walk.origin = junction.arriving.alightStop ∧
            walk.destination = junction.departing.boardStop := by
  have hlegs : .ride itinerary.first :: itinerary.junctions.flatMap Junction.legs =
      itinerary.innerLegs :=
    congrArg (.ride itinerary.first :: ·)
      (flatMap_legs_junctionsFrom itinerary.first itinerary.changes)
  have hrides : itinerary.innerLegs.filterMap Leg.ride? = itinerary.rides := by
    show itinerary.first :: (itinerary.changes.flatMap Change.legs).filterMap Leg.ride? = _
    rw [List.filterMap_flatMap, funext Change.filterMap_ride?_legs, ← List.map_eq_flatMap]
    rfl
  have hwalks : itinerary.innerLegs.filterMap Leg.walk? =
      itinerary.junctions.filterMap Junction.walk := by
    rw [← hlegs]
    show (itinerary.junctions.flatMap Junction.legs).filterMap Leg.walk? = _
    rw [List.filterMap_flatMap, funext Junction.filterMap_walk?_legs,
      ← List.filterMap_eq_flatMap_toList]
  refine ⟨itinerary.ofLegs_innerLegs, hrides, ?_, length_junctionsFrom _ _,
    fun _ _ => rides_of_junctionsFrom, hlegs, hwalks, fun junction hjunction => ?_⟩
  · rw [rides, List.length_cons, List.length_map]
    rfl
  · have hsound := itinerary.sound_of_mem junction hjunction
    exact ⟨hsound.sameStop, fun _ => hsound.walk_ends⟩

/-- The journey that walks early changes twice, and its walk is at the second
junction. -/
theorem Itinerary.junctions_lossless_earlyWalk :
    Junction.ofLegs Network.earlyWalk.innerLegs = Network.earlyWalk.junctions ∧
      Network.earlyWalk.junctions.length = 2 ∧
      Network.earlyWalk.junctions.map Junction.walk =
        [none, some ⟨2, 5, Network.clock 900, Network.clock 1020, .zero⟩] := by
  obtain ⟨hscan, -, -, hlength, -⟩ := Network.earlyWalk.junctions_lossless
  exact ⟨hscan, hlength, rfl⟩

end TransitTransfers
