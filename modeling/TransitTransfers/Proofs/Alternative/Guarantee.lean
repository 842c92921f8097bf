import TransitTransfers.Proofs.Alternative.Retiming
import TransitTransfers.Proofs.Itinerary.Shape

/-!
# What an alternative keeps

An alternative rides the same trips between the same ends.  At each junction
it changes where the itinerary changes already, or it keeps the whole slack
and walks on a footpath of the timetable, if at all.

* `KeepsSlack` says the latter of one junction.  It is read off the join of
  the junction (`keepsSlack_of_feasible`).
* `Alters` says all this of two itineraries, and `Retimes.alters` proves it
  ride by ride along a chain.
* `alters_of_mem_alternatives` is the result for all alternatives of a
  planner.
-/

namespace TransitTransfers

/-- The walk of a junction leads over a footpath from stop to stop.  Without a
walk it is one stop. -/
def Junction.WalksOver (junction : Junction) : Option Footpath → Prop
  | none => junction.walk = none ∧ junction.arriving.alightStop = junction.departing.boardStop
  | some path => path.origin = junction.arriving.alightStop ∧
      path.destination = junction.departing.boardStop ∧
        ∃ walk, junction.walk = some walk ∧ walk.origin = path.origin ∧
          walk.destination = path.destination ∧ walk.duration = .ok path.duration

namespace Planner

variable {planner : Planner}

/-- Between the rides of a junction there is time for the walk and for the
whole slack, and the walk is over a footpath of the timetable. -/
def KeepsSlack (planner : Planner) (junction : Junction) : Prop :=
  ∃ alighted boarded walk pause, junction.arriving.alightTime = .ok alighted ∧
    junction.departing.boardTime = .ok boarded ∧ junction.walkDuration = .ok walk ∧
      planner.slack.total junction.arriving.trip.pattern = .ok pause ∧
        alighted.seconds + walk.seconds + pause.seconds ≤ boarded.seconds ∧
          ∃ footpath, (∀ path ∈ footpath, path ∈ planner.table.footpaths) ∧
            junction.WalksOver footpath

/-- A junction is where another one is, or it keeps the slack. -/
def MovesTo (planner : Planner) (given made : Junction) : Prop :=
  made.arriving.alight = given.arriving.alight ∧ made.departing.board = given.departing.board ∨
    planner.KeepsSlack made

/-- An itinerary differs from another one only in where it changes, and keeps
the slack wherever it changes elsewhere. -/
structure Alters (planner : Planner) (given made : Itinerary) : Prop where
  /-- The way to the first stop is the same. -/
  access : made.access = given.access
  /-- The way from the last stop is the same. -/
  egress : made.egress = given.egress
  trips : made.rides.map (·.trip) = given.rides.map (·.trip)
  board : made.first.board = given.first.board
  alight : made.lastRide.alight = given.lastRide.alight
  /-- Junction by junction, only places with slack are new. -/
  junctions : List.Forall₂ planner.MovesTo given.junctions made.junctions

/-! ## One junction -/

/-- A walk over the footpath of a join makes a junction with its stops and its
duration. -/
theorem Walks.walksOver {join : Join} {alighted boarded : Time} {walk : Option Walk}
    {ready : Time} (h : planner.Walks join alighted boarded walk ready) {arriving departing : Ride}
    (hpath : Join.PathFits arriving.alightStop departing.boardStop join.footpath) :
    (Junction.mk arriving walk departing).WalksOver join.footpath ∧
      (Junction.mk arriving walk departing).walkDuration = .ok join.walkDuration := by
  unfold Walks at h
  rw [Join.walkDuration]
  cases hfootpath : join.footpath with
  | none =>
    rw [hfootpath] at h hpath
    rcases h with ⟨rfl, -⟩
    exact ⟨⟨rfl, hpath⟩, rfl⟩
  | some path =>
    rw [hfootpath] at h hpath
    rcases h with ⟨-, preferred, arrival, -, harrival, rfl⟩
    have hduration := Time.since_eq_ok_iff.mpr harrival
    exact ⟨⟨hpath.1, hpath.2, _, rfl, rfl, rfl, hduration⟩, hduration⟩

/-- The junction of two rides that were made over a join with slack keeps the
slack. -/
theorem keepsSlack_of_feasible {join : Join} {arriving departing : Ride} {walk : Option Walk}
    {ready : Time} {pause : Duration} (hfeasible : join.Feasible pause.seconds)
    (hpaths : ∀ path ∈ join.footpath, path ∈ planner.table.footpaths)
    (hpause : planner.slack.total arriving.trip.pattern = .ok pause)
    (hsource : arriving.trip = join.source) (halight : arriving.alight = join.alight)
    (htarget : departing.trip = join.target) (hboard : departing.board = join.board)
    (hwalk : planner.walkOver join = .ok (walk, ready)) :
    planner.KeepsSlack ⟨arriving, walk, departing⟩ := by
  obtain ⟨alighted, boarded, halighted, hboarded, hwalks, hpath, htime⟩ :=
    between_of_feasible hfeasible hwalk hsource halight htarget hboard
  obtain ⟨hover, hduration⟩ := hwalks.walksOver hpath
  exact ⟨alighted, boarded, join.walkDuration, pause, halighted, hboarded, hduration, hpause,
    htime, join.footpath, hpaths, hover⟩

/-- A junction over a join that may be used is where the given one is, or
keeps the slack. -/
theorem Connects.movesTo {given : Junction} {join : Join} (hjoin : planner.Connects given join)
    {arriving departing : Ride} {walk : Option Walk} {ready : Time}
    (hsource : arriving.trip = given.arriving.trip) (halight : arriving.alight = join.alight)
    (htarget : departing.trip = given.departing.trip) (hboard : departing.board = join.board)
    (hwalk : planner.walkOver join = .ok (walk, ready)) :
    planner.MovesTo given ⟨arriving, walk, departing⟩ := by
  rcases hjoin.kept with hown | ⟨hpaths, pause, hpause, hfeasible⟩
  · have hpositions := Join.ofJunction_positions hown
    exact Or.inl ⟨halight.trans (congrArg Prod.fst hpositions),
      hboard.trans (congrArg Prod.snd hpositions)⟩
  · rw [← hsource] at hpause
    exact Or.inr (keepsSlack_of_feasible hfeasible hpaths hpause
      (hsource.trans hjoin.source.symm) halight (htarget.trans hjoin.target.symm) hboard hwalk)

/-! ## A whole itinerary -/

/-- The run over a chain: the trips stay, the last one is left where it was,
and every junction moves to a place with slack at most. -/
theorem Retimes.alters {isFirst : Bool} {ride : Ride} {changes : List Change} {board : Nat}
    {ready : Time} {chain : List Join} {taken : Ride} {made : List Change}
    (hconnects : List.Forall₂ planner.Connects (Itinerary.junctionsFrom ride changes) chain)
    (h : planner.Retimes isFirst ride board ready (chain.zip (changes.map (·.ride))) taken made) :
    (taken :: made.map (·.ride)).map (·.trip) = (ride :: changes.map (·.ride)).map (·.trip) ∧
      (lastFrom taken made).alight = (lastFrom ride changes).alight ∧
        List.Forall₂ planner.MovesTo (Itinerary.junctionsFrom ride changes)
          (Itinerary.junctionsFrom taken made) := by
  induction changes generalizing isFirst ride board ready chain taken made with
  | nil =>
    cases hconnects
    cases h with
    | last htaken =>
      obtain ⟨htrip, -, halight⟩ := parts_of_rideFrom htaken
      exact ⟨by simp [htrip], halight, .nil⟩
  | cons change changes ih =>
    cases hconnects with
    | cons hjoin hconnects =>
      cases h with
      | @next _ _ _ _ _ _ _ _ _ walk nextTaken made htaken hwalk hrest =>
        obtain ⟨htrip, -, halight⟩ := parts_of_rideFrom htaken
        obtain ⟨hnext, hboard, -⟩ := hrest.boards
        obtain ⟨htrips, hlast, hjunctions⟩ := ih hconnects hrest
        refine ⟨?_, hlast, .cons ?_ hjunctions⟩
        · show taken.trip :: (nextTaken :: made.map (·.ride)).map (·.trip) =
            ride.trip :: (change.ride :: changes.map (·.ride)).map (·.trip)
          rw [htrip, htrips]
        · exact hjoin.movesTo htrip halight hnext hboard hwalk

theorem Makes.alters {itinerary : Itinerary} {chain : List Join} {alternative : Alternative}
    (hconnects : List.Forall₂ planner.Connects itinerary.junctions chain)
    (h : planner.Makes itinerary chain alternative) :
    planner.Alters itinerary alternative.itinerary := by
  obtain ⟨hretimes, haccess, hegress⟩ := retime_eq_some_iff.mp h.2
  obtain ⟨htrips, hlast, hjunctions⟩ := hretimes.alters hconnects
  obtain ⟨-, hboard, -⟩ := hretimes.boards
  refine ⟨haccess, hegress, htrips, hboard, ?_, hjunctions⟩
  rw [Itinerary.lastRide_eq_lastFrom, Itinerary.lastRide_eq_lastFrom]
  exact hlast

/-- An itinerary without junctions is altered into itself. -/
theorem alters_self {itinerary : Itinerary} (hchanges : itinerary.changes = []) :
    planner.Alters itinerary itinerary := by
  have hjunctions : itinerary.junctions = [] := by
    rw [Itinerary.junctions, hchanges]
    rfl
  have hmoves : List.Forall₂ planner.MovesTo itinerary.junctions itinerary.junctions := by
    rw [hjunctions]
    exact .nil
  exact ⟨rfl, rfl, rfl, rfl, rfl, hmoves⟩

/-- Every alternative of an itinerary alters it. -/
theorem alters_of_mem_alternatives {itinerary : Itinerary} (hbuilt : planner.table.Built)
    (hrides : itinerary.RidesOn planner.table) {alternatives : List Alternative}
    (h : planner.alternatives itinerary = .ok alternatives) {alternative : Alternative}
    (hmem : alternative ∈ alternatives) : planner.Alters itinerary alternative.itinerary := by
  by_cases hchanges : itinerary.changes = []
  · rw [Planner.alternatives, hchanges] at h
    cases h
    obtain rfl := List.mem_singleton.mp hmem
    exact alters_self hchanges
  · obtain ⟨offers, chains, hoffers, hchains, -, hmakes⟩ :=
      alternatives_spec hbuilt hrides hchanges h
    obtain ⟨chain, hchain, hmake⟩ := exists_mem_of_forall₂ hmakes hmem
    exact hmake.alters (connects_of_mem_chainsOf hbuilt hrides hoffers hchains hchain)

end Planner

end TransitTransfers
