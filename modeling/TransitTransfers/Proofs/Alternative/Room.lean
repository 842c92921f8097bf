import TransitTransfers.Proofs.Alternative.Retiming
import TransitTransfers.Proofs.Join.Listing

/-!
# Trips with room for the slack

Listing alternatives adds times up at three places: where slack is added to an
arrival, where a footpath is added to that, and where a walk is set to new
times.  A trip is `Planner.Roomy` if the first two sums fit a word for all of
its arrivals.  The third one always does, because the next trip departs later.

* `exists_offersFrom` shows that all searches on roomy trips come to an end,
  and `exists_walkOver` the same of walks.
* `ChainFault` says that a price on the way over a chain does not fit, and
  `ridesFrom_stopsOnly` is the run over the chain: nothing else stops it.
* `alternatives_stopsOnly` puts this together for all chains.
-/

namespace TransitTransfers

namespace Planner

/-- The slack of a trip may be added to any of its arrivals, and a footpath
that leaves one of its stops may be added to that. -/
structure Roomy (planner : Planner) (trip : Trip) : Prop where
  arrivals : ∀ arrival ∈ trip.arrivals,
    planner.slack.totalSeconds trip.pattern + arrival.seconds < wordSize
  footpaths : ∀ arrival ∈ trip.arrivals, ∀ stop ∈ trip.pattern.stops,
    ∀ path ∈ planner.table.footpathsFrom stop,
      planner.slack.totalSeconds trip.pattern + arrival.seconds + path.duration.seconds < wordSize

variable {planner : Planner}

/-! ## Searches -/

/-- A search behind a position that is not the last one comes to an end. -/
theorem Roomy.exists_find {source target : Trip} (hroomy : planner.Roomy source)
    (hsource : source.Timed) (htarget : target.Timed) {start : Nat}
    (hstart : start + 1 < source.length) :
    ∃ joins, Join.find planner.table planner.slack source start target = .ok joins := by
  obtain ⟨arrival, harrival⟩ := hsource.exists_arrivalAt hstart
  have hfits := hroomy.arrivals arrival (List.mem_of_getElem? (entryAt_eq_ok_iff.mp harrival))
  have hsums : Join.SumsFit planner.table planner.slack source start :=
    .of_forall (by omega) hroomy.arrivals hroomy.footpaths start
  exact ⟨_, Join.find_eq_candidates hsource htarget hsums⟩

/-- All searches of the run over the junctions come to an end. -/
theorem exists_offersFrom {ride : Ride} {changes : List Change} {start : Nat}
    (hroomy : ∀ taken ∈ ride :: changes.map (·.ride), planner.Roomy taken.trip)
    (hsearch : ∀ junction ∈ Itinerary.junctionsFrom ride changes, Searchable junction)
    (hstart : start < ride.alight) :
    ∃ offers, planner.offersFrom start (Itinerary.junctionsFrom ride changes) = .ok offers := by
  induction changes generalizing ride start with
  | nil => exact ⟨[], rfl⟩
  | cons change changes ih =>
    have hhead := hsearch ⟨ride, change.walk, change.ride⟩ List.mem_cons_self
    have hwithin := ride.within
    obtain ⟨own, hown, -⟩ :
        ∃ own, Join.ofJunction planner.table ⟨ride, change.walk, change.ride⟩ = .ok own ∧ _ :=
      Join.ofJunction_spec hhead.sound
    obtain ⟨found, hfound⟩ := (hroomy ride List.mem_cons_self).exists_find hhead.arriving
      hhead.departing (show start + 1 < ride.trip.length by omega)
    have hoffer : Offer.MadeFrom planner start ⟨ride, change.walk, change.ride⟩ ⟨found, own⟩ :=
      ⟨hown, hfound⟩
    obtain ⟨rest, hrest⟩ := ih (fun taken h => hroomy taken (List.mem_cons_of_mem _ h))
      (fun junction h => hsearch junction (List.mem_cons_of_mem _ h)) hoffer.earliestBoard_lt
    exact ⟨_, offersFrom_cons_eq_ok_iff.mpr ⟨⟨found, own⟩, rest, hoffer, hrest, rfl⟩⟩

/-! ## Walks -/

/-- A walk that a rider can make from a roomy trip gets its new times. -/
theorem Roomy.exists_walkOver {join : Join} (hroomy : planner.Roomy join.source)
    (hfeasible : join.Feasible 0) :
    ∃ walk ready, planner.walkOver join = .ok (walk, ready) := by
  rcases hfeasible with ⟨-, -, alighted, boarded, -, -, -, halighted, hboarded, htime⟩
  suffices hwalks : ∃ walk ready, planner.Walks join alighted boarded walk ready by
    obtain ⟨walk, ready, hwalks⟩ := hwalks
    exact ⟨walk, ready, walkOver_eq_ok_iff.mpr ⟨alighted, boarded, halighted, hboarded, hwalks⟩⟩
  rw [Join.walkDuration_seconds] at htime
  unfold Walks
  cases hpath : join.footpath with
  | none => exact ⟨none, alighted, rfl, rfl⟩
  | some path =>
    have hseconds : alighted.seconds + path.duration.seconds ≤ boarded.seconds := by
      rw [hpath] at htime
      exact htime
    have hboarded' := boarded.fits
    have hfits := hroomy.arrivals alighted (List.mem_of_getElem? (entryAt_eq_ok_iff.mp halighted))
    unfold SlackPolicy.totalSeconds at hfits
    let preferred : Time :=
      ⟨alighted.seconds + (planner.slack.alighting join.source.pattern).seconds, by omega⟩
    have hstart := walkStart_seconds alighted preferred boarded path.duration
    let arrival : Time :=
      ⟨(walkStart alighted preferred boarded path.duration).seconds + path.duration.seconds,
        by omega⟩
    exact ⟨_, ⟨alighted.seconds + path.duration.seconds, by omega⟩, rfl, preferred, arrival, rfl,
      rfl, rfl⟩

/-! ## Prices on the way -/

/-- The price of the ride between two positions of a trip by a rider who is
ready at a given time does not fit. -/
def RideFault (planner : Planner) (isFirst : Bool) (ready : Time) (trip : Trip)
    (board alight : Nat) (fault : Fault) : Prop :=
  ∃ departure wait arrival duration, trip.departureAt board = .ok departure ∧
    departure.since? ready = some wait ∧ trip.arrivalAt alight = .ok arrival ∧
      arrival.since? departure = some duration ∧
        planner.weights.transitCost isFirst wait duration = .error fault

/-- Where `Planner.ridesFrom` rides on over joins, the price of a ride does not
fit: of the one at hand, or of one behind a join. -/
inductive ChainFault (planner : Planner) (fault : Fault) :
    Bool → Ride → Nat → Time → List (Join × Ride) → Prop where
  | last {isFirst : Bool} {ride : Ride} {board : Nat} {ready : Time}
      (hprice : planner.RideFault isFirst ready ride.trip board ride.alight fault) :
      ChainFault planner fault isFirst ride board ready []
  | here {isFirst : Bool} {ride : Ride} {board : Nat} {ready : Time} {join : Join}
      {following : Ride} {rest : List (Join × Ride)}
      (hprice : planner.RideFault isFirst ready ride.trip board join.alight fault) :
      ChainFault planner fault isFirst ride board ready ((join, following) :: rest)
  | behind {isFirst : Bool} {ride : Ride} {board : Nat} {ready later : Time} {join : Join}
      {following : Ride} {rest : List (Join × Ride)} {walk : Option Walk}
      (hwalk : planner.walkOver join = .ok (walk, later))
      (hrest : ChainFault planner fault false following join.board later rest) :
      ChainFault planner fault isFirst ride board ready ((join, following) :: rest)

theorem rideFrom_stopsOnly {isFirst : Bool} {ready : Time} {trip : Trip} {board alight : Nat}
    (htimed : trip.Timed) (hboard : board < trip.length) (halight : alight < trip.length) :
    StopsOnly (planner.rideFrom isFirst ready trip board alight)
      (planner.RideFault isFirst ready trip board alight) := by
  obtain ⟨departure, hdeparture⟩ := htimed.exists_departureAt hboard
  obtain ⟨arrival, harrival⟩ := htimed.exists_arrivalAt halight
  refine StopsOnly.bind (.of_eq_ok hdeparture) fun departure' hdeparture' => ?_
  obtain rfl : departure = departure' := Except.ok.inj (hdeparture.symm.trans hdeparture')
  cases hwait : departure.since? ready with
  | none => exact .pure none
  | some wait =>
    refine StopsOnly.bind (.of_eq_ok harrival) fun arrival' harrival' => ?_
    obtain rfl : arrival = arrival' := Except.ok.inj (harrival.symm.trans harrival')
    cases hduration : arrival.since? departure with
    | none => exact .pure none
    | some duration =>
      refine StopsOnly.bind (fun fault hfault => ?_) fun cost _ => .pure _
      exact ⟨departure, wait, arrival, duration, hdeparture, hwait, harrival, hduration, hfault⟩

/-- The run over a chain on roomy trips: nothing but a price stops it. -/
theorem ridesFrom_stopsOnly {isFirst : Bool} {ride : Ride} {board : Nat} {ready : Time}
    {steps : List (Join × Ride)} (hrideable : Rideable ride board steps)
    (hroomy : ∀ step ∈ steps, planner.Roomy step.1.source) :
    StopsOnly (planner.ridesFrom isFirst ride board ready steps)
      fun fault => planner.ChainFault fault isFirst ride board ready steps := by
  induction steps generalizing isFirst ride board ready with
  | nil =>
    rcases hrideable with ⟨htimed, hforward⟩
    have hride : StopsOnly (planner.rideFrom isFirst ready ride.trip board ride.alight) _ :=
      rideFrom_stopsOnly htimed (Nat.lt_trans hforward ride.within) ride.within
    refine StopsOnly.bind (hride.mono fun _ => .last) fun found _ => ?_
    cases found <;> exact .pure _
  | cons step rest ih =>
    rcases step with ⟨join, following⟩
    rcases hrideable with ⟨htimed, hforward, hsource, -, hfeasible, hrest⟩
    have hwithin : join.alight < ride.trip.length := by
      obtain ⟨origin, -, -, -, horigin, -⟩ := hfeasible
      rw [← hsource]
      exact Trip.lt_of_stopAt horigin
    have hride : StopsOnly (planner.rideFrom isFirst ready ride.trip board join.alight) _ :=
      rideFrom_stopsOnly htimed (Nat.lt_trans hforward hwithin) hwithin
    refine StopsOnly.bind (hride.mono fun _ => .here) fun found _ => ?_
    cases found with
    | none => exact .pure none
    | some taken =>
      obtain ⟨walk, later, hwalk⟩ := (hroomy _ List.mem_cons_self).exists_walkOver hfeasible
      refine StopsOnly.bind (.of_eq_ok hwalk) fun walked hwalked => ?_
      obtain rfl : (walk, later) = walked := Except.ok.inj (hwalk.symm.trans hwalked)
      have hbehind : StopsOnly (planner.ridesFrom false following join.board later rest) _ :=
        ih hrest fun other hother => hroomy other (List.mem_cons_of_mem _ hother)
      refine StopsOnly.bind (hbehind.mono fun _ => .behind hwalk) fun others _ => ?_
      cases others <;> exact .pure _

/-! ## All alternatives -/

/-- A price on the way over one of the chains of an itinerary does not fit. -/
def PriceFault (planner : Planner) (itinerary : Itinerary) (fault : Fault) : Prop :=
  ∃ offers chains, planner.offers itinerary = .ok offers ∧
    chainsOf itinerary offers = .ok chains ∧ ∃ chain ∈ chains,
      planner.ChainFault fault true itinerary.first itinerary.first.board
        itinerary.access.arrival (chain.zip (itinerary.changes.map (·.ride)))

/-- The trips that chains leave are those of the rides. -/
theorem source_of_mem_zip {ride : Ride} {changes : List Change} {chain : List Join}
    (hconnects : List.Forall₂ planner.Connects (Itinerary.junctionsFrom ride changes) chain)
    {step : Join × Ride} (hstep : step ∈ chain.zip (changes.map (·.ride))) :
    ∃ taken ∈ ride :: changes.map (·.ride), step.1.source = taken.trip := by
  obtain ⟨junction, hjunction, hjoin⟩ := exists_mem_of_forall₂ hconnects (List.of_mem_zip hstep).1
  exact ⟨junction.arriving, (Itinerary.mem_rides_of_mem_junctionsFrom hjunction).1, hjoin.source⟩

/-- Where all trips are roomy, nothing but a price keeps an itinerary from its
alternatives. -/
theorem alternatives_stopsOnly {itinerary : Itinerary} (hbuilt : planner.table.Built)
    (hrides : itinerary.RidesOn planner.table) (hchanges : itinerary.changes ≠ [])
    (hroomy : ∀ ride ∈ itinerary.rides, planner.Roomy ride.trip) :
    StopsOnly (planner.alternatives itinerary) (planner.PriceFault itinerary) := by
  obtain ⟨offers, hoffers⟩ : ∃ offers, planner.offers itinerary = .ok offers :=
    exists_offersFrom hroomy (fun junction h => searchable_of_mem hbuilt hrides h)
      itinerary.first.forward
  have hchains := chainsOf_eq itinerary offers
  rw [alternatives_eq hchanges]
  refine StopsOnly.bind (.of_eq_ok hoffers) fun offers' hoffers' => ?_
  obtain rfl : offers = offers' := Except.ok.inj (hoffers.symm.trans hoffers')
  refine StopsOnly.bind (.of_eq_ok hchains) fun chains hchains' => ?_
  obtain rfl := Except.ok.inj (hchains.symm.trans hchains')
  refine StopsOnly.bind (.mapM fun chain hchain => ?_) fun retimed _ => .pure _
  have hconnects := connects_of_mem_chainsOf hbuilt hrides hoffers hchains hchain
  have horder := ((mem_chainsOf hchains).mp hchain).2
  have hrideable := rideable_of_chain hbuilt hrides hconnects horder
  have hjoins : ∀ step ∈ chain.zip (itinerary.changes.map (·.ride)),
      planner.Roomy step.1.source := by
    intro step hstep
    obtain ⟨taken, htaken, hsource⟩ := source_of_mem_zip hconnects hstep
    rw [hsource]
    exact hroomy taken htaken
  have hretimed : StopsOnly (planner.retime itinerary chain) (planner.PriceFault itinerary) := by
    refine StopsOnly.bind ((ridesFrom_stopsOnly hrideable hjoins).mono fun fault hfault =>
      ⟨offers, _, hoffers, hchains, chain, hchain, hfault⟩) fun found hfound => ?_
    cases found with
    | none => exact .pure none
    | some ridden =>
      rcases ridden with ⟨taken, changes⟩
      obtain ⟨made, hmade⟩ := exists_assembled hbuilt hrides hconnects horder
        (ridesFrom_eq_some_iff.mp hfound)
      exact .of_eq_ok hmade
  refine hretimed.bind fun found _ => ?_
  cases found <;> exact .pure _

end Planner

end TransitTransfers
