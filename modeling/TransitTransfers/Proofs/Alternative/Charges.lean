import TransitTransfers.Proofs.Alternative.Prices

/-!
# Alternatives at other charges

Some charges say nothing about where to change: those for boardings and for
waiting, and those of access and egress.  Planners that differ in nothing else
list the same alternatives at other prices.

* `Itinerary.SameButEnds` compares what comes in, and `Itinerary.SameLegs` what
  comes out: all legs are the same but for what they cost.
* `offersFrom_eq` and `walkOver_eq` are the parts of a planner that never look
  at these charges.
* `Retimes.sameLegs` is the run over a chain at both prices.  Since the legs
  are the same, the time is spent alike (`SpendsFrom.of_same`).
* `alternatives_recharged` puts this together for all chains: the alternatives
  differ in what their planners charge for the same `Spending`.
-/

namespace TransitTransfers

/-! ## The same legs -/

/-- Access legs that differ in their costs at most. -/
def Access.SameButCost (a b : Access) : Prop := { a with cost := b.cost } = b

/-- Egress legs that differ in their costs at most. -/
def Egress.SameButCost (a b : Egress) : Prop := { a with cost := b.cost } = b

namespace Itinerary

/-- Itineraries that differ at most in what access and egress cost. -/
structure SameButEnds (a b : Itinerary) : Prop where
  access : a.access.SameButCost b.access
  egress : a.egress.SameButCost b.egress
  first : b.first = a.first
  changes : b.changes = a.changes

/-- Itineraries with the same legs.  Rides, access and egress may cost
something else; walks cost the same, too. -/
structure SameLegs (a b : Itinerary) : Prop where
  access : a.access.SameButCost b.access
  egress : a.egress.SameButCost b.egress
  rides : a.rides.map Ride.course = b.rides.map Ride.course
  walks : a.changes.map (·.walk) = b.changes.map (·.walk)

variable {a b : Itinerary}

theorem SameButEnds.rides (h : a.SameButEnds b) : b.rides = a.rides := by
  rw [Itinerary.rides, Itinerary.rides, h.first, h.changes]

theorem SameButEnds.rideDuration (h : a.SameButEnds b) : b.rideDuration = a.rideDuration := by
  rw [Itinerary.rideDuration, Itinerary.rideDuration, h.rides]

theorem SameButEnds.junctions (h : a.SameButEnds b) : b.junctions = a.junctions := by
  rw [Itinerary.junctions, Itinerary.junctions, h.first, h.changes]

theorem SameButEnds.lastRide (h : a.SameButEnds b) : b.lastRide = a.lastRide := by
  rw [Itinerary.lastRide, Itinerary.lastRide, h.first, h.changes]

theorem SameButEnds.arrival (h : a.SameButEnds b) : b.access.arrival = a.access.arrival := by
  rw [← show _ = b.access from h.access]

theorem SameButEnds.ridesOn (h : a.SameButEnds b) {table : Timetable} (hrides : a.RidesOn table) :
    b.RidesOn table := by
  rw [RidesOn, h.rides]
  exact hrides

theorem SameButEnds.sameLegs (h : a.SameButEnds b) : a.SameLegs b :=
  ⟨h.access, h.egress, by rw [h.rides], by rw [h.changes]⟩

end Itinerary

/-- Rides without their prices, and walks, tell how the time is spent. -/
theorem SpendsFrom.of_same {ready : Time} {ride other : Ride} {changes others : List Change}
    {spending : Spending} (h : SpendsFrom ready ride changes spending)
    (hrides : (ride :: changes.map (·.ride)).map Ride.course =
      (other :: others.map (·.ride)).map Ride.course)
    (hwalks : changes.map (·.walk) = others.map (·.walk)) :
    SpendsFrom ready other others spending := by
  have hfirst : ride.course = other.course := List.head_eq_of_cons_eq hrides
  obtain ⟨htrip, hboard, -⟩ := Ride.course_eq_iff.mp hfirst
  have hdurations : changes.map (fun change => change.walk.map Walk.duration) =
      others.map fun change => change.walk.map Walk.duration := by
    simpa [Function.comp_def] using congrArg (List.map (Option.map Walk.duration)) hwalks
  have hwaits := Itinerary.alike_junctionsFrom hrides hdurations
  have hwalked : changes.flatMap (·.walk.toList) = others.flatMap (·.walk.toList) := by
    simpa [List.flatMap_map] using congrArg (List.flatMap Option.toList) hwalks
  refine ⟨?_, ?_, ?_, ?_⟩
  · rw [← h.first, Ride.waitFrom, Ride.waitFrom, Ride.boardTime_of_same htrip hboard]
  · rw [← h.waits]
    exact (mapM_congr (hwaits.imp fun _ _ => Junction.Alike.wait_eq)).symm
  · rw [← h.rides]
    exact (mapM_congr ((Ride.forall₂_course hrides).imp fun _ _ => Ride.duration_of_same)).symm
  · rw [← h.walks, hwalked]

namespace Planner

/-- Planners that differ at most in what boardings and waits cost. -/
structure SameButCharges (planner planner' : Planner) : Prop where
  table : planner'.table = planner.table
  slack : planner'.slack = planner.slack
  walking : planner'.weights.walking = planner.weights.walking
  riding : planner'.weights.riding = planner.weights.riding

variable {planner planner' : Planner}

/-! ## What never looks at charges -/

theorem SameButCharges.offersFrom_eq (h : planner.SameButCharges planner') (start : Nat)
    (junctions : List Junction) :
    planner'.offersFrom start junctions = planner.offersFrom start junctions := by
  induction junctions generalizing start with
  | nil => rfl
  | cons junction junctions ih =>
    rw [offersFrom, offersFrom, h.table, h.slack]
    simp only [ih]

theorem SameButCharges.offers_eq (h : planner.SameButCharges planner') {given given' : Itinerary}
    (hends : given.SameButEnds given') : planner'.offers given' = planner.offers given := by
  rw [offers, offers, h.offersFrom_eq, hends.first, hends.junctions]

theorem chainsOf_eq_of_ends {given given' : Itinerary} (hends : given.SameButEnds given')
    (offers : List Offer) : chainsOf given' offers = chainsOf given offers := by
  rw [chainsOf, chainsOf, hends.first, hends.lastRide]

theorem SameButCharges.walkOver_eq (h : planner.SameButCharges planner') (join : Join) :
    planner'.walkOver join = planner.walkOver join := by
  simp only [walkOver, h.slack, CostWeights.walkCost, h.walking]

/-! ## The run over a chain -/

theorem course_of_rideFrom {isFirst : Bool} {ready : Time} {trip : Trip} {board alight : Nat}
    {taken : Ride} (h : planner.rideFrom isFirst ready trip board alight = .ok (some taken)) :
    taken.course = (trip, board, alight) := by
  obtain ⟨rfl, rfl, rfl⟩ := parts_of_rideFrom h
  rfl

/-- A chain is ridden on the same legs, whatever boardings and waits cost. -/
theorem Retimes.sameLegs (h : planner.SameButCharges planner') {isFirst : Bool} {ride : Ride}
    {board : Nat} {ready : Time} {steps : List (Join × Ride)} {taken taken' : Ride}
    {made made' : List Change} (hmade : planner.Retimes isFirst ride board ready steps taken made)
    (hmade' : planner'.Retimes isFirst ride board ready steps taken' made') :
    (taken :: made.map (·.ride)).map Ride.course =
        (taken' :: made'.map (·.ride)).map Ride.course ∧
      made.map (·.walk) = made'.map (·.walk) := by
  induction hmade generalizing taken' made' with
  | last htaken =>
    cases hmade' with
    | last htaken' =>
      have hcourse := (course_of_rideFrom htaken).trans (course_of_rideFrom htaken').symm
      exact ⟨congrArg (fun course => [course]) hcourse, rfl⟩
  | next htaken hwalk _ ih =>
    cases hmade' with
    | next htaken' hwalk' hrest' =>
      have hcourse := (course_of_rideFrom htaken).trans (course_of_rideFrom htaken').symm
      -- Both riders walk over the same join, and are ready at the same time behind it.
      rw [h.walkOver_eq, hwalk] at hwalk'
      cases hwalk'
      obtain ⟨hrides, hwalks⟩ := ih hrest'
      exact ⟨congrArg₂ List.cons hcourse hrides, congrArg (List.cons _) hwalks⟩

/-! ## All alternatives -/

/-- Two alternatives, one for each of two planners, are made of the same joins
with the same legs, and spend their time alike. -/
structure Recharged (planner planner' : Planner) (given given' : Itinerary)
    (alternative other : Alternative) : Prop where
  joins : other.joins = alternative.joins
  legs : alternative.itinerary.SameLegs other.itinerary
  /-- They pay for it at the prices of their planners. -/
  spent : ∃ spending, planner.Prices given alternative.itinerary spending ∧
    planner'.Prices given' other.itinerary spending

/-- What is made of one chain has the same legs, whatever boardings and waits
cost. -/
theorem Makes.sameLegs (h : planner.SameButCharges planner') {given given' : Itinerary}
    (hends : given.SameButEnds given') {chain : List Join} {alternative other : Alternative}
    (hmake : planner.Makes given chain alternative)
    (hmake' : planner'.Makes given' chain other) :
    alternative.itinerary.SameLegs other.itinerary := by
  obtain ⟨hretimes, haccess, hegress⟩ := retime_eq_some_iff.mp hmake.2
  obtain ⟨hretimes', haccess', hegress'⟩ := retime_eq_some_iff.mp hmake'.2
  rw [hends.first, hends.changes, hends.arrival] at hretimes'
  obtain ⟨hrides, hwalks⟩ := hretimes.sameLegs h hretimes'
  refine ⟨?_, ?_, hrides, hwalks⟩
  · rw [haccess, haccess']
    exact hends.access
  · rw [hegress, hegress']
    exact hends.egress

theorem Makes.recharged (h : planner.SameButCharges planner') {given given' : Itinerary}
    (hends : given.SameButEnds given') {chain : List Join} {alternative other : Alternative}
    (hmake : planner.Makes given chain alternative) (hmake' : planner'.Makes given' chain other)
    {spending spending' : Spending} (hprices : planner.Prices given alternative.itinerary spending)
    (hprices' : planner'.Prices given' other.itinerary spending') :
    planner.Recharged planner' given given' alternative other := by
  have hlegs := hmake.sameLegs h hends hmake'
  have hspends := hprices.spends.of_same hlegs.rides hlegs.walks
  have hspends' := hprices'.spends
  rw [Itinerary.Spends, hprices'.access, hends.arrival, ← hprices.access] at hspends'
  obtain rfl := hspends.unique hspends'
  exact ⟨hmake'.1.trans hmake.1.symm, hlegs, spending, hprices, hprices'⟩

/-- Planners that differ at most in what boardings and waits cost list the same
alternatives at other prices. -/
theorem alternatives_recharged (h : planner.SameButCharges planner')
    (hbuilt : planner.table.Built) {given given' : Itinerary}
    (hrides : given.RidesOn planner.table) (hends : given.SameButEnds given')
    (hchanges : given.changes ≠ []) {alternatives alternatives' : List Alternative}
    (hlist : planner.alternatives given = .ok alternatives)
    (hlist' : planner'.alternatives given' = .ok alternatives') :
    List.Forall₂ (planner.Recharged planner' given given') alternatives alternatives' := by
  have hbuilt' : planner'.table.Built := h.table.symm ▸ hbuilt
  have hrides' : given'.RidesOn planner'.table := by
    rw [h.table]
    exact hends.ridesOn hrides
  have hchanges' : given'.changes ≠ [] := by
    rw [hends.changes]
    exact hchanges
  obtain ⟨offers, chains, hoffers, hchains, hmakes⟩ :=
    exists_makes_prices hbuilt hrides hchanges hlist
  obtain ⟨offers', chains', hoffers', hchains', hmakes'⟩ :=
    exists_makes_prices hbuilt' hrides' hchanges' hlist'
  rw [h.offers_eq hends, hoffers] at hoffers'
  cases hoffers'
  rw [chainsOf_eq_of_ends hends, hchains] at hchains'
  cases hchains'
  refine forall₂_comp hmakes.flip hmakes' fun alternative chain other hmake hmake' => ?_
  obtain ⟨hmake, spending, hprices⟩ := hmake
  obtain ⟨hmake', spending', hprices'⟩ := hmake'
  exact hmake.recharged h hends hmake' hprices hprices'

end Planner

end TransitTransfers
