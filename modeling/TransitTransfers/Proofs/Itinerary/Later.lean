import TransitTransfers.Proofs.Itinerary.Waits
import TransitTransfers.Proofs.Schedule.Later

/-!
# Itineraries whose times are all later by the same number of seconds

The legs of an itinerary are checked against each other, and all durations in
it are differences of its own times.

* `Ride.LaterBy` and the relations beside it move one leg, and
  `Itinerary.LaterBy` a whole itinerary.
* `Leg.Moves` is what the check of legs sees of this, and `checkLegs_agrees`
  shows that it accepts the same legs.  `verdict` leaves the texts of refusals
  out, since they tell times.
* Costs, waits and the time in vehicles stay the same (`LaterBy.cost_eq`,
  `LaterBy.riskCost_eq`, `LaterBy.rideDuration_eq`).
-/

namespace TransitTransfers

variable {seconds : Int}

/-! ## Legs -/

/-- The times of an access leg are moved. -/
structure Access.LaterBy (seconds : Int) (leg moved : Access) : Prop where
  stop : moved.stop = leg.stop
  departure : leg.departure.LaterBy seconds moved.departure
  arrival : leg.arrival.LaterBy seconds moved.arrival
  cost : moved.cost = leg.cost

/-- The times of an egress leg are moved. -/
structure Egress.LaterBy (seconds : Int) (leg moved : Egress) : Prop where
  stop : moved.stop = leg.stop
  departure : leg.departure.LaterBy seconds moved.departure
  arrival : leg.arrival.LaterBy seconds moved.arrival
  cost : moved.cost = leg.cost

/-- The times of a walk are moved. -/
structure Walk.LaterBy (seconds : Int) (walk moved : Walk) : Prop where
  origin : moved.origin = walk.origin
  destination : moved.destination = walk.destination
  departure : walk.departure.LaterBy seconds moved.departure
  arrival : walk.arrival.LaterBy seconds moved.arrival
  cost : moved.cost = walk.cost

/-- The times of the trip of a ride are moved. -/
structure Ride.LaterBy (seconds : Int) (ride moved : Ride) : Prop where
  trip : ride.trip.LaterBy seconds moved.trip
  board : moved.board = ride.board
  alight : moved.alight = ride.alight
  cost : moved.cost = ride.cost

theorem Walk.LaterBy.duration_eq {walk moved : Walk} (h : walk.LaterBy seconds moved) :
    moved.duration = walk.duration :=
  h.arrival.since_eq h.departure

namespace Ride.LaterBy

variable {ride moved : Ride}

theorem boardTime (h : ride.LaterBy seconds moved) :
    Agrees (Time.LaterBy seconds) ride.boardTime moved.boardTime := by
  rw [Ride.boardTime, Ride.boardTime, h.board]
  exact h.trip.departureAt _

theorem alightTime (h : ride.LaterBy seconds moved) :
    Agrees (Time.LaterBy seconds) ride.alightTime moved.alightTime := by
  rw [Ride.alightTime, Ride.alightTime, h.alight]
  exact h.trip.arrivalAt _

theorem boardStop_eq (h : ride.LaterBy seconds moved) : moved.boardStop = ride.boardStop := by
  have hstop : moved.trip.stopAt moved.board = .ok moved.boardStop :=
    entryAt_of_lt moved.board_within
  rw [h.board, h.trip.stopAt_eq] at hstop
  exact Except.ok.inj (hstop.symm.trans (entryAt_of_lt ride.board_within))

theorem alightStop_eq (h : ride.LaterBy seconds moved) : moved.alightStop = ride.alightStop := by
  have hstop : moved.trip.stopAt moved.alight = .ok moved.alightStop :=
    entryAt_of_lt moved.within
  rw [h.alight, h.trip.stopAt_eq] at hstop
  exact Except.ok.inj (hstop.symm.trans (entryAt_of_lt ride.within))

theorem stretch_eq (h : ride.LaterBy seconds moved) : moved.stretch = ride.stretch := by
  rw [Ride.stretch, Ride.stretch, h.trip.index, h.board, h.alight]

theorem duration_agrees (h : ride.LaterBy seconds moved) :
    Agrees Eq ride.duration moved.duration := by
  refine h.alightTime.bind fun arrival arrival' harrival => ?_
  refine h.boardTime.bind fun departure departure' hdeparture => ?_
  rw [harrival.since_eq hdeparture]
  exact .refl _

end Ride.LaterBy

/-! ## Itineraries -/

/-- The times of a change are moved. -/
structure Change.LaterBy (seconds : Int) (change moved : Change) : Prop where
  walk : Option.Rel (Walk.LaterBy seconds) change.walk moved.walk
  ride : change.ride.LaterBy seconds moved.ride

/-- All times of an itinerary are moved. -/
structure Itinerary.LaterBy (seconds : Int) (itinerary moved : Itinerary) : Prop where
  access : itinerary.access.LaterBy seconds moved.access
  first : itinerary.first.LaterBy seconds moved.first
  changes : List.Forall₂ (Change.LaterBy seconds) itinerary.changes moved.changes
  egress : itinerary.egress.LaterBy seconds moved.egress

/-- What others see of a leg is moved. -/
structure Leg.Moves (seconds : Int) (leg moved : Leg) : Prop where
  departure : Agrees (Time.LaterBy seconds) leg.departure moved.departure
  arrival : Agrees (Time.LaterBy seconds) leg.arrival moved.arrival
  origin : moved.origin? = leg.origin?
  destination : moved.destination? = leg.destination?
  cost : moved.cost = leg.cost

theorem Ride.LaterBy.moves {ride moved : Ride} (h : ride.LaterBy seconds moved) :
    (Leg.ride ride).Moves seconds (.ride moved) :=
  ⟨h.boardTime, h.alightTime, congrArg some h.boardStop_eq, congrArg some h.alightStop_eq, h.cost⟩

theorem Change.LaterBy.moves {change moved : Change} (h : change.LaterBy seconds moved) :
    List.Forall₂ (Leg.Moves seconds) change.legs moved.legs := by
  rcases change with ⟨walk, ride⟩
  rcases moved with ⟨walk', ride'⟩
  have hride : List.Forall₂ (Leg.Moves seconds) [Leg.ride ride] [Leg.ride ride'] :=
    .cons h.ride.moves .nil
  rcases h.walk with hwalk | _
  · rename_i walk walk'
    exact .cons ⟨hwalk.departure, hwalk.arrival, congrArg some hwalk.origin,
      congrArg some hwalk.destination, hwalk.cost⟩ hride
  · exact hride

/-- The legs of moved parts are moved one by one. -/
theorem moves_joinLegs {access access' : Access} {first first' : Ride}
    {changes changes' : List Change} {egress egress' : Egress}
    (haccess : access.LaterBy seconds access') (hfirst : first.LaterBy seconds first')
    (hchanges : List.Forall₂ (Change.LaterBy seconds) changes changes')
    (hegress : egress.LaterBy seconds egress') :
    List.Forall₂ (Leg.Moves seconds) (joinLegs access first changes egress)
      (joinLegs access' first' changes' egress') := by
  refine .cons ⟨haccess.departure, haccess.arrival, rfl, congrArg some haccess.stop,
    haccess.cost⟩ (.cons hfirst.moves (List.rel_append ?_ ?_))
  · exact List.rel_flatMap hchanges fun _ _ hchange => hchange.moves
  · exact .cons ⟨hegress.departure, hegress.arrival, congrArg some hegress.stop, rfl,
      hegress.cost⟩ .nil

/-! ## The check of legs -/

/-- What a check says, without the text of its refusal. -/
def verdict {α : Type} : Except Error α → Except Fault (Option α)
  | .ok a => .ok (some a)
  | .error (.fault fault) => .error fault
  | .error _ => .ok none

section Verdicts

variable {α β γ δ : Type} {R : α → β → Prop} {S : γ → δ → Prop} {x : Except Error α}
  {y : Except Error β}

theorem verdict_bind (x : Except Error α) (f : α → Except Error γ) :
    verdict (x >>= f) = verdict x >>= fun found => (found.map fun a => verdict (f a)).getD
      (.ok none) := by
  cases x with
  | ok a => rfl
  | error e => cases e <;> rfl

theorem verdict_eq_some_iff {a : α} : verdict x = .ok (some a) ↔ x = .ok a := by
  cases x with
  | ok b => simp [verdict]
  | error e => cases e <;> simp [verdict]

/-- What is checked further agrees, if the checks so far do. -/
theorem agrees_verdict_bind {f : α → Except Error γ} {g : β → Except Error δ}
    (h : Agrees (Option.Rel R) (verdict x) (verdict y))
    (hf : ∀ a b, x = .ok a → y = .ok b → R a b →
      Agrees (Option.Rel S) (verdict (f a)) (verdict (g b))) :
    Agrees (Option.Rel S) (verdict (x >>= f)) (verdict (y >>= g)) := by
  rw [verdict_bind, verdict_bind]
  refine h.with_eq.bind fun found found' hfound => ?_
  obtain ⟨hx, hy, hrel⟩ := hfound
  rcases hrel with hab | _
  · exact hf _ _ (verdict_eq_some_iff.mp hx) (verdict_eq_some_iff.mp hy) hab
  · exact Option.Rel.none

theorem agrees_verdict_liftFault {x : Except Fault α} {y : Except Fault β} (h : Agrees R x y) :
    Agrees (Option.Rel R) (verdict (liftFault x)) (verdict (liftFault y)) := by
  cases x with
  | ok a =>
    cases y with
    | ok b => exact Option.Rel.some h
    | error other => exact h
  | error fault => cases y <;> exact h

end Verdicts

/-- The time at which a leg ends is moved. -/
structure Reached.LaterBy (seconds : Int) (reached moved : Reached) : Prop where
  stop : moved.stop = reached.stop
  time : reached.time.LaterBy seconds moved.time

theorem legDefect_none_iff {index : Nat} {last last' : Option Reached} {origin : Option Nat}
    {departure departure' arrival arrival' : Time}
    (hlast : Option.Rel (Reached.LaterBy seconds) last last')
    (hdeparture : departure.LaterBy seconds departure')
    (harrival : arrival.LaterBy seconds arrival') :
    legDefect index last' origin departure' arrival' = none ↔
      legDefect index last origin departure arrival = none := by
  rw [legDefect_eq_none_iff, legDefect_eq_none_iff, hdeparture.le_iff harrival]
  rcases hlast with hreached | _
  · simp only [Option.mem_some, forall_eq', hreached.stop, hreached.time.le_iff hdeparture]
  · simp

theorem checkLeg_agrees {index : Nat} {last last' : Option Reached} {leg moved : Leg}
    (hlast : Option.Rel (Reached.LaterBy seconds) last last') (h : leg.Moves seconds moved) :
    Agrees (Option.Rel (Reached.LaterBy seconds)) (verdict (checkLeg index last leg))
      (verdict (checkLeg index last' moved)) := by
  unfold checkLeg
  refine agrees_verdict_bind (agrees_verdict_liftFault h.departure)
    fun departure departure' _ _ hdeparture => ?_
  refine agrees_verdict_bind (agrees_verdict_liftFault h.arrival)
    fun arrival arrival' _ _ harrival => ?_
  have hiff : legDefect index last' leg.origin? departure' arrival' = none ↔
      legDefect index last leg.origin? departure arrival = none :=
    legDefect_none_iff hlast hdeparture harrival
  rw [h.origin, h.destination]
  cases hdefect : legDefect index last leg.origin? departure arrival with
  | none =>
    rw [hiff.mpr hdefect]
    exact Option.Rel.some ⟨rfl, harrival⟩
  | some defect =>
    cases hdefect' : legDefect index last' leg.origin? departure' arrival' with
    | none => rw [hiff.mp hdefect'] at hdefect; cases hdefect
    | some defect' => exact Option.Rel.none

/-- The same legs are accepted. -/
theorem checkLegs_agrees {index : Nat} {last last' : Option Reached} {legs moved : List Leg}
    (hlast : Option.Rel (Reached.LaterBy seconds) last last')
    (h : List.Forall₂ (Leg.Moves seconds) legs moved) :
    Agrees (Option.Rel Eq) (verdict (checkLegs index last legs))
      (verdict (checkLegs index last' moved)) := by
  induction h generalizing index last last' with
  | nil => exact Option.Rel.some rfl
  | cons hhead _ ih =>
    rw [checkLegs, checkLegs]
    exact agrees_verdict_bind (checkLeg_agrees hlast hhead) fun _ _ _ _ hreached =>
      ih (.some hreached)

/-- What is accepted is moved. -/
theorem ofParts_agrees {access access' : Access} {first first' : Ride}
    {changes changes' : List Change} {egress egress' : Egress}
    (haccess : access.LaterBy seconds access') (hfirst : first.LaterBy seconds first')
    (hchanges : List.Forall₂ (Change.LaterBy seconds) changes changes')
    (hegress : egress.LaterBy seconds egress') :
    Agrees (Option.Rel (Itinerary.LaterBy seconds))
      (verdict (Itinerary.ofParts access first changes egress))
      (verdict (Itinerary.ofParts access' first' changes' egress')) := by
  -- The parts are put together behind the check of their legs.
  have hbehind : ∀ (access : Access) (first : Ride) (changes : List Change) (egress : Egress),
      Itinerary.ofParts access first changes egress =
        checkLegs 0 none (joinLegs access first changes egress) >>= fun _ =>
          Itinerary.ofParts access first changes egress := by
    intro access first changes egress
    cases hlegs : checkLegs 0 none (joinLegs access first changes egress) with
    | ok _ => rfl
    | error e =>
      unfold Itinerary.ofParts
      split
      · rename_i hok
        rw [hlegs] at hok
        cases hok
      · rename_i hrefused
        rw [hlegs] at hrefused
        cases hrefused
        rfl
  rw [hbehind access, hbehind access']
  refine agrees_verdict_bind (checkLegs_agrees .none
    (moves_joinLegs haccess hfirst hchanges hegress)) fun _ _ hlegs hlegs' _ => ?_
  have hmade : Itinerary.ofParts access first changes egress =
      .ok ⟨access, first, changes, egress, hlegs⟩ :=
    Itinerary.ofParts_eq_ok_iff.mpr ⟨rfl, rfl, rfl, rfl⟩
  have hmade' : Itinerary.ofParts access' first' changes' egress' =
      .ok ⟨access', first', changes', egress', hlegs'⟩ :=
    Itinerary.ofParts_eq_ok_iff.mpr ⟨rfl, rfl, rfl, rfl⟩
  rw [hmade, hmade']
  exact Option.Rel.some ⟨haccess, hfirst, hchanges, hegress⟩

/-! ## Sums over an itinerary -/

/-- The times of a junction are moved. -/
structure Junction.LaterBy (seconds : Int) (junction moved : Junction) : Prop where
  arriving : junction.arriving.LaterBy seconds moved.arriving
  walk : Option.Rel (Walk.LaterBy seconds) junction.walk moved.walk
  departing : junction.departing.LaterBy seconds moved.departing

theorem Junction.LaterBy.walkDuration_eq {junction moved : Junction}
    (h : junction.LaterBy seconds moved) : moved.walkDuration = junction.walkDuration := by
  rcases junction with ⟨arriving, walk, departing⟩
  rcases moved with ⟨arriving', walk', departing'⟩
  rcases h.walk with hwalk | _
  · exact hwalk.duration_eq
  · rfl

theorem Junction.LaterBy.wait_agrees {junction moved : Junction}
    (h : junction.LaterBy seconds moved) : Agrees Eq junction.wait moved.wait := by
  unfold Junction.wait
  rw [h.walkDuration_eq]
  refine h.departing.boardTime.bind fun board board' hboard => ?_
  refine h.arriving.alightTime.bind fun alight alight' halight => ?_
  refine Agrees.bind_same junction.walkDuration fun walk => ?_
  refine (halight.add walk).bind fun ready ready' hready => ?_
  rw [hboard.since?_eq hready]
  exact .refl _

namespace Itinerary

theorem laterBy_junctionsFrom {ride ride' : Ride} {changes changes' : List Change}
    (hride : ride.LaterBy seconds ride')
    (hchanges : List.Forall₂ (Change.LaterBy seconds) changes changes') :
    List.Forall₂ (Junction.LaterBy seconds) (junctionsFrom ride changes)
      (junctionsFrom ride' changes') := by
  induction hchanges generalizing ride ride' with
  | nil => exact .nil
  | cons hchange _ ih => exact .cons ⟨hride, hchange.walk, hchange.ride⟩ (ih hchange.ride)

theorem laterBy_lastFrom {ride ride' : Ride} {changes changes' : List Change}
    (hride : ride.LaterBy seconds ride')
    (hchanges : List.Forall₂ (Change.LaterBy seconds) changes changes') :
    (lastFrom ride changes).LaterBy seconds (lastFrom ride' changes') := by
  induction hchanges generalizing ride ride' with
  | nil => exact hride
  | cons hchange _ ih => exact ih hchange.ride

namespace LaterBy

variable {itinerary moved : Itinerary}

theorem junctions (h : itinerary.LaterBy seconds moved) :
    List.Forall₂ (Junction.LaterBy seconds) itinerary.junctions moved.junctions :=
  laterBy_junctionsFrom h.first h.changes

theorem rides (h : itinerary.LaterBy seconds moved) :
    List.Forall₂ (Ride.LaterBy seconds) itinerary.rides moved.rides :=
  .cons h.first (List.rel_map (fun _ _ hchange => hchange.ride) h.changes)

theorem cost_eq (h : itinerary.LaterBy seconds moved) : moved.cost = itinerary.cost := by
  have hlegs : List.Forall₂ (Leg.Moves seconds) itinerary.innerLegs moved.innerLegs :=
    .cons h.first.moves (List.rel_flatMap h.changes fun _ _ hchange => hchange.moves)
  have hcosts : moved.innerLegs.map Leg.cost = itinerary.innerLegs.map Leg.cost := by
    rw [← List.forall₂_eq_eq_eq, List.forall₂_map_left_iff, List.forall₂_map_right_iff]
    exact hlegs.flip.imp fun _ _ hleg => hleg.cost
  rw [Itinerary.cost, Itinerary.cost, hcosts, h.access.cost, h.egress.cost]

/-- Waits are the same one by one. -/
theorem waits_eq (h : itinerary.LaterBy seconds moved) :
    itinerary.junctions.mapM Junction.wait = moved.junctions.mapM Junction.wait := by
  have hwaits : Agrees (List.Forall₂ Eq) (itinerary.junctions.mapM Junction.wait)
      (moved.junctions.mapM Junction.wait) :=
    .mapM h.junctions fun _ _ hjunction => hjunction.wait_agrees
  refine (hwaits.mono fun _ _ hequal => ?_).eq_of_exists itinerary.exists_waits moved.exists_waits
  rw [List.forall₂_eq_eq_eq] at hequal
  exact hequal

/-- So the risk of the waits is the same. -/
theorem riskCost_eq (h : itinerary.LaterBy seconds moved) (pricing : RiskPricing) :
    pricing.cost moved = pricing.cost itinerary := by
  obtain ⟨waits, hwaits⟩ := itinerary.exists_waits
  rw [pricing.cost_of_waits hwaits, pricing.cost_of_waits (h.waits_eq.symm.trans hwaits), h.cost_eq]

theorem rideDuration_eq (h : itinerary.LaterBy seconds moved) :
    itinerary.rideDuration = moved.rideDuration := by
  have hdurations : Agrees (List.Forall₂ Eq) (itinerary.rides.mapM Ride.duration)
      (moved.rides.mapM Ride.duration) :=
    .mapM h.rides fun _ _ hride => hride.duration_agrees
  have hagrees : Agrees Eq itinerary.rideDuration moved.rideDuration := by
    refine hdurations.bind fun durations durations' hequal => ?_
    rw [List.forall₂_eq_eq_eq] at hequal
    rw [hequal]
    exact .refl _
  exact hagrees.eq_of_exists itinerary.exists_rideDuration moved.exists_rideDuration

/-- An itinerary rides the stretches of another one exactly if they do so when
both are moved. -/
theorem sameStretches_eq (h : itinerary.LaterBy seconds moved) {given given' : Itinerary}
    (hgiven : given.LaterBy seconds given') :
    moved.sameStretches given' = itinerary.sameStretches given := by
  have hstretches : ∀ {a b : Itinerary}, a.LaterBy seconds b →
      b.rides.map Ride.stretch = a.rides.map Ride.stretch := by
    intro a b hab
    rw [← List.forall₂_eq_eq_eq, List.forall₂_map_left_iff, List.forall₂_map_right_iff]
    exact hab.rides.flip.imp fun _ _ hride => hride.stretch_eq
  rw [Itinerary.sameStretches, Itinerary.sameStretches, hstretches h, hstretches hgiven]

theorem lastRide (h : itinerary.LaterBy seconds moved) :
    itinerary.lastRide.LaterBy seconds moved.lastRide := by
  rw [lastRide_eq_lastFrom, lastRide_eq_lastFrom]
  exact laterBy_lastFrom h.first h.changes

end LaterBy

end Itinerary

end TransitTransfers
