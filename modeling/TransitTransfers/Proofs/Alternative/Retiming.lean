import TransitTransfers.Optimizer
import TransitTransfers.Proofs.Alternative.Offers

/-!
# New times always fit

A chain of joins is made into an itinerary leg by leg.  On the way a ride may
be missed, may not go forward, or the legs may not follow each other at the
end; then there is no itinerary.  For the chains of a planner none of this
happens.

* `rideFrom_eq_some_iff` and `walkOver_eq_ok_iff` say what one ride and one
  walk are, and `Retimes` is the run of `Planner.ridesFrom` in their terms.
* `Rideable` is what a chain brings along: every join is feasible, and every
  trip is boarded before it is left.  It is read off the joins of the offers
  (`rideable_of_connects`).
* `ridesFrom_yields` shows that a rideable chain is ridden to its end.
* `between_of_feasible` says what a feasible join is between the rides that
  are made over it, and `Retimes.onward` that all legs follow each other.
* `retime_yields` is both for a whole itinerary, and `every_chain_retimed` is
  the result for all chains of a planner.
-/

namespace TransitTransfers

/-- Costs are added up, or the sum does not fit. -/
theorem Cost.add_succeeds (a b : Cost) : Succeeds (a.add b) := by
  unfold Cost.add
  split
  · trivial
  · exact rfl

theorem Ride.of?_eq_some_iff {trip : Trip} {board alight : Nat} {cost : Cost} {ride : Ride} :
    Ride.of? trip board alight cost = some ride ↔
      ride.trip = trip ∧ ride.board = board ∧ ride.alight = alight ∧ ride.cost = cost := by
  rcases ride with ⟨trip', board', alight', cost', hforward, hwithin⟩
  unfold Ride.of?
  constructor
  · intro h
    split at h
    · cases h
      exact ⟨rfl, rfl, rfl, rfl⟩
    · cases h
  · intro h
    rcases h with ⟨rfl, rfl, rfl, rfl⟩
    rw [dif_pos ⟨hforward, hwithin⟩]

namespace Planner

variable {planner : Planner}

/-! ## One ride and one walk -/

/-- A ride is made if its trip is caught and goes forward. -/
theorem rideFrom_eq_some_iff {isFirst : Bool} {ready : Time} {trip : Trip}
    {board alight : Nat} {taken : Ride} :
    planner.rideFrom isFirst ready trip board alight = .ok (some taken) ↔
      ∃ departure wait arrival duration, trip.departureAt board = .ok departure ∧
        departure.since? ready = some wait ∧ trip.arrivalAt alight = .ok arrival ∧
          arrival.since? departure = some duration ∧
            planner.weights.transitCost isFirst wait duration = .ok taken.cost ∧
              taken.trip = trip ∧ taken.board = board ∧ taken.alight = alight := by
  rw [rideFrom, bind_eq_ok_iff]
  constructor
  · intro h
    rcases h with ⟨departure, hdeparture, h⟩
    cases hwait : departure.since? ready with
    | none =>
      rw [hwait] at h
      cases h
    | some wait =>
      rw [hwait] at h
      obtain ⟨arrival, harrival, h⟩ := bind_eq_ok_iff.mp h
      cases hduration : arrival.since? departure with
      | none =>
        rw [hduration] at h
        cases h
      | some duration =>
        rw [hduration] at h
        obtain ⟨cost, hcost, h⟩ := bind_eq_ok_iff.mp h
        obtain ⟨htrip, hboard, halight, rfl⟩ := Ride.of?_eq_some_iff.mp (pure_eq_ok_iff.mp h)
        exact ⟨departure, wait, arrival, duration, hdeparture, hwait, harrival, hduration, hcost,
          htrip, hboard, halight⟩
  · intro h
    rcases h with ⟨departure, wait, arrival, duration, hdeparture, hwait, harrival, hduration,
      hcost, htrip, hboard, halight⟩
    refine ⟨departure, hdeparture, ?_⟩
    rw [hwait]
    refine bind_eq_ok_iff.mpr ⟨arrival, harrival, ?_⟩
    rw [hduration]
    refine bind_eq_ok_iff.mpr ⟨taken.cost, hcost, ?_⟩
    exact pure_eq_ok_iff.mpr (Ride.of?_eq_some_iff.mpr ⟨htrip, hboard, halight, rfl⟩)

/-- The walk over a footpath starts at `Planner.walkStart`, and takes as long
as the footpath.  The rider is ready as if the walk had started at once. -/
def Walks (planner : Planner) (join : Join) (alighted boarded : Time) (walk : Option Walk)
    (ready : Time) : Prop :=
  match join.footpath with
  | none => walk = none ∧ ready = alighted
  | some path =>
    ready.seconds = alighted.seconds + path.duration.seconds ∧
      ∃ preferred arrival,
        preferred.seconds =
          alighted.seconds + (planner.slack.alighting join.source.pattern).seconds ∧
        arrival.seconds =
          (walkStart alighted preferred boarded path.duration).seconds + path.duration.seconds ∧
        walk = some ⟨path.origin, path.destination,
          walkStart alighted preferred boarded path.duration, arrival,
          planner.weights.walkCost path.duration⟩

theorem walkOver_eq_ok_iff {join : Join} {walk : Option Walk} {ready : Time} :
    planner.walkOver join = .ok (walk, ready) ↔
      ∃ alighted boarded, join.source.arrivalAt join.alight = .ok alighted ∧
        join.target.departureAt join.board = .ok boarded ∧
          planner.Walks join alighted boarded walk ready := by
  rw [walkOver, bind_eq_ok_iff]
  refine exists_congr fun alighted => ?_
  rw [bind_eq_ok_iff]
  show (join.source.arrivalAt join.alight = .ok alighted ∧ ∃ boarded,
    join.target.departureAt join.board = .ok boarded ∧ _) ↔ _
  rw [← exists_and_left]
  refine exists_congr fun boarded => and_congr_right fun _ => and_congr_right fun _ => ?_
  unfold Walks
  cases join.footpath with
  | none =>
    show (pure (none, alighted) : Except Fault _) = .ok (walk, ready) ↔ _
    rw [pure_eq_ok_iff, Prod.mk.injEq]
    constructor
    · intro h
      exact ⟨h.1.symm, h.2.symm⟩
    · intro h
      exact ⟨h.1.symm, h.2.symm⟩
  | some path =>
    dsimp only
    constructor
    · intro h
      obtain ⟨preferred, hpreferred, h⟩ := bind_eq_ok_iff.mp h
      obtain ⟨arrival, harrival, h⟩ := bind_eq_ok_iff.mp h
      obtain ⟨later, hlater, h⟩ := bind_eq_ok_iff.mp h
      rw [pure_eq_ok_iff, Prod.mk.injEq] at h
      rcases h with ⟨rfl, rfl⟩
      rw [Time.add_eq_ok_iff] at hpreferred harrival hlater
      exact ⟨hlater.symm, preferred, arrival, hpreferred.symm, harrival.symm, rfl⟩
    · intro h
      rcases h with ⟨hlater, preferred, arrival, hpreferred, harrival, rfl⟩
      refine bind_eq_ok_iff.mpr ⟨preferred, Time.add_eq_ok_iff.mpr hpreferred.symm, ?_⟩
      refine bind_eq_ok_iff.mpr ⟨arrival, Time.add_eq_ok_iff.mpr harrival.symm, ?_⟩
      exact bind_eq_ok_iff.mpr ⟨ready, Time.add_eq_ok_iff.mpr hlater.symm, rfl⟩

/-! ## The run over the joins -/

/-- A ride that is boarded at `board`, and the rides behind it, are ridden
again over joins, with the changes that they make up. -/
inductive Retimes (planner : Planner) :
    Bool → Ride → Nat → Time → List (Join × Ride) → Ride → List Change → Prop where
  /-- The last ride ends where it did. -/
  | last {isFirst : Bool} {ride : Ride} {board : Nat} {ready : Time} {taken : Ride}
      (htaken : planner.rideFrom isFirst ready ride.trip board ride.alight = .ok (some taken)) :
      Retimes planner isFirst ride board ready [] taken []
  /-- A ride ends where its join begins, and the next one starts where the join ends. -/
  | next {isFirst : Bool} {ride : Ride} {board : Nat} {ready later : Time} {taken : Ride}
      {join : Join} {following : Ride} {rest : List (Join × Ride)} {walk : Option Walk}
      {nextTaken : Ride} {changes : List Change}
      (htaken : planner.rideFrom isFirst ready ride.trip board join.alight = .ok (some taken))
      (hwalk : planner.walkOver join = .ok (walk, later))
      (hrest : Retimes planner false following join.board later rest nextTaken changes) :
      Retimes planner isFirst ride board ready ((join, following) :: rest) taken
        (⟨walk, nextTaken⟩ :: changes)

theorem ridesFrom_eq_some_iff {isFirst : Bool} {ride : Ride} {board : Nat} {ready : Time}
    {steps : List (Join × Ride)} {taken : Ride} {changes : List Change} :
    planner.ridesFrom isFirst ride board ready steps = .ok (some (taken, changes)) ↔
      planner.Retimes isFirst ride board ready steps taken changes := by
  induction steps generalizing isFirst ride board ready taken changes with
  | nil =>
    rw [ridesFrom, bind_eq_ok_iff]
    constructor
    · intro h
      rcases h with ⟨found, hfound, h⟩
      cases found with
      | none => cases h
      | some found =>
        cases h
        exact .last hfound
    · intro h
      cases h with
      | last htaken => exact ⟨some taken, htaken, rfl⟩
  | cons step rest ih =>
    rcases step with ⟨join, following⟩
    rw [ridesFrom, bind_eq_ok_iff]
    constructor
    · intro h
      rcases h with ⟨found, hfound, h⟩
      cases found with
      | none => cases h
      | some found =>
        obtain ⟨⟨walk, later⟩, hwalk, h⟩ := bind_eq_ok_iff.mp h
        obtain ⟨others, hothers, h⟩ := bind_eq_ok_iff.mp h
        cases others with
        | none => cases h
        | some others =>
          rcases others with ⟨nextTaken, changes⟩
          cases h
          exact .next hfound hwalk (ih.mp hothers)
    · intro h
      cases h with
      | next htaken hwalk hrest =>
        refine ⟨some taken, htaken, bind_eq_ok_iff.mpr ⟨_, hwalk, ?_⟩⟩
        exact bind_eq_ok_iff.mpr ⟨some _, ih.mpr hrest, rfl⟩

/-! ## What a chain brings along -/

/-- A ride that is boarded at `board` can be followed by others over joins. -/
def Rideable : Ride → Nat → List (Join × Ride) → Prop
  | ride, board, [] => ride.trip.Timed ∧ board < ride.alight
  | ride, board, (join, following) :: rest =>
    ride.trip.Timed ∧ board < join.alight ∧ join.source = ride.trip ∧
      join.target = following.trip ∧ join.Feasible 0 ∧ Rideable following join.board rest

/-- The joins that may be used at junctions make a rideable chain, if they are
in order. -/
theorem rideable_of_connects {ride : Ride} {changes : List Change} {board : Nat}
    {chain : List Join} (htimed : ∀ taken ∈ ride :: changes.map (·.ride), taken.trip.Timed)
    (hconnects : List.Forall₂ planner.Connects (Itinerary.junctionsFrom ride changes) chain)
    (horder : InOrder (lastFrom ride changes).alight board chain) :
    Rideable ride board (chain.zip (changes.map (·.ride))) := by
  induction changes generalizing ride board chain with
  | nil =>
    cases hconnects
    exact ⟨htimed ride List.mem_cons_self, horder⟩
  | cons change changes ih =>
    cases hconnects with
    | @cons _ join _ chain hjoin hrest =>
      rcases horder with ⟨halight, horder⟩
      refine ⟨htimed ride List.mem_cons_self, halight, hjoin.source, hjoin.target,
        hjoin.feasible, ?_⟩
      exact ih (fun taken h => htimed taken (List.mem_cons_of_mem _ h)) hrest horder

theorem transitCost_succeeds (weights : CostWeights) (isFirst : Bool) (wait ride : Duration) :
    Succeeds (weights.transitCost isFirst wait ride) := by
  have hboarding : Succeeds (weights.boardingCost isFirst) := by
    unfold CostWeights.boardingCost
    split
    · trivial
    · exact Cost.add_succeeds _ _
  refine hboarding.bind fun boarding _ => ?_
  exact (Cost.add_succeeds _ _).bind fun boarded _ => Cost.add_succeeds _ _

/-- A ride that is caught and goes forward is made, or a sum does not fit. -/
theorem rideFrom_yields {isFirst : Bool} {ready : Time} {trip : Trip} {board alight : Nat}
    {departure : Time} (htimed : trip.Timed) (hforward : board < alight)
    (hwithin : alight < trip.length) (hdeparture : trip.departureAt board = .ok departure)
    (hready : ready ≤ departure) :
    Yields (planner.rideFrom isFirst ready trip board alight) fun found =>
      ∃ taken, found = some taken := by
  obtain ⟨arrival, harrival⟩ := htimed.exists_arrivalAt hwithin
  obtain ⟨wait, hwait, -⟩ := Time.exists_since? hready
  obtain ⟨duration, hduration, -⟩ :=
    Time.exists_since? (htimed.departure_le_arrival hforward hdeparture harrival)
  refine (Yields.of_eq_ok hdeparture rfl).bind fun departure' hdeparture' => ?_
  subst hdeparture'
  rw [hwait]
  dsimp only
  refine (Yields.of_eq_ok harrival rfl).bind fun arrival' harrival' => ?_
  subst harrival'
  rw [hduration]
  dsimp only
  refine (transitCost_succeeds _ _ _ _).bind fun cost _ => ?_
  exact ⟨_, dif_pos ⟨hforward, hwithin⟩⟩

/-- A ride that was made is on the trip, between the positions. -/
theorem parts_of_rideFrom {isFirst : Bool} {ready : Time} {trip : Trip} {board alight : Nat}
    {taken : Ride} (h : planner.rideFrom isFirst ready trip board alight = .ok (some taken)) :
    taken.trip = trip ∧ taken.board = board ∧ taken.alight = alight := by
  obtain ⟨departure, wait, arrival, duration, -, -, -, -, -, hparts⟩ := rideFrom_eq_some_iff.mp h
  exact hparts

/-- A ride that was made goes forward in time, and the rider is there when it
starts. -/
theorem times_of_rideFrom {isFirst : Bool} {ready : Time} {trip : Trip} {board alight : Nat}
    {taken : Ride} (h : planner.rideFrom isFirst ready trip board alight = .ok (some taken)) :
    taken.Forward ∧ ∃ departure, taken.boardTime = .ok departure ∧ ready ≤ departure := by
  obtain ⟨departure, wait, arrival, duration, hdeparture, hwait, harrival, hduration, -, rfl,
    rfl, rfl⟩ := rideFrom_eq_some_iff.mp h
  rw [Time.since?_eq_some_iff] at hwait hduration
  have hforward : departure ≤ arrival := by
    rw [Time.le_iff]
    omega
  have hready : ready ≤ departure := by
    rw [Time.le_iff]
    omega
  exact ⟨⟨departure, arrival, hdeparture, harrival, hforward⟩, departure, hdeparture, hready⟩

theorem walkOver_succeeds {join : Join} (hfeasible : join.Feasible 0) :
    Succeeds (planner.walkOver join) := by
  rcases hfeasible with ⟨-, -, alighted, boarded, -, -, -, halighted, hboarded, -⟩
  refine (Succeeds.of_eq_ok halighted).bind fun alighted _ => ?_
  refine (Succeeds.of_eq_ok hboarded).bind fun boarded _ => ?_
  cases join.footpath with
  | none => trivial
  | some path =>
    dsimp only
    refine (Time.add_yields _ _).bind fun preferred _ => ?_
    refine (Time.add_yields _ _).bind fun arrival _ => ?_
    exact (Time.add_yields _ _).bind fun later _ => trivial

theorem Walks.ready_eq {join : Join} {alighted boarded : Time} {walk : Option Walk}
    {ready : Time} (h : planner.Walks join alighted boarded walk ready) :
    ready.seconds = alighted.seconds + join.walkDuration.seconds := by
  rw [Join.walkDuration_seconds]
  unfold Walks at h
  split at h
  · rename_i hpath
    rw [hpath, h.2]
    rfl
  · rename_i path hpath
    rw [hpath, h.1]
    rfl

/-- A rideable chain is ridden to its end, unless a sum does not fit. -/
theorem ridesFrom_yields {isFirst : Bool} {ride : Ride} {board : Nat} {ready departure : Time}
    {steps : List (Join × Ride)} (hrideable : Rideable ride board steps)
    (hdeparture : ride.trip.departureAt board = .ok departure) (hready : ready ≤ departure) :
    Yields (planner.ridesFrom isFirst ride board ready steps) fun found =>
      ∃ ridden, found = some ridden := by
  induction steps generalizing isFirst ride board ready departure with
  | nil =>
    rcases hrideable with ⟨htimed, hforward⟩
    refine (rideFrom_yields htimed hforward ride.within hdeparture hready).bind
      fun found hfound => ?_
    rcases hfound with ⟨taken, rfl⟩
    exact ⟨_, rfl⟩
  | cons step rest ih =>
    rcases step with ⟨join, following⟩
    rcases hrideable with ⟨htimed, hforward, hsource, htarget, hfeasible, hrest⟩
    have hwalk : Succeeds (planner.walkOver join) := walkOver_succeeds hfeasible
    rcases hfeasible with ⟨origin, -, alighted, boarded, horigin, -, -, halighted, hboarded, htime⟩
    have hwithin : join.alight < ride.trip.length := by
      rw [← hsource]
      exact Trip.lt_of_stopAt horigin
    refine (rideFrom_yields htimed hforward hwithin hdeparture hready).bind fun found hfound => ?_
    rcases hfound with ⟨taken, rfl⟩
    refine hwalk.with_eq.bind fun walked hwalked => ?_
    rcases walked with ⟨walk, later⟩
    obtain ⟨alighted', _, halighted', -, hwalks⟩ := walkOver_eq_ok_iff.mp hwalked.1
    obtain rfl : alighted = alighted' := Except.ok.inj (halighted.symm.trans halighted')
    have hlater : later ≤ boarded := by
      rw [Time.le_iff, hwalks.ready_eq]
      omega
    rw [htarget] at hboarded
    refine (ih hrest hboarded hlater).bind fun others hothers => ?_
    rcases hothers with ⟨⟨nextTaken, changes⟩, rfl⟩
    exact ⟨_, rfl⟩

/-! ## The legs follow each other -/

theorem walkStart_seconds (alighted preferred boarded : Time) (walk : Duration) :
    (walkStart alighted preferred boarded walk).seconds =
      max (min preferred.seconds (boarded.seconds - walk.seconds)) alighted.seconds := by
  rw [walkStart, Time.max_seconds, Time.min_seconds]
  rfl

/-- The walk of a join that a rider can make fits between the two calls. -/
theorem Walks.fits {join : Join} {alighted boarded : Time} {walk : Option Walk} {ready : Time}
    {origin destination : Nat} (h : planner.Walks join alighted boarded walk ready)
    (hpath : Join.PathFits origin destination join.footpath)
    (htime : alighted.seconds + join.walkDuration.seconds ≤ boarded.seconds) :
    WalkFits origin alighted destination boarded walk := by
  rw [Join.walkDuration_seconds] at htime
  unfold Walks at h
  cases hfootpath : join.footpath with
  | none =>
    rw [hfootpath] at h hpath htime
    rcases h with ⟨rfl, -⟩
    exact ⟨hpath, htime⟩
  | some path =>
    rw [hfootpath] at h hpath htime
    rcases h with ⟨-, preferred, arrival, -, harrival, rfl⟩
    have hseconds : alighted.seconds + path.duration.seconds ≤ boarded.seconds := htime
    have hstart := walkStart_seconds alighted preferred boarded path.duration
    refine ⟨hpath.1, hpath.2, ?_, ?_, ?_⟩
    · show alighted.seconds ≤ (walkStart alighted preferred boarded path.duration).seconds
      omega
    · show (walkStart alighted preferred boarded path.duration).seconds ≤ arrival.seconds
      omega
    · show arrival.seconds ≤ boarded.seconds
      omega

/-- The last of a ride and the rides that joins lead to. -/
def lastRidden (ride : Ride) : List (Join × Ride) → Ride
  | [] => ride
  | (_, following) :: rest => lastRidden following rest

theorem lastRidden_zip {ride : Ride} {changes : List Change} {chain : List Join}
    (hlength : changes.length = chain.length) :
    lastRidden ride (chain.zip (changes.map (·.ride))) = lastFrom ride changes := by
  induction changes generalizing ride chain with
  | nil =>
    rw [List.map_nil, List.zip_nil_right]
    rfl
  | cons change changes ih =>
    cases chain with
    | nil => cases hlength
    | cons join chain => exact ih (Nat.succ.inj hlength)

/-- The first ride is boarded as it should be. -/
theorem Retimes.boards {isFirst : Bool} {ride : Ride} {board : Nat} {ready : Time}
    {steps : List (Join × Ride)} {taken : Ride} {changes : List Change}
    (h : planner.Retimes isFirst ride board ready steps taken changes) :
    taken.trip = ride.trip ∧ taken.board = board ∧
      ∃ departure, taken.boardTime = .ok departure ∧ ready ≤ departure := by
  cases h with
  | last hride =>
    obtain ⟨htrip, hboard, -⟩ := parts_of_rideFrom hride
    exact ⟨htrip, hboard, (times_of_rideFrom hride).2⟩
  | next hride _ _ =>
    obtain ⟨htrip, hboard, -⟩ := parts_of_rideFrom hride
    exact ⟨htrip, hboard, (times_of_rideFrom hride).2⟩

/-- Between two rides that are made over a feasible join, the walk has the
calls and the time of the join. -/
theorem between_of_feasible {join : Join} {pause : Nat} (hfeasible : join.Feasible pause)
    {walk : Option Walk} {ready : Time} (hwalk : planner.walkOver join = .ok (walk, ready))
    {arriving departing : Ride} (hsource : arriving.trip = join.source)
    (halight : arriving.alight = join.alight) (htarget : departing.trip = join.target)
    (hboard : departing.board = join.board) :
    ∃ alighted boarded, arriving.alightTime = .ok alighted ∧ departing.boardTime = .ok boarded ∧
      planner.Walks join alighted boarded walk ready ∧
        Join.PathFits arriving.alightStop departing.boardStop join.footpath ∧
          alighted.seconds + join.walkDuration.seconds + pause ≤ boarded.seconds := by
  rcases hfeasible with ⟨origin, destination, alighted, boarded, horigin, hdestination, hpath,
    halighted, hboarded, htime⟩
  obtain ⟨alighted', boarded', halighted', hboarded', hwalks⟩ := walkOver_eq_ok_iff.mp hwalk
  obtain rfl : alighted = alighted' := Except.ok.inj (halighted.symm.trans halighted')
  obtain rfl : boarded = boarded' := Except.ok.inj (hboarded.symm.trans hboarded')
  rw [← hsource, ← halight] at horigin halighted
  rw [← htarget, ← hboard] at hdestination hboarded
  obtain rfl : arriving.alightStop = origin :=
    Except.ok.inj (arriving.stopAt_alight.symm.trans horigin)
  obtain rfl : departing.boardStop = destination :=
    Except.ok.inj (departing.stopAt_board.symm.trans hdestination)
  exact ⟨alighted, boarded, halighted, hboarded, hwalks, hpath, htime⟩

/-- What rides over a rideable chain ends with the egress leg of the rides
that were given. -/
theorem Retimes.onward {isFirst : Bool} {ride : Ride} {board : Nat} {ready : Time}
    {steps : List (Join × Ride)} {taken : Ride} {changes : List Change} {egress : Egress}
    (h : planner.Retimes isFirst ride board ready steps taken changes)
    (hrideable : Rideable ride board steps) (hlast : (lastRidden ride steps).Reaches egress) :
    Onward egress taken changes := by
  induction h with
  | last htaken =>
    obtain ⟨htrip, -, halight⟩ := parts_of_rideFrom htaken
    exact ⟨(times_of_rideFrom htaken).1, hlast.of_same htrip halight⟩
  | @next isFirst ride board ready later taken join following rest walk nextTaken changes htaken
      hwalk hrest ih =>
    rcases hrideable with ⟨-, -, hsource, htarget, hfeasible, hfollowing⟩
    obtain ⟨htrip, -, halight⟩ := parts_of_rideFrom htaken
    obtain ⟨hnext, hboard, -⟩ := hrest.boards
    obtain ⟨alighted, boarded, halighted, hboarded, hwalks, hpath, htime⟩ :=
      between_of_feasible hfeasible hwalk (htrip.trans hsource.symm) halight
        (hnext.trans htarget.symm) hboard
    have hsound : (Junction.mk taken walk nextTaken).Sound :=
      ⟨alighted, boarded, halighted, hboarded, hwalks.fits hpath (by omega)⟩
    exact ⟨(times_of_rideFrom htaken).1, hsound, ih hfollowing hlast⟩

/-! ## A whole itinerary -/

theorem assemble_eq_some_iff {access : Access} {first : Ride} {changes : List Change}
    {egress : Egress} {itinerary : Itinerary} :
    assemble access first changes egress = .ok (some itinerary) ↔
      itinerary.access = access ∧ itinerary.first = first ∧ itinerary.changes = changes ∧
        itinerary.egress = egress := by
  rw [← Itinerary.ofParts_eq_ok_iff, assemble]
  cases Itinerary.ofParts access first changes egress with
  | ok made => simp
  | error e => cases e <;> simp

/-- A retimed itinerary keeps access and egress, and rides over the joins in
between. -/
theorem retime_eq_some_iff {itinerary retimed : Itinerary} {chain : List Join} :
    planner.retime itinerary chain = .ok (some retimed) ↔
      planner.Retimes true itinerary.first itinerary.first.board itinerary.access.arrival
          (chain.zip (itinerary.changes.map (·.ride))) retimed.first retimed.changes ∧
        retimed.access = itinerary.access ∧ retimed.egress = itinerary.egress := by
  rw [retime, bind_eq_ok_iff]
  constructor
  · intro h
    rcases h with ⟨found, hfound, h⟩
    cases found with
    | none => cases h
    | some ridden =>
      rcases ridden with ⟨taken, changes⟩
      obtain ⟨haccess, rfl, rfl, hegress⟩ := assemble_eq_some_iff.mp h
      exact ⟨ridesFrom_eq_some_iff.mp hfound, haccess, hegress⟩
  · intro h
    rcases h with ⟨hretimes, haccess, hegress⟩
    refine ⟨some _, ridesFrom_eq_some_iff.mpr hretimes, ?_⟩
    exact assemble_eq_some_iff.mpr ⟨haccess, rfl, rfl, hegress⟩

/-- The joins of a chain lead from the first ride to the last one. -/
theorem rideable_of_chain {itinerary : Itinerary} (hbuilt : planner.table.Built)
    (hrides : itinerary.RidesOn planner.table) {chain : List Join}
    (hconnects : List.Forall₂ planner.Connects itinerary.junctions chain)
    (horder : InOrder itinerary.lastRide.alight itinerary.first.board chain) :
    Rideable itinerary.first itinerary.first.board
      (chain.zip (itinerary.changes.map (·.ride))) := by
  rw [Itinerary.lastRide_eq_lastFrom] at horder
  exact rideable_of_connects (fun taken h => hrides.timed hbuilt h) hconnects horder

/-- The legs that are made over the joins of a chain follow each other. -/
theorem exists_assembled {itinerary : Itinerary} (hbuilt : planner.table.Built)
    (hrides : itinerary.RidesOn planner.table) {chain : List Join}
    (hconnects : List.Forall₂ planner.Connects itinerary.junctions chain)
    (horder : InOrder itinerary.lastRide.alight itinerary.first.board chain) {taken : Ride}
    {changes : List Change}
    (hretimes : planner.Retimes true itinerary.first itinerary.first.board
      itinerary.access.arrival (chain.zip (itinerary.changes.map (·.ride))) taken changes) :
    ∃ made, assemble itinerary.access taken changes itinerary.egress = .ok (some made) := by
  have hrideable := rideable_of_chain hbuilt hrides hconnects horder
  obtain ⟨hstop, -⟩ := itinerary.first_caught
  have hlast : (lastRidden itinerary.first
      (chain.zip (itinerary.changes.map (·.ride)))).Reaches itinerary.egress := by
    have hlength : itinerary.changes.length = chain.length := by
      rw [← hconnects.length_eq, ← Itinerary.length_junctionsFrom itinerary.first]
      rfl
    rw [lastRidden_zip hlength, ← Itinerary.lastRide_eq_lastFrom]
    exact itinerary.lastRide_reaches
  obtain ⟨htrip, hboard, departure, hdeparture, hready⟩ := hretimes.boards
  have hcaught : taken.CaughtFrom itinerary.access.stop itinerary.access.arrival :=
    ⟨hstop.trans (Ride.boardStop_of_same htrip hboard).symm, departure, hdeparture, hready⟩
  have hsound := checkLegs_joinLegs_eq_ok_iff.mpr
    ⟨itinerary.access_forward, hcaught, hretimes.onward hrideable hlast⟩
  exact ⟨⟨itinerary.access, taken, changes, itinerary.egress, hsound⟩,
    assemble_eq_some_iff.mpr ⟨rfl, rfl, rfl, rfl⟩⟩

/-- Joins in order that may be used at the junctions of an itinerary make an
itinerary, unless a sum does not fit. -/
theorem retime_yields {itinerary : Itinerary} (hbuilt : planner.table.Built)
    (hrides : itinerary.RidesOn planner.table) {chain : List Join}
    (hconnects : List.Forall₂ planner.Connects itinerary.junctions chain)
    (horder : InOrder itinerary.lastRide.alight itinerary.first.board chain) :
    Yields (planner.retime itinerary chain) fun found => ∃ retimed, found = some retimed := by
  have hrideable := rideable_of_chain hbuilt hrides hconnects horder
  obtain ⟨-, departure, hdeparture, hready⟩ := itinerary.first_caught
  refine (ridesFrom_yields hrideable hdeparture hready).with_eq.bind fun found hfound => ?_
  rcases hfound with ⟨hridden, ⟨taken, changes⟩, rfl⟩
  obtain ⟨made, hmade⟩ := exists_assembled hbuilt hrides hconnects horder
    (ridesFrom_eq_some_iff.mp hridden)
  exact .of_eq_ok hmade ⟨made, rfl⟩

/-! ## All alternatives -/

/-- An alternative is what a chain is made into. -/
def Makes (planner : Planner) (itinerary : Itinerary) (chain : List Join)
    (alternative : Alternative) : Prop :=
  alternative.joins = chain ∧
    planner.retime itinerary chain = .ok (some alternative.itinerary)

/-- Where every chain makes an itinerary, none is left out. -/
theorem retimeAll_yields {itinerary : Itinerary} {chains : List (List Join)}
    (hretime : ∀ chain ∈ chains,
      Yields (planner.retime itinerary chain) fun found => ∃ retimed, found = some retimed) :
    Yields (planner.retimeAll itinerary chains) fun found =>
      ∃ alternatives, found = alternatives.map some ∧
        List.Forall₂ (planner.Makes itinerary) chains alternatives := by
  have hmade : Yields (planner.retimeAll itinerary chains) fun found =>
      List.Forall₂ (fun chain made => ∃ alternative, made = some alternative ∧
        planner.Makes itinerary chain alternative) chains found := by
    refine Yields.mapM fun chain hchain => ?_
    refine (hretime chain hchain).with_eq.bind fun found hfound => ?_
    rcases hfound with ⟨heq, retimed, rfl⟩
    exact ⟨⟨retimed, chain⟩, rfl, rfl, heq⟩
  refine hmade.mono fun found hfound => ?_
  clear hretime hmade
  induction hfound with
  | nil => exact ⟨[], rfl, .nil⟩
  | cons hhead htail ih =>
    rcases hhead with ⟨alternative, rfl, hmakes⟩
    rcases ih with ⟨alternatives, rfl, hrest⟩
    exact ⟨alternative :: alternatives, rfl, .cons hmakes hrest⟩

/-- The alternatives are what the chains are made into, one by one. -/
theorem alternatives_spec {itinerary : Itinerary} (hbuilt : planner.table.Built)
    (hrides : itinerary.RidesOn planner.table) (hchanges : itinerary.changes ≠ [])
    {alternatives : List Alternative} (h : planner.alternatives itinerary = .ok alternatives) :
    ∃ offers chains, planner.offers itinerary = .ok offers ∧
      chainsOf itinerary offers = .ok chains ∧
        planner.retimeAll itinerary chains = .ok (alternatives.map some) ∧
          List.Forall₂ (planner.Makes itinerary) chains alternatives := by
  rw [alternatives_eq hchanges] at h
  obtain ⟨offers, hoffers, h⟩ := bind_eq_ok_iff.mp h
  obtain ⟨chains, hchains, h⟩ := bind_eq_ok_iff.mp h
  obtain ⟨retimed, hretimed, h⟩ := bind_eq_ok_iff.mp h
  have hyields := retimeAll_yields fun chain hchain =>
    retime_yields hbuilt hrides (connects_of_mem_chainsOf hbuilt hrides hoffers hchains hchain)
      ((mem_chainsOf hchains).mp hchain).2
  rw [hretimed] at hyields
  rcases hyields with ⟨made, rfl, hmakes⟩
  have hmade : (made.map some).filterMap id = made := by
    simp
  obtain rfl : made = alternatives := hmade.symm.trans (pure_eq_ok_iff.mp h)
  exact ⟨offers, chains, hoffers, hchains, hretimed, hmakes⟩

/-- Listing the alternatives can only stop because a sum does not fit. -/
theorem alternatives_succeeds {itinerary : Itinerary} (hbuilt : planner.table.Built)
    (hrides : itinerary.RidesOn planner.table) (hchanges : itinerary.changes ≠ []) :
    Succeeds (planner.alternatives itinerary) := by
  rw [alternatives_eq hchanges]
  have hoffers : Succeeds (planner.offers itinerary) :=
    offersFrom_succeeds fun _ h => searchable_of_mem hbuilt hrides h
  refine hoffers.with_eq.bind fun offers hoffers => ?_
  refine (Succeeds.of_eq_ok (chainsOf_eq itinerary offers)).with_eq.bind fun chains hchains => ?_
  refine (retimeAll_yields fun chain hchain => ?_).bind fun retimed _ => trivial
  exact retime_yields hbuilt hrides
    (connects_of_mem_chainsOf hbuilt hrides hoffers.1 hchains.1 hchain)
    ((mem_chainsOf hchains.1).mp hchain).2

/-- Every chain of joins is made into an itinerary: it is never discarded,
whatever the other chains are.  If no sum overflows, the alternatives are what
all chains are made into, and nothing is told of discarded ones. -/
theorem every_chain_retimed {itinerary : Itinerary} (hbuilt : planner.table.Built)
    (hrides : itinerary.RidesOn planner.table) (hchanges : itinerary.changes ≠ [])
    (hoffers : planner.offers itinerary ≠ .error .addition) :
    ∃ offers chains, planner.offers itinerary = .ok offers ∧
      chainsOf itinerary offers = .ok chains ∧
        (∀ chain ∈ chains, planner.retime itinerary chain ≠ .error .addition →
          ∃ retimed, planner.retime itinerary chain = .ok (some retimed)) ∧
          (planner.alternatives itinerary ≠ .error .addition →
            ∃ alternatives, planner.alternatives itinerary = .ok alternatives ∧
              alternatives.map (·.joins) = chains ∧
                planner.retimeAll itinerary chains = .ok (alternatives.map some) ∧
                  Optimizer.tellDiscarded (alternatives.map some) = pure ()) := by
  have hsucceeds : Succeeds (planner.offers itinerary) :=
    offersFrom_succeeds fun _ h => searchable_of_mem hbuilt hrides h
  obtain ⟨offers, hoffered, -⟩ := hsucceeds.ok_of_ne hoffers
  refine ⟨offers, _, hoffered, chainsOf_eq itinerary offers, ?_, ?_⟩
  · intro chain hchain hne
    have hchains := chainsOf_eq itinerary offers
    obtain ⟨found, hfound, retimed, rfl⟩ := (retime_yields hbuilt hrides
      (connects_of_mem_chainsOf hbuilt hrides hoffered hchains hchain)
      ((mem_chainsOf hchains).mp hchain).2).ok_of_ne hne
    exact ⟨retimed, hfound⟩
  · intro hne
    obtain ⟨alternatives, halternatives, -⟩ :=
      (alternatives_succeeds hbuilt hrides hchanges).ok_of_ne hne
    obtain ⟨offers', chains, hoffered', hchains, hretimed, hmakes⟩ :=
      alternatives_spec hbuilt hrides hchanges halternatives
    obtain rfl : offers = offers' := Except.ok.inj (hoffered.symm.trans hoffered')
    obtain rfl := Except.ok.inj ((chainsOf_eq itinerary offers).symm.trans hchains)
    refine ⟨alternatives, halternatives, ?_, hretimed, ?_⟩
    · rw [← List.forall₂_eq_eq_eq, List.forall₂_map_left_iff]
      exact hmakes.flip.imp fun _ _ hmake => hmake.1
    · have hnone : (alternatives.map some).filter Option.isNone = [] := by
        rw [List.filter_eq_nil_iff]
        intro found hfound
        obtain ⟨alternative, -, rfl⟩ := List.mem_map.mp hfound
        simp
      rw [Optimizer.tellDiscarded, hnone]
      rfl

/-- All chains of the small network are ridden, also the one that walks. -/
theorem every_chain_retimed_journey :
    Network.planner.alternatives Network.journey ≠ .error .addition ∧
      ∃ alternatives, Network.planner.alternatives Network.journey = .ok alternatives ∧
        alternatives.length = 3 := by
  have hne : Network.planner.alternatives Network.journey ≠ .error .addition := by
    decide +kernel
  obtain ⟨offers, chains, -, -, -, hall⟩ := every_chain_retimed Network.planner_built
    Network.journey_ridesOn (by decide +kernel) (by decide +kernel)
  obtain ⟨alternatives, halternatives, -⟩ := hall hne
  refine ⟨hne, alternatives, halternatives, ?_⟩
  have hlength : (Network.planner.alternatives Network.journey).map List.length = .ok 3 := by
    decide +kernel
  rw [halternatives] at hlength
  exact Except.ok.inj hlength

end Planner

end TransitTransfers
