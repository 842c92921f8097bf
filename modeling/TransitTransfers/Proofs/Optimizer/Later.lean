import TransitTransfers.Proofs.Alternative.Later
import TransitTransfers.Proofs.Optimizer.Blocks
import TransitTransfers.Proofs.Optimizer.Selection

/-!
# The clock does not matter

The choice of transfers knows no hour of the day.  When all times of a
timetable and of a batch are moved by some seconds, every choice is moved by as
many, and nothing else of it changes.

* `Choice.LaterBy` moves a choice.  All of its costs stay; only the times of
  its boardings add up to more, by the same amount for every ride.
* `assess_agrees` is one alternative.  All alternatives of an itinerary have as
  many rides, so even the last criterion compares them as before
  (`block_agrees`).
* `optimize_laterBy` is the result for a batch.
-/

namespace TransitTransfers

variable {seconds : Int}

/-- The times of a choice are moved, and all of its costs stay. -/
structure Choice.LaterBy (seconds : Int) (choice moved : Choice) : Prop where
  itinerary : choice.itinerary.LaterBy seconds moved.itinerary
  ruleCost : moved.ruleCost = choice.ruleCost
  waitCost : moved.waitCost = choice.waitCost
  cost : moved.cost = choice.cost
  rules : moved.rules = choice.rules
  isUnchanged : moved.isUnchanged = choice.isUnchanged
  /-- Every boarding is moved. -/
  boardings : (moved.boardings : Int) =
    choice.boardings + seconds * choice.itinerary.rides.length

/-! ## One itinerary -/

/-- Moved times add up to more, by the same amount for every time. -/
theorem foldl_laterBy {times times' : List Time}
    (h : List.Forall₂ (Time.LaterBy seconds) times times') {total total' : Nat} {before : Int}
    (htotal : (total' : Int) = total + before) :
    ((times'.foldl (fun total time => total + time.seconds) total' : Nat) : Int) =
      (times.foldl (fun total time => total + time.seconds) total : Nat) +
        (before + seconds * times.length) := by
  induction h generalizing total total' before with
  | nil => simp [htotal]
  | @cons time time' times _ htime _ ih =>
    have htime : (time'.seconds : Int) = time.seconds + seconds := htime
    have hnext : ((total' + time'.seconds : Nat) : Int) =
        (total + time.seconds : Nat) + (before + seconds) := by
      omega
    have hlength : seconds * ((time :: times).length : Nat) =
        seconds + seconds * times.length := by
      rw [List.length_cons, Int.natCast_succ, Int.mul_add, Int.mul_one, Int.add_comm]
    rw [List.foldl_cons, List.foldl_cons, ih hnext, hlength]
    omega

theorem boardingTimes_agrees {itinerary moved : Itinerary} (h : itinerary.LaterBy seconds moved) :
    Agrees (fun boardings boardings' : Nat =>
      (boardings' : Int) = boardings + seconds * itinerary.rides.length)
      (boardingTimes itinerary) (boardingTimes moved) := by
  have htimes : Agrees (List.Forall₂ (Time.LaterBy seconds)) (itinerary.rides.mapM Ride.boardTime)
      (moved.rides.mapM Ride.boardTime) :=
    .mapM h.rides fun _ _ hride => hride.boardTime
  refine htimes.with_eq.bind fun times times' hmoved => ?_
  obtain ⟨hboards, -, hmoved⟩ := hmoved
  have hzero : ((0 : Nat) : Int) = (0 : Nat) + 0 := rfl
  have hsum := foldl_laterBy hmoved hzero
  rw [← (mapM_eq_ok_iff.mp hboards).length_eq, Int.zero_add] at hsum
  exact hsum

namespace Optimizer

/-- The times of the timetable of an optimizer are moved. -/
structure LaterBy (seconds : Int) (optimizer moved : Optimizer) : Prop where
  table : optimizer.table.LaterBy seconds moved.table
  slack : moved.slack = optimizer.slack
  settings : moved.settings = optimizer.settings

variable {optimizer optimizer' : Optimizer} {pricing : Option RiskPricing}

theorem LaterBy.planner (h : optimizer.LaterBy seconds optimizer') :
    optimizer.planner.LaterBy seconds optimizer'.planner :=
  ⟨h.table, h.slack, congrArg Settings.cost h.settings⟩

/-- An alternative is worth the same. -/
theorem assess_agrees {given given' : Itinerary} (hgiven : given.LaterBy seconds given')
    {alternative moved : Alternative} (h : alternative.LaterBy seconds moved) :
    Agrees (Option.Rel (Choice.LaterBy seconds)) (assess pricing given alternative)
      (assess pricing given' moved) := by
  have hrules : moved.joins.map (·.rule) = alternative.joins.map (·.rule) := by
    rw [← List.forall₂_eq_eq_eq, List.forall₂_map_left_iff, List.forall₂_map_right_iff]
    exact h.joins.flip.imp fun _ _ hjoin => hjoin.rule
  have hrisk : ∀ risk : RiskPricing, risk.cost moved.itinerary = risk.cost alternative.itinerary :=
    fun risk => h.itinerary.riskCost_eq risk
  unfold assess
  dsimp only
  rw [hrules, h.itinerary.cost_eq, h.itinerary.sameStretches_eq hgiven]
  simp only [hrisk]
  refine Agrees.bind_same (ruleCost (alternative.joins.map (·.rule))) fun total => ?_
  cases total with
  | none => exact Option.Rel.none
  | some total =>
    refine Agrees.bind_same alternative.itinerary.cost fun cost => ?_
    have hlast : ∀ waitCost : Cost, Agrees (Option.Rel (Choice.LaterBy seconds))
        (do
          let boardings ← boardingTimes alternative.itinerary
          return some (Choice.mk alternative.itinerary total waitCost cost
            (alternative.joins.map (·.rule)) (alternative.itinerary.sameStretches given) boardings))
        (do
          let boardings ← boardingTimes moved.itinerary
          return some (Choice.mk moved.itinerary total waitCost cost
            (alternative.joins.map (·.rule)) (alternative.itinerary.sameStretches given)
            boardings)) := by
      intro waitCost
      exact (boardingTimes_agrees h.itinerary).bind fun boardings boardings' hboardings =>
        Option.Rel.some ⟨h.itinerary, rfl, rfl, rfl, rfl, rfl, hboardings⟩
    cases pricing with
    | none => exact hlast cost
    | some risk =>
      refine Agrees.bind_same (risk.cost alternative.itinerary) fun waitCost => ?_
      exact hlast waitCost

theorem unchanged_agrees {itinerary moved : Itinerary} (h : itinerary.LaterBy seconds moved) :
    Agrees (Choice.LaterBy seconds) (unchanged itinerary) (unchanged moved) := by
  unfold unchanged
  rw [h.cost_eq]
  refine Agrees.bind_same itinerary.cost fun cost => ?_
  refine (boardingTimes_agrees h).bind fun boardings boardings' hboardings => ?_
  have hrules : List.replicate moved.numberOfChanges (none : Option TransferRule) =
      List.replicate itinerary.numberOfChanges none := by
    rw [Itinerary.numberOfChanges, Itinerary.numberOfChanges, h.changes.length_eq]
  exact Choice.LaterBy.mk h rfl rfl rfl hrules rfl hboardings

/-- What is assessed rides as often as its alternative. -/
theorem assessed_agrees {given given' : Itinerary} (hgiven : given.LaterBy seconds given')
    {alternative moved : Alternative} (h : alternative.LaterBy seconds moved) {rides : Nat}
    (hrides : alternative.itinerary.rides.length = rides) :
    Agrees (Option.Rel fun choice choice' =>
        choice.LaterBy seconds choice' ∧ choice.itinerary.rides.length = rides)
      (assess pricing given alternative) (assess pricing given' moved) := by
  refine (assess_agrees hgiven h).with_eq.mono fun found found' hfound => ?_
  obtain ⟨hassess, -, hrel⟩ := hfound
  rcases hrel with hchoice | _
  · rcases assess_eq_ok_iff.mp hassess with ⟨hnone, -⟩ | ⟨choice, hsome, hassesses⟩
    · cases hnone
    · cases hsome
      exact .some ⟨hchoice, by rw [hassesses.itinerary, hrides]⟩
  · exact .none

/-- The choices for an itinerary are the same, all of them moved. -/
theorem block_agrees (h : optimizer.LaterBy seconds optimizer') (hbuilt : optimizer.table.Built)
    {itinerary moved : Itinerary} (hrides : itinerary.RidesOn optimizer.table)
    (hmoved : itinerary.LaterBy seconds moved) :
    Agrees (List.Forall₂ (Choice.LaterBy seconds)) (optimizer.block pricing itinerary)
      (optimizer'.block pricing moved) := by
  by_cases hchanges : itinerary.changes = []
  · have hchanges' : moved.changes = [] := (forall₂_nil_iff hmoved.changes).mp hchanges
    rw [block_single hchanges, block_single hchanges']
    exact (unchanged_agrees hmoved).bind fun _ _ hchoice => List.Forall₂.cons hchoice .nil
  · have hchanges' : moved.changes ≠ [] := mt (forall₂_nil_iff hmoved.changes).mpr hchanges
    rw [block_changing hchanges, block_changing hchanges']
    refine (Planner.alternatives_agrees h.planner hmoved hchanges).with_eq.bind
      fun alternatives alternatives' hlisted => ?_
    obtain ⟨hlist, -, hall⟩ := hlisted
    -- All alternatives have as many rides as the itinerary.
    have hequal := forall₂_imp_of_mem (S := fun alternative other =>
        alternative.LaterBy seconds other ∧
          alternative.itinerary.rides.length = itinerary.rides.length) hall
      fun alternative hmem other hlater => by
        have halters := Planner.alters_of_mem_alternatives hbuilt hrides hlist hmem
        have hlength := congrArg List.length halters.trips
        rw [List.length_map, List.length_map] at hlength
        exact ⟨hlater, hlength⟩
    refine (Agrees.mapM hequal fun _ _ hpair => assessed_agrees hmoved hpair.1 hpair.2).bind
      fun assessed assessed' hassessed => ?_
    have hcandidates := List.rel_filterMap (fun _ _ hfound => hfound) hassessed
    have hapart : ∀ choice other : Choice,
        choice.LaterBy seconds other ∧ choice.itinerary.rides.length = itinerary.rides.length →
          Apart 0 (seconds * itinerary.rides.length) choice other := by
      intro choice other hpair
      refine ⟨hpair.1.ruleCost, ?_, ?_⟩
      · rw [hpair.1.waitCost, Int.add_zero]
      · rw [hpair.1.boardings, hpair.2]
    exact (narrow_apart (congrArg Settings.preferRules h.settings) hapart hcandidates).imp
      fun _ _ hpair => hpair.1

/-! ## A batch -/

/-- The waits of a batch are priced in the same way. -/
theorem pricingFor_laterBy (h : optimizer.LaterBy seconds optimizer') (shortest : Option Duration) :
    optimizer'.pricingFor shortest = optimizer.pricingFor shortest := by
  rw [pricingFor, pricingFor, h.settings, h.slack]

/-- All times of a timetable and of a batch on it are moved by some seconds.
If nothing overflows for the one or for the other, then both get the same
choices in the same order, with all times moved by as many seconds: the same
positions, costs, rules and flags. -/
theorem optimize_laterBy {xs ys : List Itinerary} (hbuilt : optimizer.table.Built)
    (hrides : ∀ itinerary ∈ xs, itinerary.RidesOn optimizer.table)
    (hcheck : optimizer.settings.check = .ok ()) (h : optimizer.LaterBy seconds optimizer')
    (hbatch : List.Forall₂ (Itinerary.LaterBy seconds) xs ys) (hfits : optimizer.Fits xs)
    (hfits' : optimizer'.Fits ys) :
    ∃ choices choices', (optimizer.optimize xs).outcome = .ok choices ∧
      (optimizer'.optimize ys).outcome = .ok choices' ∧
        List.Forall₂ (Choice.LaterBy seconds) choices choices' := by
  obtain ⟨shortest, hshortest, -⟩ := exists_shortestRide xs
  have hshortest' : shortestRide ys = .ok shortest := by
    rw [← hshortest, shortestRide, shortestRide,
      mapM_congr (hbatch.imp fun _ _ hmoved => hmoved.rideDuration_eq)]
  have hagrees : Agrees (List.Forall₂ (Choice.LaterBy seconds))
      (optimizer.chooseAll (optimizer.pricingFor shortest) xs)
      (optimizer'.chooseAll (optimizer'.pricingFor shortest) ys) := by
    rw [pricingFor_laterBy h]
    have hblocks : Agrees (List.Forall₂ (List.Forall₂ (Choice.LaterBy seconds)))
        (xs.mapM (optimizer.block (optimizer.pricingFor shortest)))
        (ys.mapM (optimizer'.block (optimizer.pricingFor shortest))) :=
      .mapM (forall₂_imp_of_mem hbatch fun itinerary hmem _ hmoved =>
        And.intro (hrides itinerary hmem) hmoved)
        fun _ _ hpair => block_agrees h hbuilt hpair.1 hpair.2
    exact hblocks.bind fun _ _ hchosen => List.rel_flatten hchosen
  have houtcome : (optimizer.optimize xs).outcome =
      liftFault (optimizer.chooseAll (optimizer.pricingFor shortest) xs) := by
    rw [outcome_optimize_shortest hshortest, hcheck]
    rfl
  have houtcome' : (optimizer'.optimize ys).outcome =
      liftFault (optimizer'.chooseAll (optimizer'.pricingFor shortest) ys) := by
    rw [outcome_optimize_shortest hshortest', h.settings, hcheck]
    rfl
  have hrun := (madeOfBlocks_of_fits hbuilt hrides hfits hcheck hshortest).outcome
  obtain ⟨choices', hchoices', hall⟩ := hagrees.exists_ok
    (liftFault_eq_ok_iff.mp (houtcome.symm.trans hrun)) fun fault hoverflow hfault =>
      hfits' fault hoverflow (houtcome'.trans (congrArg liftFault hfault))
  exact ⟨_, choices', hrun, houtcome'.trans (congrArg liftFault hchoices'), hall⟩

end Optimizer

/-! ## The small network an hour later -/

namespace Network

/-- The time an hour later. -/
def hourLater (t : Time) : Time := clock (t.seconds + 3600)

/-- A trip that runs an hour later. -/
def tripLater (trip : Trip) : Trip :=
  { trip with
    arrivals := trip.arrivals.map hourLater
    departures := trip.departures.map hourLater }

/-- A ride on a trip that runs an hour later. -/
def rideLater (ride : Ride) : Ride := { ride with trip := tripLater ride.trip }

/-- The timetable of the network an hour later. -/
def tableLater : Timetable :=
  { planner.table with trips := planner.table.trips.map tripLater }

/-- The journey from A to E an hour later. -/
def journeyLater : Itinerary where
  access := ⟨0, clock 3600, clock 3630, .zero⟩
  first := rideLater journey.first
  changes := journey.changes.map fun change => ⟨change.walk, rideLater change.ride⟩
  egress := ⟨4, clock 6000, clock 6060, .zero⟩
  sound := by decide +kernel

theorem laterBy_hourLater {t : Time} (h : t.seconds + 3600 < wordSize) :
    t.LaterBy 3600 (hourLater t) := by
  have hseconds : (hourLater t).seconds = t.seconds + 3600 := Nat.mod_eq_of_lt h
  rw [Time.LaterBy, hseconds]
  omega

theorem laterBy_tripLater {trip : Trip}
    (h : ∀ t ∈ trip.arrivals ++ trip.departures, t.seconds + 3600 < wordSize) :
    trip.LaterBy 3600 (tripLater trip) := by
  have hmap : ∀ times : List Time, (∀ t ∈ times, t.seconds + 3600 < wordSize) →
      List.Forall₂ (Time.LaterBy 3600) times (times.map hourLater) := by
    intro times htimes
    rw [List.forall₂_map_right_iff, List.forall₂_same]
    exact fun t ht => laterBy_hourLater (htimes t ht)
  exact ⟨rfl, rfl, rfl, rfl, hmap _ fun t ht => h t (List.mem_append_left _ ht),
    hmap _ fun t ht => h t (List.mem_append_right _ ht)⟩

theorem laterBy_tableLater : planner.table.LaterBy 3600 tableLater := by
  have hfits : ∀ trip ∈ planner.table.trips, ∀ t ∈ trip.arrivals ++ trip.departures,
      t.seconds + 3600 < wordSize := by
    decide +kernel
  refine ⟨rfl, rfl, rfl, ?_, rfl, rfl⟩
  refine List.forall₂_map_right_iff.mpr (List.forall₂_same.mpr fun trip htrip => ?_)
  exact laterBy_tripLater (hfits trip htrip)

theorem laterBy_journeyLater : journey.LaterBy 3600 journeyLater := by
  have hfits : ∀ ride ∈ journey.rides, ∀ t ∈ ride.trip.arrivals ++ ride.trip.departures,
      t.seconds + 3600 < wordSize := by
    decide +kernel
  have hride : ∀ ride ∈ journey.rides, ride.LaterBy 3600 (rideLater ride) :=
    fun ride hmem => ⟨laterBy_tripLater (hfits ride hmem), rfl, rfl, rfl⟩
  refine ⟨⟨rfl, rfl, rfl, rfl⟩, hride _ List.mem_cons_self, ?_, ⟨rfl, rfl, rfl, rfl⟩⟩
  refine List.forall₂_map_right_iff.mpr (List.forall₂_same.mpr fun change hchange => ?_)
  refine ⟨?_, hride _ (List.mem_cons_of_mem _ (List.mem_map_of_mem hchange))⟩
  have hwalk : ∀ change ∈ journey.changes, change.walk = none := by
    decide +kernel
  rw [hwalk change hchange]
  exact .none

end Network

namespace Optimizer

/-- The journey an hour later gets the same choice an hour later: three
boardings add up to three hours more. -/
theorem optimize_laterBy_hour :
    ∃ choices choices', (network.optimize [Network.journey]).outcome = .ok choices ∧
      (Optimizer.optimize ⟨Network.tableLater, network.slack, network.settings⟩
        [Network.journeyLater]).outcome = .ok choices' ∧
        List.Forall₂ (Choice.LaterBy 3600) choices choices' ∧
          choices.map (·.boardings) = [2460] ∧ choices'.map (·.boardings) = [13260] := by
  let later : Optimizer := ⟨Network.tableLater, network.slack, network.settings⟩
  have hboardings : (network.optimize [Network.journey]).outcome.map (·.map (·.boardings)) =
      .ok [2460] := by
    decide +kernel
  have hboardings' : (later.optimize [Network.journeyLater]).outcome.map (·.map (·.boardings)) =
      .ok [13260] := by
    decide +kernel
  have hfits : network.Fits [Network.journey] := fits_of_toBool (by decide +kernel)
  have hfits' : later.Fits [Network.journeyLater] := fits_of_toBool (by decide +kernel)
  have hlater : network.LaterBy 3600 later := ⟨Network.laterBy_tableLater, rfl, rfl⟩
  have hcheck : network.settings.check = .ok () := by
    decide +kernel
  obtain ⟨choices, choices', hrun, hrun', hall⟩ := optimize_laterBy Network.planner_built
    (fun itinerary h => List.mem_singleton.mp h ▸ Network.journey_ridesOn) hcheck hlater
    (.cons Network.laterBy_journeyLater .nil) hfits hfits'
  rw [hrun] at hboardings
  rw [hrun'] at hboardings'
  exact ⟨choices, choices', hrun, hrun', hall, Except.ok.inj hboardings,
    Except.ok.inj hboardings'⟩

end Optimizer

end TransitTransfers
