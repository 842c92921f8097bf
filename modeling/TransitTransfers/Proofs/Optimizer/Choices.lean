import TransitTransfers.Proofs.Alternative.Guarantee
import TransitTransfers.Proofs.Optimizer.Outcome

/-!
# What the optimizer returns

The optimizer makes a block of choices for every itinerary of a batch.  This
module says what is in a block.

* `choose_single_eq_ok_iff` and `choose_eq_ok_iff` take a block apart, and
  `exists_blocks` the choices for a batch.
* `Assesses` says what a choice records of an alternative, and
  `assess_eq_ok_iff` when an alternative makes a choice at all.
* `choices_alter` is the guarantee for a whole batch: every choice alters its
  itinerary only by moving changes to places with slack.
-/

namespace TransitTransfers

namespace Optimizer

variable {optimizer : Optimizer} {pricing : Option RiskPricing} {itinerary : Itinerary}

/-! ## The run -/

/-- An itinerary with a single ride is its own choice. -/
theorem choose_single_eq_ok_iff (hchanges : itinerary.changes = []) {block : List Choice} :
    (optimizer.choose pricing itinerary).outcome = .ok block ↔
      ∃ choice, unchanged itinerary = .ok choice ∧ block = [choice] := by
  rw [outcome_choose, liftFault_eq_ok_iff, block_single hchanges, bind_eq_ok_iff]
  refine exists_congr fun choice => and_congr_right fun _ => ?_
  rw [pure_eq_ok_iff, eq_comm]

/-- The block of an itinerary with several rides is what is left of the
alternatives that are not forbidden. -/
theorem choose_eq_ok_iff (hchanges : itinerary.changes ≠ []) {block : List Choice} :
    (optimizer.choose pricing itinerary).outcome = .ok block ↔
      ∃ alternatives assessed, optimizer.planner.alternatives itinerary = .ok alternatives ∧
        alternatives.mapM (assess pricing itinerary) = .ok assessed ∧
          Narrowing.narrow optimizer.criteria (assessed.filterMap id) = block := by
  rw [outcome_choose, liftFault_eq_ok_iff, block_changing hchanges]
  simp only [bind_eq_ok_iff, pure_eq_ok_iff, exists_and_left]

/-- The choices for a batch are made in blocks, one for every itinerary.  The
waits in all blocks are priced for the batch as a whole. -/
theorem exists_blocks {itineraries : List Itinerary} {choices : List Choice}
    (h : (optimizer.optimize itineraries).outcome = .ok choices) :
    ∃ pricing blocks,
      (itineraries ≠ [] → (optimizer.riskPricing itineraries).outcome = .ok pricing) ∧
        choices = blocks.flatten ∧
          List.Forall₂ (fun given block => (optimizer.choose pricing given).outcome = .ok block)
            itineraries blocks := by
  by_cases hbatch : itineraries = []
  · rw [hbatch, outcome_optimize_nil] at h
    obtain ⟨-, -, h⟩ := bind_eq_ok_iff.mp h
    cases h
    exact ⟨none, [], fun hne => absurd hbatch hne, rfl, hbatch ▸ .nil⟩
  · rw [outcome_optimize hbatch] at h
    obtain ⟨-, -, h⟩ := bind_eq_ok_iff.mp h
    obtain ⟨pricing, hpricing, h⟩ := bind_eq_ok_iff.mp h
    obtain ⟨blocks, hblocks, h⟩ := bind_eq_ok_iff.mp (liftFault_eq_ok_iff.mp h)
    refine ⟨pricing, blocks, fun _ => hpricing, (pure_eq_ok_iff.mp h).symm, ?_⟩
    refine (mapM_eq_ok_iff.mp hblocks).imp fun given block hblock => ?_
    rw [outcome_choose, hblock, liftFault_ok]

/-! ## One choice -/

/-- The cost in which waits count by their risk, or the plain one if they are
not weighed. -/
def weighedCost (pricing : Option RiskPricing) (itinerary : Itinerary) : Except Fault Cost :=
  match pricing with
  | some pricing => pricing.cost itinerary
  | none => itinerary.cost

/-- Where the plain cost is known, it is not worked out again. -/
theorem bind_weighedCost {α : Type} {cost : Cost} {next : Cost → Except Fault α} {found : α}
    (hcost : itinerary.cost = .ok cost) :
    (match pricing with
      | some pricing => pricing.cost itinerary >>= next
      | none => (pure cost : Except Fault Cost) >>= next) = .ok found ↔
        ∃ waitCost, weighedCost pricing itinerary = .ok waitCost ∧ next waitCost = .ok found := by
  cases pricing with
  | none =>
    show next cost = .ok found ↔ ∃ waitCost, itinerary.cost = .ok waitCost ∧ _
    rw [hcost]
    simp
  | some pricing => exact bind_eq_ok_iff

/-- A choice records an alternative with its costs. -/
structure Assesses (pricing : Option RiskPricing) (given : Itinerary)
    (alternative : Alternative) (choice : Choice) : Prop where
  itinerary : choice.itinerary = alternative.itinerary
  rules : choice.rules = alternative.joins.map (·.rule)
  /-- None of them forbids a change, and they have a cost. -/
  ruleCost : TransitTransfers.ruleCost choice.rules = .ok (some choice.ruleCost)
  cost : alternative.itinerary.cost = .ok choice.cost
  /-- It has a cost for its waits. -/
  waitCost : weighedCost pricing alternative.itinerary = .ok choice.waitCost
  /-- Its boardings have times. -/
  boardings : boardingTimes alternative.itinerary = .ok choice.boardings
  /-- It is known whether it changes where the given itinerary does. -/
  isUnchanged : choice.isUnchanged = alternative.itinerary.sameStretches given

/-- An alternative makes no choice if a rule forbids a change, and makes a
choice with its costs otherwise. -/
theorem assess_eq_ok_iff {given : Itinerary} {alternative : Alternative}
    {found : Option Choice} :
    assess pricing given alternative = .ok found ↔
      found = none ∧ ruleCost (alternative.joins.map (·.rule)) = .ok none ∨
        ∃ choice, found = some choice ∧ Assesses pricing given alternative choice := by
  unfold assess
  rw [bind_eq_ok_iff]
  constructor
  · intro h
    rcases h with ⟨total, htotal, h⟩
    cases total with
    | none => exact Or.inl ⟨(pure_eq_ok_iff.mp h).symm, htotal⟩
    | some ruleCost =>
      obtain ⟨cost, hcost, h⟩ := bind_eq_ok_iff.mp h
      obtain ⟨waitCost, hwait, h⟩ := (bind_weighedCost hcost).mp h
      obtain ⟨boardings, hboardings, h⟩ := bind_eq_ok_iff.mp h
      exact Or.inr ⟨_, (pure_eq_ok_iff.mp h).symm, rfl, rfl, htotal, hcost, hwait, hboardings, rfl⟩
  · intro h
    rcases h with ⟨rfl, htotal⟩ | ⟨choice, rfl, hassess⟩
    · exact ⟨none, htotal, rfl⟩
    · obtain ⟨itinerary, ruleCost, waitCost, cost, rules, isUnchanged, boardings⟩ := choice
      rcases hassess with ⟨rfl, rfl, htotal, hcost, hwait, hboardings, rfl⟩
      refine ⟨some ruleCost, htotal, bind_eq_ok_iff.mpr ⟨cost, hcost, ?_⟩⟩
      refine (bind_weighedCost hcost).mpr ⟨waitCost, hwait, ?_⟩
      exact bind_eq_ok_iff.mpr ⟨boardings, hboardings, rfl⟩

/-- Whatever is assessed and not forbidden records one of the alternatives. -/
theorem exists_assessed_of_mem {given : Itinerary} {alternatives : List Alternative}
    {assessed : List (Option Choice)}
    (hassessed : alternatives.mapM (assess pricing given) = .ok assessed) {choice : Choice}
    (hchoice : choice ∈ assessed.filterMap id) :
    ∃ alternative ∈ alternatives, Assesses pricing given alternative choice := by
  obtain ⟨found, hfound, hid⟩ := List.mem_filterMap.mp hchoice
  obtain rfl : found = some choice := hid
  obtain ⟨alternative, hmem, hassess⟩ :=
    exists_mem_of_forall₂ (mapM_eq_ok_iff.mp hassessed) hfound
  rcases assess_eq_ok_iff.mp hassess with ⟨hnone, -⟩ | ⟨made, hmade, hassesses⟩
  · cases hnone
  · cases hmade
    exact ⟨alternative, hmem, hassesses⟩

/-- Every choice records one of the alternatives. -/
theorem exists_alternative_of_mem (hchanges : itinerary.changes ≠ []) {block : List Choice}
    (h : (optimizer.choose pricing itinerary).outcome = .ok block) {choice : Choice}
    (hchoice : choice ∈ block) :
    ∃ alternatives, optimizer.planner.alternatives itinerary = .ok alternatives ∧
      ∃ alternative ∈ alternatives, Assesses pricing itinerary alternative choice := by
  obtain ⟨alternatives, assessed, halternatives, hassessed, rfl⟩ :=
    (choose_eq_ok_iff hchanges).mp h
  rw [Narrowing.narrow_eq_filter] at hchoice
  exact ⟨alternatives, halternatives,
    exists_assessed_of_mem hassessed (List.mem_filter.mp hchoice).1⟩

/-- The choice of an itinerary with a single ride is that itinerary. -/
theorem itinerary_of_unchanged {choice : Choice} (h : unchanged itinerary = .ok choice) :
    choice.itinerary = itinerary := by
  obtain ⟨cost, -, h⟩ := bind_eq_ok_iff.mp h
  obtain ⟨boardings, -, h⟩ := bind_eq_ok_iff.mp h
  obtain rfl := pure_eq_ok_iff.mp h
  rfl

/-! ## The guarantee -/

/-- Whatever is chosen for an itinerary alters it only by moving changes to
places with slack. -/
theorem alters_of_mem_choose (hbuilt : optimizer.table.Built)
    (hrides : itinerary.RidesOn optimizer.table) {block : List Choice}
    (h : (optimizer.choose pricing itinerary).outcome = .ok block) {choice : Choice}
    (hchoice : choice ∈ block) : optimizer.planner.Alters itinerary choice.itinerary := by
  by_cases hchanges : itinerary.changes = []
  · obtain ⟨only, honly, rfl⟩ := (choose_single_eq_ok_iff hchanges).mp h
    obtain rfl := List.mem_singleton.mp hchoice
    rw [itinerary_of_unchanged honly]
    exact Planner.alters_self hchanges
  · obtain ⟨alternatives, halternatives, alternative, hmem, hassesses⟩ :=
      exists_alternative_of_mem hchanges h hchoice
    rw [hassesses.itinerary]
    exact Planner.alters_of_mem_alternatives hbuilt hrides halternatives hmem

/-- Every choice for an itinerary of a batch is accepted as an itinerary by
its legs.  It rides the same trips between the same ends, and wherever it
changes elsewhere it keeps the slack. -/
theorem choices_alter {itineraries : List Itinerary} {choices : List Choice}
    (hbuilt : optimizer.table.Built)
    (hrides : ∀ itinerary ∈ itineraries, itinerary.RidesOn optimizer.table)
    (hrun : (optimizer.optimize itineraries).outcome = .ok choices) :
    ∃ pricing blocks,
      (itineraries ≠ [] → (optimizer.riskPricing itineraries).outcome = .ok pricing) ∧
        choices = blocks.flatten ∧
          List.Forall₂ (fun given block =>
            (optimizer.choose pricing given).outcome = .ok block ∧
              ∀ choice ∈ block, Itinerary.ofLegs choice.itinerary.legs = .ok choice.itinerary ∧
                optimizer.planner.Alters given choice.itinerary ∧
                  choice.itinerary.departure = given.departure ∧
                    choice.itinerary.arrival = given.arrival) itineraries blocks := by
  obtain ⟨pricing, blocks, hpricing, hflat, hblocks⟩ := exists_blocks hrun
  refine ⟨pricing, blocks, hpricing, hflat, ?_⟩
  refine forall₂_imp_of_mem hblocks fun given hgiven block hchoose => ⟨hchoose, ?_⟩
  intro choice hchoice
  have halters := alters_of_mem_choose hbuilt (hrides given hgiven) hchoose hchoice
  exact ⟨Itinerary.ofLegs_legs _, halters, congrArg Access.departure halters.access,
    congrArg Egress.arrival halters.egress⟩

/-! ## Choosing in the small network -/

/-- An optimizer for the small network that does not weigh waits. -/
def network : Optimizer :=
  ⟨Network.planner.table, .uniform default, { Settings.default with weighRisk := false }⟩

/-- The journey gets one choice, which walks from C to X. -/
theorem choices_alter_journey :
    ∃ choices, (network.optimize [Network.journey]).outcome = .ok choices ∧
      choices.map (fun choice => choice.itinerary.rides.map Ride.stretch) =
          [[(0, 0, 1), (1, 1, 2), (2, 1, 3)]] ∧
        ∃ pricing blocks, choices = blocks.flatten ∧
          List.Forall₂ (fun given block =>
            (network.choose pricing given).outcome = .ok block ∧
              ∀ choice ∈ block, network.planner.Alters given choice.itinerary)
            [Network.journey] blocks := by
  have hstretches : (network.optimize [Network.journey]).outcome.map
      (·.map fun choice => choice.itinerary.rides.map Ride.stretch) =
        .ok [[(0, 0, 1), (1, 1, 2), (2, 1, 3)]] := by
    decide +kernel
  cases hrun : (network.optimize [Network.journey]).outcome with
  | error e =>
    rw [hrun] at hstretches
    cases hstretches
  | ok choices =>
    rw [hrun] at hstretches
    obtain ⟨pricing, blocks, -, hblocks, hall⟩ := choices_alter Network.planner_built
      (fun itinerary h => List.mem_singleton.mp h ▸ Network.journey_ridesOn) hrun
    exact ⟨choices, rfl, Except.ok.inj hstretches, pricing, blocks, hblocks,
      hall.imp fun _ _ h => ⟨h.1, fun choice hchoice => (h.2 choice hchoice).2.1⟩⟩

end Optimizer

end TransitTransfers
