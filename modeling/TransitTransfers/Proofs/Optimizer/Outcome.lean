import TransitTransfers.Optimizer
import TransitTransfers.Proofs.Journal
import TransitTransfers.Proofs.Alternative.Offers
import TransitTransfers.Proofs.Narrowing.Lexicographic

/-!
# The optimizer without its messages

Messages play no part in what a run yields.  So the outcome of each part of
the optimizer is a plain computation, and later proofs start from these
equations and never look at a `Run` again.

* `block` is the computation of the choices for one itinerary, and
  `outcome_choose` says that this is what `choose` yields.
* `outcome_riskPricing` and `outcome_optimize` do the same for what the batch
  has in common and for the batch.
-/

namespace TransitTransfers

namespace Optimizer

variable {optimizer : Optimizer} {pricing : Option RiskPricing} {itinerary : Itinerary}

/-! ## Messages have no outcome -/

theorem outcome_tellFound (offers : List Offer) : (tellFound offers).outcome = .ok () :=
  Run.outcome_forM fun _ _ => rfl

theorem outcome_tellChains (last : Nat) (offers : List Offer) :
    (tellChains last offers).outcome = .ok () :=
  Run.outcome_forM fun _ _ => rfl

theorem outcome_tellDiscarded (retimed : List (Option Alternative)) :
    (tellDiscarded retimed).outcome = .ok () :=
  Run.outcome_forM fun _ _ => rfl

theorem outcome_narrowDown (given : Itinerary) (choices : List Choice) :
    (optimizer.narrowDown given choices).outcome =
      .ok (Narrowing.narrow optimizer.criteria choices) := by
  exact Run.outcome_bind_eq_ok_iff.mpr ⟨(), Run.outcome_forM fun _ _ => rfl, rfl⟩

/-! ## One itinerary -/

/-- The choices for one itinerary, worked out in silence. -/
def block (optimizer : Optimizer) (pricing : Option RiskPricing) (itinerary : Itinerary) :
    Except Fault (List Choice) := do
  if itinerary.changes.isEmpty then
    let choice ← unchanged itinerary
    return [choice]
  let alternatives ← optimizer.planner.alternatives itinerary
  let assessed ← alternatives.mapM (assess pricing itinerary)
  return Narrowing.narrow optimizer.criteria (assessed.filterMap id)

/-- An itinerary with a single ride is its own choice. -/
theorem block_single (hchanges : itinerary.changes = []) :
    optimizer.block pricing itinerary = do
      let choice ← unchanged itinerary
      return [choice] := by
  rw [block, hchanges]
  rfl

/-- An itinerary with several rides goes through all three steps. -/
theorem block_changing (hchanges : itinerary.changes ≠ []) :
    optimizer.block pricing itinerary = do
      let alternatives ← optimizer.planner.alternatives itinerary
      let assessed ← alternatives.mapM (assess pricing itinerary)
      return Narrowing.narrow optimizer.criteria (assessed.filterMap id) := by
  have hempty : itinerary.changes.isEmpty = false := by
    simp [hchanges]
  rw [block, hempty]
  rfl

/-- Whether the itinerary is dropped or its choices are narrowed down, the
outcome is what is left of the choices. -/
theorem outcome_dropOrNarrow (text : Unit → Except Fault String) (choices : List Choice) :
    (if choices.isEmpty = true then do
        Run.say .debug text
        return []
      else optimizer.narrowDown itinerary choices : Run (List Choice)).outcome =
        .ok (Narrowing.narrow optimizer.criteria choices) := by
  by_cases hnone : choices.isEmpty = true
  · -- Nothing is left to narrow down.
    rw [if_pos hnone, List.isEmpty_iff.mp hnone,
      (Narrowing.narrow_eq_nil_iff optimizer.criteria).mpr rfl]
    rfl
  · rw [if_neg hnone, outcome_narrowDown]

/-- The alternatives are listed as the planner lists them. -/
theorem outcome_listAlternatives (hchanges : itinerary.changes ≠ []) :
    (optimizer.listAlternatives itinerary).outcome =
      liftFault (optimizer.planner.alternatives itinerary) := by
  rw [Planner.alternatives_eq hchanges, listAlternatives]
  simp only [Run.outcome_bind, Run.outcome_ofFaulty, outcome_tellFound, outcome_tellChains,
    outcome_tellDiscarded, Run.outcome_pure, liftFault_bind, liftFault_pure]
  rfl

theorem outcome_choose :
    (optimizer.choose pricing itinerary).outcome =
      liftFault (optimizer.block pricing itinerary) := by
  unfold choose
  by_cases hempty : itinerary.changes.isEmpty = true
  · rw [if_pos hempty, block_single (List.isEmpty_iff.mp hempty)]
    simp only [Run.outcome_bind, Run.outcome_ofFaulty, Run.outcome_pure, liftFault_bind,
      liftFault_pure]
    rfl
  · have hchanges : itinerary.changes ≠ [] := by
      simpa using hempty
    rw [if_neg hempty, block_changing hchanges]
    simp only [Run.outcome_bind, outcome_listAlternatives hchanges, tellStage, Run.outcome_say,
      Run.outcome_ofFaulty, outcome_dropOrNarrow, liftFault_bind, liftFault_pure]
    rfl

/-! ## What the batch has in common -/

/-- The shortest time that an itinerary of a batch spends in vehicles. -/
def shortestRide (itineraries : List Itinerary) : Except Fault (Option Duration) := do
  let rides ← itineraries.mapM Itinerary.rideDuration
  return rides.min?

/-- How waits are priced in a batch with a given shortest ride. -/
def pricingFor (optimizer : Optimizer) (shortest : Option Duration) : Option RiskPricing :=
  let settings := optimizer.settings
  if settings.weighRisk then
    shortest.map fun ride =>
      ⟨.of (SafeTransfer.ofRide optimizer.slack.changing ride) settings.riskFactor,
        settings.riskWeight, settings.cost⟩
  else none

theorem pricingFor_unweighed (hweigh : optimizer.settings.weighRisk = false)
    (shortest : Option Duration) : optimizer.pricingFor shortest = none := by
  rw [pricingFor, hweigh]
  rfl

theorem pricingFor_weighed (hweigh : optimizer.settings.weighRisk = true) (shortest : Duration) :
    optimizer.pricingFor (some shortest) =
      some ⟨.of (SafeTransfer.ofRide optimizer.slack.changing shortest)
        optimizer.settings.riskFactor, optimizer.settings.riskWeight, optimizer.settings.cost⟩ := by
  rw [pricingFor, hweigh]
  rfl

/-- Without weighing the batch has nothing in common. -/
theorem outcome_riskPricing_unweighed {itineraries : List Itinerary}
    (hweigh : optimizer.settings.weighRisk = false) :
    (optimizer.riskPricing itineraries).outcome = .ok none := by
  simp only [riskPricing, hweigh]
  rfl

/-- The pricing of the waits takes nothing from the batch but its shortest
ride. -/
theorem outcome_riskPricing {itineraries : List Itinerary} {shortest : Duration}
    (hshortest : shortestRide itineraries = .ok (some shortest)) :
    (optimizer.riskPricing itineraries).outcome = .ok (optimizer.pricingFor (some shortest)) := by
  obtain ⟨rides, hrides, hmin⟩ := bind_eq_ok_iff.mp hshortest
  have hsafe : SafeTransfer.ofBatch optimizer.slack.changing itineraries =
      .ok (SafeTransfer.ofRide optimizer.slack.changing shortest) := by
    refine bind_eq_ok_iff.mpr ⟨rides, liftFault_eq_ok_iff.mpr hrides, ?_⟩
    rw [pure_eq_ok_iff.mp hmin]
    rfl
  cases hweigh : optimizer.settings.weighRisk with
  | false => rw [outcome_riskPricing_unweighed hweigh, pricingFor_unweighed hweigh]
  | true =>
    rw [pricingFor_weighed hweigh]
    simp only [riskPricing, hweigh, hsafe]
    rfl

/-- The waits of batches with the same safe transfer time are priced alike. -/
theorem riskPricing_congr {xs ys : List Itinerary}
    (hsafe : optimizer.settings.weighRisk = true →
      SafeTransfer.ofBatch optimizer.slack.changing xs =
        SafeTransfer.ofBatch optimizer.slack.changing ys) :
    optimizer.riskPricing xs = optimizer.riskPricing ys := by
  cases hweigh : optimizer.settings.weighRisk with
  | false => simp only [riskPricing, hweigh, Bool.not_false, if_true]
  | true => rw [riskPricing, riskPricing, hsafe hweigh]

/-! ## A batch -/

/-- The choices for a batch in which waits are priced in a given way. -/
def chooseAll (optimizer : Optimizer) (pricing : Option RiskPricing)
    (itineraries : List Itinerary) : Except Fault (List Choice) := do
  let blocks ← itineraries.mapM (optimizer.block pricing)
  return blocks.flatten

theorem outcome_optimize_nil :
    (optimizer.optimize []).outcome = optimizer.settings.check >>= fun _ => .ok [] := by
  rw [optimize, Run.outcome_bind]
  rfl

theorem outcome_optimize {itineraries : List Itinerary} (hbatch : itineraries ≠ []) :
    (optimizer.optimize itineraries).outcome =
      optimizer.settings.check >>= fun _ =>
        (optimizer.riskPricing itineraries).outcome >>= fun pricing =>
          liftFault (optimizer.chooseAll pricing itineraries) := by
  have hempty : ¬itineraries.isEmpty = true := by
    simp [hbatch]
  rw [optimize, Run.outcome_bind]
  simp only [if_neg hempty, Run.outcome_bind, Run.outcome_mapM, outcome_choose, liftFault_mapM,
    Run.outcome_pure, chooseAll, liftFault_bind, liftFault_pure]
  rfl

end Optimizer

end TransitTransfers
