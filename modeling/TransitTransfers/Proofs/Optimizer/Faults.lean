import TransitTransfers.Proofs.Alternative.Room
import TransitTransfers.Proofs.Itinerary.Waits
import TransitTransfers.Proofs.Optimizer.Choices

/-!
# What stops the choice for an itinerary

The choice for an itinerary lists its alternatives and works out their costs.
Everything else, from the positions of trips to the waits, is always there.

* Costs are added and subtracted, so they only stop at a sum or a difference
  (`Itinerary.cost_stopsOnly` and the lemmas around it).
* `CostFault` names all costs that are worked out for an itinerary and do not
  fit: of the itinerary itself, of rides on the way over its chains, and of its
  alternatives (`AssessFault`).
* `block_stopsOnly` is the result: whatever stops the choice stops the listing
  of alternatives or is such a cost.
-/

namespace TransitTransfers

/-! ## Sums and differences of costs -/

/-- A sum or a difference does not fit its word. -/
def Fault.IsAdditive : Fault → Prop
  | .addition => True
  | .subtraction => True
  | _ => False

theorem Fault.IsAdditive.isOverflow {fault : Fault} (h : fault.IsAdditive) : fault.IsOverflow := by
  cases fault with
  | index length position => cases h
  | _ => trivial

theorem Yields.isAdditive {α : Type} {x : Except Fault α} {R : α → Prop} (hx : Yields x R) :
    StopsOnly x Fault.IsAdditive := by
  refine hx.stopsOnly.mono fun fault hfault => ?_
  rw [hfault]
  trivial

theorem Cost.sub_stopsOnly (a b : Cost) : StopsOnly (a.sub b) Fault.IsAdditive := by
  unfold Cost.sub
  split
  · exact .pure _
  · rintro fault ⟨⟩
    trivial

theorem Itinerary.cost_stopsOnly (itinerary : Itinerary) :
    StopsOnly itinerary.cost Fault.IsAdditive := by
  have hadd : ∀ a b : Cost, StopsOnly (a.add b) Fault.IsAdditive :=
    fun a b => (a.add_succeeds b).isAdditive
  have htotal : StopsOnly (Cost.total (itinerary.innerLegs.map Leg.cost)) Fault.IsAdditive :=
    .foldlM (fun a b _ => hadd a b) _
  exact htotal.bind fun inner _ => (hadd _ _).bind fun start _ => hadd _ _

theorem ruleCostFrom_stopsOnly (total : Cost) (rules : List (Option TransferRule)) :
    StopsOnly (ruleCostFrom total rules) Fault.IsAdditive := by
  induction rules generalizing total with
  | nil => exact .pure _
  | cons entry rules ih =>
    cases entry with
    | none => exact ih total
    | some rule =>
      rw [ruleCostFrom]
      cases rule.score with
      | none => exact .pure _
      | some score => exact (total.sub_stopsOnly _).bind fun rest _ => ih rest

theorem RiskPricing.exchangeWait_stopsOnly (pricing : RiskPricing) (cost : Cost)
    (wait : Duration) : StopsOnly (pricing.exchangeWait cost wait) Fault.IsAdditive :=
  (cost.sub_stopsOnly _).bind fun rest _ => (rest.add_succeeds _).isAdditive

theorem RiskPricing.cost_stopsOnly (pricing : RiskPricing) (itinerary : Itinerary) :
    StopsOnly (pricing.cost itinerary) Fault.IsAdditive := by
  obtain ⟨waits, hwaits⟩ := itinerary.exists_waits
  rw [pricing.cost_of_waits hwaits]
  exact itinerary.cost_stopsOnly.bind fun plain _ =>
    .foldlM (fun cost wait _ => pricing.exchangeWait_stopsOnly cost wait) plain

/-! ## Prices on the way -/

theorem Planner.ChainFault.isAdditive {planner : Planner} {fault : Fault} {isFirst : Bool}
    {ride : Ride} {board : Nat} {ready : Time} {steps : List (Join × Ride)}
    (h : planner.ChainFault fault isFirst ride board ready steps) : fault.IsAdditive := by
  have hride : ∀ {isFirst : Bool} {ready : Time} {trip : Trip} {board alight : Nat},
      planner.RideFault isFirst ready trip board alight fault → fault.IsAdditive := by
    intro isFirst ready trip board alight hprice
    obtain ⟨-, wait, -, duration, -, -, -, -, hcost⟩ := hprice
    exact (transitCost_succeeds planner.weights isFirst wait duration).isAdditive fault hcost
  induction h with
  | last hprice => exact hride hprice
  | here hprice => exact hride hprice
  | behind _ _ ih => exact ih

theorem exists_boardingTimes (itinerary : Itinerary) :
    ∃ boardings, boardingTimes itinerary = .ok boardings := by
  have htimes : ∃ times, itinerary.rides.mapM Ride.boardTime = .ok times := by
    refine exists_mapM fun ride hride => ?_
    obtain ⟨boarded, -, hboarded, -⟩ := itinerary.forward_of_mem ride hride
    exact ⟨boarded, hboarded⟩
  obtain ⟨times, htimes⟩ := htimes
  exact ⟨_, bind_eq_ok_iff.mpr ⟨times, htimes, rfl⟩⟩

namespace Optimizer

variable {optimizer : Optimizer} {pricing : Option RiskPricing} {itinerary : Itinerary}

/-! ## The costs of an alternative -/

/-- A cost of an alternative does not fit. -/
inductive AssessFault (pricing : Option RiskPricing) (alternative : Alternative)
    (fault : Fault) : Prop where
  /-- The scores of its rules, with the sign turned. -/
  | rules (h : ruleCost (alternative.joins.map (·.rule)) = .error fault)
  /-- The costs of its legs together. -/
  | legs (h : alternative.itinerary.cost = .error fault)
  /-- Its cost, when the plain prices of its waits are replaced by their risks. -/
  | waits {risk : RiskPricing} {plain : Cost} {waits : List Duration}
      (hpricing : pricing = some risk) (hplain : alternative.itinerary.cost = .ok plain)
      (hwaits : alternative.itinerary.junctions.mapM Junction.wait = .ok waits)
      (h : waits.foldlM risk.exchangeWait plain = .error fault)

theorem AssessFault.isAdditive {alternative : Alternative} {fault : Fault}
    (h : AssessFault pricing alternative fault) : fault.IsAdditive := by
  cases h with
  | rules h => exact ruleCostFrom_stopsOnly _ _ fault h
  | legs h => exact alternative.itinerary.cost_stopsOnly fault h
  | waits _ _ _ h =>
    exact StopsOnly.foldlM (fun cost wait _ => RiskPricing.exchangeWait_stopsOnly _ cost wait)
      _ fault h

/-- Nothing but a cost keeps an alternative from being assessed. -/
theorem assess_stopsOnly (given : Itinerary) (alternative : Alternative) :
    StopsOnly (assess pricing given alternative) (AssessFault pricing alternative) := by
  obtain ⟨boardings, hboardings⟩ := exists_boardingTimes alternative.itinerary
  unfold assess
  refine StopsOnly.bind (fun fault hfault => .rules hfault) fun total _ => ?_
  cases total with
  | none => exact .pure none
  | some total =>
    refine StopsOnly.bind (fun fault hfault => .legs hfault) fun cost hcost => ?_
    have hlast : ∀ waitCost, StopsOnly (do
        let boardings ← boardingTimes alternative.itinerary
        return some (Choice.mk alternative.itinerary total waitCost cost
          (alternative.joins.map (·.rule)) (alternative.itinerary.sameStretches given) boardings))
          (AssessFault pricing alternative) :=
      fun waitCost => StopsOnly.bind (.of_eq_ok hboardings) fun _ _ => .pure _
    cases pricing with
    | none => exact hlast cost
    | some risk =>
      obtain ⟨waits, hwaits⟩ := alternative.itinerary.exists_waits
      refine StopsOnly.bind (fun fault hfault => ?_) fun waitCost _ => hlast waitCost
      rw [risk.cost_of_waits hwaits, hcost] at hfault
      exact .waits rfl hcost hwaits hfault

/-! ## All costs -/

/-- A cost that is worked out for an itinerary does not fit. -/
inductive CostFault (optimizer : Optimizer) (pricing : Option RiskPricing)
    (itinerary : Itinerary) (fault : Fault) : Prop where
  /-- The costs of its legs together. -/
  | given (h : itinerary.cost = .error fault)
  /-- The price of a ride on the way over one of its chains. -/
  | price (h : optimizer.planner.PriceFault itinerary fault)
  /-- A cost of one of its alternatives. -/
  | alternative {alternatives : List Alternative} {alternative : Alternative}
      (halternatives : optimizer.planner.alternatives itinerary = .ok alternatives)
      (hmem : alternative ∈ alternatives) (h : AssessFault pricing alternative fault)

theorem CostFault.isAdditive {fault : Fault} (h : optimizer.CostFault pricing itinerary fault) :
    fault.IsAdditive := by
  cases h with
  | given h => exact itinerary.cost_stopsOnly fault h
  | price h =>
    obtain ⟨_, _, -, -, _, -, hchain⟩ := h
    exact hchain.isAdditive
  | alternative _ _ h => exact h.isAdditive

section Blocks

variable {P : Fault → Prop}

theorem unchanged_stopsOnly
    (hcosts : ∀ fault, optimizer.CostFault pricing itinerary fault → P fault) :
    StopsOnly (unchanged itinerary) P := by
  obtain ⟨boardings, hboardings⟩ := exists_boardingTimes itinerary
  refine StopsOnly.bind (fun fault hfault => hcosts fault (.given hfault)) fun cost _ => ?_
  exact StopsOnly.bind (.of_eq_ok hboardings) fun _ _ => .pure _

theorem mapM_assess_stopsOnly
    (hcosts : ∀ fault, optimizer.CostFault pricing itinerary fault → P fault)
    {alternatives : List Alternative}
    (halternatives : optimizer.planner.alternatives itinerary = .ok alternatives) :
    StopsOnly (alternatives.mapM (assess pricing itinerary)) P :=
  .mapM fun alternative hmem => (assess_stopsOnly itinerary alternative).mono
    fun fault hfault => hcosts fault (.alternative halternatives hmem hfault)

/-- What stops the choice for an itinerary stops the listing of alternatives, or
is a cost that does not fit. -/
theorem block_stopsOnly
    (hlist : itinerary.changes ≠ [] → StopsOnly (optimizer.planner.alternatives itinerary) P)
    (hcosts : ∀ fault, optimizer.CostFault pricing itinerary fault → P fault) :
    StopsOnly (optimizer.block pricing itinerary) P := by
  by_cases hchanges : itinerary.changes = []
  · rw [block_single hchanges]
    exact (unchanged_stopsOnly hcosts).bind fun choice _ => .pure _
  · rw [block_changing hchanges]
    refine (hlist hchanges).bind fun alternatives halternatives => ?_
    exact (mapM_assess_stopsOnly hcosts halternatives).bind fun assessed _ => .pure _

end Blocks

end Optimizer

end TransitTransfers
