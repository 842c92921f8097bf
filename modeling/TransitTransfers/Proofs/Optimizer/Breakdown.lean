import TransitTransfers.Proofs.Alternative.Joins
import TransitTransfers.Proofs.Alternative.Prices
import TransitTransfers.Proofs.Optimizer.Faults

/-!
# Where waits are priced, and where their risk is

The cost of an alternative is a sum over what its rider does: there are the two
ends, the boardings, the wait before the first ride, the waits at the junctions,
the rides and the walks.  Where waits count by their risk, the plain prices of
the waits at junctions are taken out of that sum and the risks are put in.

* `Junction.Sound.splits` says that the time between two rides is the walk and
  the wait, so that a walk is never waiting time.
* `CostWeights.bill` is the sum, with any price for a wait at a junction.
  `Prices.cost_eq_bill` and `Prices.riskCost_eq_bill` are the two costs in terms
  of it.
* Both costs can only stop at a sum or a difference, so there is a cost if no
  number overflows (`StopsOnly.exists_ok`).
  `alternatives_exchange_waits` puts this together for all alternatives.
-/

namespace TransitTransfers

/-- No number overflows in `x`. -/
def NoOverflow {α : Type} (x : Except Fault α) : Prop :=
  ∀ fault, fault.IsOverflow → x ≠ .error fault

theorem NoOverflow.of_eq_ok {α : Type} {x : Except Fault α} {a : α} (hx : x = .ok a) :
    NoOverflow x := by
  intro fault _ hfault
  rw [hx] at hfault
  cases hfault

theorem StopsOnly.exists_ok {α : Type} {x : Except Fault α} (hx : StopsOnly x Fault.IsAdditive)
    (hfits : NoOverflow x) : ∃ a, x = .ok a := by
  cases x with
  | ok a => exact ⟨a, rfl⟩
  | error fault => exact absurd rfl (hfits fault (hx fault rfl).isOverflow)

/-! ## The time at a junction -/

/-- The rider walks and waits from the arrival of one ride to the departure of
the next one. -/
def Junction.Splits (junction : Junction) (wait : Duration) : Prop :=
  ∃ alighted walk boarded, junction.arriving.alightTime = .ok alighted ∧
    junction.walkDuration = .ok walk ∧ junction.departing.boardTime = .ok boarded ∧
      alighted.seconds + walk.seconds + wait.seconds = boarded.seconds

theorem Junction.Sound.splits {junction : Junction} (h : junction.Sound) {wait : Duration}
    (hwait : junction.wait = .ok wait) : junction.Splits wait := by
  obtain ⟨alighted, walk, -, boarded, rest, halighted, hwalk, -, hboarded, -, hrest, hseconds⟩ :=
    h.exists_split
  obtain rfl : wait = rest := Except.ok.inj (hwait.symm.trans hrest)
  exact ⟨alighted, walk, boarded, halighted, hwalk, hboarded, hseconds⟩

theorem Itinerary.Spends.splits {itinerary : Itinerary} {spending : Spending}
    (h : itinerary.Spends spending) :
    List.Forall₂ Junction.Splits itinerary.junctions spending.waits :=
  forall₂_imp_of_mem (mapM_eq_ok_iff.mp h.waits) fun junction hjunction _ hwait =>
    (itinerary.sound_of_mem junction hjunction).splits hwait

/-! ## The sum -/

/-- What an itinerary costs whose time is spent in a given way, if a wait at a
junction has the price `waitPrice`. -/
def CostWeights.bill (weights : CostWeights) (waitPrice : Duration → Cost)
    (itinerary : Itinerary) (spending : Spending) : Int :=
  itinerary.access.cost.units + itinerary.egress.cost.units +
    itinerary.rides.length * weights.boarding.units +
    (itinerary.rides.length - 1) * weights.changing.units +
    (weights.waitCost spending.first).units +
    units (spending.waits.map waitPrice) +
    units (spending.rides.map weights.rideCost) +
    units (spending.walks.map weights.walkCost)

namespace Planner

variable {planner : Planner} {given made : Itinerary} {spending : Spending}

theorem Prices.cost_eq_bill (h : planner.Prices given made spending) {cost : Cost}
    (hcost : made.cost = .ok cost) :
    cost.units = planner.weights.bill planner.weights.waitCost made spending := by
  have hlength : spending.rides.length = made.rides.length :=
    (mapM_eq_ok_iff.mp h.spends.rides).length_eq.symm
  rw [Itinerary.cost_units hcost, h.inner]
  simp only [CostWeights.price, CostWeights.boardings, CostWeights.motion, CostWeights.bill,
    hlength, if_true]
  omega

/-- The plain prices of the waits at junctions are taken out, and their risks
are put in. -/
theorem Prices.riskCost_eq_bill (h : planner.Prices given made spending) {pricing : RiskPricing}
    (hweights : pricing.weights = planner.weights) {cost : Cost}
    (hcost : pricing.cost made = .ok cost) :
    cost.units = planner.weights.bill pricing.riskCost made spending := by
  have hwaits : made.junctions.mapM Junction.wait = .ok spending.waits := h.spends.waits
  rw [RiskPricing.cost_of_waits pricing hwaits] at hcost
  obtain ⟨plain, hplain, hcost⟩ := bind_eq_ok_iff.mp hcost
  rw [RiskPricing.foldlM_exchangeWait_units hcost, h.cost_eq_bill hplain, hweights]
  simp only [CostWeights.bill]
  omega

/-- Every alternative costs what its rider does, and when waits count by their
risk, that changes the price of the waits at its junctions and nothing else.
The wait before the first ride keeps its plain price, a walk is no wait, and no
part of the plain price of a wait at a junction is left.  This holds whatever
the curve and its weight make of a wait, if no number overflows. -/
theorem alternatives_exchange_waits (hbuilt : planner.table.Built)
    (hrides : given.RidesOn planner.table) (hchanges : given.changes ≠ [])
    (hfits : planner.alternatives given ≠ .error .addition) :
    ∃ alternatives, planner.alternatives given = .ok alternatives ∧
      ∀ alternative ∈ alternatives, ∃ spending, alternative.itinerary.Spends spending ∧
        List.Forall₂ Junction.Splits alternative.itinerary.junctions spending.waits ∧
        (NoOverflow alternative.itinerary.cost →
          ∃ cost, alternative.itinerary.cost = .ok cost ∧
            cost.units =
              planner.weights.bill planner.weights.waitCost alternative.itinerary spending) ∧
        ∀ pricing : RiskPricing, pricing.weights = planner.weights →
          NoOverflow (pricing.cost alternative.itinerary) →
            ∃ cost, pricing.cost alternative.itinerary = .ok cost ∧
              cost.units =
                planner.weights.bill pricing.riskCost alternative.itinerary spending := by
  obtain ⟨alternatives, hlist⟩ := exists_alternatives hbuilt hrides hfits
  refine ⟨alternatives, hlist, fun alternative hmem => ?_⟩
  obtain ⟨offers, chains, -, -, hprices⟩ := exists_makes_prices hbuilt hrides hchanges hlist
  obtain ⟨chain, -, -, spending, hprice⟩ := exists_mem_of_forall₂ hprices hmem
  refine ⟨spending, hprice.spends, hprice.spends.splits, fun hcost => ?_, ?_⟩
  · obtain ⟨cost, hcost⟩ := alternative.itinerary.cost_stopsOnly.exists_ok hcost
    exact ⟨cost, hcost, hprice.cost_eq_bill hcost⟩
  · intro pricing hweights hcost
    obtain ⟨cost, hcost⟩ := (pricing.cost_stopsOnly alternative.itinerary).exists_ok hcost
    exact ⟨cost, hcost, hprice.riskCost_eq_bill hweights hcost⟩

end Planner

/-! ## A rider who pays for waiting only -/

/-- Where an itinerary costs as much as its only wait at a junction, it costs as
much as the risk of that wait, whatever it is. -/
theorem RiskPricing.cost_of_single_wait {pricing : RiskPricing} {itinerary : Itinerary}
    {wait : Duration} (hwaits : itinerary.junctions.mapM Junction.wait = .ok [wait])
    (hcost : itinerary.cost = .ok (pricing.weights.waitCost wait)) :
    pricing.cost itinerary = .ok (pricing.riskCost wait) := by
  have hrest : (pricing.weights.waitCost wait).sub (pricing.weights.waitCost wait) = .ok .zero :=
    Cost.sub_eq_ok_iff.mpr (Int.sub_self _)
  have hrisk : Cost.zero.add (pricing.riskCost wait) = .ok (pricing.riskCost wait) :=
    Cost.add_eq_ok_iff.mpr (Int.zero_add _)
  rw [pricing.cost_of_waits hwaits]
  refine bind_eq_ok_iff.mpr ⟨_, hcost, bind_eq_ok_iff.mpr ⟨_, ?_, rfl⟩⟩
  exact bind_eq_ok_iff.mpr ⟨_, hrest, hrisk⟩

namespace Network

/-- A journey from A to D that changes at B.  The access leg pays the wait for
the first trip back. -/
def transfer : Itinerary where
  access := ⟨0, clock 0, clock 30, ⟨-30, by decide, by decide⟩⟩
  first := redToB
  changes := [⟨none, blueToD⟩]
  egress := ⟨3, clock 1200, clock 1260, .zero⟩
  sound := by decide +kernel

/-- A planner for which nothing has a price but waiting. -/
def waiting : Planner := ⟨planner.table, planner.slack, ⟨.zero, .zero, 0.0, 1.0, 0.0⟩⟩

theorem waiting_built : waiting.table.Built := planner_built

theorem transfer_ridesOn : transfer.RidesOn waiting.table := by decide +kernel

end Network

/-- The two alternatives wait for five minutes at B or at C.  Any curve and any
weight put the risk of these waits in the place of their price. -/
theorem Planner.alternatives_exchange_waits_transfer :
    Network.waiting.alternatives Network.transfer ≠ .error .addition ∧
      ∃ alternatives, Network.waiting.alternatives Network.transfer = .ok alternatives ∧
        alternatives.length = 2 ∧
          ∀ alternative ∈ alternatives, ∃ spending, alternative.itinerary.Spends spending ∧
            ∀ pricing : RiskPricing, pricing.weights = Network.waiting.weights →
              ∃ cost, pricing.cost alternative.itinerary = .ok cost ∧
                cost = pricing.riskCost ⟨300, by decide⟩ ∧
                cost.units = Network.waiting.weights.bill pricing.riskCost
                  alternative.itinerary spending := by
  have hfits : Network.waiting.alternatives Network.transfer ≠ .error .addition := by
    decide +kernel
  have hruns : (Network.waiting.alternatives Network.transfer).map (·.map fun alternative =>
      (alternative.itinerary.junctions.mapM Junction.wait, alternative.itinerary.cost)) =
        .ok (List.replicate 2 (.ok [⟨300, by decide⟩],
          .ok (Network.waiting.weights.waitCost ⟨300, by decide⟩))) := by
    decide +kernel
  obtain ⟨alternatives, hlist, hall⟩ := alternatives_exchange_waits Network.waiting_built
    Network.transfer_ridesOn (by decide +kernel) hfits
  rw [hlist] at hruns
  have hruns := Except.ok.inj hruns
  have hlength := congrArg List.length hruns
  rw [List.length_map, List.length_replicate] at hlength
  rw [← hlength] at hruns
  have hpriced := List.map_eq_replicate_iff.mp hruns
  refine ⟨hfits, alternatives, hlist, hlength, fun alternative hmem => ?_⟩
  obtain ⟨spending, hspends, -, -, hexchange⟩ := hall alternative hmem
  refine ⟨spending, hspends, fun pricing hweights => ?_⟩
  obtain ⟨hwaits, hplain⟩ := Prod.mk.inj (hpriced alternative hmem)
  rw [← hweights] at hplain
  have hrisk := RiskPricing.cost_of_single_wait hwaits hplain
  obtain ⟨cost, hcost, hbill⟩ := hexchange pricing hweights (.of_eq_ok hrisk)
  exact ⟨cost, hcost, Except.ok.inj (hcost.symm.trans hrisk), hbill⟩

end TransitTransfers
