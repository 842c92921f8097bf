import TransitTransfers.WaitRisk
import TransitTransfers.Proofs.Itinerary.Durations

/-!
# The waits of an itinerary

All waits at the junctions of an itinerary are known (`exists_waits`).  So a
cost with risky waits is worked out of the waits alone: `RiskPricing.cost`
first looks every wait up, and `RiskPricing.cost_of_waits` leaves the sums and
differences of costs over, which `RiskPricing.exchangeWait` does one by one.
-/

namespace TransitTransfers

theorem Itinerary.exists_waits (itinerary : Itinerary) :
    ∃ waits, itinerary.junctions.mapM Junction.wait = .ok waits :=
  exists_mapM fun junction hjunction => (itinerary.sound_of_mem junction hjunction).exists_wait

namespace RiskPricing

/-- A cost in which the plain price of a wait is replaced by its risk. -/
def exchangeWait (pricing : RiskPricing) (cost : Cost) (wait : Duration) : Except Fault Cost := do
  let rest ← cost.sub (pricing.weights.waitCost wait)
  rest.add (pricing.riskCost wait)

/-- Where the waits are known, only costs are left to work with. -/
theorem cost_of_waits (pricing : RiskPricing) {itinerary : Itinerary} {waits : List Duration}
    (hwaits : itinerary.junctions.mapM Junction.wait = .ok waits) :
    pricing.cost itinerary =
      itinerary.cost >>= fun plain => waits.foldlM pricing.exchangeWait plain := by
  have hfold : ∀ plain, itinerary.junctions.foldlM pricing.exchange plain =
      waits.foldlM pricing.exchangeWait plain := foldlM_of_mapM hwaits
  rw [RiskPricing.cost, funext hfold]

end RiskPricing

end TransitTransfers
