import TransitTransfers.Pricing
import TransitTransfers.Itinerary.Junction

/-!
# The risk of short waits

A short wait may be missed, so it is dearer than a long one.  `WaitCurve.cost`
prices a wait of `w` seconds at

`n * t0 / (1 + (n - 1) * ln (1 + (e - 1) * w / t0))`

where `t0` is the safe transfer time and `n` the factor of a wait without
margin: no wait costs `n * t0`, a safe wait costs `t0`, and longer waits cost
less and less.

The safe transfer time of a batch of itineraries is a fixed share of the
shortest time that one of them spends in vehicles, within bounds.
-/

namespace TransitTransfers

/-! ## The curve -/

/-- The price of waits. -/
structure WaitCurve where
  /-- The safe transfer time in seconds, one second at least. -/
  safe : Float
  /-- How many times dearer no wait is than a safe one. -/
  factor : Float
deriving DecidableEq

namespace WaitCurve

/-- The base of the natural logarithm. -/
def base : Float := 2.718281828459045

/-- The curve for a safe transfer time and a factor. -/
def of (safe : Duration) (factor : Float) : WaitCurve :=
  ⟨if safe.seconds = 0 then 1.0 else safe.toFloat, factor⟩

/-- What the price of no wait is divided by for a wait of some seconds. -/
def decay (curve : WaitCurve) (seconds : Float) : Float :=
  1.0 + (curve.factor - 1.0) * (1.0 + (base - 1.0) * seconds / curve.safe).log

/-- The price of a wait of some seconds. -/
def costOfSeconds (curve : WaitCurve) (seconds : Float) : Float :=
  curve.factor * curve.safe / curve.decay seconds

/-- The price of a wait. -/
def cost (curve : WaitCurve) (wait : Duration) : Float :=
  curve.costOfSeconds wait.toFloat

end WaitCurve

/-! ## The safe transfer time -/

/-- The duration nearest to a number of seconds. -/
def Duration.nearest (x : Float) : Duration :=
  let seconds := Binary64.nearestInt 0 (wordSize - 1) (.ofFloat x)
  (Duration.ofSeconds? seconds.toNat).getD .zero

namespace SafeTransfer

/-- The share of the time in vehicles that makes a transfer safe. -/
def share : Float := 0.0667

/-- No transfer is safe in less. -/
def least : Duration := ⟨60, by decide⟩

/-- Every transfer is safe in that time, unless the slack is longer. -/
def most : Duration := ⟨2400, by decide⟩

/-- The safe transfer time for a time in vehicles, where a change takes
`changing`.  The lower bound wins if the bounds cross. -/
def ofRide (changing ride : Duration) : Duration :=
  max (min (Duration.nearest (ride.toFloat * share)) most) (max changing least)

/-- The safe transfer time of a batch of itineraries, where a change takes
`changing`. -/
def ofBatch (changing : Duration) (itineraries : List Itinerary) : Except Error Duration := do
  let rides ← liftFault (itineraries.mapM Itinerary.rideDuration)
  match rides.min? with
  | some shortest => return ofRide changing shortest
  | none => throw .noItineraries

end SafeTransfer

/-! ## Costs with risky waits -/

/-- How waits at junctions are priced by their risk. -/
structure RiskPricing where
  curve : WaitCurve
  weight : Float
  /-- The prices that the cost of an itinerary was made of. -/
  weights : CostWeights
deriving DecidableEq

namespace RiskPricing

/-- The price of a wait at a junction. -/
def riskCost (pricing : RiskPricing) (wait : Duration) : Cost :=
  .nearest (pricing.weight * pricing.curve.cost wait)

/-- A cost in which the plain price of a wait is replaced by its risk. -/
def exchange (pricing : RiskPricing) (cost : Cost) (junction : Junction) :
    Except Fault Cost := do
  let wait ← junction.wait
  let rest ← cost.sub (pricing.weights.waitCost wait)
  rest.add (pricing.riskCost wait)

/-- The cost of an itinerary in which the waits at junctions are priced by
their risk. -/
def cost (pricing : RiskPricing) (itinerary : Itinerary) : Except Fault Cost := do
  let plain ← itinerary.cost
  itinerary.junctions.foldlM pricing.exchange plain

end RiskPricing

end TransitTransfers
