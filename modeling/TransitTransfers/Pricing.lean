import TransitTransfers.Binary64
import TransitTransfers.Cost
import TransitTransfers.Time

/-!
# Prices of legs

Legs whose times change get a new price.  A boarding has a flat price, and one
more from the second boarding on; walking, waiting and riding are priced by
the second.  A product of a weight and a duration is rounded to whole units, a
half away from zero, and cut off at the ends of the range of costs.
-/

namespace TransitTransfers

/-- The cost nearest to a floating-point number. -/
def Cost.nearest (x : Float) : Cost :=
  .clamp (Binary64.nearestInt leastCost greatestCost (.ofFloat x))

/-- What legs cost. -/
structure CostWeights where
  boarding : Cost
  /-- The price of every boarding behind the first one, on top. -/
  changing : Cost
  walking : Float
  waiting : Float
  riding : Float
deriving DecidableEq

namespace CostWeights

/-- Ten minutes of riding for a boarding, and walking twice as dear as
waiting and riding. -/
def default : CostWeights :=
  ⟨⟨600, by decide, by decide⟩, .zero, 2.0, 1.0, 1.0⟩

instance : Inhabited CostWeights := ⟨default⟩

/-- The price of waiting. -/
def waitCost (weights : CostWeights) (wait : Duration) : Cost :=
  .nearest (weights.waiting * wait.toFloat)

/-- The price of walking. -/
def walkCost (weights : CostWeights) (walk : Duration) : Cost :=
  .nearest (weights.walking * walk.toFloat)

/-- The price of a ride without its boarding. -/
def rideCost (weights : CostWeights) (ride : Duration) : Cost :=
  .nearest (weights.riding * ride.toFloat)

/-- The price of a boarding. -/
def boardingCost (weights : CostWeights) (isFirst : Bool) : Except Fault Cost :=
  if isFirst then .ok weights.boarding else weights.boarding.add weights.changing

/-- The price of a ride with its boarding and the wait before it. -/
def transitCost (weights : CostWeights) (isFirst : Bool) (wait ride : Duration) :
    Except Fault Cost := do
  let boarding ← weights.boardingCost isFirst
  let boarded ← boarding.add (weights.waitCost wait)
  boarded.add (weights.rideCost ride)

end CostWeights

end TransitTransfers
