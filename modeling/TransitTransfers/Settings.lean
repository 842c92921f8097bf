import TransitTransfers.Error
import TransitTransfers.Pricing
import TransitTransfers.Slack

/-!
# Settings

What a user decides about the choice of transfers: which criteria count, how
risky waits are weighed, what legs cost and how much slack to keep.
`Settings.check` refuses a factor below one, and weights that are negative or
not finite.
-/

namespace TransitTransfers

/-- What a user decides about the choice of transfers. -/
structure Settings where
  /-- Prefer changes that operators want. -/
  preferRules : Bool
  /-- Weigh waits by their risk, and not by their price. -/
  weighRisk : Bool
  riskWeight : Float
  /-- How many times dearer no wait is than a safe one. -/
  riskFactor : Float
  cost : CostWeights
  slack : SlackTimes
deriving DecidableEq

namespace Settings

/-- The settings of a user who decides nothing. -/
def default : Settings :=
  { preferRules := true
    weighRisk := true
    riskWeight := 1.0
    riskFactor := 5.0
    cost := .default
    slack := .default }

instance : Inhabited Settings := ⟨default⟩

/-- The weights that have to be finite and not negative, in the order in which
they are checked. -/
def weights (settings : Settings) : List (Weight × Float) :=
  [(.wait, settings.riskWeight),
   (.costWalk, settings.cost.walking),
   (.costWait, settings.cost.waiting),
   (.costTransit, settings.cost.riding)]

/-- Whether a factor is one at least. -/
def isFactor (x : Float) : Bool := !(x.isNaN || x < 1.0)

/-- Whether a weight is finite and not negative. -/
def isWeight (x : Float) : Bool := x.isFinite && !(x < 0.0)

/-- The first thing that is wrong with settings. -/
def defect? (settings : Settings) : Option SettingsDefect :=
  if !isFactor settings.riskFactor then some (.factorBelowOne settings.riskFactor)
  else
    (settings.weights.find? fun (_, x) => !isWeight x).map fun (weight, x) =>
      .badWeight weight x

/-- Refuses settings that are out of range. -/
def check (settings : Settings) : Except Error Unit :=
  match settings.defect? with
  | some defect => .error (.badSettings defect)
  | none => .ok ()

end Settings

/-! ## Equality of numbers

Two settings agree if their numbers are equal as numbers: the two zeros agree,
and what is not a number agrees with nothing. -/

/-- Whether two price lists agree. -/
def CostWeights.agrees (a b : CostWeights) : Bool :=
  a.boarding = b.boarding && a.changing = b.changing && a.walking == b.walking &&
    a.waiting == b.waiting && a.riding == b.riding

/-- Whether two settings agree. -/
def Settings.agrees (a b : Settings) : Bool :=
  a.preferRules = b.preferRules && a.weighRisk = b.weighRisk &&
    a.riskWeight == b.riskWeight && a.riskFactor == b.riskFactor &&
    a.cost.agrees b.cost && a.slack = b.slack

end TransitTransfers
