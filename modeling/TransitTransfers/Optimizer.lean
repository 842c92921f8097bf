import TransitTransfers.Alternative
import TransitTransfers.Itinerary.Text
import TransitTransfers.Journal
import TransitTransfers.Narrowing
import TransitTransfers.Settings
import TransitTransfers.WaitRisk

/-!
# Choosing transfers

For every itinerary of a batch the optimizer lists the alternatives, drops
those with a forbidden change, and narrows the rest down: by the rules of
operators, by the risk of waits or else by cost, and at last by the times of
boarding.  The trips that are ridden never change.  An itinerary with a single
ride is its own choice, and one whose alternatives are all forbidden has none.

The batch has one thing in common: the safe transfer time, from the itinerary
that spends the least time in vehicles.

`Optimizer.optimize` is a `Run`.  For a listener of level `debug` it tells
after every stage which alternatives are left.
-/

namespace TransitTransfers

/-! ## Choices -/

/-- An itinerary that was chosen, with the costs by which it was. -/
structure Choice where
  itinerary : Itinerary
  /-- The scores of the rules in use, with the sign turned. -/
  ruleCost : Cost
  /-- The cost in which waits count by their risk, or the generalized cost if
  waits are not weighed. -/
  waitCost : Cost
  cost : Cost
  /-- The rule that decides each change, if there is one. -/
  rules : List (Option TransferRule)
  /-- Whether the changes are those of the itinerary that came in. -/
  isUnchanged : Bool
  /-- The times of all boardings, added up. -/
  boardings : Nat
deriving DecidableEq

namespace Choice

/-- The rule that decides the change with a given number. -/
def ruleAt? (choice : Choice) (junction : Nat) : Option TransferRule :=
  choice.rules[junction]?.join

/-- A choice as text. -/
def text (choice : Choice) : Except Fault String := do
  let itinerary ← choice.itinerary.text
  return itinerary ++ s!" [priority {choice.ruleCost.units}, wait {choice.waitCost.units}]"

end Choice

/-- The scores of rules, with the sign turned, on top of `total`.  There is
none if a change is forbidden. -/
def ruleCostFrom (total : Cost) : List (Option TransferRule) → Except Fault (Option Cost)
  | [] => return some total
  | none :: rules => ruleCostFrom total rules
  | some rule :: rules =>
    match rule.score with
    | none => return none
    | some score => do
      let total ← total.sub (.clamp score)
      ruleCostFrom total rules

/-- The scores of the rules that decide changes, with the sign turned. -/
def ruleCost (rules : List (Option TransferRule)) : Except Fault (Option Cost) :=
  ruleCostFrom .zero rules

/-- The times of all boardings of an itinerary, added up. -/
def boardingTimes (itinerary : Itinerary) : Except Fault Nat := do
  let times ← itinerary.rides.mapM Ride.boardTime
  return times.foldl (fun total time => total + time.seconds) 0

/-! ## The optimizer -/

/-- What choices are made by. -/
structure Optimizer where
  table : Timetable
  slack : SlackPolicy
  settings : Settings
deriving DecidableEq

namespace Optimizer

/-- The optimizer that keeps the slack of its settings for every route. -/
def ofSettings (table : Timetable) (settings : Settings) : Optimizer :=
  ⟨table, .uniform settings.slack, settings⟩

/-- Lists the alternatives. -/
def planner (optimizer : Optimizer) : Planner :=
  ⟨optimizer.table, optimizer.slack, optimizer.settings.cost⟩

/-- The choice of an itinerary with a single ride. -/
def unchanged (itinerary : Itinerary) : Except Fault Choice := do
  let cost ← itinerary.cost
  let boardings ← boardingTimes itinerary
  return { itinerary, cost, boardings
           ruleCost := .zero
           waitCost := cost
           rules := List.replicate itinerary.numberOfChanges none
           isUnchanged := true }

/-- An alternative with its costs, unless one of its changes is forbidden. -/
def assess (pricing : Option RiskPricing) (given : Itinerary)
    (alternative : Alternative) : Except Fault (Option Choice) := do
  let itinerary := alternative.itinerary
  let rules := alternative.joins.map (·.rule)
  let some ruleCost ← ruleCost rules | return none
  let cost ← itinerary.cost
  let waitCost ←
    match pricing with
    | some pricing => pricing.cost itinerary
    | none => pure cost
  let boardings ← boardingTimes itinerary
  return some
    { itinerary, ruleCost, waitCost, cost, rules, boardings
      isUnchanged := itinerary.sameStretches given }

/-- The criteria of the settings, in the order in which they count. -/
def criteria (optimizer : Optimizer) : List (Criterion Choice) :=
  let settings := optimizer.settings
  let byRules : List (Criterion Choice) :=
    if settings.preferRules then [⟨"transfer-priority", (·.ruleCost.units)⟩] else []
  let waitName := if settings.weighRisk then "wait-time" else "generalized-cost"
  byRules ++ [⟨waitName, (·.waitCost.units)⟩, ⟨"tie-break", fun choice => choice.boardings⟩]

/-! ## Messages -/

/-- What is left of the alternatives of `given` after a stage, as text. -/
def stageText (given : Itinerary) (stage : String) (left : List Itinerary) :
    Except Fault String := do
  let lines ← left.mapM fun itinerary => do
    let summary ← itinerary.summary
    return (if itinerary.sameStretches given then "  = " else "  + ") ++ summary
  let kept := if left.any (·.sameStretches given) then "kept" else "dropped"
  let summary ← given.summary
  return s!"{stage}: {lines.length} alternative(s), original {kept}\n  * {summary}\n" ++
    "\n".intercalate lines

/-- Tells what is left after a stage. -/
def tellStage (given : Itinerary) (stage : String) (left : List Itinerary) : Run Unit :=
  .say .debug fun _ => stageText given stage left

/-- Tells how many joins were found at each junction. -/
def tellFound (offers : List Offer) : Run Unit :=
  offers.forM fun offer => .say .trace fun _ =>
    return s!"{offer.found.length} candidate(s) from " ++ offer.own.source.id ++
      " to " ++ offer.own.target.id

/-- Tells how many chains there are behind each junction, from the last one
to the first. -/
def tellChains (last : Nat) (offers : List Offer) : Run Unit :=
  (List.range offers.length).reverse.forM fun junction => .say .trace fun _ =>
    let behind := Arena.build last ((offers.drop junction).map Offer.joins)
    return s!"{behind.tails.size} tail(s) after junction {junction}"

/-- Tells of every chain that made no itinerary. -/
def tellDiscarded (retimed : List (Option Alternative)) : Run Unit :=
  (retimed.filter Option.isNone).forM fun _ => .say .debug fun _ =>
    return "Discarding a permutation that breaks the itinerary order"

/-! ## Choosing -/

/-- The alternatives of an itinerary with several rides. -/
def listAlternatives (optimizer : Optimizer) (itinerary : Itinerary) :
    Run (List Alternative) := do
  let offers ← .ofFaulty (optimizer.planner.offers itinerary)
  tellFound offers
  tellChains itinerary.lastRide.alight offers
  let chains ← .ofFaulty (Planner.chainsOf itinerary offers)
  let retimed ← .ofFaulty (optimizer.planner.retimeAll itinerary chains)
  tellDiscarded retimed
  return retimed.filterMap id

/-- The best of some choices, telling what is left after each criterion. -/
def narrowDown (optimizer : Optimizer) (given : Itinerary) (choices : List Choice) :
    Run (List Choice) := do
  (Narrowing.stages optimizer.criteria choices).forM fun (stage, left) =>
    tellStage given stage (left.map (·.itinerary))
  return Narrowing.narrow optimizer.criteria choices

/-- The choices for one itinerary. -/
def choose (optimizer : Optimizer) (pricing : Option RiskPricing) (itinerary : Itinerary) :
    Run (List Choice) := do
  if itinerary.changes.isEmpty then
    let choice ← .ofFaulty (unchanged itinerary)
    return [choice]
  let alternatives ← optimizer.listAlternatives itinerary
  tellStage itinerary "permutations" (alternatives.map (·.itinerary))
  let assessed ← .ofFaulty (alternatives.mapM (assess pricing itinerary))
  let choices := assessed.filterMap id
  if choices.isEmpty then
    .say .debug fun _ => do
      let text ← itinerary.text
      return "Dropping itinerary, every alternative uses a forbidden transfer: " ++ text
    return []
  optimizer.narrowDown itinerary choices

/-- How the waits of a batch are priced, if the settings weigh them. -/
def riskPricing (optimizer : Optimizer) (itineraries : List Itinerary) :
    Run (Option RiskPricing) := do
  let settings := optimizer.settings
  if !settings.weighRisk then return none
  let safe ← .ofExcept (SafeTransfer.ofBatch optimizer.slack.changing itineraries)
  .say .debug fun _ => return s!"Min safe transfer time: {safe.text}"
  return some ⟨.of safe settings.riskFactor, settings.riskWeight, settings.cost⟩

/-- The choices for a batch of itineraries, in the order of the batch. -/
def optimize (optimizer : Optimizer) (itineraries : List Itinerary) : Run (List Choice) := do
  .ofExcept optimizer.settings.check
  if itineraries.isEmpty then return []
  let pricing ← optimizer.riskPricing itineraries
  let blocks ← itineraries.mapM (optimizer.choose pricing)
  return blocks.flatten

end Optimizer

end TransitTransfers
