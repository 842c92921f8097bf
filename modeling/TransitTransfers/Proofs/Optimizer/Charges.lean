import TransitTransfers.Proofs.Alternative.Charges
import TransitTransfers.Proofs.Optimizer.Blocks
import TransitTransfers.Proofs.Optimizer.Selection

/-!
# Fixed charges never decide

All alternatives of an itinerary pay for as many boardings, for the same wait
before the first ride, and for the same access and egress.  So it does not
matter for the choice how much that is.  Where waits at junctions count by
their risk, it does not matter either what they cost.

* `Settings.SameButCharges` and `Optimizer.SameButCharges` say what may differ.
* `waitPrice` is what a wait adds to the cost that choices are compared by, and
  `weighedCost_units` is that cost: a part that all alternatives pay, the waits,
  and the motion.
* `surcharge` is how much more every choice for an itinerary pays, and
  `Choice.Repriced` is one choice that pays more.  `block_reprices` are all
  choices for one itinerary.
* `optimize_repriced` is the result for a batch.
-/

namespace TransitTransfers

/-- Settings that differ at most in what boardings cost, and in what waits
cost if waits are weighed by their risk. -/
structure Settings.SameButCharges (a b : Settings) : Prop where
  preferRules : b.preferRules = a.preferRules
  weighRisk : b.weighRisk = a.weighRisk
  riskWeight : b.riskWeight = a.riskWeight
  riskFactor : b.riskFactor = a.riskFactor
  walking : b.cost.walking = a.cost.walking
  riding : b.cost.riding = a.cost.riding
  /-- Only waits that are weighed may cost something else. -/
  waiting : a.weighRisk = false → b.cost.waiting = a.cost.waiting
  slack : b.slack = a.slack

/-- A choice at other charges: the legs, the rules and the times of boarding
are the same, and the cost that decides is higher by an amount. -/
structure Choice.Repriced (amount : Int) (choice other : Choice) : Prop where
  legs : choice.itinerary.SameLegs other.itinerary
  ruleCost : other.ruleCost = choice.ruleCost
  rules : other.rules = choice.rules
  isUnchanged : other.isUnchanged = choice.isUnchanged
  boardings : other.boardings = choice.boardings
  waitCost : other.waitCost.units = choice.waitCost.units + amount

/-- Rides without their prices tell when they are boarded. -/
theorem Itinerary.SameLegs.boardingTimes {a b : Itinerary} (h : a.SameLegs b) :
    boardingTimes a = boardingTimes b := by
  have htimes : a.rides.mapM Ride.boardTime = b.rides.mapM Ride.boardTime :=
    mapM_congr ((Ride.forall₂_course h.rides).imp fun ride other hcourse => by
      obtain ⟨htrip, hboard, -⟩ := Ride.course_eq_iff.mp hcourse
      exact Ride.boardTime_of_same htrip hboard)
  rw [TransitTransfers.boardingTimes, TransitTransfers.boardingTimes, htimes]

namespace Optimizer

/-- Optimizers that differ at most in what boardings cost, and in what waits
cost if waits are weighed by their risk. -/
structure SameButCharges (optimizer optimizer' : Optimizer) : Prop where
  table : optimizer'.table = optimizer.table
  slack : optimizer'.slack = optimizer.slack
  settings : optimizer.settings.SameButCharges optimizer'.settings

variable {optimizer optimizer' : Optimizer} {given given' : Itinerary} {shortest : Duration}

theorem SameButCharges.planner (h : optimizer.SameButCharges optimizer') :
    optimizer.planner.SameButCharges optimizer'.planner :=
  ⟨h.table, h.slack, h.settings.walking, h.settings.riding⟩

/-! ## Prices -/

/-- What a wait at a junction adds to the cost that choices are compared by. -/
def waitPrice (optimizer : Optimizer) (shortest : Duration) : Duration → Cost :=
  match optimizer.pricingFor (some shortest) with
  | some pricing => pricing.riskCost
  | none => optimizer.settings.cost.waitCost

theorem SameButCharges.waitPrice_eq (h : optimizer.SameButCharges optimizer')
    (shortest : Duration) : optimizer'.waitPrice shortest = optimizer.waitPrice shortest := by
  have hweigh' := h.settings.weighRisk
  unfold waitPrice
  cases hweigh : optimizer.settings.weighRisk with
  | false =>
    rw [hweigh] at hweigh'
    rw [pricingFor_unweighed hweigh, pricingFor_unweighed hweigh']
    exact CostWeights.waitCost_congr (h.settings.waiting hweigh)
  | true =>
    rw [hweigh] at hweigh'
    rw [pricingFor_weighed hweigh, pricingFor_weighed hweigh', h.settings.riskWeight,
      h.settings.riskFactor, h.slack]
    rfl

/-- The cost that choices are compared by: what every alternative pays, the
waits and the motion. -/
theorem weighedCost_units {made : Itinerary} {spending : Spending}
    (h : optimizer.planner.Prices given made spending) {cost : Cost}
    (hcost : weighedCost (optimizer.pricingFor (some shortest)) made = .ok cost) :
    cost.units = optimizer.planner.charges given +
      units (spending.waits.map (optimizer.waitPrice shortest)) +
        optimizer.settings.cost.motion spending := by
  unfold waitPrice
  cases hweigh : optimizer.settings.weighRisk with
  | false =>
    rw [pricingFor_unweighed hweigh] at hcost ⊢
    exact h.cost_units hcost
  | true =>
    rw [pricingFor_weighed hweigh] at hcost ⊢
    exact h.riskCost_units rfl hcost

/-! ## One choice -/

/-- What every choice for an itinerary pays, wherever it changes.  An itinerary
with a single ride keeps the price of that ride. -/
def charges (optimizer : Optimizer) (given : Itinerary) : Int :=
  if given.changes = [] then given.access.cost.units + given.egress.cost.units
  else optimizer.planner.charges given

/-- How much more every choice for an itinerary pays at other charges. -/
def surcharge (optimizer optimizer' : Optimizer) (given given' : Itinerary) : Int :=
  optimizer'.charges given' - optimizer.charges given

/-- Choices at other charges, one by one.  The generalized costs are apart by
the same amount if waits cost the same. -/
def Reprices (optimizer optimizer' : Optimizer) (given given' : Itinerary)
    (choice other : Choice) : Prop :=
  choice.Repriced (optimizer.surcharge optimizer' given given') other ∧
    (optimizer'.settings.cost.waiting = optimizer.settings.cost.waiting →
      other.cost.units = choice.cost.units + optimizer.surcharge optimizer' given given')

theorem sameStretches_eq (hends : given.SameButEnds given') {made made' : Itinerary}
    (h : made.SameLegs made') : made'.sameStretches given' = made.sameStretches given := by
  rw [Itinerary.sameStretches, Itinerary.sameStretches, Ride.map_stretch_of_course h.rides,
    hends.rides]

theorem reprices_of_assesses (h : optimizer.SameButCharges optimizer')
    (hends : given.SameButEnds given') (hchanges : given.changes ≠ [])
    {alternative other : Alternative}
    (hmade : optimizer.planner.Recharged optimizer'.planner given given' alternative other)
    {choice choice' : Choice}
    (hassess : Assesses (optimizer.pricingFor (some shortest)) given alternative choice)
    (hassess' : Assesses (optimizer'.pricingFor (some shortest)) given' other choice') :
    optimizer.Reprices optimizer' given given' choice choice' := by
  obtain ⟨spending, hprices, hprices'⟩ := hmade.spent
  have hmotion := CostWeights.motion_congr h.settings.walking h.settings.riding spending
  have hsurcharge : optimizer.surcharge optimizer' given given' =
      optimizer'.planner.charges given' - optimizer.planner.charges given := by
    rw [surcharge, charges, charges, hends.changes, if_neg hchanges, if_neg hchanges]
  have hlegs : choice.itinerary.SameLegs choice'.itinerary := by
    rw [hassess.itinerary, hassess'.itinerary]
    exact hmade.legs
  have hrules : choice'.rules = choice.rules := by
    rw [hassess.rules, hassess'.rules, hmade.joins]
  refine ⟨⟨hlegs, ?_, hrules, ?_, ?_, ?_⟩, fun hwaiting => ?_⟩
  · have hsame := hassess'.ruleCost
    rw [hrules, hassess.ruleCost] at hsame
    exact (Option.some.inj (Except.ok.inj hsame)).symm
  · rw [hassess.isUnchanged, hassess'.isUnchanged, sameStretches_eq hends hmade.legs]
  · have hsame := hassess'.boardings
    rw [← hmade.legs.boardingTimes, hassess.boardings] at hsame
    exact (Except.ok.inj hsame).symm
  · rw [weighedCost_units hprices hassess.waitCost, weighedCost_units hprices' hassess'.waitCost,
      h.waitPrice_eq, hmotion, hsurcharge]
    omega
  · have hwaits : optimizer'.planner.weights.waitCost = optimizer.planner.weights.waitCost :=
      CostWeights.waitCost_congr hwaiting
    have hmotion : optimizer'.planner.weights.motion spending =
        optimizer.planner.weights.motion spending := hmotion
    rw [hprices.cost_units hassess.cost, hprices'.cost_units hassess'.cost, hwaits, hmotion,
      hsurcharge]
    omega

/-- The choice of an itinerary with a single ride pays more only for access and
egress. -/
theorem reprices_of_unchanged (hends : given.SameButEnds given') (hchanges : given.changes = [])
    {choice choice' : Choice} (hchoice : unchanged given = .ok choice)
    (hchoice' : unchanged given' = .ok choice') :
    optimizer.Reprices optimizer' given given' choice choice' := by
  obtain ⟨cost, hcost, hchoice⟩ := bind_eq_ok_iff.mp hchoice
  obtain ⟨boardings, hboardings, hchoice⟩ := bind_eq_ok_iff.mp hchoice
  obtain ⟨cost', hcost', hchoice'⟩ := bind_eq_ok_iff.mp hchoice'
  obtain ⟨boardings', hboardings', hchoice'⟩ := bind_eq_ok_iff.mp hchoice'
  cases hchoice
  cases hchoice'
  rw [← hends.sameLegs.boardingTimes, hboardings] at hboardings'
  cases hboardings'
  have hinner : given'.innerLegs = given.innerLegs := by
    rw [Itinerary.innerLegs, Itinerary.innerLegs, hends.first, hends.changes]
  have hsurcharge : cost'.units = cost.units + optimizer.surcharge optimizer' given given' := by
    rw [Itinerary.cost_units hcost, Itinerary.cost_units hcost', hinner, surcharge, charges,
      charges, hends.changes, if_pos hchanges, if_pos hchanges]
    omega
  have hrules : List.replicate given'.numberOfChanges (none : Option TransferRule) =
      List.replicate given.numberOfChanges none := by
    rw [Itinerary.numberOfChanges, Itinerary.numberOfChanges, hends.changes]
  exact ⟨⟨hends.sameLegs, rfl, hrules, rfl, rfl, hsurcharge⟩, fun _ => hsurcharge⟩

/-! ## One itinerary -/

/-- The alternatives that are not forbidden are the same, at other charges. -/
theorem assessed_reprices (h : optimizer.SameButCharges optimizer')
    (hends : given.SameButEnds given') (hchanges : given.changes ≠ [])
    {alternatives alternatives' : List Alternative} {assessed assessed' : List (Option Choice)}
    (hlisted : List.Forall₂ (optimizer.planner.Recharged optimizer'.planner given given')
      alternatives alternatives')
    (hassessed : alternatives.mapM (assess (optimizer.pricingFor (some shortest)) given) =
      .ok assessed)
    (hassessed' : alternatives'.mapM (assess (optimizer'.pricingFor (some shortest)) given') =
      .ok assessed') :
    List.Forall₂ (optimizer.Reprices optimizer' given given') (assessed.filterMap id)
      (assessed'.filterMap id) := by
  have hallowed := List.rel_filter (p := fun alternative => !alternative.isForbidden)
    (q := fun alternative => !alternative.isForbidden)
    (fun alternative other hmade => by
      simp only [Alternative.isForbidden, hmade.joins]) hlisted
  have hchosen := forall₂_comp (T := fun choice other => ∃ alternative,
      Assesses (optimizer.pricingFor (some shortest)) given alternative choice ∧
        optimizer.planner.Recharged optimizer'.planner given given' alternative other)
    (assessed_spec hassessed).flip hallowed
    fun _ alternative _ hassess hmade => ⟨alternative, hassess, hmade⟩
  refine forall₂_comp hchosen (assessed_spec hassessed') ?_
  intro choice other choice' hchoice hassess'
  obtain ⟨alternative, hassess, hmade⟩ := hchoice
  exact reprices_of_assesses h hends hchanges hmade hassess hassess'

/-- What all choices pay more does not tell them apart. -/
theorem Reprices.apart {choice other : Choice}
    (h : optimizer.Reprices optimizer' given given' choice other) :
    Apart (optimizer.surcharge optimizer' given given') 0 choice other :=
  ⟨h.1.ruleCost, h.1.waitCost, by rw [h.1.boardings, Int.add_zero]⟩

theorem block_reprices (h : optimizer.SameButCharges optimizer')
    (hbuilt : optimizer.table.Built) (hrides : given.RidesOn optimizer.table)
    (hends : given.SameButEnds given') {block block' : List Choice}
    (hblock : optimizer.block (optimizer.pricingFor (some shortest)) given = .ok block)
    (hblock' : optimizer'.block (optimizer'.pricingFor (some shortest)) given' = .ok block') :
    List.Forall₂ (optimizer.Reprices optimizer' given given') block block' := by
  have hsame := hends.changes
  by_cases hchanges : given.changes = []
  · rw [hchanges] at hsame
    rw [block_single hchanges] at hblock
    rw [block_single hsame] at hblock'
    obtain ⟨choice, hchoice, hblock⟩ := bind_eq_ok_iff.mp hblock
    obtain ⟨choice', hchoice', hblock'⟩ := bind_eq_ok_iff.mp hblock'
    cases hblock
    cases hblock'
    exact .cons (reprices_of_unchanged hends hchanges hchoice hchoice') .nil
  · rw [block_changing hchanges] at hblock
    rw [block_changing (hsame ▸ hchanges)] at hblock'
    obtain ⟨alternatives, hlist, hblock⟩ := bind_eq_ok_iff.mp hblock
    obtain ⟨assessed, hassessed, hblock⟩ := bind_eq_ok_iff.mp hblock
    obtain ⟨alternatives', hlist', hblock'⟩ := bind_eq_ok_iff.mp hblock'
    obtain ⟨assessed', hassessed', hblock'⟩ := bind_eq_ok_iff.mp hblock'
    cases hblock
    cases hblock'
    have hlisted := Planner.alternatives_recharged h.planner hbuilt hrides hends hchanges hlist
      hlist'
    have hcandidates := assessed_reprices h hends hchanges hlisted hassessed hassessed'
    exact narrow_apart h.settings.preferRules (fun _ _ hreprices => hreprices.apart) hcandidates

/-! ## A batch -/

/-- Two optimizers and two batches differ only in charges that all alternatives
of an itinerary pay alike.  If nothing overflows, all itineraries get as many
choices in both, in the same order: the same legs but for their prices, the
same rules, and the same scores of rules.  All choices for one itinerary pay
more by the same amount. -/
theorem optimize_repriced {xs ys : List Itinerary} (hbuilt : optimizer.table.Built)
    (hrides : ∀ itinerary ∈ xs, itinerary.RidesOn optimizer.table)
    (hcheck : optimizer.settings.check = .ok ()) (hcheck' : optimizer'.settings.check = .ok ())
    (h : optimizer.SameButCharges optimizer') (hbatch : List.Forall₂ Itinerary.SameButEnds xs ys)
    (hfits : optimizer.Fits xs) (hfits' : optimizer'.Fits ys) :
    ∃ shortest, optimizer.MadeOfBlocks shortest xs ∧ optimizer'.MadeOfBlocks shortest ys ∧
      List.Forall₂ (fun given given' =>
        List.Forall₂ (optimizer.Reprices optimizer' given given')
          (optimizer.blockIn shortest given) (optimizer'.blockIn shortest given')) xs ys := by
  obtain ⟨shortest, hshortest, hnone⟩ := exists_shortestRide xs
  have hshortest' : shortestRide ys = .ok shortest := by
    rw [← hshortest, shortestRide, shortestRide,
      mapM_congr (hbatch.imp fun _ _ hends => hends.rideDuration.symm)]
  have hbuilt' : optimizer'.table.Built := h.table.symm ▸ hbuilt
  have hrides' : ∀ itinerary ∈ ys, itinerary.RidesOn optimizer'.table := by
    intro given' hmem
    obtain ⟨given, hgiven, hends⟩ := exists_mem_of_forall₂ hbatch hmem
    rw [h.table]
    exact hends.ridesOn (hrides given hgiven)
  have hmade := madeOfBlocks_of_fits hbuilt hrides hfits hcheck hshortest
  have hmade' := madeOfBlocks_of_fits hbuilt' hrides' hfits' hcheck' hshortest'
  refine ⟨shortest, hmade, hmade', ?_⟩
  cases shortest with
  | none =>
    -- The batches are empty.
    have hxs := hnone.mp rfl
    rw [hxs, (forall₂_nil_iff hbatch).mp hxs]
    exact .nil
  | some ride =>
    have hends := forall₂_imp_of_mem hbatch.flip fun given' hmem given hends =>
      And.intro hmem hends
    exact forall₂_imp_of_mem hends.flip fun given hmem given' hpair =>
      block_reprices h hbuilt (hrides given hmem) hpair.2 (hmade.blocks given hmem)
        (hmade'.blocks given' hpair.1)

end Optimizer

/-! ## The small network at other charges -/

namespace Network

/-- The journey from A to E, where access and egress are paid for. -/
def paidJourney : Itinerary where
  access := ⟨0, clock 0, clock 30, .clamp 30⟩
  first := journey.first
  changes := journey.changes
  egress := ⟨4, clock 2400, clock 2460, .clamp 40⟩
  sound := by decide +kernel

/-- An optimizer for the network that charges more for every boarding, and
still more from the second one on. -/
def dearBoardings : Optimizer :=
  { Optimizer.network with
    settings := { Optimizer.network.settings with
      cost := { Optimizer.network.settings.cost with
        boarding := .clamp 700, changing := .clamp 50 } } }

theorem journey_sameButEnds : journey.SameButEnds paidJourney := ⟨rfl, rfl, rfl, rfl⟩

theorem network_sameButCharges : Optimizer.network.SameButCharges dearBoardings :=
  ⟨rfl, rfl, ⟨rfl, rfl, rfl, rfl, rfl, rfl, fun _ => rfl, rfl⟩⟩

end Network

namespace Optimizer

/-- The journey gets the same choice.  Three boardings, two changes, access and
egress add up to 470 more. -/
theorem optimize_repriced_journey :
    network.surcharge Network.dearBoardings Network.journey Network.paidJourney = 470 ∧
      ∃ shortest, network.MadeOfBlocks shortest [Network.journey] ∧
        Network.dearBoardings.MadeOfBlocks shortest [Network.paidJourney] ∧
          List.Forall₂ (fun given given' =>
            List.Forall₂ (network.Reprices Network.dearBoardings given given')
              (network.blockIn shortest given)
              (Network.dearBoardings.blockIn shortest given'))
            [Network.journey] [Network.paidJourney] ∧
            (network.blockIn shortest Network.journey).map (·.cost.units) = [4290] ∧
              (Network.dearBoardings.blockIn shortest Network.paidJourney).map (·.cost.units) =
                [4760] := by
  have hcosts : (network.optimize [Network.journey]).outcome.map (·.map (·.cost.units)) =
      .ok [4290] := by
    decide +kernel
  have hcosts' : (Network.dearBoardings.optimize [Network.paidJourney]).outcome.map
      (·.map (·.cost.units)) = .ok [4760] := by
    decide +kernel
  have hfits : network.Fits [Network.journey] := fits_of_toBool (by decide +kernel)
  have hfits' : Network.dearBoardings.Fits [Network.paidJourney] :=
    fits_of_toBool (by decide +kernel)
  have hcheck : network.settings.check = .ok () := by
    decide +kernel
  have hcheck' : Network.dearBoardings.settings.check = .ok () := by
    decide +kernel
  obtain ⟨shortest, hmade, hmade', hblocks⟩ := optimize_repriced Network.planner_built
    (fun itinerary h => List.mem_singleton.mp h ▸ Network.journey_ridesOn) hcheck hcheck'
    Network.network_sameButCharges (.cons Network.journey_sameButEnds .nil) hfits hfits'
  rw [hmade.outcome, List.flatMap_singleton] at hcosts
  rw [hmade'.outcome, List.flatMap_singleton] at hcosts'
  exact ⟨by decide +kernel, shortest, hmade, hmade', hblocks, Except.ok.inj hcosts,
    Except.ok.inj hcosts'⟩

end Optimizer

end TransitTransfers
