import TransitTransfers.Proofs.Alternative.Joins
import TransitTransfers.Proofs.Alternative.Prices
import TransitTransfers.Proofs.Optimizer.Selection
import TransitTransfers.Proofs.Timetable.Built

/-!
# What choices say of themselves

A choice comes with the rules that decide its changes, with three costs, and
with whether it changes where the given itinerary does.  All of this is noted
down while alternatives are listed, before their legs have their times.  This
module says that it is true of the itinerary that comes out.

* `Junction.rule?` looks the rule of a junction up afresh.  The joins that an
  alternative was made of have the rules of its junctions, because the junctions
  use these joins (`rule_of_ofJunction`, `rules_of_mem_alternatives`).
* `ruleCostFrom_units` adds the weights of rules up, and
  `Itinerary.cost_eq_legs` the costs of legs.
* `sameStretches_iff` is what it means to change at the same places.
* `Accounts` has all of this for one choice, and `choices_account` is the result
  for a batch.
-/

namespace TransitTransfers

/-! ## Rules -/

/-- The rule that decides the change at a junction, if there is one. -/
def Junction.rule? (table : Timetable) (junction : Junction) : Option TransferRule :=
  table.rules.find? junction.arriving.alightStop junction.departing.boardStop
    junction.arriving.trip junction.departing.trip

theorem Join.rule_of_ofJunction {table : Timetable} {junction : Junction} {join : Join}
    (h : ofJunction table junction = .ok join) : join.rule = junction.rule? table := by
  obtain ⟨footpath, -, h⟩ := bind_eq_ok_iff.mp h
  obtain ⟨origin, destination, horigin, hdestination, rfl⟩ := between_eq_ok_iff.mp h
  obtain rfl := Except.ok.inj (junction.arriving.stopAt_alight.symm.trans horigin)
  obtain rfl := Except.ok.inj (junction.departing.stopAt_board.symm.trans hdestination)
  rfl

/-- The joins of an alternative have the rules of its junctions, in order. -/
theorem Planner.rules_of_mem_alternatives {planner : Planner} {itinerary : Itinerary}
    (hbuilt : planner.table.Built) (hrides : itinerary.RidesOn planner.table)
    {alternatives : List Alternative} (h : planner.alternatives itinerary = .ok alternatives)
    {alternative : Alternative} (hmem : alternative ∈ alternatives) :
    alternative.joins.map (·.rule) =
      alternative.itinerary.junctions.map (Junction.rule? planner.table) := by
  rw [← List.forall₂_eq_eq_eq, List.forall₂_map_left_iff, List.forall₂_map_right_iff]
  exact (uses_joins hbuilt hrides h hmem).flip.imp fun _ _ => Join.rule_of_ofJunction

/-- How much a rule counts: for staying seated, for a guarantee, and for its
priority. -/
def TransferRule.weight (rule : TransferRule) : Nat :=
  100 * rule.staySeated.toNat + 10 * rule.guaranteed.toNat + rule.priority.score.getD 0

/-- How much the rules of some changes count together. -/
def weights : List (Option TransferRule) → Nat
  | [] => 0
  | none :: rules => weights rules
  | some rule :: rules => rule.weight + weights rules

theorem TransferRule.weight_of_score {rule : TransferRule} {score : Nat}
    (h : rule.score = some score) : rule.weight = score := by
  obtain ⟨base, hbase, rfl⟩ := Option.map_eq_some_iff.mp h
  rw [weight, hbase, Option.getD_some]
  cases rule.staySeated <;> cases rule.guaranteed <;> simp <;> omega

theorem TransferRule.weight_le (rule : TransferRule) : rule.weight ≤ 112 := by
  have hstay := rule.staySeated.toNat_le
  have hguaranteed := rule.guaranteed.toNat_le
  have hpriority : rule.priority.score.getD 0 ≤ 2 := by
    cases rule.priority <;> decide
  unfold weight
  omega

/-- Nothing is cut off the score of a rule. -/
theorem TransferRule.clamp_score {rule : TransferRule} {score : Nat}
    (h : rule.score = some score) : (Cost.clamp score).units = rule.weight := by
  have hle := rule.weight_le
  rw [← weight_of_score h, Cost.clamp, dif_neg, dif_neg]
  · show ¬(2147483647 : Int) < rule.weight
    omega
  · show ¬(rule.weight : Int) < -2147483648
    omega

/-- The cost of rules is what they count together, with the sign turned. -/
theorem ruleCostFrom_units {total cost : Cost} {rules : List (Option TransferRule)}
    (h : ruleCostFrom total rules = .ok (some cost)) :
    cost.units = total.units - weights rules := by
  induction rules generalizing total with
  | nil =>
    cases h
    exact (Int.sub_zero _).symm
  | cons entry rules ih =>
    cases entry with
    | none => exact ih h
    | some rule =>
      cases hscore : rule.score with
      | none =>
        simp only [ruleCostFrom, hscore] at h
        cases h
      | some score =>
        simp only [ruleCostFrom, hscore] at h
        obtain ⟨rest, hrest, h⟩ := bind_eq_ok_iff.mp h
        rw [Cost.sub_eq_ok_iff, TransferRule.clamp_score hscore] at hrest
        rw [ih h, weights]
        omega

/-! ## Legs -/

/-- The cost of an itinerary is what its legs cost together. -/
theorem Itinerary.cost_eq_legs {itinerary : Itinerary} {cost : Cost}
    (h : itinerary.cost = .ok cost) : cost.units = units (itinerary.legs.map Leg.cost) := by
  have hlegs : itinerary.legs =
      .access itinerary.access :: (itinerary.innerLegs ++ [.egress itinerary.egress]) := by
    simp [legs, joinLegs, innerLegs]
  rw [hlegs, List.map_cons, List.map_append, units_cons, units_append, cost_units h]
  show _ = itinerary.access.cost.units + (_ + (itinerary.egress.cost.units + 0))
  omega

/-- Two itineraries on trips of a timetable have the same stretches exactly if
they ride the same trips between the same positions. -/
theorem Itinerary.sameStretches_iff {table : Timetable} (hbuilt : table.Built)
    {a b : Itinerary} (ha : a.RidesOn table) (hb : b.RidesOn table) :
    a.sameStretches b = true ↔ a.rides.map Ride.course = b.rides.map Ride.course := by
  have hregister := hbuilt.consistent.trips
  rw [sameStretches, decide_eq_true_iff]
  constructor
  · intro h
    rw [← List.forall₂_eq_eq_eq, List.forall₂_map_left_iff, List.forall₂_map_right_iff] at h ⊢
    -- Both rides have to be on the timetable, where trips are told apart by their numbers.
    have hknown := forall₂_imp_of_mem h (S := fun ride other =>
      ride.stretch = other.stretch ∧ ride.trip ∈ table.trips)
      fun ride hride other hsame => ⟨hsame, ha ride hride⟩
    refine (forall₂_imp_of_mem hknown.flip fun other hother ride hsame => ?_).flip
    rcases hsame with ⟨hstretch, hride⟩
    simp only [Ride.stretch, Prod.mk.injEq] at hstretch
    have htrip : ride.trip = other.trip :=
      hregister.eq_of_index hride (hb other hother) hstretch.1
    exact Ride.course_eq_iff.mpr ⟨htrip, hstretch.2⟩
  · exact Ride.map_stretch_of_course

namespace Optimizer

variable {optimizer : Optimizer} {pricing : Option RiskPricing} {itineraries : List Itinerary}
  {given : Itinerary}

/-! ## Waits -/

/-- How waits count by their risk when a transfer is safe in a given time. -/
def riskPricingOf (optimizer : Optimizer) (safe : Duration) : RiskPricing :=
  ⟨.of safe optimizer.settings.riskFactor, optimizer.settings.riskWeight,
    optimizer.settings.cost⟩

/-- Waits that are weighed are priced by the safe transfer time of the batch. -/
theorem riskPricing_eq_ok_iff :
    (optimizer.riskPricing itineraries).outcome = .ok pricing ↔
      if optimizer.settings.weighRisk then
        ∃ safe, SafeTransfer.ofBatch optimizer.slack.changing itineraries = .ok safe ∧
          pricing = some (optimizer.riskPricingOf safe)
      else pricing = none := by
  cases hweigh : optimizer.settings.weighRisk with
  | false =>
    rw [outcome_riskPricing_unweighed hweigh]
    simp [eq_comm]
  | true =>
    have hrun : (optimizer.riskPricing itineraries).outcome =
        SafeTransfer.ofBatch optimizer.slack.changing itineraries >>= fun safe =>
          .ok (some (optimizer.riskPricingOf safe)) := by
      rw [riskPricing, hweigh]
      show (Run.ofExcept _ >>= _ : Run (Option RiskPricing)).outcome = _
      rw [Run.outcome_bind, Run.outcome_ofExcept]
      rfl
    rw [hrun, bind_eq_ok_iff]
    simp [eq_comm]

/-! ## One choice -/

/-- What a choice says of itself is true of its itinerary. -/
structure Accounts (optimizer : Optimizer) (itineraries : List Itinerary) (given : Itinerary)
    (choice : Choice) : Prop where
  /-- It has one entry for every junction, and that is what a look-up finds for
  the stops and the trips of the junction. -/
  rules : choice.rules = choice.itinerary.junctions.map (Junction.rule? optimizer.table)
  allowed : ∀ rule, some rule ∈ choice.rules → rule.priority ≠ .notAllowed
  ruleCost : choice.ruleCost.units = -(weights choice.rules : Int)
  cost : choice.cost.units = units (choice.itinerary.legs.map Leg.cost)
  /-- Waits that are weighed count by the safe transfer time of the batch. -/
  weighed : optimizer.settings.weighRisk = true →
    ∃ safe, SafeTransfer.ofBatch optimizer.slack.changing itineraries = .ok safe ∧
      (optimizer.riskPricingOf safe).cost choice.itinerary = .ok choice.waitCost
  unweighed : optimizer.settings.weighRisk = false → choice.waitCost = choice.cost
  /-- It is unchanged exactly if it rides the same trips between the same
  positions. -/
  isUnchanged : choice.isUnchanged = true ↔
    choice.itinerary.rides.map Ride.course = given.rides.map Ride.course

theorem accounts_of_assesses (hbuilt : optimizer.table.Built)
    (hrides : given.RidesOn optimizer.table)
    (hpricing : (optimizer.riskPricing itineraries).outcome = .ok pricing)
    {alternatives : List Alternative}
    (halternatives : optimizer.planner.alternatives given = .ok alternatives)
    {alternative : Alternative} (hmem : alternative ∈ alternatives) {choice : Choice}
    (h : Assesses pricing given alternative choice) :
    optimizer.Accounts itineraries given choice := by
  have halters := Planner.alters_of_mem_alternatives hbuilt hrides halternatives hmem
  have hcost : choice.cost.units = units (alternative.itinerary.legs.map Leg.cost) :=
    Itinerary.cost_eq_legs h.cost
  have hrules := Planner.rules_of_mem_alternatives hbuilt hrides halternatives hmem
  rw [riskPricing_eq_ok_iff] at hpricing
  have hwaits := h.waitCost
  rw [← h.rules, ← h.itinerary] at hrules
  rw [← h.itinerary] at hcost hwaits
  refine ⟨hrules, fun rule hrule hforbids => ?_, ?_, hcost, fun hweigh => ?_, fun hweigh => ?_, ?_⟩
  · have hany := isNone_of_ruleCostFrom h.ruleCost
    rw [Option.isNone_some, eq_comm, List.any_eq_false] at hany
    exact hany (some rule) hrule (by simp [hforbids])
  · have hunits := ruleCostFrom_units h.ruleCost
    rw [hunits]
    show (0 : Int) - _ = _
    omega
  · rw [if_pos hweigh] at hpricing
    obtain ⟨safe, hsafe, rfl⟩ := hpricing
    exact ⟨safe, hsafe, hwaits⟩
  · rw [hweigh, if_neg Bool.false_ne_true] at hpricing
    rw [hpricing] at hwaits
    have hplain := h.cost
    rw [← h.itinerary] at hplain
    exact Except.ok.inj (hwaits.symm.trans hplain)
  · rw [h.isUnchanged, h.itinerary]
    exact Itinerary.sameStretches_iff hbuilt (halters.ridesOn hrides) hrides

/-- The choice of an itinerary with a single ride says that no rule counts. -/
theorem rules_of_unchanged (hchanges : given.changes = []) {choice : Choice}
    (h : unchanged given = .ok choice) :
    choice.itinerary = given ∧ choice.ruleCost = .zero ∧ choice.rules = [] := by
  obtain ⟨cost, -, h⟩ := bind_eq_ok_iff.mp h
  obtain ⟨boardings, -, h⟩ := bind_eq_ok_iff.mp h
  obtain rfl := pure_eq_ok_iff.mp h
  refine ⟨rfl, rfl, ?_⟩
  show List.replicate given.changes.length none = []
  rw [hchanges]
  rfl

/-! ## A batch -/

/-- Whatever is chosen for an itinerary with several rides says what is true of
it.  An itinerary with a single ride is its own choice, and no rule counts. -/
theorem choices_account {choices : List Choice} (hbuilt : optimizer.table.Built)
    (hrides : ∀ itinerary ∈ itineraries, itinerary.RidesOn optimizer.table)
    (hrun : (optimizer.optimize itineraries).outcome = .ok choices) :
    ∃ pricing blocks, choices = blocks.flatten ∧
      List.Forall₂ (fun given block =>
        (optimizer.choose pricing given).outcome = .ok block ∧
          (given.changes ≠ [] → ∀ choice ∈ block, optimizer.Accounts itineraries given choice) ∧
            (given.changes = [] → ∃ choice, block = [choice] ∧ choice.itinerary = given ∧
              choice.ruleCost = .zero ∧ choice.rules = []))
        itineraries blocks := by
  obtain ⟨pricing, blocks, hpricing, hflat, hblocks⟩ := exists_blocks hrun
  refine ⟨pricing, blocks, hflat, ?_⟩
  refine forall₂_imp_of_mem hblocks fun given hgiven block hchoose => ⟨hchoose, ?_, ?_⟩
  · intro hchanges choice hchoice
    obtain ⟨alternatives, halternatives, alternative, hmem, hassesses⟩ :=
      exists_alternative_of_mem hchanges hchoose hchoice
    exact accounts_of_assesses hbuilt (hrides given hgiven)
      (hpricing (List.ne_nil_of_mem hgiven)) halternatives hmem hassesses
  · intro hchanges
    obtain ⟨choice, hchoice, rfl⟩ := (choose_single_eq_ok_iff hchanges).mp hchoose
    exact ⟨choice, rfl, rules_of_unchanged hchanges hchoice⟩

/-- The journey changes at B without a rule, and is advised to walk from C to
X. -/
theorem choices_account_journey :
    ∃ choices, (network.optimize [Network.journey]).outcome = .ok choices ∧
      choices.map (fun choice => (choice.rules.map (·.map (·.priority)), choice.ruleCost.units)) =
          [([none, some .recommended], -2)] ∧
        ∀ choice ∈ choices, network.Accounts [Network.journey] Network.journey choice := by
  have hrules : (network.optimize [Network.journey]).outcome.map
      (·.map fun choice => (choice.rules.map (·.map (·.priority)), choice.ruleCost.units)) =
        .ok [([none, some .recommended], -2)] := by
    decide +kernel
  cases hrun : (network.optimize [Network.journey]).outcome with
  | error e =>
    rw [hrun] at hrules
    cases hrules
  | ok choices =>
    rw [hrun] at hrules
    obtain ⟨pricing, blocks, rfl, hall⟩ := choices_account Network.planner_built
      (fun itinerary h => List.mem_singleton.mp h ▸ Network.journey_ridesOn) hrun
    refine ⟨_, rfl, Except.ok.inj hrules, fun choice hchoice => ?_⟩
    obtain ⟨block, hblock, hmem⟩ := List.mem_flatten.mp hchoice
    obtain ⟨given, hgiven, -, haccounts, -⟩ := exists_mem_of_forall₂ hall hblock
    obtain rfl := List.mem_singleton.mp hgiven
    exact haccounts (by decide +kernel) choice hmem

end Optimizer

end TransitTransfers
