import TransitTransfers.Proofs.Alternative.Joins
import TransitTransfers.Proofs.Optimizer.Choices

/-!
# Which alternatives are chosen

Of the alternatives of an itinerary those with a forbidden change are dropped,
and the others are narrowed down.  What is left are the alternatives of least
`tuple`, in the order in which they were listed.

* `assessed_spec` lines the assessed choices up with the alternatives that are
  not forbidden.
* `Selects` says how a block comes from the alternatives, `selects_of_choose`
  proves it for one itinerary, and `choices_select` for a batch.
-/

namespace TransitTransfers

/-- Whether a rule forbids one of the changes of an alternative. -/
def Alternative.isForbidden (alternative : Alternative) : Bool :=
  alternative.joins.any fun join => join.rule.any (·.priority = .notAllowed)

/-! ## Forbidden changes -/

/-- A rule has no score exactly if it forbids the change. -/
theorem score_eq_none_iff {rule : TransferRule} :
    rule.score = none ↔ rule.priority = .notAllowed := by
  unfold TransferRule.score
  rw [Option.map_eq_none_iff]
  cases rule.priority with
  | notAllowed => simp [Priority.score]
  | allowed => simp [Priority.score]
  | preferred => simp [Priority.score]
  | recommended => simp [Priority.score]

/-- Rules have no cost exactly if one of them forbids a change. -/
theorem isNone_of_ruleCostFrom {total : Cost} {rules : List (Option TransferRule)}
    {found : Option Cost} (h : ruleCostFrom total rules = .ok found) :
    found.isNone = rules.any (·.any (·.priority = .notAllowed)) := by
  induction rules generalizing total with
  | nil =>
    cases h
    rfl
  | cons entry rules ih =>
    rw [List.any_cons]
    cases entry with
    | none => exact ih h
    | some rule =>
      cases hscore : rule.score with
      | none =>
        have hforbids := score_eq_none_iff.mp hscore
        simp only [ruleCostFrom, hscore] at h
        cases h
        simp [hforbids]
      | some score =>
        have hallows : rule.priority ≠ .notAllowed := by
          intro hforbids
          rw [score_eq_none_iff.mpr hforbids] at hscore
          cases hscore
        simp only [ruleCostFrom, hscore] at h
        obtain ⟨rest, -, h⟩ := bind_eq_ok_iff.mp h
        rw [ih h]
        simp [hallows]

namespace Optimizer

variable {optimizer : Optimizer} {pricing : Option RiskPricing} {itinerary : Itinerary}

/-- An alternative makes a choice exactly if it is not forbidden. -/
theorem isNone_of_assess {given : Itinerary} {alternative : Alternative}
    {found : Option Choice} (h : assess pricing given alternative = .ok found) :
    found.isNone = alternative.isForbidden := by
  have hany : alternative.isForbidden =
      (alternative.joins.map (·.rule)).any (·.any (·.priority = .notAllowed)) := by
    rw [List.any_map]
    rfl
  rcases assess_eq_ok_iff.mp h with ⟨rfl, hnone⟩ | ⟨choice, rfl, hassesses⟩
  · rw [hany, ← isNone_of_ruleCostFrom hnone]
    rfl
  · have hsome := hassesses.ruleCost
    rw [hassesses.rules] at hsome
    rw [hany, ← isNone_of_ruleCostFrom hsome]
    rfl

/-- The choices that are assessed are those of the alternatives that are not
forbidden, one by one. -/
theorem assessed_spec {given : Itinerary} {alternatives : List Alternative}
    {assessed : List (Option Choice)}
    (h : alternatives.mapM (assess pricing given) = .ok assessed) :
    List.Forall₂ (Assesses pricing given) (alternatives.filter (!·.isForbidden))
      (assessed.filterMap id) := by
  rw [mapM_eq_ok_iff] at h
  induction h with
  | nil => exact .nil
  | @cons alternative found _ _ hassess _ ih =>
    have hforbidden := isNone_of_assess hassess
    rcases assess_eq_ok_iff.mp hassess with ⟨rfl, -⟩ | ⟨choice, rfl, hassesses⟩
    · rw [List.filter_cons_of_neg (by simp [← hforbidden])]
      exact ih
    · rw [List.filter_cons_of_pos (by simp [← hforbidden])]
      exact .cons hassesses ih

/-! ## The selection -/

/-- The costs by which choices are compared, in the order in which they
count. -/
def tuple (optimizer : Optimizer) (choice : Choice) : List Int :=
  (if optimizer.settings.preferRules then [choice.ruleCost.units] else []) ++
    [choice.waitCost.units, (choice.boardings : Int)]

theorem costs_criteria (choice : Choice) :
    costs optimizer.criteria choice = optimizer.tuple choice := by
  rw [costs, criteria, tuple]
  cases optimizer.settings.preferRules <;> rfl

/-- The costs by which a choice is compared differ from those of another one by
given amounts. -/
structure Apart (risk times : Int) (choice other : Choice) : Prop where
  ruleCost : other.ruleCost = choice.ruleCost
  waitCost : other.waitCost.units = choice.waitCost.units + risk
  boardings : (other.boardings : Int) = choice.boardings + times

/-- Choices whose costs all differ by the same amounts are narrowed down
alike. -/
theorem narrow_apart {optimizer' : Optimizer} {risk times : Int} {R : Choice → Choice → Prop}
    {choices choices' : List Choice}
    (hprefer : optimizer'.settings.preferRules = optimizer.settings.preferRules)
    (hR : ∀ choice other, R choice other → Apart risk times choice other)
    (h : List.Forall₂ R choices choices') :
    List.Forall₂ R (Narrowing.narrow optimizer.criteria choices)
      (Narrowing.narrow optimizer'.criteria choices') := by
  refine Narrowing.narrow_forall₂ h fun a b other other' hab hother => ?_
  obtain ⟨hrule, hwait, htimes⟩ := hR a b hab
  obtain ⟨hrule', hwait', htimes'⟩ := hR other other' hother
  rw [costs_criteria, costs_criteria, costs_criteria, costs_criteria]
  simp only [tuple, hprefer, hrule, hrule', hwait, hwait', htimes, htimes']
  cases optimizer.settings.preferRules <;> simp [LexLe]

/-- How the block of an itinerary comes from its alternatives. -/
structure Selects (optimizer : Optimizer) (pricing : Option RiskPricing) (given : Itinerary)
    (alternatives : List Alternative) (candidates block : List Choice) : Prop where
  listed : optimizer.planner.alternatives given = .ok alternatives
  ruled : ∀ alternative ∈ alternatives, ∀ join ∈ alternative.joins, join.Ruled optimizer.table
  /-- The candidates are the alternatives that are not forbidden, with their costs. -/
  assessed : List.Forall₂ (Assesses pricing given) (alternatives.filter (!·.isForbidden)) candidates
  /-- The block holds the candidates of least tuple, in the same order. -/
  least : block = candidates.filter fun choice =>
    ∀ other ∈ candidates, LexLe (optimizer.tuple choice) (optimizer.tuple other)
  /-- It is empty exactly if all alternatives are forbidden. -/
  dropped : block = [] ↔ ∀ alternative ∈ alternatives, alternative.isForbidden = true
  /-- One of the alternatives has the changes of the itinerary itself. -/
  own : ∃ own ∈ alternatives, own.itinerary.sameStretches given = true
  /-- No choice is worse than a candidate with these changes. -/
  neverWorse : ∀ kept ∈ candidates, kept.itinerary.sameStretches given = true →
    ∀ choice ∈ block, LexLe (optimizer.tuple choice) (optimizer.tuple kept)

theorem selects_of_choose (hbuilt : optimizer.table.Built)
    (hrides : itinerary.RidesOn optimizer.table) (hchanges : itinerary.changes ≠ [])
    {block : List Choice} (h : (optimizer.choose pricing itinerary).outcome = .ok block) :
    ∃ alternatives candidates,
      optimizer.Selects pricing itinerary alternatives candidates block := by
  obtain ⟨alternatives, assessed, halternatives, hassessed, rfl⟩ :=
    (choose_eq_ok_iff hchanges).mp h
  have hcandidates := assessed_spec hassessed
  have hblock : Narrowing.narrow optimizer.criteria (assessed.filterMap id) =
      (assessed.filterMap id).filter fun choice => ∀ other ∈ assessed.filterMap id,
        LexLe (optimizer.tuple choice) (optimizer.tuple other) := by
    rw [Narrowing.narrow_eq_filter]
    simp only [costs_criteria]
  refine ⟨alternatives, assessed.filterMap id, halternatives, ?_, hcandidates, hblock, ?_,
    Planner.exists_own_alternative hbuilt hrides hchanges halternatives, ?_⟩
  · intro alternative hmem join hjoin
    exact Planner.ruled_of_mem_alternatives hbuilt hrides halternatives hmem hjoin
  · -- Both sides say that there are no candidates.
    have hlength := hcandidates.length_eq
    rw [Narrowing.narrow_eq_nil_iff, ← List.length_eq_zero_iff, ← hlength,
      List.length_eq_zero_iff, List.filter_eq_nil_iff]
    simp
  · intro kept hkept _ choice hchoice
    rw [hblock] at hchoice
    exact of_decide_eq_true (List.mem_filter.mp hchoice).2 kept hkept

/-- For every itinerary of a batch that changes at all, the choices are the
alternatives of least tuple among those that are not forbidden. -/
theorem choices_select {itineraries : List Itinerary} {choices : List Choice}
    (hbuilt : optimizer.table.Built)
    (hrides : ∀ itinerary ∈ itineraries, itinerary.RidesOn optimizer.table)
    (hrun : (optimizer.optimize itineraries).outcome = .ok choices) :
    ∃ pricing blocks,
      (itineraries ≠ [] → (optimizer.riskPricing itineraries).outcome = .ok pricing) ∧
        choices = blocks.flatten ∧
          List.Forall₂ (fun given block =>
            (optimizer.choose pricing given).outcome = .ok block ∧
              (given.changes ≠ [] → ∃ alternatives candidates,
                optimizer.Selects pricing given alternatives candidates block))
            itineraries blocks := by
  obtain ⟨pricing, blocks, hpricing, hflat, hblocks⟩ := exists_blocks hrun
  refine ⟨pricing, blocks, hpricing, hflat, ?_⟩
  refine forall₂_imp_of_mem hblocks fun given hgiven block hchoose => ⟨hchoose, ?_⟩
  intro hchanges
  exact selects_of_choose hbuilt (hrides given hgiven) hchanges hchoose

/-- The journey stays with none of its own changes: of its three alternatives
one is forbidden, and the walk is advised. -/
theorem choices_select_journey :
    ∃ choices, (network.optimize [Network.journey]).outcome = .ok choices ∧
      choices.map (fun choice => (choice.isUnchanged, network.tuple choice)) =
          [(false, [-2, 4290, 2460])] ∧
        ∃ pricing blocks, choices = blocks.flatten ∧
          List.Forall₂ (fun given block => ∃ alternatives candidates,
            network.Selects pricing given alternatives candidates block)
            [Network.journey] blocks := by
  have htuples : (network.optimize [Network.journey]).outcome.map
      (·.map fun choice => (choice.isUnchanged, network.tuple choice)) =
        .ok [(false, [-2, 4290, 2460])] := by
    decide +kernel
  cases hrun : (network.optimize [Network.journey]).outcome with
  | error e =>
    rw [hrun] at htuples
    cases htuples
  | ok choices =>
    rw [hrun] at htuples
    obtain ⟨pricing, blocks, -, hblocks, hall⟩ := choices_select Network.planner_built
      (fun itinerary h => List.mem_singleton.mp h ▸ Network.journey_ridesOn) hrun
    refine ⟨choices, rfl, Except.ok.inj htuples, pricing, blocks, hblocks, ?_⟩
    refine forall₂_imp_of_mem hall fun given hgiven block h => h.2 ?_
    rw [List.mem_singleton.mp hgiven]
    decide +kernel

end Optimizer

end TransitTransfers
