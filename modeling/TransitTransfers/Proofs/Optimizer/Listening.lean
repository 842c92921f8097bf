import TransitTransfers.Proofs.Itinerary.Texts
import TransitTransfers.Proofs.Optimizer.Blocks

/-!
# What listening changes

Whoever listens to the optimizer at level `debug` gets a summary of every
itinerary on the way, with its total cost.  The optimizer itself never adds up
what the legs of an incoming itinerary cost, nor those of an alternative with a
forbidden change.  So a summary can overflow where the choices do not.

* `exists_stageText_iff` says when a stage can be told.
* `Describable` says when all stages of an itinerary can be, and
  `audible_choose_iff` proves it for one itinerary.
* `sameVerdict_optimize_iff` is the result for a batch: a listener gets the
  verdict of the silent run exactly if there is no choice to be told of, if the
  listener is not told, or if all itineraries are describable.
* `listening_stops_dearJourney` is a journey that nobody may listen to.
-/

namespace TransitTransfers

namespace Narrowing

/-- A criterion leaves nothing that was not there before. -/
theorem mem_of_mem_stages {α : Type} {criteria : List (Criterion α)} {items : List α}
    {stage : String × List α} (hstage : stage ∈ stages criteria items) {item : α}
    (hitem : item ∈ stage.2) : item ∈ items := by
  induction criteria generalizing items with
  | nil => cases hstage
  | cons criterion criteria ih =>
    have hleast : ∀ other ∈ criterion.least items, other ∈ items := by
      intro other hother
      rw [Criterion.least_eq_filter] at hother
      exact (List.mem_filter.mp hother).1
    rcases List.mem_cons.mp hstage with rfl | hrest
    · exact hleast item hitem
    · exact hleast item (ih hrest)

end Narrowing

namespace Optimizer

variable {optimizer : Optimizer} {pricing : Option RiskPricing} {given itinerary : Itinerary}
  {listener : Option Level}

/-! ## What can be told -/

/-- A stage can be told exactly if the given itinerary has a total cost and so
have all that are left. -/
theorem exists_stageText_iff {stage : String} {left : List Itinerary} :
    (∃ words, stageText given stage left = .ok words) ↔
      (∃ cost, given.cost = .ok cost) ∧ ∀ itinerary ∈ left, ∃ cost, itinerary.cost = .ok cost := by
  have hlines : (∃ lines, left.mapM (fun itinerary => do
        let summary ← itinerary.summary
        return (if itinerary.sameStretches given then "  = " else "  + ") ++ summary) =
          .ok lines) ↔ ∀ itinerary ∈ left, ∃ cost, itinerary.cost = .ok cost := by
    constructor
    · rintro ⟨lines, hlines⟩ itinerary hitinerary
      obtain ⟨line, -, hline⟩ :=
        exists_mem_of_forall₂ (mapM_eq_ok_iff.mp hlines).flip hitinerary
      obtain ⟨summary, hsummary, -⟩ := bind_eq_ok_iff.mp hline
      exact Itinerary.exists_summary_iff.mp ⟨summary, hsummary⟩
    · intro hcosts
      refine exists_mapM fun itinerary hitinerary => ?_
      obtain ⟨summary, hsummary⟩ := Itinerary.exists_summary_iff.mpr (hcosts itinerary hitinerary)
      rw [hsummary]
      exact ⟨_, rfl⟩
  rw [← hlines, ← Itinerary.exists_summary_iff]
  constructor
  · rintro ⟨words, hwords⟩
    obtain ⟨lines, hmade, hwords⟩ := bind_eq_ok_iff.mp hwords
    obtain ⟨summary, hsummary, -⟩ := bind_eq_ok_iff.mp hwords
    exact ⟨⟨summary, hsummary⟩, lines, hmade⟩
  · rintro ⟨⟨summary, hsummary⟩, lines, hmade⟩
    exact ⟨_, bind_eq_ok_iff.mpr ⟨lines, hmade, bind_eq_ok_iff.mpr ⟨summary, hsummary, rfl⟩⟩⟩

theorem audible_tellStage_iff {stage : String} {left : List Itinerary} :
    (tellStage given stage left).Audible listener ↔ (Level.debug.reaches listener = true →
      (∃ cost, given.cost = .ok cost) ∧ ∀ itinerary ∈ left, ∃ cost, itinerary.cost = .ok cost) := by
  rw [tellStage, Run.audible_say_iff, exists_stageText_iff]

/-- Listing the alternatives can always be told. -/
theorem audible_listAlternatives (itinerary : Itinerary) :
    (optimizer.listAlternatives itinerary).Audible listener := by
  refine Run.audible_bind_iff.mpr ⟨Run.audible_ofFaulty _, fun offers _ => ?_⟩
  refine Run.audible_bind_iff.mpr ⟨Run.audible_forM_say fun _ _ => ⟨_, rfl⟩, fun _ _ => ?_⟩
  refine Run.audible_bind_iff.mpr ⟨Run.audible_forM_say fun _ _ => ⟨_, rfl⟩, fun _ _ => ?_⟩
  refine Run.audible_bind_iff.mpr ⟨Run.audible_ofFaulty _, fun chains _ => ?_⟩
  refine Run.audible_bind_iff.mpr ⟨Run.audible_ofFaulty _, fun retimed _ => ?_⟩
  refine Run.audible_bind_iff.mpr ⟨Run.audible_forM_say fun _ _ => ⟨_, rfl⟩, fun _ _ => ?_⟩
  exact Run.audible_pure _

/-- Narrowing down can be told if the costs of all choices are known. -/
theorem audible_narrowDown {choices : List Choice}
    (hcosts : Level.debug.reaches listener = true → (∃ cost, given.cost = .ok cost) ∧
      ∀ choice ∈ choices, ∃ cost, choice.itinerary.cost = .ok cost) :
    (optimizer.narrowDown given choices).Audible listener := by
  refine Run.audible_bind_iff.mpr ⟨Run.audible_forM fun stage hstage => ?_,
    fun _ _ => Run.audible_pure _⟩
  refine audible_tellStage_iff.mpr fun hreaches => ⟨(hcosts hreaches).1, fun left hleft => ?_⟩
  obtain ⟨choice, hchoice, rfl⟩ := List.mem_map.mp hleft
  exact (hcosts hreaches).2 choice (Narrowing.mem_of_mem_stages hstage hchoice)

/-! ## One itinerary -/

/-- The legs of an itinerary have a total cost, and so have the legs of its
alternatives, also of those with a forbidden change.  Nothing is told of an
itinerary with a single ride. -/
def Describable (optimizer : Optimizer) (itinerary : Itinerary) : Prop :=
  itinerary.changes ≠ [] → (∃ cost, itinerary.cost = .ok cost) ∧
    ∀ alternatives, optimizer.planner.alternatives itinerary = .ok alternatives →
      ∀ alternative ∈ alternatives, ∃ cost, alternative.itinerary.cost = .ok cost

/-- Where an itinerary gets its choices, a listener at level `debug` gets all
texts exactly if the itinerary is describable. -/
theorem audible_choose_iff {block : List Choice}
    (hblock : optimizer.block pricing itinerary = .ok block) :
    (optimizer.choose pricing itinerary).Audible listener ↔
      (Level.debug.reaches listener = true → optimizer.Describable itinerary) := by
  unfold choose
  by_cases hchanges : itinerary.changes = []
  · rw [if_pos (List.isEmpty_iff.mpr hchanges)]
    refine iff_of_true ?_ fun _ hnonempty => absurd hchanges hnonempty
    exact Run.audible_bind_iff.mpr ⟨Run.audible_ofFaulty _, fun _ _ => Run.audible_pure _⟩
  · have hempty : ¬itinerary.changes.isEmpty = true := by
      simpa using hchanges
    rw [block_changing hchanges] at hblock
    obtain ⟨alternatives, halternatives, hblock⟩ := bind_eq_ok_iff.mp hblock
    obtain ⟨assessed, hassessed, -⟩ := bind_eq_ok_iff.mp hblock
    -- The only alternatives that are told of are these.
    have hdescribable : optimizer.Describable itinerary ↔
        (∃ cost, itinerary.cost = .ok cost) ∧
          ∀ alternative ∈ alternatives, ∃ cost, alternative.itinerary.cost = .ok cost := by
      unfold Describable
      rw [halternatives]
      simp only [ne_eq, hchanges, not_false_eq_true, forall_const, Except.ok.injEq,
        forall_eq']
    have hlisted : (optimizer.listAlternatives itinerary).outcome = .ok alternatives := by
      rw [outcome_listAlternatives hchanges, halternatives, liftFault_ok]
    rw [if_neg hempty, Run.audible_bind_iff, hdescribable]
    simp only [audible_listAlternatives, hlisted, Except.ok.injEq, forall_eq', true_and,
      Run.audible_bind_iff, audible_tellStage_iff, List.forall_mem_map]
    constructor
    · intro h
      exact h.1
    · intro h
      refine ⟨h, fun _ _ => ⟨Run.audible_ofFaulty _, fun found hfound => ?_⟩⟩
      rw [Run.outcome_ofFaulty, liftFault_eq_ok_iff] at hfound
      obtain rfl : assessed = found := Except.ok.inj (hassessed.symm.trans hfound)
      split
      · refine Run.audible_bind_iff.mpr ⟨Run.audible_say_iff.mpr fun hreaches => ?_,
          fun _ _ => Run.audible_pure _⟩
        obtain ⟨words, hwords⟩ := Itinerary.exists_text_iff.mpr (h hreaches).1
        rw [hwords]
        exact ⟨_, rfl⟩
      · refine audible_narrowDown fun hreaches => ⟨(h hreaches).1, fun choice hchoice => ?_⟩
        obtain ⟨alternative, -, hassesses⟩ := exists_assessed_of_mem hassessed hchoice
        rw [hassesses.itinerary]
        exact ⟨_, hassesses.cost⟩

/-! ## A batch -/

theorem audible_riskPricing (xs : List Itinerary) :
    (optimizer.riskPricing xs).Audible listener := by
  unfold riskPricing
  dsimp only
  split
  · exact Run.audible_pure none
  · refine Run.audible_bind_iff.mpr ⟨Run.audible_ofExcept _, fun safe _ => ?_⟩
    refine Run.audible_bind_iff.mpr ⟨Run.audible_say_iff.mpr fun _ => ⟨_, rfl⟩, fun _ _ => ?_⟩
    exact Run.audible_pure _

theorem audible_mapM_choose_iff {xs : List Itinerary} {blocks : List (List Choice)}
    (hblocks : xs.mapM (optimizer.block pricing) = .ok blocks) :
    (xs.mapM (optimizer.choose pricing)).Audible listener ↔
      (Level.debug.reaches listener = true → ∀ itinerary ∈ xs, optimizer.Describable itinerary) := by
  have hchosen : (xs.mapM (optimizer.choose pricing)).outcome = .ok blocks := by
    simp only [Run.outcome_mapM, outcome_choose, liftFault_mapM, hblocks, liftFault_ok]
  have hone : ∀ itinerary ∈ xs, (optimizer.choose pricing itinerary).Audible listener ↔
      (Level.debug.reaches listener = true → optimizer.Describable itinerary) := by
    intro itinerary hitinerary
    obtain ⟨block, -, hblock⟩ :=
      exists_mem_of_forall₂ (mapM_eq_ok_iff.mp hblocks).flip hitinerary
    exact audible_choose_iff hblock
  rw [Run.audible_mapM_iff hchosen]
  constructor
  · intro h hreaches itinerary hitinerary
    exact (hone itinerary hitinerary).mp (h itinerary hitinerary) hreaches
  · intro h itinerary hitinerary
    exact (hone itinerary hitinerary).mpr fun hreaches => h hreaches itinerary hitinerary

/-- Where a batch gets its choices, a listener at level `debug` gets all texts
exactly if all itineraries are describable. -/
theorem audible_optimize_iff {xs : List Itinerary} {choices : List Choice}
    (hrun : (optimizer.optimize xs).outcome = .ok choices) :
    (optimizer.optimize xs).Audible listener ↔
      (Level.debug.reaches listener = true → ∀ itinerary ∈ xs, optimizer.Describable itinerary) := by
  by_cases hbatch : xs = []
  · subst hbatch
    refine iff_of_true ?_ fun _ _ hnone => by cases hnone
    exact Run.audible_bind_iff.mpr ⟨Run.audible_ofExcept _, fun _ _ => Run.audible_pure _⟩
  · have hempty : ¬xs.isEmpty = true := by
      simpa using hbatch
    rw [outcome_optimize hbatch] at hrun
    obtain ⟨accepted, hcheck, hrun⟩ := bind_eq_ok_iff.mp hrun
    obtain ⟨pricing, hpricing, hrun⟩ := bind_eq_ok_iff.mp hrun
    obtain ⟨blocks, hblocks, -⟩ := bind_eq_ok_iff.mp (liftFault_eq_ok_iff.mp hrun)
    rw [← audible_mapM_choose_iff hblocks, optimize]
    simp only [Run.audible_bind_iff, Run.audible_ofExcept, Run.outcome_ofExcept, hcheck,
      if_neg hempty, audible_riskPricing, hpricing, Run.audible_pure, Except.ok.injEq, forall_eq',
      implies_true, true_and, and_true, forall_const]

/-- A batch that gets no choices stops silently, or at a fault. -/
theorem audible_or_fault_of_error {xs : List Itinerary} {e : Error}
    (hrun : (optimizer.optimize xs).outcome = .error e) :
    (optimizer.optimize xs).Audible listener ∨ ∃ fault, e = .fault fault := by
  rcases error_of_outcome hrun with hcheck | hfault
  · refine Or.inl (Run.audible_bind_iff.mpr ⟨Run.audible_ofExcept _, fun _ hok => ?_⟩)
    rw [Run.outcome_ofExcept, hcheck] at hok
    cases hok
  · exact Or.inr hfault

/-- Listening leaves the verdict of a run as it is, unless there are choices,
the listener is told how they came about, and an itinerary of the batch or one
of its alternatives has no total cost.  Then listening ends in a fault. -/
theorem sameVerdict_optimize_iff (listener : Option Level) (xs : List Itinerary) :
    Run.SameVerdict (((optimizer.optimize xs).observe listener).map Prod.fst)
        (((optimizer.optimize xs).observe none).map Prod.fst) ↔
      ((∃ choices, (optimizer.optimize xs).outcome = .ok choices) →
        Level.debug.reaches listener = true →
          ∀ itinerary ∈ xs, optimizer.Describable itinerary) := by
  have hsilent : ((optimizer.optimize xs).observe none).map Prod.fst =
      (optimizer.optimize xs).outcome := by
    rw [Run.observe_none]
    cases (optimizer.optimize xs).outcome <;> rfl
  rw [hsilent, Run.sameVerdict_observe_iff]
  cases hrun : (optimizer.optimize xs).outcome with
  | ok choices =>
    rw [audible_optimize_iff hrun]
    simp
  | error e =>
    refine iff_of_true ?_ fun hok => by simp at hok
    rcases audible_or_fault_of_error hrun with haudible | ⟨fault, rfl⟩
    · exact Or.inl haudible
    · exact Or.inr ⟨fault, rfl⟩

end Optimizer

/-! ## A journey that is too dear to be told of -/

namespace Network

/-- A journey from A to D that changes at B.  Its rides together cost more
than fits a word. -/
def dearJourney : Itinerary where
  access := ⟨0, clock 0, clock 30, .zero⟩
  first := { redToB with cost := .clamp greatestCost }
  changes := [⟨none, { blueToD with cost := .clamp 1 }⟩]
  egress := ⟨3, clock 1200, clock 1260, .zero⟩
  sound := by decide +kernel

end Network

namespace Optimizer

/-- Silently the journey gets its choices, at level `debug` it overflows. -/
theorem listening_stops_dearJourney :
    Network.dearJourney.RidesOn network.table ∧ network.table.Built ∧
      (∃ choices, (network.optimize [Network.dearJourney]).observe none = .ok (choices, [])) ∧
        (network.optimize [Network.dearJourney]).observe (some .debug) =
          .error (.fault .addition) := by
  obtain ⟨choices, hrun⟩ : ∃ choices,
      (network.optimize [Network.dearJourney]).outcome = .ok choices :=
    exists_ok_of_toBool (by decide +kernel)
  refine ⟨by decide +kernel, Network.planner_built, ⟨choices, ?_⟩, by decide +kernel⟩
  rw [Run.observe_none, hrun]
  rfl

end Optimizer

end TransitTransfers
