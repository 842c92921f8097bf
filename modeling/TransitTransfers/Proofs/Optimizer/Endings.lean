import TransitTransfers.Proofs.Optimizer.Listening

/-!
# How a run can end

A run of the optimizer ends with choices, with a refusal of its settings, or
with a fault.  This module bounds the faults, whoever listens.

* `choose_faultsOnly` and `optimize_faultsOnly` carry a bound on faults through
  a run with all of its messages, from the listing of alternatives and from the
  costs that are worked out.
* `optimize_faults` takes the bounds that there are.  A run never looks past
  the end of a list, and where a difference does not fit, it is one of costs.
  If all trips are roomy, then only costs do not fit.
-/

namespace TransitTransfers

theorem Itinerary.summary_stopsOnly {itinerary : Itinerary} {P : Fault → Prop}
    (hcost : StopsOnly itinerary.cost P) : StopsOnly itinerary.summary P := by
  obtain ⟨words, hwords⟩ := itinerary.exists_summary
  rw [hwords]
  exact hcost.map _

theorem Itinerary.text_stopsOnly {itinerary : Itinerary} {P : Fault → Prop}
    (hcost : StopsOnly itinerary.cost P) : StopsOnly itinerary.text P := by
  obtain ⟨words, hwords⟩ := itinerary.exists_text
  rw [hwords]
  exact hcost.map _

namespace Optimizer

variable {optimizer : Optimizer} {pricing : Option RiskPricing} {given itinerary : Itinerary}
  {xs : List Itinerary} {P : Fault → Prop}

/-! ## What is told -/

theorem tellStage_faultsOnly {stage : String} {left : List Itinerary}
    (hgiven : StopsOnly given.cost P) (hleft : ∀ itinerary ∈ left, StopsOnly itinerary.cost P) :
    (tellStage given stage left).FaultsOnly P := by
  refine .say (StopsOnly.bind (.mapM fun itinerary hitinerary => ?_) fun lines _ => ?_)
  · exact (Itinerary.summary_stopsOnly (hleft itinerary hitinerary)).bind fun _ _ => .pure _
  · exact (Itinerary.summary_stopsOnly hgiven).bind fun _ _ => .pure _

theorem narrowDown_faultsOnly {choices : List Choice} (hgiven : StopsOnly given.cost P)
    (hchoices : ∀ choice ∈ choices, StopsOnly choice.itinerary.cost P) :
    (optimizer.narrowDown given choices).FaultsOnly P := by
  refine .bind (.forM fun stage hstage => ?_) fun _ _ => .pure _
  refine tellStage_faultsOnly hgiven fun left hleft => ?_
  obtain ⟨choice, hchoice, rfl⟩ := List.mem_map.mp hleft
  exact hchoices choice (Narrowing.mem_of_mem_stages hstage hchoice)

/-! ## One itinerary -/

theorem listAlternatives_faultsOnly (hchanges : itinerary.changes ≠ [])
    (hlist : StopsOnly (optimizer.planner.alternatives itinerary) P) :
    (optimizer.listAlternatives itinerary).FaultsOnly P := by
  refine .of_audible (fun _ => audible_listAlternatives itinerary) fun e he => ?_
  rw [outcome_listAlternatives hchanges] at he
  exact (Run.FaultsOnly.ofFaulty hlist).outcome e he

/-- What ends the choice for an itinerary stops the listing of alternatives, or
is a cost that does not fit. -/
theorem choose_faultsOnly
    (hlist : itinerary.changes ≠ [] → StopsOnly (optimizer.planner.alternatives itinerary) P)
    (hcosts : ∀ fault, optimizer.CostFault pricing itinerary fault → P fault) :
    (optimizer.choose pricing itinerary).FaultsOnly P := by
  have hgiven : StopsOnly itinerary.cost P := fun fault hfault => hcosts fault (.given hfault)
  unfold choose
  by_cases hchanges : itinerary.changes = []
  · rw [if_pos (List.isEmpty_iff.mpr hchanges)]
    exact .bind (.ofFaulty (unchanged_stopsOnly hcosts)) fun _ _ => .pure _
  · have hempty : ¬itinerary.changes.isEmpty = true := by
      simpa using hchanges
    rw [if_neg hempty]
    refine .bind (listAlternatives_faultsOnly hchanges (hlist hchanges))
      fun alternatives hlisted => ?_
    rw [outcome_listAlternatives hchanges, liftFault_eq_ok_iff] at hlisted
    have hlegs : ∀ alternative ∈ alternatives, StopsOnly alternative.itinerary.cost P :=
      fun alternative hmem fault hfault => hcosts fault (.alternative hlisted hmem (.legs hfault))
    refine .bind (tellStage_faultsOnly hgiven fun left hleft => ?_) fun _ _ => ?_
    · obtain ⟨alternative, hmem, rfl⟩ := List.mem_map.mp hleft
      exact hlegs alternative hmem
    refine .bind (.ofFaulty (mapM_assess_stopsOnly hcosts hlisted)) fun assessed hassessed => ?_
    rw [Run.outcome_ofFaulty, liftFault_eq_ok_iff] at hassessed
    dsimp only
    split
    · refine .bind (.say ?_) fun _ _ => .pure _
      exact (Itinerary.text_stopsOnly hgiven).bind fun _ _ => .pure _
    · refine narrowDown_faultsOnly hgiven fun choice hchoice => ?_
      obtain ⟨alternative, hmem, hassesses⟩ := exists_assessed_of_mem hassessed hchoice
      rw [hassesses.itinerary]
      exact hlegs alternative hmem

/-! ## A batch -/

theorem riskPricing_faultsOnly {shortest : Duration}
    (hshortest : shortestRide xs = .ok (some shortest)) :
    (optimizer.riskPricing xs).FaultsOnly P := by
  refine .of_audible (fun _ => audible_riskPricing xs) fun e he => ?_
  rw [outcome_riskPricing hshortest] at he
  cases he

/-- What ends a run for a batch stops the listing of alternatives, or is a cost
that does not fit. -/
theorem optimize_faultsOnly (hcheck : optimizer.settings.check = .ok ())
    {shortest : Option Duration} (hshortest : shortestRide xs = .ok shortest)
    (hlist : ∀ itinerary ∈ xs, itinerary.changes ≠ [] →
      StopsOnly (optimizer.planner.alternatives itinerary) P)
    (hcosts : ∀ itinerary ∈ xs, ∀ fault,
      optimizer.CostFault (optimizer.pricingFor shortest) itinerary fault → P fault) :
    (optimizer.optimize xs).FaultsOnly P := by
  obtain ⟨shortest', hshortest', hnone⟩ := exists_shortestRide xs
  obtain rfl : shortest = shortest' := Except.ok.inj (hshortest.symm.trans hshortest')
  have hchecked : (Run.ofExcept optimizer.settings.check).FaultsOnly P := by
    refine .of_audible (fun _ => Run.audible_ofExcept _) fun e he => ?_
    rw [Run.outcome_ofExcept, hcheck] at he
    cases he
  refine .bind hchecked fun _ _ => ?_
  cases shortest with
  | none =>
    rw [hnone.mp rfl]
    exact .pure []
  | some ride =>
    have hempty : ¬xs.isEmpty = true := by
      rw [List.isEmpty_iff]
      exact fun hxs => by simpa using hnone.mpr hxs
    rw [if_neg hempty]
    refine .bind (riskPricing_faultsOnly hshortest) fun pricing hpricing => ?_
    rw [outcome_riskPricing hshortest] at hpricing
    obtain rfl := Except.ok.inj hpricing
    refine .bind (.mapM fun itinerary hitinerary => ?_) fun _ _ => .pure _
    exact choose_faultsOnly (hlist itinerary hitinerary) (hcosts itinerary hitinerary)

/-- With accepted settings a run for itineraries on a timetable has a result,
or ends in a fault, whoever listens.  The fault is a sum or a difference that
does not fit, so no list is ever looked up past its end.  Unless it is a sum,
it is one of the costs that are worked out for an itinerary, so no difference
of times ever falls short.  And if all trips that are ridden are roomy, it is
one of these costs in any case. -/
theorem optimize_faults (hbuilt : optimizer.table.Built)
    (hrides : ∀ itinerary ∈ xs, itinerary.RidesOn optimizer.table)
    (hcheck : optimizer.settings.check = .ok ()) {listener : Option Level} {e : Error}
    (hend : (optimizer.optimize xs).observe listener = .error e) :
    ∃ shortest fault, shortestRide xs = .ok shortest ∧ e = .fault fault ∧
      (fault = .addition ∨ fault = .subtraction) ∧
      (fault = .subtraction → ∃ itinerary ∈ xs,
        optimizer.CostFault (optimizer.pricingFor shortest) itinerary fault) ∧
      ((∀ itinerary ∈ xs, ∀ ride ∈ itinerary.rides, optimizer.planner.Roomy ride.trip) →
        ∃ itinerary ∈ xs,
          optimizer.CostFault (optimizer.pricingFor shortest) itinerary fault) := by
  obtain ⟨shortest, hshortest, -⟩ := exists_shortestRide xs
  let Costly : Fault → Prop := fun fault =>
    ∃ itinerary ∈ xs, optimizer.CostFault (optimizer.pricingFor shortest) itinerary fault
  have hcosts : ∀ itinerary ∈ xs, ∀ fault,
      optimizer.CostFault (optimizer.pricingFor shortest) itinerary fault → Costly fault :=
    fun itinerary hitinerary fault hfault => ⟨itinerary, hitinerary, hfault⟩
  have hany := optimize_faultsOnly (P := fun fault => fault = .addition ∨ Costly fault) hcheck
    hshortest (fun itinerary hitinerary hchanges =>
      have hlist : Succeeds (optimizer.planner.alternatives itinerary) :=
        Planner.alternatives_succeeds hbuilt (hrides itinerary hitinerary) hchanges
      hlist.stopsOnly.mono fun fault hfault => Or.inl hfault)
    fun itinerary hitinerary fault hfault => Or.inr (hcosts itinerary hitinerary fault hfault)
  obtain ⟨fault, rfl, hfault⟩ := hany.observe hend
  have hkind : fault = .addition ∨ fault = .subtraction := by
    rcases hfault with hsum | ⟨itinerary, -, hcost⟩
    · exact Or.inl hsum
    · cases fault with
      | addition => exact Or.inl rfl
      | subtraction => exact Or.inr rfl
      | _ => cases hcost.isAdditive
  refine ⟨shortest, fault, hshortest, rfl, hkind, fun hsub => ?_, fun hroomy => ?_⟩
  · rcases hfault with rfl | hcostly
    · cases hsub
    · exact hcostly
  · have hroom := optimize_faultsOnly hcheck hshortest (fun itinerary hitinerary hchanges =>
      (Planner.alternatives_stopsOnly hbuilt (hrides itinerary hitinerary) hchanges
        (hroomy itinerary hitinerary)).mono fun fault hfault =>
          hcosts itinerary hitinerary fault (.price hfault)) hcosts
    obtain ⟨other, hother, hcostly⟩ := hroom.observe hend
    cases hother
    exact hcostly

/-- The journey that is too dear to be told of rides roomy trips only, so what
stops it is one of its costs. -/
theorem optimize_faults_dearJourney :
    (network.optimize [Network.dearJourney]).observe (some .debug) = .error (.fault .addition) ∧
      (∀ ride ∈ Network.dearJourney.rides, network.planner.Roomy ride.trip) ∧
        ∃ shortest, shortestRide [Network.dearJourney] = .ok shortest ∧
          network.CostFault (network.pricingFor shortest) Network.dearJourney .addition := by
  have hend : (network.optimize [Network.dearJourney]).observe (some .debug) =
      .error (.fault .addition) := by
    decide +kernel
  have hrides : Network.dearJourney.RidesOn network.table := by
    decide +kernel
  have hroomy : ∀ ride ∈ Network.dearJourney.rides, network.planner.Roomy ride.trip := by
    intro ride hride
    have harrivals : ∀ ride ∈ Network.dearJourney.rides, ∀ arrival ∈ ride.trip.arrivals,
        network.slack.totalSeconds ride.trip.pattern + arrival.seconds < wordSize := by
      decide +kernel
    have hpaths : ∀ ride ∈ Network.dearJourney.rides, ∀ arrival ∈ ride.trip.arrivals,
        ∀ stop ∈ ride.trip.pattern.stops, ∀ path ∈ network.table.footpathsFrom stop,
          network.slack.totalSeconds ride.trip.pattern + arrival.seconds +
            path.duration.seconds < wordSize := by
      decide +kernel
    exact ⟨harrivals ride hride, hpaths ride hride⟩
  obtain ⟨shortest, fault, hshortest, hfault, -, -, hcostly⟩ := optimize_faults
    Network.planner_built (fun itinerary h => List.mem_singleton.mp h ▸ hrides)
    (by decide +kernel) hend
  cases hfault
  obtain ⟨itinerary, hitinerary, hcost⟩ :=
    hcostly fun itinerary h => List.mem_singleton.mp h ▸ hroomy
  obtain rfl := List.mem_singleton.mp hitinerary
  exact ⟨hend, hroomy, shortest, hshortest, hcost⟩

end Optimizer

end TransitTransfers
