import Mathlib.Data.List.Perm.Basic
import TransitTransfers.Proofs.Itinerary.Durations
import TransitTransfers.Proofs.Optimizer.Faults

/-!
# A batch is made up block by block

Every itinerary of a batch gets a block of choices, and the result is the
blocks one after the other.  What a block takes from the rest of the batch is
the shortest time that an itinerary spends in vehicles, and nothing else.

* `block_onlyOverflows` shows that a block can only stop at an overflow.
* `exists_shortestRide` and `shortestRide_perm` are about the shortest ride:
  there always is one, whatever the order of the batch.
* `outcome_optimize_shortest` is the whole outcome in terms of the shortest
  ride, and `error_of_outcome` says what it can fail with.
* `MadeOfBlocks` says how a batch is made up, and `optimize_blocks` is the
  result for one batch and for those that it is rearranged, cut down or
  extended to.
-/

namespace TransitTransfers

namespace Optimizer

variable {optimizer : Optimizer} {pricing : Option RiskPricing} {itinerary : Itinerary}
  {xs ys : List Itinerary}

/-! ## Nothing but overflows -/

/-- On a timetable nothing but an overflow keeps an itinerary from its
block. -/
theorem block_onlyOverflows (hbuilt : optimizer.table.Built)
    (hrides : itinerary.RidesOn optimizer.table) :
    OnlyOverflows (optimizer.block pricing itinerary) := by
  refine block_stopsOnly (fun hchanges => ?_) fun fault hfault => hfault.isAdditive.isOverflow
  have halternatives : Succeeds (optimizer.planner.alternatives itinerary) :=
    Planner.alternatives_succeeds hbuilt hrides hchanges
  exact halternatives.isAdditive.mono fun fault hfault => hfault.isOverflow

/-! ## The shortest ride -/

theorem exists_shortestRide (xs : List Itinerary) :
    ∃ shortest, shortestRide xs = .ok shortest ∧ (shortest = none ↔ xs = []) := by
  obtain ⟨rides, hrides⟩ : ∃ rides, xs.mapM Itinerary.rideDuration = .ok rides :=
    exists_mapM fun itinerary _ => itinerary.exists_rideDuration
  refine ⟨rides.min?, bind_eq_ok_iff.mpr ⟨rides, hrides, rfl⟩, ?_⟩
  rw [List.min?_eq_none_iff, ← List.length_eq_zero_iff, ← List.length_eq_zero_iff,
    (mapM_eq_ok_iff.mp hrides).length_eq]

/-- The shortest ride does not depend on the order of the batch. -/
theorem shortestRide_perm (h : xs.Perm ys) : shortestRide xs = shortestRide ys := by
  obtain ⟨rides, hrides⟩ : ∃ rides, ys.mapM Itinerary.rideDuration = .ok rides :=
    exists_mapM fun itinerary _ => itinerary.exists_rideDuration
  obtain ⟨rides', hrides', hperm⟩ := List.perm_comp_forall₂ h (mapM_eq_ok_iff.mp hrides)
  rw [shortestRide, shortestRide, hrides, mapM_eq_ok_iff.mpr hrides']
  exact congrArg Except.ok (Duration.min?_perm hperm)

/-! ## The outcome -/

/-- A batch that is not refused gets the choices for its shortest ride. -/
theorem outcome_optimize_shortest {shortest : Option Duration}
    (hshortest : shortestRide xs = .ok shortest) :
    (optimizer.optimize xs).outcome = optimizer.settings.check >>= fun _ =>
      liftFault (optimizer.chooseAll (optimizer.pricingFor shortest) xs) := by
  obtain ⟨shortest', hshortest', hnone⟩ := exists_shortestRide xs
  obtain rfl : shortest = shortest' := Except.ok.inj (hshortest.symm.trans hshortest')
  cases shortest with
  | none =>
    rw [hnone.mp rfl, outcome_optimize_nil]
    rfl
  | some ride =>
    have hbatch : xs ≠ [] := fun hxs => by simpa using hnone.mpr hxs
    rw [outcome_optimize hbatch, outcome_riskPricing hshortest]
    rfl

/-- A batch gets no choices because its settings are refused, or at a fault. -/
theorem error_of_outcome {e : Error} (hrun : (optimizer.optimize xs).outcome = .error e) :
    optimizer.settings.check = .error e ∨ ∃ fault, e = .fault fault := by
  obtain ⟨shortest, hshortest, -⟩ := exists_shortestRide xs
  rw [outcome_optimize_shortest hshortest] at hrun
  cases hcheck : optimizer.settings.check with
  | error refusal =>
    rw [hcheck] at hrun
    exact Or.inl (congrArg Except.error (Except.error.inj hrun))
  | ok _ =>
    rw [hcheck] at hrun
    cases hchosen : optimizer.chooseAll (optimizer.pricingFor shortest) xs with
    | ok choices =>
      rw [hchosen] at hrun
      cases hrun
    | error fault =>
      rw [hchosen] at hrun
      exact Or.inr ⟨fault, (Except.error.inj hrun).symm⟩

theorem chooseAll_onlyOverflows (hbuilt : optimizer.table.Built)
    (hrides : ∀ itinerary ∈ xs, itinerary.RidesOn optimizer.table) :
    OnlyOverflows (optimizer.chooseAll pricing xs) := by
  have hblocks : StopsOnly (xs.mapM (optimizer.block pricing)) Fault.IsOverflow :=
    .mapM fun itinerary hitinerary => block_onlyOverflows hbuilt (hrides itinerary hitinerary)
  exact hblocks.bind fun blocks _ => .pure _

theorem check_ne_noItineraries (settings : Settings) :
    settings.check ≠ .error .noItineraries := by
  unfold Settings.check
  split <;> simp

/-! ## Blocks -/

/-- The block of an itinerary in a batch with a given shortest ride; it is
empty if it overflows. -/
def blockIn (optimizer : Optimizer) (shortest : Option Duration) (itinerary : Itinerary) :
    List Choice :=
  (optimizer.block (optimizer.pricingFor shortest) itinerary).toOption.getD []

/-- How the outcome for a batch is made up. -/
structure MadeOfBlocks (optimizer : Optimizer) (shortest : Option Duration)
    (xs : List Itinerary) : Prop where
  /-- The batch has the shortest ride. -/
  ride : shortestRide xs = .ok shortest
  /-- Every itinerary has its block, and nothing of it overflows. -/
  blocks : ∀ itinerary ∈ xs, optimizer.block (optimizer.pricingFor shortest) itinerary =
    .ok (optimizer.blockIn shortest itinerary)
  /-- The blocks stand one after the other, in the order of the batch. -/
  outcome : (optimizer.optimize xs).outcome = .ok (xs.flatMap (optimizer.blockIn shortest))

/-- Nothing overflows when the choices for a batch are made. -/
def Fits (optimizer : Optimizer) (xs : List Itinerary) : Prop :=
  ∀ fault, fault.IsOverflow → (optimizer.optimize xs).outcome ≠ .error (.fault fault)

theorem fits_of_eq_ok {choices : List Choice}
    (h : (optimizer.optimize xs).outcome = .ok choices) : optimizer.Fits xs := by
  intro fault _ hfault
  rw [h] at hfault
  cases hfault

theorem fits_of_toBool (h : (optimizer.optimize xs).outcome.toBool = true) :
    optimizer.Fits xs := by
  obtain ⟨choices, hrun⟩ := exists_ok_of_toBool h
  exact fits_of_eq_ok hrun

theorem blockIn_of_eq_ok {shortest : Option Duration} {made : List Choice}
    (h : optimizer.block (optimizer.pricingFor shortest) itinerary = .ok made) :
    optimizer.blockIn shortest itinerary = made := by
  rw [blockIn, h]
  rfl

/-- A batch is made of blocks if all of its itineraries have blocks for its
shortest ride. -/
theorem madeOfBlocks_of_blocks {shortest : Option Duration}
    (hcheck : optimizer.settings.check = .ok ()) (hshortest : shortestRide xs = .ok shortest)
    (hblocks : ∀ itinerary ∈ xs, optimizer.block (optimizer.pricingFor shortest) itinerary =
      .ok (optimizer.blockIn shortest itinerary)) :
    optimizer.MadeOfBlocks shortest xs := by
  refine ⟨hshortest, hblocks, ?_⟩
  have hall : xs.mapM (optimizer.block (optimizer.pricingFor shortest)) =
      .ok (xs.map (optimizer.blockIn shortest)) := by
    rw [mapM_eq_ok_iff, List.forall₂_map_right_iff, List.forall₂_same]
    exact hblocks
  rw [outcome_optimize_shortest hshortest, hcheck, chooseAll, hall, List.flatMap_def]
  rfl

/-- A batch that is neither refused nor overflows is made of blocks. -/
theorem madeOfBlocks_of_fits {shortest : Option Duration} (hbuilt : optimizer.table.Built)
    (hrides : ∀ itinerary ∈ xs, itinerary.RidesOn optimizer.table) (hfits : optimizer.Fits xs)
    (hcheck : optimizer.settings.check = .ok ()) (hshortest : shortestRide xs = .ok shortest) :
    optimizer.MadeOfBlocks shortest xs := by
  have hrun : (optimizer.optimize xs).outcome =
      liftFault (optimizer.chooseAll (optimizer.pricingFor shortest) xs) := by
    rw [outcome_optimize_shortest hshortest, hcheck]
    rfl
  cases hchosen : optimizer.chooseAll (optimizer.pricingFor shortest) xs with
  | error fault =>
    rw [hchosen] at hrun
    exact absurd hrun (hfits fault (chooseAll_onlyOverflows hbuilt hrides fault hchosen))
  | ok choices =>
    obtain ⟨blocks, hblocks, -⟩ := bind_eq_ok_iff.mp hchosen
    refine madeOfBlocks_of_blocks hcheck hshortest fun itinerary hitinerary => ?_
    obtain ⟨made, -, hmade⟩ :=
      exists_mem_of_forall₂ (mapM_eq_ok_iff.mp hblocks).flip hitinerary
    rw [blockIn_of_eq_ok hmade]
    exact hmade

/-- Without weighing, a batch in two parts gets what the parts get. -/
theorem outcome_optimize_append (hweigh : optimizer.settings.weighRisk = false)
    (front back : List Itinerary) :
    (optimizer.optimize (front ++ back)).outcome = do
      let first ← (optimizer.optimize front).outcome
      let second ← (optimizer.optimize back).outcome
      return first ++ second := by
  have houtcome : ∀ itineraries, (optimizer.optimize itineraries).outcome =
      optimizer.settings.check >>= fun _ => liftFault (optimizer.chooseAll none itineraries) := by
    intro itineraries
    obtain ⟨shortest, hshortest, -⟩ := exists_shortestRide itineraries
    rw [outcome_optimize_shortest hshortest, pricingFor_unweighed hweigh]
  rw [houtcome, houtcome, houtcome]
  cases optimizer.settings.check with
  | error e => rfl
  | ok _ =>
    show liftFault (optimizer.chooseAll none (front ++ back)) =
      liftFault (optimizer.chooseAll none front) >>= fun first =>
        liftFault (optimizer.chooseAll none back) >>= fun second => pure (first ++ second)
    rw [chooseAll, chooseAll, chooseAll, List.mapM_append]
    cases front.mapM (optimizer.block none) with
    | error fault => rfl
    | ok fronts =>
      cases back.mapM (optimizer.block none) with
      | error fault => rfl
      | ok backs => exact congrArg Except.ok List.flatten_append

/-- Where nothing overflows, a batch is refused exactly if the settings are,
and for the same reason.  Otherwise it is made of blocks, one for every
itinerary in order, which know nothing of each other but the shortest ride of
the batch: they are the same in another order, and in any other batch with the
same shortest ride.  Without weighing not even the shortest ride counts. -/
theorem optimize_blocks (hbuilt : optimizer.table.Built)
    (hrides : ∀ itinerary ∈ xs, itinerary.RidesOn optimizer.table) (hfits : optimizer.Fits xs) :
    (∀ e, (optimizer.optimize xs).outcome = .error e ↔ optimizer.settings.check = .error e) ∧
      (optimizer.optimize xs).outcome ≠ .error .noItineraries ∧
        (optimizer.settings.check = .ok () → ∃ shortest, optimizer.MadeOfBlocks shortest xs ∧
          (∀ ys, xs.Perm ys → optimizer.MadeOfBlocks shortest ys) ∧
          (∀ ys, (∀ itinerary ∈ ys, itinerary ∈ xs) → shortestRide ys = .ok shortest →
            optimizer.MadeOfBlocks shortest ys) ∧
          ∀ ys, (∀ itinerary ∈ ys, itinerary.RidesOn optimizer.table) → optimizer.Fits ys →
            shortestRide ys = .ok shortest → optimizer.MadeOfBlocks shortest ys) ∧
        (optimizer.settings.weighRisk = false → ∀ front back,
          (optimizer.optimize (front ++ back)).outcome = do
            let first ← (optimizer.optimize front).outcome
            let second ← (optimizer.optimize back).outcome
            return first ++ second) := by
  obtain ⟨shortest, hshortest, -⟩ := exists_shortestRide xs
  have herror : ∀ e, (optimizer.optimize xs).outcome = .error e ↔
      optimizer.settings.check = .error e := by
    intro e
    cases hcheck : optimizer.settings.check with
    | error refusal =>
      rw [outcome_optimize_shortest hshortest, hcheck]
      show (Except.error refusal : Except Error (List Choice)) = .error e ↔ _
      rw [Except.error.injEq, Except.error.injEq]
    | ok _ =>
      have hmade := madeOfBlocks_of_fits hbuilt hrides hfits hcheck hshortest
      rw [hmade.outcome]
      simp
  refine ⟨herror, fun hnone => check_ne_noItineraries _ ((herror _).mp hnone), ?_,
    outcome_optimize_append⟩
  intro hcheck
  have hmade := madeOfBlocks_of_fits hbuilt hrides hfits hcheck hshortest
  refine ⟨shortest, hmade, fun ys hperm => ?_, fun ys hmem hride => ?_, fun ys hon hfit hride => ?_⟩
  · refine madeOfBlocks_of_blocks hcheck ((shortestRide_perm hperm).symm.trans hshortest) ?_
    exact fun itinerary hitinerary => hmade.blocks itinerary (hperm.mem_iff.mpr hitinerary)
  · exact madeOfBlocks_of_blocks hcheck hride
      fun itinerary hitinerary => hmade.blocks itinerary (hmem itinerary hitinerary)
  · exact madeOfBlocks_of_fits hbuilt hon hfit hcheck hride

/-- The journey gets its block once, and twice if it is in the batch twice. -/
theorem optimize_blocks_journey :
    network.Fits [Network.journey] ∧ ∃ shortest,
      network.MadeOfBlocks shortest [Network.journey] ∧
        network.MadeOfBlocks shortest [Network.journey, Network.journey] := by
  obtain ⟨choices, hrun⟩ : ∃ choices, (network.optimize [Network.journey]).outcome = .ok choices :=
    exists_ok_of_toBool (by decide +kernel)
  have hfits := fits_of_eq_ok hrun
  obtain ⟨-, -, hblocks, -⟩ := optimize_blocks Network.planner_built
    (fun itinerary h => List.mem_singleton.mp h ▸ Network.journey_ridesOn) hfits
  obtain ⟨shortest, hmade, -, hsame, -⟩ := hblocks (by decide +kernel)
  refine ⟨hfits, shortest, hmade, hsame _ (by simp) ?_⟩
  rw [← hmade.ride]
  decide +kernel

end Optimizer

end TransitTransfers
