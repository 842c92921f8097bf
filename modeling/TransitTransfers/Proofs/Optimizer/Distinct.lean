import TransitTransfers.Proofs.Alternative.Distinct
import TransitTransfers.Proofs.Optimizer.Selection

/-!
# One choice at most is unchanged

Where no stop has two footpaths to the same stop, exactly one alternative of an
itinerary changes where the itinerary does.  A choice is marked as unchanged if
its alternative is that one, so a block has one such choice at most.

* `countP_of_forall₂` counts in two lists at once, and `countP_isUnchanged_le`
  does so for the alternatives that are not forbidden and their choices.
* `batch_lists_once` is the result for a batch.
-/

namespace TransitTransfers

/-- Entries that are paired with each other are counted alike. -/
theorem countP_of_forall₂ {α β : Type} {R : α → β → Prop} {p : α → Bool} {q : β → Bool}
    {xs : List α} {ys : List β} (h : List.Forall₂ R xs ys)
    (hpq : ∀ x y, R x y → p x = q y) : xs.countP p = ys.countP q := by
  induction h with
  | nil => rfl
  | cons hhead _ ih => rw [List.countP_cons, List.countP_cons, ih, hpq _ _ hhead]

namespace Optimizer

variable {optimizer : Optimizer} {pricing : Option RiskPricing} {given : Itinerary}

/-- Of the choices for an itinerary one at most is unchanged. -/
theorem countP_isUnchanged_le (hbuilt : optimizer.table.Built)
    (hpaths : optimizer.table.SinglePaths) (hrides : given.RidesOn optimizer.table)
    {block : List Choice} (h : (optimizer.choose pricing given).outcome = .ok block) :
    block.countP (·.isUnchanged) ≤ 1 := by
  by_cases hchanges : given.changes = []
  · obtain ⟨choice, -, rfl⟩ := (choose_single_eq_ok_iff hchanges).mp h
    exact List.countP_le_length
  · obtain ⟨alternatives, assessed, hlist, hassessed, rfl⟩ := (choose_eq_ok_iff hchanges).mp h
    have hkept : (Narrowing.narrow optimizer.criteria (assessed.filterMap id)).Sublist
        (assessed.filterMap id) := by
      rw [Narrowing.narrow_eq_filter]
      exact List.filter_sublist
    calc (Narrowing.narrow optimizer.criteria (assessed.filterMap id)).countP (·.isUnchanged)
        ≤ (assessed.filterMap id).countP (·.isUnchanged) := hkept.countP_le
      _ = (alternatives.filter (!·.isForbidden)).countP (·.itinerary.sameStretches given) :=
          (countP_of_forall₂ (assessed_spec hassessed)
            fun _ _ hassesses => hassesses.isUnchanged.symm).symm
      _ ≤ alternatives.countP (·.itinerary.sameStretches given) :=
          List.filter_sublist.countP_le
      _ = 1 := Planner.countP_sameStretches hbuilt hpaths hrides hchanges hlist

/-- Where no stop has two footpaths to the same stop, no alternative is listed
twice, and the changes of an itinerary itself are listed exactly once.  So every
itinerary with several rides has alternatives, unless a sum does not fit, and
one at most of the choices for an itinerary is marked as unchanged. -/
theorem batch_lists_once {itineraries : List Itinerary} (hbuilt : optimizer.table.Built)
    (hpaths : optimizer.table.SinglePaths)
    (hrides : ∀ itinerary ∈ itineraries, itinerary.RidesOn optimizer.table) :
    (∀ given ∈ itineraries, given.changes ≠ [] →
      optimizer.planner.alternatives given ≠ .error .addition →
        ∃ offers alternatives, optimizer.planner.ListsOnce given offers alternatives) ∧
      ∀ choices, (optimizer.optimize itineraries).outcome = .ok choices →
        ∃ pricing blocks,
          (itineraries ≠ [] → (optimizer.riskPricing itineraries).outcome = .ok pricing) ∧
            choices = blocks.flatten ∧
              List.Forall₂ (fun given block =>
                (optimizer.choose pricing given).outcome = .ok block ∧
                  block.countP (·.isUnchanged) ≤ 1) itineraries blocks := by
  constructor
  · intro given hgiven hchanges hfits
    exact Planner.exists_listsOnce hbuilt hpaths (hrides given hgiven) hchanges hfits
  · intro choices hrun
    obtain ⟨pricing, blocks, hpricing, hflat, hblocks⟩ := exists_blocks hrun
    refine ⟨pricing, blocks, hpricing, hflat, ?_⟩
    exact forall₂_imp_of_mem hblocks fun given hgiven block hchoose =>
      ⟨hchoose, countP_isUnchanged_le hbuilt hpaths (hrides given hgiven) hchoose⟩

/-- The journey has three alternatives, one of them its own. -/
theorem batch_lists_once_journey :
    network.table.SinglePaths ∧
      ∃ offers alternatives, network.planner.ListsOnce Network.journey offers alternatives ∧
        alternatives.map (·.itinerary.sameStretches Network.journey) = [false, true, false] := by
  have hpaths : network.table.SinglePaths := by decide +kernel
  obtain ⟨hlists, -⟩ := batch_lists_once Network.planner_built hpaths
    fun itinerary h => List.mem_singleton.mp h ▸ Network.journey_ridesOn
  obtain ⟨offers, alternatives, honce⟩ := hlists Network.journey List.mem_cons_self
    (by decide +kernel) (by decide +kernel)
  have hown : (network.planner.alternatives Network.journey).map
      (·.map (·.itinerary.sameStretches Network.journey)) = .ok [false, true, false] := by
    decide +kernel
  rw [honce.listed] at hown
  exact ⟨hpaths, offers, alternatives, honce, Except.ok.inj hown⟩

end Optimizer

end TransitTransfers
