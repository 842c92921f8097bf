import TransitTransfers.Proofs.Alternative.Restart
import TransitTransfers.Proofs.Optimizer.Selection

/-!
# Optimizing again changes nothing

What the optimizer returns can be given to it again.  Then every choice is
chosen again at the same costs, and beside it at most what was chosen with it
before.  The only thing that changes is that its changes are now the given ones.

* `Choice.settled` is a choice after that.  `Assesses.settled` shows that an
  alternative is worth the same wherever it comes from.
* `Confirms` compares the block of a choice with the block that the choice
  comes from, and `confirms_of_choose` proves it for one itinerary.  The
  alternatives are some of those from before (`Planner.alternatives_restart`),
  and one of the best is still there, so narrowing down leaves nothing new.
* `optimize_again_confirms` is the result for a batch.
-/

namespace TransitTransfers

namespace Choice

/-- A choice once its changes are those of the itinerary that came in. -/
def settled (choice : Choice) : Choice := { choice with isUnchanged := true }

@[simp] theorem settled_itinerary (choice : Choice) :
    choice.settled.itinerary = choice.itinerary := rfl

theorem settled_eq_self {choice : Choice} (h : choice.isUnchanged = true) :
    choice.settled = choice := by
  rw [settled, ← h]

end Choice

theorem Itinerary.sameStretches_self (itinerary : Itinerary) :
    itinerary.sameStretches itinerary = true :=
  decide_eq_true rfl

namespace Optimizer

variable {optimizer : Optimizer} {pricing : Option RiskPricing} {given : Itinerary}

/-! ## What an alternative is worth -/

/-- What a choice records of an alternative is the same for any itinerary,
but for whether the changes are its own. -/
theorem Assesses.settled {alternative : Alternative} {choice : Choice}
    (h : Assesses pricing given alternative choice) :
    Assesses pricing alternative.itinerary alternative choice.settled :=
  ⟨h.itinerary, h.rules, h.ruleCost, h.cost, h.waitCost, h.boardings,
    (Itinerary.sameStretches_self _).symm⟩

theorem Assesses.unique {alternative : Alternative} {a b : Choice}
    (ha : Assesses pricing given alternative a) (hb : Assesses pricing given alternative b) :
    a = b := by
  rcases a with ⟨itinerary, ruleCost, waitCost, cost, rules, isUnchanged, boardings⟩
  rcases b with ⟨itinerary', ruleCost', waitCost', cost', rules', isUnchanged', boardings'⟩
  rcases ha with ⟨rfl, rfl, hrule, hcost, hwait, hboardings, rfl⟩
  rcases hb with ⟨rfl, rfl, hrule', hcost', hwait', hboardings', rfl⟩
  obtain rfl : ruleCost = ruleCost' :=
    Option.some.inj (Except.ok.inj (hrule.symm.trans hrule'))
  obtain rfl : cost = cost' := Except.ok.inj (hcost.symm.trans hcost')
  obtain rfl : waitCost = waitCost' := Except.ok.inj (hwait.symm.trans hwait')
  obtain rfl : boardings = boardings' := Except.ok.inj (hboardings.symm.trans hboardings')
  rfl

/-- No criterion asks whether the changes are those of the itinerary. -/
theorem narrow_settled (choices : List Choice) :
    Narrowing.narrow optimizer.criteria (choices.map Choice.settled) =
      (Narrowing.narrow optimizer.criteria choices).map Choice.settled := by
  refine Narrowing.narrow_map (fun choice => ?_) choices
  rw [costs_criteria, costs_criteria]
  rfl

/-! ## One choice again -/

/-- A choice from a block is optimized again. -/
structure Confirms (block : List Choice) (choice : Choice) (again : List Choice) : Prop where
  /-- It is chosen again, with the same costs and rules. -/
  kept : choice.settled ∈ again
  /-- Whatever is chosen was chosen with it before, and in this order. -/
  fewer : (again.map Choice.settled).Sublist (block.map Choice.settled)

/-- A choice that was the only one is the only one again. -/
theorem Confirms.eq_singleton {block again : List Choice} {choice : Choice}
    (h : Confirms block choice again) (hone : block.length ≤ 1) : again = [choice.settled] := by
  have hlength := h.fewer.length_le
  rw [List.length_map, List.length_map] at hlength
  have hkept := h.kept
  match again, hkept with
  | [only], hmem => rw [List.mem_singleton.mp hmem]
  | _ :: _ :: _, _ =>
    rw [List.length_cons, List.length_cons] at hlength
    omega

/-- An itinerary with a single ride is chosen as it is. -/
theorem confirms_of_single (hchanges : given.changes = []) {block again : List Choice}
    (hblock : (optimizer.choose pricing given).outcome = .ok block) {choice : Choice}
    (hchoice : choice ∈ block)
    (hagain : (optimizer.choose pricing choice.itinerary).outcome = .ok again) :
    Confirms block choice again := by
  obtain ⟨only, honly, rfl⟩ := (choose_single_eq_ok_iff hchanges).mp hblock
  obtain rfl := List.mem_singleton.mp hchoice
  rw [itinerary_of_unchanged honly, hblock] at hagain
  obtain rfl := Except.ok.inj hagain
  obtain ⟨cost, -, hmade⟩ := bind_eq_ok_iff.mp honly
  obtain ⟨boardings, -, hmade⟩ := bind_eq_ok_iff.mp hmade
  have hunchanged : choice.isUnchanged = true := by
    rw [← pure_eq_ok_iff.mp hmade]
  refine ⟨?_, List.Sublist.refl _⟩
  rw [Choice.settled_eq_self hunchanged]
  exact hchoice

/-- The choices of a second run are known by their alternatives, as those of
the first one. -/
theorem settled_spec {alternatives : List Alternative} {assessed : List (Option Choice)}
    (h : alternatives.mapM (assess pricing given) = .ok assessed) :
    List.Forall₂ (fun alternative => Assesses pricing alternative.itinerary alternative)
      (alternatives.filter (!·.isForbidden)) ((assessed.filterMap id).map Choice.settled) := by
  rw [List.forall₂_map_right_iff]
  exact (assessed_spec h).imp fun _ _ => Assesses.settled

/-- A choice of an itinerary is confirmed when it is optimized again, if the
waits are priced in the same way. -/
theorem confirms_of_choose (hbuilt : optimizer.table.Built)
    (hrides : given.RidesOn optimizer.table) {block again : List Choice}
    (hblock : (optimizer.choose pricing given).outcome = .ok block) {choice : Choice}
    (hchoice : choice ∈ block)
    (hagain : (optimizer.choose pricing choice.itinerary).outcome = .ok again) :
    Confirms block choice again := by
  by_cases hchanges : given.changes = []
  · exact confirms_of_single hchanges hblock hchoice hagain
  · have halters := alters_of_mem_choose hbuilt hrides hblock hchoice
    have hchanges' : choice.itinerary.changes ≠ [] :=
      fun hnone => hchanges (halters.changes_eq_nil_iff.mp hnone)
    obtain ⟨alternatives, assessed, halternatives, hassessed, rfl⟩ :=
      (choose_eq_ok_iff hchanges).mp hblock
    obtain ⟨realternatives, reassessed, hrealternatives, hreassessed, rfl⟩ :=
      (choose_eq_ok_iff hchanges').mp hagain
    have hbefore := settled_spec hassessed
    have hafter := settled_spec hreassessed
    have hunique : ∀ (alternative : Alternative) (a b : Choice),
        Assesses pricing alternative.itinerary alternative a →
          Assesses pricing alternative.itinerary alternative b → a = b :=
      fun _ _ _ => Assesses.unique
    -- The choice stands for an alternative that is not forbidden, and that one is listed again.
    obtain ⟨alternative, halternative, hassesses⟩ :=
      exists_mem_of_forall₂ (assessed_spec hassessed) (Narrowing.mem_of_mem_narrow hchoice)
    obtain ⟨hlisted, hallowed⟩ := List.mem_filter.mp halternative
    rw [hassesses.itinerary] at hrealternatives
    obtain ⟨hfewer, hrelisted⟩ := Planner.alternatives_restart hbuilt hrides hchanges
      halternatives hlisted hrealternatives
    have hsub := sublist_of_forall₂ hunique (hfewer.filter _) hafter hbefore
    obtain ⟨candidate, hcandidate, hreassesses⟩ := exists_mem_of_forall₂ hafter.flip
      (List.mem_filter.mpr ⟨hrelisted, hallowed⟩)
    obtain rfl : candidate = choice.settled :=
      Assesses.unique hreassesses hassesses.settled
    -- It is one of the best before, and so it is one of the best again.
    have hbest : choice.settled ∈ Narrowing.narrow optimizer.criteria
        ((assessed.filterMap id).map Choice.settled) := by
      rw [narrow_settled]
      exact List.mem_map_of_mem hchoice
    obtain ⟨hnarrowed, hkept⟩ := Narrowing.narrow_sublist hsub hbest hcandidate
    rw [narrow_settled, narrow_settled] at hnarrowed
    rw [narrow_settled] at hkept
    refine ⟨?_, hnarrowed⟩
    obtain ⟨kept, hmem, hsettled⟩ := List.mem_map.mp hkept
    have hunchanged : kept.isUnchanged = true := by
      obtain ⟨other, -, hother⟩ :=
        exists_mem_of_forall₂ (assessed_spec hreassessed) (Narrowing.mem_of_mem_narrow hmem)
      have hitinerary : kept.settled.itinerary = choice.settled.itinerary :=
        congrArg Choice.itinerary hsettled
      rw [Choice.settled_itinerary, Choice.settled_itinerary] at hitinerary
      rw [hother.isUnchanged, ← hother.itinerary, hitinerary]
      exact Itinerary.sameStretches_self _
    rw [← hsettled, Choice.settled_eq_self hunchanged]
    exact hmem

/-! ## A batch again -/

/-- Blocks of one choice each make up the list of these choices. -/
theorem flatten_of_singletons {choices : List Choice} {blocks : List (List Choice)}
    (h : List.Forall₂ (fun choice block => block = [choice.settled]) choices blocks) :
    blocks.flatten = choices.map Choice.settled := by
  induction h with
  | nil => rfl
  | cons hhead _ ih => rw [List.flatten_cons, hhead, ih, List.map_cons, List.singleton_append]

/-- The blocks of a second run, made for the choices of the first one. -/
theorem exists_blocks_again {xs : List Itinerary} {choices again : List Choice}
    (hpricing : choices ≠ [] → (optimizer.riskPricing xs).outcome = .ok pricing)
    (hagain : (optimizer.optimize (choices.map (·.itinerary))).outcome = .ok again)
    (hsafe : optimizer.settings.weighRisk = true → choices ≠ [] →
      SafeTransfer.ofBatch optimizer.slack.changing (choices.map (·.itinerary)) =
        SafeTransfer.ofBatch optimizer.slack.changing xs) :
    ∃ blocks, again = blocks.flatten ∧ List.Forall₂ (fun choice block =>
      (optimizer.choose pricing choice.itinerary).outcome = .ok block) choices blocks := by
  obtain ⟨repricing, blocks, hrepricing, hflat, hblocks⟩ := exists_blocks hagain
  rw [List.forall₂_map_left_iff] at hblocks
  refine ⟨blocks, hflat, ?_⟩
  by_cases hnone : choices = []
  · rw [hnone, List.forall₂_nil_left_iff] at hblocks
    rw [hnone, hblocks]
    exact .nil
  · have hsame := hrepricing fun hmap => hnone (List.map_eq_nil_iff.mp hmap)
    rw [riskPricing_congr fun hweigh => hsafe hweigh hnone, hpricing hnone] at hsame
    obtain rfl := Except.ok.inj hsame
    exact hblocks

/-- The choices for a batch are optimized again, and the safe transfer time
stays the same or does not count.  Then every choice is confirmed: its block
has the choice itself, as unchanged, and nothing that was not chosen with it
before.  Where every block has one choice at most, the choices are the same
again. -/
theorem optimize_again_confirms {xs : List Itinerary} {choices again : List Choice}
    (hbuilt : optimizer.table.Built)
    (hrides : ∀ itinerary ∈ xs, itinerary.RidesOn optimizer.table)
    (hrun : (optimizer.optimize xs).outcome = .ok choices)
    (hagain : (optimizer.optimize (choices.map (·.itinerary))).outcome = .ok again)
    (hsafe : optimizer.settings.weighRisk = true → choices ≠ [] →
      SafeTransfer.ofBatch optimizer.slack.changing (choices.map (·.itinerary)) =
        SafeTransfer.ofBatch optimizer.slack.changing xs) :
    ∃ pricing blocks reblocks,
      (xs ≠ [] → (optimizer.riskPricing xs).outcome = .ok pricing) ∧
        choices = blocks.flatten ∧ again = reblocks.flatten ∧
          List.Forall₂ (fun given block => (optimizer.choose pricing given).outcome = .ok block)
            xs blocks ∧
          List.Forall₂ (fun choice reblock =>
              (optimizer.choose pricing choice.itinerary).outcome = .ok reblock ∧
                ∀ block ∈ blocks, choice ∈ block → Confirms block choice reblock)
            choices reblocks ∧
          ((∀ block ∈ blocks, block.length ≤ 1) → again = choices.map Choice.settled) := by
  obtain ⟨pricing, blocks, hpricing, hflat, hblocks⟩ := exists_blocks hrun
  have hpriced : choices ≠ [] → (optimizer.riskPricing xs).outcome = .ok pricing := by
    intro hnonempty
    refine hpricing fun hnone => hnonempty ?_
    rw [hnone, List.forall₂_nil_left_iff] at hblocks
    rw [hflat, hblocks]
    rfl
  obtain ⟨reblocks, hreflat, hreblocks⟩ := exists_blocks_again hpriced hagain hsafe
  have hconfirms : List.Forall₂ (fun choice reblock =>
      (optimizer.choose pricing choice.itinerary).outcome = .ok reblock ∧
        ∀ block ∈ blocks, choice ∈ block → Confirms block choice reblock) choices reblocks := by
    refine hreblocks.imp fun choice reblock hreblock => ⟨hreblock, fun block hblock hchoice => ?_⟩
    obtain ⟨given, hgiven, hmade⟩ := exists_mem_of_forall₂ hblocks hblock
    exact confirms_of_choose hbuilt (hrides given hgiven) hmade hchoice hreblock
  refine ⟨pricing, blocks, reblocks, hpricing, hflat, hreflat, hblocks, hconfirms, fun hone => ?_⟩
  rw [hreflat]
  refine flatten_of_singletons (forall₂_imp_of_mem hconfirms fun choice hchoice reblock h => ?_)
  rw [hflat] at hchoice
  obtain ⟨block, hblock, hmem⟩ := List.mem_flatten.mp hchoice
  exact (h.2 block hblock hmem).eq_singleton (hone block hblock)

/-- The journey is chosen with other changes, and then stays as it is. -/
theorem optimize_again_confirms_journey :
    ∃ choices again, (network.optimize [Network.journey]).outcome = .ok choices ∧
      (network.optimize (choices.map (·.itinerary))).outcome = .ok again ∧
        choices.map (·.isUnchanged) = [false] ∧ again = choices.map Choice.settled := by
  have hruns : ((network.optimize [Network.journey]).outcome >>= fun choices =>
      (network.optimize (choices.map (·.itinerary))).outcome >>= fun _ =>
        pure (choices.map (·.isUnchanged))) = .ok [false] := by
    decide +kernel
  obtain ⟨choices, hrun, hrest⟩ := bind_eq_ok_iff.mp hruns
  obtain ⟨again, hagain, hflags⟩ := bind_eq_ok_iff.mp hrest
  have hflags := pure_eq_ok_iff.mp hflags
  obtain ⟨pricing, blocks, reblocks, -, hflat, -, hblocks, -, hsame⟩ :=
    optimize_again_confirms Network.planner_built
      (fun itinerary h => List.mem_singleton.mp h ▸ Network.journey_ridesOn) hrun hagain
      (fun hweigh => by cases hweigh)
  refine ⟨choices, again, hrun, hagain, hflags, hsame fun block hblock => ?_⟩
  -- There is one block, and it is all of the choices.
  have hlength : choices.length = 1 := by
    rw [← List.length_map (f := Choice.isUnchanged), hflags]
    rfl
  rw [hflat] at hlength
  obtain ⟨before, after, rfl⟩ := List.append_of_mem hblock
  rw [List.flatten_append, List.flatten_cons, List.length_append, List.length_append] at hlength
  omega

end Optimizer

end TransitTransfers
