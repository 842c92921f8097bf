import TransitTransfers.Proofs.Alternative.Course
import TransitTransfers.Proofs.Optimizer.Choices

/-!
# Prices and starts of walks never count

What an itinerary costs, and when exactly its walks start, is no reason for
any choice.  Two batches whose itineraries have the same courses one by one
get the same choices, or stop for the same reason.

* `Itinerary.Alike` compares two itineraries of such batches.  An itinerary
  with a single ride is its own choice, so that one has to be the same.
* `block_congr` is one itinerary, and `riskPricing_alike` is what the batch has
  in common.
* `optimize_indifferent` is the result for two batches.
-/

namespace TransitTransfers

/-- Two itineraries are the same, or they change and have the same course. -/
def Itinerary.Alike (a b : Itinerary) : Prop :=
  a = b ∨ a.changes ≠ [] ∧ a.SameCourse b

theorem Itinerary.Alike.rideDuration {a b : Itinerary} (h : a.Alike b) :
    a.rideDuration = b.rideDuration := by
  rcases h with rfl | ⟨-, hcourse⟩
  · rfl
  · exact hcourse.rideDuration

namespace Optimizer

variable {optimizer : Optimizer} {pricing : Option RiskPricing} {a b : Itinerary}
  {xs ys : List Itinerary}

/-! ## One itinerary -/

/-- Of the itinerary that came in, a choice knows only which stretches it
rides. -/
theorem assess_congr (h : a.SameCourse b) : assess pricing a = assess pricing b := by
  funext alternative
  unfold assess
  simp only [h.sameStretches]

theorem block_congr (h : a.Alike b) : optimizer.block pricing a = optimizer.block pricing b := by
  rcases h with rfl | ⟨hchanges, hcourse⟩
  · rfl
  · rw [block_changing hchanges, block_changing (hcourse.changes_ne_nil hchanges),
      Planner.alternatives_congr hcourse hchanges, assess_congr hcourse]

/-! ## A batch -/

theorem riskPricing_alike (h : List.Forall₂ Itinerary.Alike xs ys) :
    optimizer.riskPricing xs = optimizer.riskPricing ys := by
  refine riskPricing_congr fun _ => ?_
  have hrides : xs.mapM Itinerary.rideDuration = ys.mapM Itinerary.rideDuration :=
    mapM_congr (h.imp fun _ _ => Itinerary.Alike.rideDuration)
  rw [SafeTransfer.ofBatch, SafeTransfer.ofBatch, hrides]

theorem chooseAll_congr (h : List.Forall₂ Itinerary.Alike xs ys) :
    optimizer.chooseAll pricing xs = optimizer.chooseAll pricing ys := by
  have hblocks : xs.mapM (optimizer.block pricing) = ys.mapM (optimizer.block pricing) :=
    mapM_congr (h.imp fun _ _ => block_congr)
  rw [chooseAll, chooseAll, hblocks]

/-- Whoever does not listen to the messages cannot tell two batches apart
whose itineraries are alike: the choices are the same, with all of their legs,
times, costs and rules, or the refusal or the fault is. -/
theorem optimize_indifferent (h : List.Forall₂ Itinerary.Alike xs ys) :
    (optimizer.optimize xs).observe none = (optimizer.optimize ys).observe none := by
  rw [Run.observe_none, Run.observe_none]
  by_cases hxs : xs = []
  · rw [hxs, List.forall₂_nil_left_iff] at h
    rw [hxs, h]
  · have hys : ys ≠ [] := by
      intro hnone
      rw [hnone, List.forall₂_nil_right_iff] at h
      exact hxs h
    rw [outcome_optimize hxs, outcome_optimize hys, riskPricing_alike h]
    simp only [chooseAll_congr h]

end Optimizer

/-! ## Two walks in the small network -/

namespace Network

/-- The price of a ride or a walk. -/
def fare : Cost := .clamp 700

/-- The journey of `earlyWalk`, but it lingers at C before it walks, and is paid
for. -/
def lateWalk : Itinerary where
  access := ⟨0, clock 0, clock 30, .zero⟩
  first := { redToB with cost := fare }
  changes := [⟨none, { blueToC with cost := fare }⟩,
    ⟨some ⟨2, 5, clock 1600, clock 1720, fare⟩, { greenFromX with cost := fare }⟩]
  egress := ⟨4, clock 2400, clock 2460, .zero⟩
  sound := by decide +kernel

theorem earlyWalk_alike_lateWalk : earlyWalk.Alike lateWalk := by
  refine Or.inr ⟨by decide +kernel, ?_⟩
  exact ⟨rfl, rfl, by decide +kernel, by decide +kernel⟩

end Network

namespace Optimizer

/-- The two walks differ, and get the same choices. -/
theorem optimize_indifferent_walks :
    Network.earlyWalk ≠ Network.lateWalk ∧ Network.earlyWalk.Alike Network.lateWalk ∧
      ∃ choices, (network.optimize [Network.earlyWalk]).observe none = .ok (choices, []) ∧
        (network.optimize [Network.lateWalk]).observe none = .ok (choices, []) := by
  have hsame : (network.optimize [Network.earlyWalk]).observe none =
      (network.optimize [Network.lateWalk]).observe none :=
    optimize_indifferent (.cons Network.earlyWalk_alike_lateWalk .nil)
  obtain ⟨choices, hrun⟩ : ∃ choices,
      (network.optimize [Network.earlyWalk]).outcome = .ok choices :=
    exists_ok_of_toBool (by decide +kernel)
  refine ⟨by decide +kernel, Network.earlyWalk_alike_lateWalk, choices, ?_⟩
  rw [← hsame, Run.observe_none, hrun]
  exact ⟨rfl, rfl⟩

end Optimizer

end TransitTransfers
