import TransitTransfers.Itinerary.Text
import TransitTransfers.Proofs.Itinerary.Durations

/-!
# Texts need nothing but the cost

The times, waits and walks that the texts of an itinerary name are known of
every itinerary, since its legs follow each other.  The total cost is the only
part of a text that can be missing: nothing keeps the costs of legs from adding
up to more than fits a word.

* `exists_onward_of_mem` and `exists_junctionSummaries` are the parts of the
  two texts.
* `exists_text` and `exists_summary` say that either text is made of some words
  and the total cost.
-/

namespace TransitTransfers

theorem Ride.Forward.exists_summary {ride : Ride} (h : ride.Forward) :
    ∃ words, ride.summary = .ok words := by
  rcases h with ⟨boarded, alighted, hboarded, halighted, -⟩
  rw [Ride.summary, hboarded, halighted]
  exact ⟨_, rfl⟩

theorem Ride.Forward.exists_onward {ride : Ride} (h : ride.Forward) :
    ∃ words, (Leg.ride ride).onward = .ok words := by
  rcases h with ⟨boarded, alighted, hboarded, halighted, -⟩
  rw [Leg.onward, hboarded, halighted]
  exact ⟨_, rfl⟩

/-- The walk of a sound junction has a duration to be written down. -/
theorem Junction.Sound.exists_onward {junction : Junction} (h : junction.Sound) {walk : Walk}
    (hwalk : junction.walk = some walk) : ∃ words, (Leg.walk walk).onward = .ok words := by
  obtain ⟨-, duration, -, -, hduration, -⟩ := h.exists_times
  rw [Junction.walkDuration, hwalk] at hduration
  exact ⟨_, bind_eq_ok_iff.mpr ⟨duration, hduration, rfl⟩⟩

namespace Itinerary

/-- The run over the rides: every ride and every walk behind them can be
written down. -/
theorem exists_onward_of_mem {egress : Egress} {ride : Ride} {changes : List Change}
    (h : Onward egress ride changes) :
    ∀ leg ∈ Leg.ride ride :: changes.flatMap Change.legs, ∃ words, leg.onward = .ok words := by
  induction changes generalizing ride with
  | nil =>
    intro leg hleg
    obtain rfl := List.mem_singleton.mp hleg
    exact h.1.exists_onward
  | cons change changes ih =>
    rcases h with ⟨hforward, hsound, honward⟩
    rw [List.flatMap_cons, Change.legs]
    intro leg hleg
    rcases List.mem_cons.mp hleg with rfl | hbehind
    · exact hforward.exists_onward
    · rw [List.append_assoc, List.mem_append] at hbehind
      rcases hbehind with hwalk | hrest
      · rw [Option.mem_toList, Option.map_eq_some_iff] at hwalk
        rcases hwalk with ⟨walk, hwalk, rfl⟩
        exact hsound.exists_onward hwalk
      · exact ih honward leg hrest

theorem exists_junctionSummaries (itinerary : Itinerary) :
    ∃ words, itinerary.junctionSummaries = .ok words := by
  have hparts : ∃ parts, itinerary.junctions.mapM (fun junction => do
      let wait ← junction.wait
      let ride ← junction.departing.summary
      return [s!"wait {wait.text}", ride]) = .ok parts := by
    refine exists_mapM fun junction hjunction => ?_
    obtain ⟨wait, hwait⟩ := (itinerary.sound_of_mem junction hjunction).exists_wait
    have hride := (mem_rides_of_mem_junctionsFrom hjunction).2
    obtain ⟨words, hwords⟩ := (itinerary.forward_of_mem junction.departing hride).exists_summary
    rw [hwait, hwords]
    exact ⟨_, rfl⟩
  obtain ⟨parts, hparts⟩ := hparts
  exact ⟨parts.flatten, bind_eq_ok_iff.mpr ⟨parts, hparts, rfl⟩⟩

/-- The summary of an itinerary is some words and the total cost, or what
keeps the costs from being added up. -/
theorem exists_summary (itinerary : Itinerary) :
    ∃ words : String,
      itinerary.summary = itinerary.cost.map fun cost => s!"{words} [${cost.units}]" := by
  obtain ⟨first, hfirst⟩ :=
    (itinerary.forward_of_mem itinerary.first List.mem_cons_self).exists_summary
  obtain ⟨others, hothers⟩ := itinerary.exists_junctionSummaries
  refine ⟨" ~ ".intercalate (first :: others), ?_⟩
  rw [summary, hfirst, hothers]
  cases itinerary.cost <;> rfl

/-- The text of an itinerary is some words and the total cost, or what keeps
the costs from being added up. -/
theorem exists_text (itinerary : Itinerary) :
    ∃ words : String, itinerary.text = itinerary.cost.map fun cost =>
      words ++ s!" ~ Egress {itinerary.arrival.text} [${cost.units}]" := by
  obtain ⟨onward, honward⟩ : ∃ onward, itinerary.innerLegs.mapM Leg.onward = .ok onward :=
    exists_mapM (exists_onward_of_mem itinerary.onward)
  refine ⟨s!"Access {itinerary.departure.text} ~ {itinerary.access.stop}" ++
    String.join onward, ?_⟩
  rw [text, honward]
  cases itinerary.cost <;> rfl

theorem exists_summary_iff {itinerary : Itinerary} :
    (∃ words, itinerary.summary = .ok words) ↔ ∃ cost, itinerary.cost = .ok cost := by
  obtain ⟨words, hwords⟩ := itinerary.exists_summary
  rw [hwords]
  cases itinerary.cost <;> simp [Except.map]

theorem exists_text_iff {itinerary : Itinerary} :
    (∃ words, itinerary.text = .ok words) ↔ ∃ cost, itinerary.cost = .ok cost := by
  obtain ⟨words, hwords⟩ := itinerary.exists_text
  rw [hwords]
  cases itinerary.cost <;> simp [Except.map]

end Itinerary

end TransitTransfers
