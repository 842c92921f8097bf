import Mathlib.Data.List.Infix
import TransitTransfers.Proofs.Timetable.Growth

/-!
# What a step can do

`Growth` says when a trip is entered.  This module says the same of the other
steps, and keeps account of a whole run.

* `accepted` lists the steps of a run that are not refused, and
  `history_induction` is the induction over a run together with these steps.
* `Extends` orders entries: each list of the smaller ones is an initial part of
  the list of the larger ones.  Every step extends the entries
  (`extends_of_apply`), so later entries extend earlier ones
  (`extends_ofSteps_append`).
-/

namespace TransitTransfers

/-- Each list of `small` is an initial part of the list of `large`. -/
structure Catalogue.Extends (small large : Catalogue) : Prop where
  stops : small.stops <+: large.stops
  routes : small.routes <+: large.routes
  patterns : small.patterns <+: large.patterns
  trips : small.trips <+: large.trips

namespace Catalogue.Extends

variable {small middle large : Catalogue}

theorem refl (catalogue : Catalogue) : Extends catalogue catalogue :=
  ⟨List.prefix_rfl, List.prefix_rfl, List.prefix_rfl, List.prefix_rfl⟩

theorem trans (h : Extends small middle) (h' : Extends middle large) : Extends small large :=
  ⟨h.stops.trans h'.stops, h.routes.trans h'.routes, h.patterns.trans h'.patterns,
    h.trips.trans h'.trips⟩

end Catalogue.Extends

namespace Entries

open Timetable (Step)

/-! ## Runs -/

/-- The steps of a run from `entries` on that are not refused, in order. -/
def accepted : Entries → List Step → List Step
  | _, [] => []
  | entries, step :: steps =>
    match entries.apply step with
    | .ok grown => step :: grown.accepted steps
    | .error _ => entries.accepted steps

/-- A relation between the accepted steps and the entries that holds at the
start and is kept by every step that is not refused holds after a whole
run. -/
theorem history_induction {P : List Step → Entries → Prop} (hempty : P [] empty)
    (hstep : ∀ {entered : List Step} {entries grown : Entries} {step : Step}, P entered entries →
      entries.apply step = .ok grown → P (entered ++ [step]) grown) (steps : List Step) :
    P (empty.accepted steps) (ofSteps steps) := by
  -- The run may start anywhere: `before` are the steps accepted so far.
  have hrun : ∀ before entries, P before entries →
      P (before ++ entries.accepted steps) (steps.foldl advance entries) := by
    induction steps with
    | nil =>
      intro before entries hentries
      rw [accepted, List.append_nil]
      exact hentries
    | cons step steps ih =>
      intro before entries hentries
      rw [List.foldl_cons, advance, accepted]
      cases happly : entries.apply step with
      | error e => exact ih before entries hentries
      | ok grown =>
        have hgrown := ih (before ++ [step]) grown (hstep hentries happly)
        rw [List.append_assoc] at hgrown
        exact hgrown
  exact hrun [] empty hempty

/-! ## The steps one by one -/

section Steps

variable {entries grown : Entries}

theorem stopById?_eq_none_iff {id : String} :
    entries.stopById? id = none ↔ ∀ stop ∈ entries.stops, stop.id ≠ id := by
  simp [stopById?]

theorem routeById?_eq_none_iff {id : String} :
    entries.routeById? id = none ↔ ∀ route ∈ entries.routes, route.id ≠ id := by
  simp [routeById?]

theorem tripById?_eq_none_iff {id : String} :
    entries.tripById? id = none ↔ ∀ trip ∈ entries.trips, trip.id ≠ id := by
  simp [tripById?]

theorem stopIndex_eq_ok_iff {id : String} {index : Nat} :
    entries.stopIndex id = .ok index ↔ ∃ stop, entries.stopById? id = some stop ∧
      stop.index = index := by
  unfold stopIndex
  cases entries.stopById? id <;> simp

theorem routeIndex_eq_ok_iff {id : String} {index : Nat} :
    entries.routeIndex id = .ok index ↔ ∃ route, entries.routeById? id = some route ∧
      route.index = index := by
  unfold routeIndex
  cases entries.routeById? id <;> simp

/-- A stop is entered if its id is free. -/
theorem addStop_eq_ok_iff {id name : String} :
    entries.addStop id name = .ok grown ↔ (∀ stop ∈ entries.stops, stop.id ≠ id) ∧
      grown = { entries with stops := entries.stops ++ [⟨entries.stops.length, id, name⟩] } := by
  rw [← stopById?_eq_none_iff, addStop]
  cases entries.stopById? id <;> simp [eq_comm]

/-- A route is entered if its id is free. -/
theorem addRoute_eq_ok_iff {id : String} {shortName : Option String} :
    entries.addRoute id shortName = .ok grown ↔ (∀ route ∈ entries.routes, route.id ≠ id) ∧
      grown = { entries with
        routes := entries.routes ++ [⟨entries.routes.length, id, shortName⟩] } := by
  rw [← routeById?_eq_none_iff, addRoute]
  cases entries.routeById? id <;> simp [eq_comm]

/-- A footpath is entered if both of its stops are known. -/
theorem addFootpath_eq_ok_iff {origin destination : String} {duration : Duration} :
    entries.addFootpath origin destination duration = .ok grown ↔
      ∃ start finish, entries.stopIndex origin = .ok start ∧
        entries.stopIndex destination = .ok finish ∧
        grown = { entries with footpaths := entries.footpaths ++ [⟨start, finish, duration⟩] } := by
  rw [addFootpath, bind_eq_ok_iff]
  simp only [bind_eq_ok_iff, pure_eq_ok_iff, exists_and_left]
  refine exists_congr fun start => and_congr_right fun _ => exists_congr fun finish => ?_
  rw [eq_comm (b := grown)]

/-- Either there is a pattern for the route and the stops, or a new one is
entered behind the others. -/
theorem withPattern_cases (entries : Entries) (route : Nat) (stops : List Nat) :
    (∃ pattern ∈ entries.patterns, pattern.route = route ∧ pattern.stops = stops ∧
        entries.withPattern route stops = (pattern, entries.patterns)) ∨
      (∀ pattern ∈ entries.patterns, ¬(pattern.route = route ∧ pattern.stops = stops)) ∧
        entries.withPattern route stops =
          (⟨entries.patterns.length, route, stops⟩,
            entries.patterns ++ [⟨entries.patterns.length, route, stops⟩]) := by
  unfold withPattern
  split
  · rename_i pattern hfind
    have hpattern := List.find?_some hfind
    rw [Bool.and_eq_true, decide_eq_true_iff, decide_eq_true_iff] at hpattern
    exact Or.inl ⟨pattern, List.mem_of_find?_eq_some hfind, hpattern.1, hpattern.2, rfl⟩
  · rename_i hnone
    refine Or.inr ⟨fun pattern hpattern hsame => ?_, rfl⟩
    have h := List.find?_eq_none.mp hnone pattern hpattern
    exact h (by simp [hsame])

end Steps

/-! ## Extensions -/

/-- Nothing that is in `small` is gone or different in `large`. -/
structure Extends (small large : Entries) : Prop
    extends Catalogue.Extends small.toCatalogue large.toCatalogue where
  footpaths : small.footpaths <+: large.footpaths

namespace Extends

variable {small middle large : Entries}

theorem refl (entries : Entries) : Extends entries entries where
  toExtends := .refl entries.toCatalogue
  footpaths := List.prefix_rfl

theorem trans (h : Extends small middle) (h' : Extends middle large) : Extends small large where
  toExtends := h.toExtends.trans h'.toExtends
  footpaths := h.footpaths.trans h'.footpaths

end Extends

/-- No step takes anything away, moves it or changes it. -/
theorem extends_of_apply {entries grown : Entries} {step : Step}
    (h : entries.apply step = .ok grown) : Extends entries grown := by
  cases step with
  | stop id name =>
    obtain ⟨-, rfl⟩ := addStop_eq_ok_iff.mp h
    exact { Extends.refl entries with stops := List.prefix_append _ _ }
  | route id shortName =>
    obtain ⟨-, rfl⟩ := addRoute_eq_ok_iff.mp h
    exact { Extends.refl entries with routes := List.prefix_append _ _ }
  | trip id route calls =>
    obtain ⟨-, index, -, -, stops, -, -, rfl⟩ := addTrip_eq_ok_iff.mp h
    have hpatterns : entries.patterns <+: (entries.withPattern index stops).2 := by
      rcases entries.withPattern_cases index stops with ⟨_, _, _, _, heq⟩ | ⟨_, heq⟩
      · rw [heq]
      · rw [heq]
        exact List.prefix_append _ _
    exact { Extends.refl entries with
      patterns := hpatterns
      trips := List.prefix_append _ _ }
  | footpath origin destination duration =>
    obtain ⟨start, finish, -, -, rfl⟩ := addFootpath_eq_ok_iff.mp h
    exact { Extends.refl entries with footpaths := List.prefix_append _ _ }
  | rule rule =>
    cases h
    exact { Extends.refl entries with }

theorem extends_advance (entries : Entries) (step : Step) :
    Extends entries (entries.advance step) := by
  unfold advance
  split
  · rename_i grown hgrown
    exact extends_of_apply hgrown
  · exact Extends.refl entries

/-- Later entries extend all earlier ones. -/
theorem extends_ofSteps_append (steps more : List Step) :
    Extends (ofSteps steps) (ofSteps (steps ++ more)) := by
  rw [ofSteps, ofSteps, List.foldl_append]
  generalize steps.foldl advance empty = entries
  induction more generalizing entries with
  | nil => exact Extends.refl entries
  | cons step more ih => exact (extends_advance entries step).trans (ih (entries.advance step))

end Entries

end TransitTransfers
