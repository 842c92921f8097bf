import TransitTransfers.Proofs.Schedule.Times
import TransitTransfers.Proofs.Timetable.Entries

/-!
# How a trip is entered

Entries are made by steps, and most steps may be refused.  Entering a trip has the
most reasons for that.

* `RunsForward` is the condition on the times of the calls.  It runs along the calls
  as the loop of `stopsOfCalls` does (`stopsOfCalls_eq_ok_iff`).
* `addTrip_eq_ok_iff` says when a trip is entered and what is entered then, and
  `timed_tripOfCalls` that this trip is timed.
-/

namespace TransitTransfers

/-- The times of calls run forward, where the call before them departs at
`left`. -/
def RunsForward : Option Time → List PlannedCall → Prop
  | _, [] => True
  | left, call :: calls =>
    call.arrival ≤ call.departure ∧ (∀ departure ∈ left, departure ≤ call.arrival) ∧
      RunsForward (some call.departure) calls

theorem RunsForward.arrival_le_departure {left : Option Time} {calls : List PlannedCall}
    (h : RunsForward left calls) {position : Nat} {call : PlannedCall}
    (hcall : calls[position]? = some call) : call.arrival ≤ call.departure := by
  induction calls generalizing left position with
  | nil => simp at hcall
  | cons head calls ih =>
    rcases h with ⟨hhead, -, htail⟩
    cases position with
    | zero =>
      have heq : head = call := by simpa using hcall
      exact heq ▸ hhead
    | succ position => exact ih htail (by simpa using hcall)

theorem RunsForward.departure_le_arrival {left : Option Time} {calls : List PlannedCall}
    (h : RunsForward left calls) {position : Nat} {call next : PlannedCall}
    (hcall : calls[position]? = some call) (hnext : calls[position + 1]? = some next) :
    call.departure ≤ next.arrival := by
  induction calls generalizing left position with
  | nil => simp at hcall
  | cons head calls ih =>
    rcases h with ⟨-, -, htail⟩
    cases position with
    | zero =>
      have heq : head = call := by simpa using hcall
      cases calls with
      | nil => simp at hnext
      | cons second calls =>
        have heq' : second = next := by simpa using hnext
        subst heq heq'
        exact htail.2.1 head.departure rfl
    | succ position => exact ih htail (by simpa using hcall) (by simpa using hnext)

namespace Entries

open Timetable (Step)

/-! ## Entering a trip -/

/-- The calls of a trip are accepted if all stops are known and the times run
forward. -/
theorem stopsOfCalls_eq_ok_iff {entries : Entries} {trip : String} {position : Nat}
    {left : Option Time} {calls : List PlannedCall} {stops : List Nat} :
    entries.stopsOfCalls trip position left calls = .ok stops ↔
      List.Forall₂ (fun call stop => entries.stopIndex call.stop = .ok stop) calls stops ∧
        RunsForward left calls := by
  induction calls generalizing position left stops with
  | nil =>
    rw [stopsOfCalls, pure_eq_ok_iff, List.forall₂_nil_left_iff, eq_comm]
    simp [RunsForward]
  | cons call calls ih =>
    rw [stopsOfCalls, bind_eq_ok_iff, List.forall₂_cons_left_iff]
    constructor
    · intro h
      rcases h with ⟨stop, hstop, h⟩
      dsimp only at h
      split at h
      · cases h
      · rename_i hearly
        split at h
        · cases h
        · rename_i hleft
          obtain ⟨rest, hrest, h⟩ := bind_eq_ok_iff.mp h
          obtain ⟨hknown, hruns⟩ := ih.mp hrest
          refine ⟨⟨stop, rest, hstop, hknown, (pure_eq_ok_iff.mp h).symm⟩, ?_, ?_, hruns⟩
          · rw [Time.lt_iff] at hearly
            rw [Time.le_iff]
            omega
          · intro departure hdeparture
            rw [Option.mem_def] at hdeparture
            rw [hdeparture, Option.any_some, decide_eq_true_iff, Time.lt_iff] at hleft
            rw [Time.le_iff]
            omega
    · intro h
      rcases h with ⟨⟨stop, rest, hstop, hknown, rfl⟩, hcall, hleft, hruns⟩
      refine ⟨stop, hstop, ?_⟩
      have hearly : ¬call.departure < call.arrival := by
        rw [Time.le_iff] at hcall
        rw [Time.lt_iff]
        omega
      have hlate : ¬left.any (call.arrival < ·) = true := by
        intro hany
        obtain ⟨departure, hdeparture, hlt⟩ := (Option.any_eq_true _ _).mp hany
        have hle := hleft departure hdeparture
        rw [decide_eq_true_iff, Time.lt_iff] at hlt
        rw [Time.le_iff] at hle
        omega
      dsimp only
      rw [if_neg hearly, if_neg hlate, bind_eq_ok_iff]
      exact ⟨rest, ih.mpr ⟨hknown, hruns⟩, rfl⟩

theorem withPattern_fst_stops (entries : Entries) (route : Nat) (stops : List Nat) :
    (entries.withPattern route stops).1.stops = stops := by
  unfold withPattern
  split
  · rename_i pattern hfind
    have hpattern := List.find?_some hfind
    rw [Bool.and_eq_true, decide_eq_true_iff, decide_eq_true_iff] at hpattern
    exact hpattern.2
  · rfl

/-- The trip that is entered for accepted calls. -/
def tripOfCalls (entries : Entries) (id : String) (route : Nat) (stops : List Nat)
    (calls : List PlannedCall) : Trip :=
  { index := entries.trips.length, id, route, pattern := (entries.withPattern route stops).1
    arrivals := calls.map (·.arrival)
    departures := calls.map (·.departure) }

/-- A trip is entered if its id is free, its route and its stops are known, it
calls twice at least, and its times run forward. -/
theorem addTrip_eq_ok_iff {entries grown : Entries} {id route : String}
    {calls : List PlannedCall} :
    entries.addTrip id route calls = .ok grown ↔
      (entries.tripById? id).isSome = false ∧
        ∃ index, entries.routeIndex route = .ok index ∧ 2 ≤ calls.length ∧
          ∃ stops, List.Forall₂ (fun call stop => entries.stopIndex call.stop = .ok stop)
              calls stops ∧ RunsForward none calls ∧
            grown = { entries with
              patterns := (entries.withPattern index stops).2
              trips := entries.trips ++ [entries.tripOfCalls id index stops calls] } := by
  unfold addTrip
  dsimp only
  split
  · rename_i hused
    rw [hused]
    constructor
    · intro h
      cases h
    · intro h
      rcases h with ⟨h, -⟩
      cases h
  · rename_i hfree
    rw [Bool.not_eq_true] at hfree
    rw [bind_eq_ok_iff]
    simp only [hfree, true_and]
    refine exists_congr fun index => and_congr_right fun _ => ?_
    split
    · rename_i hfew
      constructor
      · intro h
        cases h
      · intro h
        rcases h with ⟨h, -⟩
        omega
    · rename_i hcalls
      rw [bind_eq_ok_iff]
      simp only [show 2 ≤ calls.length by omega, true_and, stopsOfCalls_eq_ok_iff, and_assoc]
      refine exists_congr fun stops => and_congr_right fun _ => and_congr_right fun _ => ?_
      rw [pure_eq_ok_iff, eq_comm]
      rfl

/-- The times of accepted calls make a timed trip. -/
theorem timed_tripOfCalls {entries : Entries} {id : String} {route : Nat} {stops : List Nat}
    {calls : List PlannedCall} (hlength : calls.length = stops.length)
    (hruns : RunsForward none calls) :
    (entries.tripOfCalls id route stops calls).Timed := by
  have hstops : (entries.tripOfCalls id route stops calls).length = calls.length := by
    rw [hlength, Trip.length, tripOfCalls, withPattern_fst_stops]
  constructor
  · rw [hstops]
    exact List.length_map _
  · rw [hstops]
    exact List.length_map _
  · intro position arrival departure harrival hdeparture
    rw [Trip.arrivalAt, entryAt_eq_ok_iff, tripOfCalls, List.getElem?_map,
      Option.map_eq_some_iff] at harrival
    rw [Trip.departureAt, entryAt_eq_ok_iff, tripOfCalls, List.getElem?_map,
      Option.map_eq_some_iff] at hdeparture
    rcases harrival with ⟨call, hcall, rfl⟩
    rcases hdeparture with ⟨other, hother, rfl⟩
    rw [hcall] at hother
    cases hother
    exact hruns.arrival_le_departure hcall
  · intro position departure arrival hdeparture harrival
    rw [Trip.departureAt, entryAt_eq_ok_iff, tripOfCalls, List.getElem?_map,
      Option.map_eq_some_iff] at hdeparture
    rw [Trip.arrivalAt, entryAt_eq_ok_iff, tripOfCalls, List.getElem?_map,
      Option.map_eq_some_iff] at harrival
    rcases hdeparture with ⟨call, hcall, rfl⟩
    rcases harrival with ⟨next, hnext, rfl⟩
    exact hruns.departure_le_arrival hcall hnext

end Entries

end TransitTransfers
