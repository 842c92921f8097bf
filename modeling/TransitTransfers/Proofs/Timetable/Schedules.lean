import TransitTransfers.Proofs.Timetable.Steps

/-!
# Which trips are accepted

A trip is accepted exactly if its schedule is `Legal`, and otherwise the answer
is the first of the objections to it.

* `Legal` is the condition in terms of the entries and the calls alone.
* `objections` lists all that is wrong with a trip: first what concerns the trip
  as a whole, then the calls position by position.  There are none exactly if the
  trip is legal (`objections_eq_nil_iff`).
* `stopsOfCalls_refuses` is the loop over the calls.  Its invariant is that the
  loop has seen the calls before its position, and knows the last departure of
  these.  `addTrip_refuses` is the whole step.
-/

namespace TransitTransfers

/-- The departure of the last call before a position, if there is one. -/
def departureBefore (calls : List PlannedCall) (position : Nat) : Option Time :=
  (calls.take position).getLast?.map (·.departure)

namespace Entries

open Timetable (Step)

/-! ## Legal trips -/

/-- A trip may be entered. -/
structure Legal (entries : Entries) (id route : String) (calls : List PlannedCall) : Prop where
  unused : ∀ trip ∈ entries.trips, trip.id ≠ id
  route_known : ∃ known ∈ entries.routes, known.id = route
  two_calls : 2 ≤ calls.length
  stops_known : ∀ call ∈ calls, ∃ stop ∈ entries.stops, stop.id = call.stop
  stays : ∀ call ∈ calls, call.arrival ≤ call.departure
  /-- No call is reached before the previous one is left. -/
  runs : ∀ {position : Nat} {call next : PlannedCall}, calls[position]? = some call →
    calls[position + 1]? = some next → call.departure ≤ next.arrival

/-- What is wrong with the call at a position. -/
def objectionsAt (entries : Entries) (trip : String) (calls : List PlannedCall)
    (position : Nat) : List Error :=
  match calls[position]? with
  | none => []
  | some call =>
    (if (entries.stopById? call.stop).isNone then [.unknownStop call.stop] else []) ++
      ((if call.departure < call.arrival then [.badCalls trip (.departsEarly position)] else []) ++
        (if (departureBefore calls position).any (call.arrival < ·) then
          [.badCalls trip (.arrivesEarly position)] else []))

/-- What is wrong with a trip: an id that is in use, a route that is unknown, too
few calls, and whatever is wrong with the calls one by one. -/
def objections (entries : Entries) (id route : String) (calls : List PlannedCall) :
    List Error :=
  (if (entries.tripById? id).isSome then [.duplicateId id] else []) ++
    ((if (entries.routeById? route).isNone then [.unknownRoute route] else []) ++
      ((if calls.length < 2 then [.badCalls id .tooFew] else []) ++
        (List.range calls.length).flatMap (entries.objectionsAt id calls)))

/-! ## The step -/

variable {entries : Entries}

theorem stopIndex_refuses (entries : Entries) (id : String) :
    Refuses (entries.stopIndex id)
      (if (entries.stopById? id).isNone then [.unknownStop id] else []) := by
  unfold stopIndex
  cases entries.stopById? id <;> exact rfl

theorem routeIndex_refuses (entries : Entries) (id : String) :
    Refuses (entries.routeIndex id)
      (if (entries.routeById? id).isNone then [.unknownRoute id] else []) := by
  unfold routeIndex
  cases entries.routeById? id <;> exact rfl

/-- The loop over the calls stops at the first objection to a call. -/
theorem stopsOfCalls_refuses (entries : Entries) (trip : String)
    (before calls : List PlannedCall) :
    Refuses (entries.stopsOfCalls trip before.length (before.getLast?.map (·.departure)) calls)
      ((List.range' before.length calls.length).flatMap
        (entries.objectionsAt trip (before ++ calls))) := by
  induction calls generalizing before with
  | nil => exact rfl
  | cons call calls ih =>
    have hseen := ih (before ++ [call])
    rw [List.length_append, List.length_singleton, List.getLast?_concat, Option.map_some,
      List.append_assoc, List.singleton_append] at hseen
    have hhere : entries.objectionsAt trip (before ++ call :: calls) before.length =
        (if (entries.stopById? call.stop).isNone then [.unknownStop call.stop] else []) ++
          ((if call.departure < call.arrival then
              [.badCalls trip (.departsEarly before.length)] else []) ++
            (if (before.getLast?.map (·.departure)).any (call.arrival < ·) then
              [.badCalls trip (.arrivesEarly before.length)] else [])) := by
      simp [objectionsAt, departureBefore]
    rw [List.length_cons, List.range'_succ, List.flatMap_cons, hhere, stopsOfCalls]
    rw [List.append_assoc, List.append_assoc]
    refine (entries.stopIndex_refuses call.stop).bind fun stop _ => ?_
    refine .check _ fun _ => .check _ fun _ => ?_
    exact hseen.bind_nil fun stops _ => .pure (stop :: stops)

/-- Entering a trip stops at the first objection to it. -/
theorem addTrip_refuses (entries : Entries) (id route : String) (calls : List PlannedCall) :
    Refuses (entries.addTrip id route calls) (entries.objections id route calls) := by
  have hcalls := entries.stopsOfCalls_refuses id [] calls
  rw [List.length_nil, List.nil_append, ← List.range_eq_range'] at hcalls
  refine .check _ fun _ => ?_
  refine (entries.routeIndex_refuses route).bind fun index _ => ?_
  refine .check _ fun _ => ?_
  exact hcalls.bind_nil fun stops _ => .pure _

/-! ## No objections -/

theorem objectionsAt_eq_nil_iff {trip : String} {calls : List PlannedCall} {position : Nat}
    {call : PlannedCall} (hcall : calls[position]? = some call) :
    entries.objectionsAt trip calls position = [] ↔
      (∃ stop ∈ entries.stops, stop.id = call.stop) ∧ call.arrival ≤ call.departure ∧
        ∀ left ∈ departureBefore calls position, left ≤ call.arrival := by
  simp only [objectionsAt, hcall, List.append_eq_nil_iff, ite_eq_right_iff, List.cons_ne_nil,
    imp_false]
  refine and_congr ?_ (and_congr ?_ ?_)
  · rw [Option.isNone_iff_eq_none, stopById?_eq_none_iff]
    simp
  · rw [Time.lt_iff, Time.le_iff]
    omega
  · rw [Option.any_eq_true]
    simp [Time.lt_iff, Time.le_iff]

/-- There are no objections to the calls of legal trips, and to no others. -/
theorem flatMap_objectionsAt_eq_nil_iff {trip : String} {calls : List PlannedCall} :
    (List.range calls.length).flatMap (entries.objectionsAt trip calls) = [] ↔
      (∀ call ∈ calls, ∃ stop ∈ entries.stops, stop.id = call.stop) ∧
        (∀ call ∈ calls, call.arrival ≤ call.departure) ∧
          ∀ {position : Nat} {call next : PlannedCall}, calls[position]? = some call →
            calls[position + 1]? = some next → call.departure ≤ next.arrival := by
  rw [List.flatMap_eq_nil_iff]
  constructor
  · intro h
    have hat : ∀ {position : Nat} {call : PlannedCall}, calls[position]? = some call →
        entries.objectionsAt trip calls position = [] := by
      intro position call hcall
      exact h position (List.mem_range.mpr (List.getElem?_eq_some_iff.mp hcall).1)
    refine ⟨fun call hmem => ?_, fun call hmem => ?_, fun {position call next} hcall hnext => ?_⟩
    · obtain ⟨position, hcall⟩ := List.mem_iff_getElem?.mp hmem
      exact ((objectionsAt_eq_nil_iff hcall).mp (hat hcall)).1
    · obtain ⟨position, hcall⟩ := List.mem_iff_getElem?.mp hmem
      exact ((objectionsAt_eq_nil_iff hcall).mp (hat hcall)).2.1
    · have hbefore : departureBefore calls (position + 1) = some call.departure := by
        simp [departureBefore, List.take_add_one, hcall]
      exact ((objectionsAt_eq_nil_iff hnext).mp (hat hnext)).2.2 _ hbefore
  · intro h position hposition
    obtain ⟨hstops, hstays, hruns⟩ := h
    obtain ⟨call, hcall⟩ : ∃ call, calls[position]? = some call :=
      ⟨_, List.getElem?_eq_getElem (List.mem_range.mp hposition)⟩
    have hmem := List.mem_of_getElem? hcall
    refine (objectionsAt_eq_nil_iff hcall).mpr ⟨hstops call hmem, hstays call hmem, ?_⟩
    intro left hleft
    cases position with
    | zero => simp [departureBefore] at hleft
    | succ position =>
      obtain ⟨previous, hprevious⟩ : ∃ previous, calls[position]? = some previous :=
        ⟨_, List.getElem?_eq_getElem (by have := List.mem_range.mp hposition; omega)⟩
      simp only [departureBefore, List.take_add_one, hprevious, Option.toList_some,
        List.getLast?_concat, Option.map_some, Option.mem_some_iff] at hleft
      rw [← hleft]
      exact hruns hprevious hcall

/-- There are no objections to legal trips, and to no others. -/
theorem objections_eq_nil_iff {id route : String} {calls : List PlannedCall} :
    entries.objections id route calls = [] ↔ entries.Legal id route calls := by
  simp only [objections, List.append_eq_nil_iff, flatMap_objectionsAt_eq_nil_iff,
    ite_eq_right_iff, List.cons_ne_nil, imp_false]
  rw [Bool.not_eq_true, Option.isSome_eq_false_iff, Option.isNone_iff_eq_none,
    Option.isNone_iff_eq_none, tripById?_eq_none_iff, routeById?_eq_none_iff, Nat.not_lt]
  constructor
  · intro h
    obtain ⟨hunused, hroute, htwo, hstops, hstays, hruns⟩ := h
    exact ⟨hunused, by simpa using hroute, htwo, hstops, hstays, hruns⟩
  · intro h
    exact ⟨h.unused, by simpa using h.route_known, h.two_calls, h.stops_known, h.stays, h.runs⟩

end Entries

end TransitTransfers
