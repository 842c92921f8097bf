import Mathlib.Data.List.Nodup
import TransitTransfers.Proofs.Timetable.Steps

/-!
# The invariant of entries

A catalogue keeps four lists, and each is a `Register`: its entries are
numbered in the order in which they were entered, and no two share a key.
Stops, routes and trips are told apart by their ids, and patterns by their
route and stops.  `Register.push` is the one argument for all four.

* `Catalogue.Consistent` says besides that every trip is sound (`Houses`) and that
  every pattern belongs to a trip.  `Entries.Consistent` is the invariant that
  every step keeps (`Consistent.apply`): footpaths join known stops, too.
* `Records` ties entries to the steps that were accepted: each comes from its own
  step, in the same order (`Records.apply`).
* `consistent_and_records` is the run of any steps.
-/

namespace TransitTransfers

/-! ## Registers -/

/-- Entries that are numbered in order and told apart by a key. -/
structure Register {α κ : Type} (index : α → Nat) (key : α → κ) (entries : List α) : Prop where
  numbered : ∀ {position : Nat} {entry : α}, entries[position]? = some entry →
    index entry = position
  distinct : (entries.map key).Nodup

namespace Register

variable {α κ : Type} {index : α → Nat} {key : α → κ} {entries : List α}

theorem empty : Register index key [] := by
  constructor
  · intro position entry h
    simp at h
  · exact List.nodup_nil

/-- A new key may be entered behind the others, under the next number. -/
theorem push (h : Register index key entries) {entry : α} (hindex : index entry = entries.length)
    (hkey : ∀ other ∈ entries, key other ≠ key entry) :
    Register index key (entries ++ [entry]) := by
  constructor
  · intro position other hother
    rcases Nat.lt_trichotomy position entries.length with hlt | rfl | hgt
    · rw [List.getElem?_append_left hlt] at hother
      exact h.numbered hother
    · have heq : entry = other := by simpa using hother
      exact heq ▸ hindex
    · have hnone : (entries ++ [entry])[position]? = none := by
        rw [List.getElem?_eq_none_iff, List.length_append, List.length_singleton]
        omega
      rw [hnone] at hother
      cases hother
  · rw [List.map_append, List.map_singleton, ← List.concat_eq_append, List.nodup_concat]
    refine ⟨fun hmem => ?_, h.distinct⟩
    obtain ⟨other, hother, heq⟩ := List.mem_map.mp hmem
    exact hkey other hother heq

/-- An entry stands where its number says. -/
theorem getElem?_index (h : Register index key entries) {entry : α} (hentry : entry ∈ entries) :
    entries[index entry]? = some entry := by
  obtain ⟨position, hposition⟩ := List.mem_iff_getElem?.mp hentry
  rw [h.numbered hposition]
  exact hposition

theorem index_lt (h : Register index key entries) {entry : α} (hentry : entry ∈ entries) :
    index entry < entries.length :=
  (List.getElem?_eq_some_iff.mp (h.getElem?_index hentry)).1

theorem eq_of_index (h : Register index key entries) {a b : α} (ha : a ∈ entries)
    (hb : b ∈ entries) (hindex : index a = index b) : a = b := by
  have heq := h.getElem?_index ha
  rw [hindex, h.getElem?_index hb] at heq
  exact (Option.some.inj heq).symm

theorem eq_of_key (h : Register index key entries) {a b : α} (ha : a ∈ entries)
    (hb : b ∈ entries) (hkey : key a = key b) : a = b :=
  List.inj_on_of_nodup_map h.distinct ha hb hkey

/-- A search by key finds the one entry that has it. -/
theorem find?_eq_some_iff [DecidableEq κ] (h : Register index key entries) {k : κ} {entry : α} :
    entries.find? (key · = k) = some entry ↔ entry ∈ entries ∧ key entry = k := by
  constructor
  · intro hfind
    exact ⟨List.mem_of_find?_eq_some hfind, by simpa using List.find?_some hfind⟩
  · intro hentry
    rcases hentry with ⟨hmem, hkey⟩
    have hsome : (entries.find? (key · = k)).isSome := by
      rw [List.find?_isSome]
      exact ⟨entry, hmem, by simpa using hkey⟩
    obtain ⟨found, hfound⟩ := Option.isSome_iff_exists.mp hsome
    have hsame : key found = key entry := by
      rw [hkey]
      simpa using List.find?_some hfound
    rw [hfound, h.eq_of_key (List.mem_of_find?_eq_some hfound) hmem hsame]

end Register

/-! ## The invariant -/

namespace Catalogue

/-- A stop stands under an id, and has a number. -/
def HasStop (catalogue : Catalogue) (id : String) (index : Nat) : Prop :=
  ∃ stop ∈ catalogue.stops, stop.id = id ∧ stop.index = index

/-- A route stands under an id, and has a number. -/
def HasRoute (catalogue : Catalogue) (id : String) (index : Nat) : Prop :=
  ∃ route ∈ catalogue.routes, route.id = id ∧ route.index = index

/-- A trip fits the catalogue that houses it. -/
structure Houses (catalogue : Catalogue) (trip : Trip) : Prop where
  /-- The pattern of the trip is the one in the catalogue. -/
  pattern : catalogue.patterns[trip.pattern.index]? = some trip.pattern
  route_eq : trip.pattern.route = trip.route
  route_known : trip.route < catalogue.routes.length
  stops_known : ∀ stop ∈ trip.pattern.stops, stop < catalogue.stops.length
  two_calls : 2 ≤ trip.length
  /-- There are as many arrivals and departures as stops, in the order of
  time. -/
  timed : trip.Timed

/-- The data of a catalogue fit together. -/
structure Consistent (catalogue : Catalogue) : Prop where
  stops : Register Stop.index Stop.id catalogue.stops
  routes : Register Route.index Route.id catalogue.routes
  patterns : Register Pattern.index (fun p => (p.route, p.stops)) catalogue.patterns
  trips : Register Trip.index Trip.id catalogue.trips
  houses : ∀ trip ∈ catalogue.trips, catalogue.Houses trip
  patterns_used : ∀ pattern ∈ catalogue.patterns, ∃ trip ∈ catalogue.trips,
    trip.pattern = pattern

section Extending

variable {small large : Catalogue}

theorem HasStop.of_extends (hextends : Extends small large) {id : String} {index : Nat}
    (h : small.HasStop id index) : large.HasStop id index := by
  obtain ⟨stop, hstop, hsame⟩ := h
  exact ⟨stop, hextends.stops.subset hstop, hsame⟩

theorem HasRoute.of_extends (hextends : Extends small large) {id : String} {index : Nat}
    (h : small.HasRoute id index) : large.HasRoute id index := by
  obtain ⟨route, hroute, hsame⟩ := h
  exact ⟨route, hextends.routes.subset hroute, hsame⟩

theorem Houses.of_extends (hextends : Extends small large) {trip : Trip}
    (h : small.Houses trip) : large.Houses trip where
  pattern := by
    obtain ⟨hlt, heq⟩ := List.getElem?_eq_some_iff.mp h.pattern
    rw [List.prefix_iff_getElem?.mp hextends.patterns _ hlt, heq]
  route_eq := h.route_eq
  route_known := Nat.lt_of_lt_of_le h.route_known hextends.routes.length_le
  stops_known stop hstop :=
    Nat.lt_of_lt_of_le (h.stops_known stop hstop) hextends.stops.length_le
  two_calls := h.two_calls
  timed := h.timed

end Extending

namespace Consistent

variable {catalogue : Catalogue}

theorem lt_of_hasStop (h : catalogue.Consistent) {id : String} {index : Nat}
    (hstop : catalogue.HasStop id index) : index < catalogue.stops.length := by
  obtain ⟨stop, hmem, -, rfl⟩ := hstop
  exact h.stops.index_lt hmem

theorem lt_of_hasRoute (h : catalogue.Consistent) {id : String} {index : Nat}
    (hroute : catalogue.HasRoute id index) : index < catalogue.routes.length := by
  obtain ⟨route, hmem, -, rfl⟩ := hroute
  exact h.routes.index_lt hmem

/-- An id stands for one stop at most. -/
theorem hasStop_unique (h : catalogue.Consistent) {id : String} {index other : Nat}
    (hindex : catalogue.HasStop id index) (hother : catalogue.HasStop id other) :
    index = other := by
  obtain ⟨stop, hmem, hid, rfl⟩ := hindex
  obtain ⟨stop', hmem', hid', rfl⟩ := hother
  rw [h.stops.eq_of_key hmem hmem' (hid.trans hid'.symm)]

/-- Trips share a pattern if they have the same route and the same stops. -/
theorem pattern_index_eq_iff (h : catalogue.Consistent) {a b : Trip}
    (ha : a ∈ catalogue.trips) (hb : b ∈ catalogue.trips) :
    a.pattern.index = b.pattern.index ↔ a.route = b.route ∧ a.pattern.stops = b.pattern.stops := by
  have hmem : ∀ trip ∈ catalogue.trips, trip.pattern ∈ catalogue.patterns := fun trip htrip =>
    List.mem_of_getElem? (h.houses trip htrip).pattern
  have hroutes : ∀ trip ∈ catalogue.trips, trip.pattern.route = trip.route := fun trip htrip =>
    (h.houses trip htrip).route_eq
  constructor
  · intro hindex
    have heq := h.patterns.eq_of_index (hmem a ha) (hmem b hb) hindex
    rw [← hroutes a ha, ← hroutes b hb, heq]
    exact ⟨rfl, rfl⟩
  · intro hsame
    rw [← hroutes a ha, ← hroutes b hb] at hsame
    rw [h.patterns.eq_of_key (hmem a ha) (hmem b hb) (Prod.ext hsame.1 hsame.2)]

end Consistent

end Catalogue

namespace Entries

open Timetable (Step)

/-- The data of entries fit together. -/
structure Consistent (entries : Entries) : Prop
    extends Catalogue.Consistent entries.toCatalogue where
  footpaths_known : ∀ footpath ∈ entries.footpaths,
    footpath.origin < entries.stops.length ∧ footpath.destination < entries.stops.length

theorem consistent_empty : Consistent empty where
  stops := .empty
  routes := .empty
  patterns := .empty
  trips := .empty
  houses trip htrip := by cases htrip
  patterns_used pattern hpattern := by cases hpattern
  footpaths_known footpath hfootpath := by cases hfootpath

theorem hasStop_of_stopIndex {entries : Entries} {id : String} {index : Nat}
    (h : entries.stopIndex id = .ok index) : entries.HasStop id index := by
  obtain ⟨stop, hstop, rfl⟩ := stopIndex_eq_ok_iff.mp h
  exact ⟨stop, List.mem_of_find?_eq_some hstop, by simpa using List.find?_some hstop, rfl⟩

theorem hasRoute_of_routeIndex {entries : Entries} {id : String} {index : Nat}
    (h : entries.routeIndex id = .ok index) : entries.HasRoute id index := by
  obtain ⟨route, hroute, rfl⟩ := routeIndex_eq_ok_iff.mp h
  exact ⟨route, List.mem_of_find?_eq_some hroute, by simpa using List.find?_some hroute, rfl⟩

namespace Consistent

variable {entries grown : Entries}

/-- The patterns after `withPattern`, and the one that it gives. -/
theorem withPattern_spec (h : entries.Consistent) (route : Nat) (stops : List Nat) :
    Register Pattern.index (fun p => (p.route, p.stops)) (entries.withPattern route stops).2 ∧
      (entries.withPattern route stops).1.route = route ∧
      (entries.withPattern route stops).1 ∈ (entries.withPattern route stops).2 ∧
      ∀ pattern ∈ (entries.withPattern route stops).2,
        pattern ∈ entries.patterns ∨ pattern = (entries.withPattern route stops).1 := by
  rcases entries.withPattern_cases route stops with ⟨pattern, hmem, hroute, -, heq⟩ | ⟨hnew, heq⟩
  · rw [heq]
    exact ⟨h.patterns, hroute, hmem, fun other hother => Or.inl hother⟩
  · rw [heq]
    refine ⟨h.patterns.push rfl fun other hother hsame => ?_, rfl, by simp, fun other hother => ?_⟩
    · exact hnew other hother (Prod.ext_iff.mp hsame)
    · simpa using hother

theorem addStop (h : entries.Consistent) {id name : String}
    (hgrown : entries.apply (.stop id name) = .ok grown) : grown.Consistent := by
  have hextends := extends_of_apply hgrown
  obtain ⟨hfree, rfl⟩ := addStop_eq_ok_iff.mp hgrown
  exact { h with
    stops := h.stops.push rfl hfree
    houses := fun trip htrip => .of_extends hextends.toExtends (h.houses trip htrip)
    footpaths_known := fun footpath hfootpath => by
      obtain ⟨horigin, hdestination⟩ := h.footpaths_known footpath hfootpath
      have hlength := hextends.stops.length_le
      exact ⟨by omega, by omega⟩ }

theorem addRoute (h : entries.Consistent) {id : String} {shortName : Option String}
    (hgrown : entries.apply (.route id shortName) = .ok grown) : grown.Consistent := by
  have hextends := extends_of_apply hgrown
  obtain ⟨hfree, rfl⟩ := addRoute_eq_ok_iff.mp hgrown
  exact { h with
    routes := h.routes.push rfl hfree
    houses := fun trip htrip => .of_extends hextends.toExtends (h.houses trip htrip) }

theorem addTrip (h : entries.Consistent) {id route : String} {calls : List PlannedCall}
    (hgrown : entries.apply (.trip id route calls) = .ok grown) : grown.Consistent := by
  have hextends := extends_of_apply hgrown
  obtain ⟨hfree, index, hroute, hcalls, stops, hstops, hruns, rfl⟩ := addTrip_eq_ok_iff.mp hgrown
  obtain ⟨hpatterns, hpattern, hmem, hold⟩ := h.withPattern_spec index stops
  have hvisits : (entries.withPattern index stops).1.stops = stops :=
    entries.withPattern_fst_stops index stops
  have hid : entries.tripById? id = none := by simpa using hfree
  refine { h with
    patterns := hpatterns
    trips := h.trips.push rfl (tripById?_eq_none_iff.mp hid)
    houses := fun trip htrip => ?_
    patterns_used := fun pattern hused => ?_ }
  · rcases List.mem_append.mp htrip with hbefore | hnew
    · exact .of_extends hextends.toExtends (h.houses trip hbefore)
    · obtain rfl := List.mem_singleton.mp hnew
      exact {
        pattern := hpatterns.getElem?_index hmem
        route_eq := hpattern
        route_known := h.lt_of_hasRoute (hasRoute_of_routeIndex hroute)
        stops_known := fun stop hstop => by
          obtain ⟨call, -, hcall⟩ := exists_mem_of_forall₂ hstops (hvisits ▸ hstop)
          exact h.lt_of_hasStop (hasStop_of_stopIndex hcall)
        two_calls := by
          show 2 ≤ (entries.withPattern index stops).1.stops.length
          rw [hvisits, ← hstops.length_eq]
          exact hcalls
        timed := timed_tripOfCalls hstops.length_eq hruns }
  · rcases hold pattern hused with hbefore | rfl
    · obtain ⟨trip, htrip, heq⟩ := h.patterns_used pattern hbefore
      exact ⟨trip, List.mem_append_left _ htrip, heq⟩
    · exact ⟨_, List.mem_append_right _ (List.mem_singleton_self _), rfl⟩

theorem addFootpath (h : entries.Consistent) {origin destination : String} {duration : Duration}
    (hgrown : entries.apply (.footpath origin destination duration) = .ok grown) :
    grown.Consistent := by
  have hextends := extends_of_apply hgrown
  obtain ⟨start, finish, hstart, hfinish, rfl⟩ := addFootpath_eq_ok_iff.mp hgrown
  refine { h with
    houses := fun trip htrip => .of_extends hextends.toExtends (h.houses trip htrip)
    footpaths_known := fun footpath hfootpath => ?_ }
  rcases List.mem_append.mp hfootpath with hbefore | hnew
  · exact h.footpaths_known footpath hbefore
  · obtain rfl := List.mem_singleton.mp hnew
    exact ⟨h.lt_of_hasStop (hasStop_of_stopIndex hstart),
      h.lt_of_hasStop (hasStop_of_stopIndex hfinish)⟩

/-- No step that is not refused breaks the invariant. -/
theorem apply (h : entries.Consistent) {step : Step} (hgrown : entries.apply step = .ok grown) :
    grown.Consistent := by
  cases step with
  | stop id name => exact h.addStop hgrown
  | route id shortName => exact h.addRoute hgrown
  | trip id route calls => exact h.addTrip hgrown
  | footpath origin destination duration => exact h.addFootpath hgrown
  | rule rule =>
    have hextends := extends_of_apply hgrown
    cases hgrown
    exact { h with
      houses := fun trip htrip => .of_extends hextends.toExtends (h.houses trip htrip) }

end Consistent

end Entries

/-! ## What was entered -/

namespace Timetable.Step

/-- Whether a step enters a stop. -/
@[simp]
def entersStop : Step → Bool
  | .stop _ _ => true
  | _ => false

/-- Whether a step enters a route. -/
@[simp]
def entersRoute : Step → Bool
  | .route _ _ => true
  | _ => false

/-- Whether a step enters a trip. -/
@[simp]
def entersTrip : Step → Bool
  | .trip _ _ _ => true
  | _ => false

/-- Whether a step enters a footpath. -/
@[simp]
def entersFootpath : Step → Bool
  | .footpath _ _ _ => true
  | _ => false

end Timetable.Step

open Timetable (Step)

namespace Catalogue

/-- The trip that a step asks for. -/
def Realizes (catalogue : Catalogue) : Step → Trip → Prop
  | .trip id route calls, trip =>
    trip.id = id ∧ catalogue.HasRoute route trip.route ∧
      List.Forall₂ (fun call stop => catalogue.HasStop call.stop stop) calls trip.pattern.stops ∧
      trip.arrivals = calls.map (·.arrival) ∧ trip.departures = calls.map (·.departure)
  | _, _ => False

/-- The footpath that a step asks for. -/
def Lays (catalogue : Catalogue) : Step → Footpath → Prop
  | .footpath origin destination duration, footpath =>
    catalogue.HasStop origin footpath.origin ∧
      catalogue.HasStop destination footpath.destination ∧ footpath.duration = duration
  | _, _ => False

/-- Whether a step enters a footpath that leaves `stop`. -/
def leavesBy (catalogue : Catalogue) (stop : Nat) : Step → Bool
  | .footpath origin _ _ => catalogue.stops.any fun known => known.id = origin ∧ known.index = stop
  | _ => false

/-- A catalogue holds what some steps enter, in the order of the steps, and
nothing else. -/
structure Records (catalogue : Catalogue) (entered : List Step) : Prop where
  stops : catalogue.stops.map (fun stop => Step.stop stop.id stop.name) =
    entered.filter Step.entersStop
  routes : catalogue.routes.map (fun route => Step.route route.id route.shortName) =
    entered.filter Step.entersRoute
  trips : List.Forall₂ catalogue.Realizes (entered.filter Step.entersTrip) catalogue.trips

theorem Realizes.of_extends {small large : Catalogue} (hextends : Extends small large)
    (step : Step) (trip : Trip) (h : small.Realizes step trip) : large.Realizes step trip := by
  cases step with
  | trip id route calls =>
    obtain ⟨hid, hroute, hstops, htimes⟩ := h
    exact ⟨hid, hroute.of_extends hextends,
      hstops.imp fun call stop hstop => hstop.of_extends hextends, htimes⟩
  | _ => cases h

theorem Lays.of_extends {small large : Catalogue} (hextends : Extends small large)
    (step : Step) (footpath : Footpath) (h : small.Lays step footpath) :
    large.Lays step footpath := by
  cases step with
  | footpath origin destination duration =>
    exact ⟨h.1.of_extends hextends, h.2.1.of_extends hextends, h.2.2⟩
  | _ => cases h

/-- A step leaves the stop where its footpath starts, and no other. -/
theorem Consistent.leavesBy_eq {catalogue : Catalogue} (h : catalogue.Consistent) {step : Step}
    {footpath : Footpath} (hlays : catalogue.Lays step footpath) (stop : Nat) :
    catalogue.leavesBy stop step = decide (footpath.origin = stop) := by
  cases step with
  | footpath origin destination duration =>
    have hleaves : catalogue.leavesBy stop (.footpath origin destination duration) = true ↔
        catalogue.HasStop origin stop := by
      simp [leavesBy, HasStop]
    rw [Bool.eq_iff_iff, hleaves, decide_eq_true_iff]
    constructor
    · exact h.hasStop_unique hlays.1
    · rintro rfl
      exact hlays.1
  | _ => cases hlays

/-- The footpaths that leave a stop are those that were asked for, in order. -/
theorem Consistent.lays_leaving {catalogue : Catalogue} (h : catalogue.Consistent)
    {entered : List Step} {footpaths : List Footpath}
    (hlays : List.Forall₂ catalogue.Lays (entered.filter Step.entersFootpath) footpaths)
    (stop : Nat) :
    List.Forall₂ catalogue.Lays (entered.filter (catalogue.leavesBy stop))
      (footpaths.filter (·.origin = stop)) := by
  have hleaves : (entered.filter Step.entersFootpath).filter (catalogue.leavesBy stop) =
      entered.filter (catalogue.leavesBy stop) := by
    rw [List.filter_filter]
    refine List.filter_congr fun step _ => ?_
    cases step <;> simp [leavesBy]
  rw [← hleaves]
  exact List.rel_filter (fun step footpath hstep => by
    simp only [h.leavesBy_eq hstep stop]) hlays

namespace Records

variable {catalogue : Catalogue} {entered : List Step}

theorem stop_entered_iff (h : catalogue.Records entered) {id : String} :
    (∃ name, Step.stop id name ∈ entered) ↔ ∃ stop ∈ catalogue.stops, stop.id = id := by
  have hmem : ∀ name, Step.stop id name ∈ entered ↔
      Step.stop id name ∈ entered.filter Step.entersStop := by simp
  simp only [hmem, ← h.stops, List.mem_map, Step.stop.injEq]
  grind

theorem route_entered_iff (h : catalogue.Records entered) {id : String} :
    (∃ shortName, Step.route id shortName ∈ entered) ↔
      ∃ route ∈ catalogue.routes, route.id = id := by
  have hmem : ∀ shortName, Step.route id shortName ∈ entered ↔
      Step.route id shortName ∈ entered.filter Step.entersRoute := by simp
  simp only [hmem, ← h.routes, List.mem_map, Step.route.injEq]
  grind

theorem trip_entered_iff (h : catalogue.Records entered) {id : String} :
    (∃ route calls, Step.trip id route calls ∈ entered) ↔
      ∃ trip ∈ catalogue.trips, trip.id = id := by
  constructor
  · intro hasked
    obtain ⟨route, calls, hstep⟩ := hasked
    have hfilter : Step.trip id route calls ∈ entered.filter Step.entersTrip := by
      simpa using hstep
    obtain ⟨trip, htrip, hrealizes⟩ := exists_mem_of_forall₂ h.trips.flip hfilter
    exact ⟨trip, htrip, hrealizes.1⟩
  · intro hheld
    obtain ⟨trip, htrip, rfl⟩ := hheld
    obtain ⟨step, hstep, hrealizes⟩ := exists_mem_of_forall₂ h.trips htrip
    cases step with
    | trip id route calls =>
      obtain rfl : trip.id = id := hrealizes.1
      exact ⟨route, calls, (List.mem_filter.mp hstep).1⟩
    | _ => cases hrealizes

end Records

end Catalogue

namespace Entries

/-- Entries hold what some steps enter, in the order of the steps, and nothing
else. -/
structure Records (entries : Entries) (entered : List Step) : Prop
    extends Catalogue.Records entries.toCatalogue entered where
  footpaths : List.Forall₂ entries.Lays (entered.filter Step.entersFootpath) entries.footpaths

/-- The trip that is entered is the one that was asked for. -/
theorem realizes_tripOfCalls {entries : Entries} (id : String) {route : String} {index : Nat}
    {stops : List Nat} {calls : List PlannedCall} (hroute : entries.routeIndex route = .ok index)
    (hstops : List.Forall₂ (fun call stop => entries.stopIndex call.stop = .ok stop) calls stops) :
    entries.Realizes (.trip id route calls) (entries.tripOfCalls id index stops calls) := by
  refine ⟨rfl, hasRoute_of_routeIndex hroute, ?_, rfl, rfl⟩
  rw [tripOfCalls, withPattern_fst_stops]
  exact hstops.imp fun call stop hstop => hasStop_of_stopIndex hstop

namespace Records

variable {entries grown : Entries} {entered : List Step}

/-- Each step enters what it asks for behind the rest. -/
theorem apply (h : entries.Records entered) {step : Step}
    (hgrown : entries.apply step = .ok grown) : grown.Records (entered ++ [step]) := by
  have hextends := extends_of_apply hgrown
  have htrips := h.trips.imp (Catalogue.Realizes.of_extends hextends.toExtends)
  have hfootpaths := h.footpaths.imp (Catalogue.Lays.of_extends hextends.toExtends)
  -- Of the four lists only the one that the step is about gets longer.
  cases step with
  | stop id name =>
    obtain ⟨-, rfl⟩ := addStop_eq_ok_iff.mp hgrown
    refine ⟨⟨?_, by simpa using h.routes, by simpa using htrips⟩, by simpa using hfootpaths⟩
    rw [List.filter_append, ← h.stops]
    exact List.map_append
  | route id shortName =>
    obtain ⟨-, rfl⟩ := addRoute_eq_ok_iff.mp hgrown
    refine ⟨⟨by simpa using h.stops, ?_, by simpa using htrips⟩, by simpa using hfootpaths⟩
    rw [List.filter_append, ← h.routes]
    exact List.map_append
  | trip id route calls =>
    obtain ⟨-, index, hroute, -, stops, hstops, -, rfl⟩ := addTrip_eq_ok_iff.mp hgrown
    refine ⟨⟨by simpa using h.stops, by simpa using h.routes, ?_⟩, by simpa using hfootpaths⟩
    have hrealizes := (realizes_tripOfCalls id hroute hstops).of_extends hextends.toExtends
    rw [List.filter_append]
    exact List.rel_append htrips (.cons hrealizes .nil)
  | footpath origin destination duration =>
    obtain ⟨start, finish, hstart, hfinish, rfl⟩ := addFootpath_eq_ok_iff.mp hgrown
    refine ⟨⟨by simpa using h.stops, by simpa using h.routes, by simpa using htrips⟩, ?_⟩
    rw [List.filter_append]
    exact List.rel_append hfootpaths
      (.cons ⟨hasStop_of_stopIndex hstart, hasStop_of_stopIndex hfinish, rfl⟩ .nil)
  | rule rule =>
    cases hgrown
    exact ⟨⟨by simpa [addRule] using h.stops, by simpa [addRule] using h.routes,
      by simpa [addRule] using htrips⟩, by simpa [addRule] using hfootpaths⟩

end Records

/-- Whatever steps are taken, the data that they enter fit together, and nothing
else is there. -/
theorem consistent_and_records (steps : List Step) :
    (ofSteps steps).Consistent ∧ (ofSteps steps).Records (empty.accepted steps) := by
  refine history_induction
    (P := fun entered entries => entries.Consistent ∧ entries.Records entered)
    ⟨consistent_empty, ⟨rfl, rfl, .nil⟩, .nil⟩ ?_ steps
  intro entered entries grown step h hgrown
  exact ⟨h.1.apply hgrown, h.2.apply hgrown⟩

end Entries

end TransitTransfers
