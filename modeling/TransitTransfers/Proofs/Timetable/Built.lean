import TransitTransfers.Proofs.Timetable.Building

/-!
# The timetable that is built

`Builder.build` hands out what has been entered.  This module says that it always
does, and what the look-ups in the timetable find.

* The loop over the footpaths.  `sorted` is the list of lists that the loop makes,
  as an equation: the list of a stop holds the footpaths that leave it.
  `shelve_sorted` is one step of the loop and `foldlM_shelve` the whole, and
  `build_ofSteps` says that the loop never leaves its lists.
* Look-ups.  An index gives the place of the entry that a search for its key finds
  (`Indexes.bind_getElem?`).  So the look-ups by id are searches, and the footpaths
  from a stop are those that leave it (`footpathsFrom_ofSteps`).
* The whole timetable.  `Keeps` says what the number of a step stands for, and
  `keeps_of_run` that this never changes.  `ofSteps_sound` puts all together.

`Network` is a small example, on which later modules try their theorems, too.
-/

namespace TransitTransfers

/-! ## Footpaths by stop -/

namespace Builder

/-- The list of each stop holds the footpaths that leave it, in order. -/
def sorted (count : Nat) (paths : List Footpath) : List (List Footpath) :=
  (List.range count).map fun stop => paths.filter (·.origin = stop)

theorem getElem?_sorted {count stop : Nat} (hstop : stop < count) (paths : List Footpath) :
    (sorted count paths)[stop]? = some (paths.filter (·.origin = stop)) := by
  rw [sorted, List.getElem?_map, List.getElem?_range hstop, Option.map_some]

theorem length_sorted (count : Nat) (paths : List Footpath) :
    (sorted count paths).length = count := by
  rw [sorted, List.length_map, List.length_range]

/-- A footpath goes behind the others of its stop. -/
theorem shelve_sorted {count : Nat} {path : Footpath} (hpath : path.origin < count)
    (before : List Footpath) :
    shelve (sorted count before) path = .ok (sorted count (before ++ [path])) := by
  have hothers := entryAt_eq_ok_iff.mpr (getElem?_sorted hpath before)
  refine bind_eq_ok_iff.mpr ⟨_, hothers, congrArg Except.ok ?_⟩
  refine List.ext_getElem? fun stop => ?_
  rw [List.getElem?_set, length_sorted]
  by_cases hstop : stop < count
  · rw [getElem?_sorted hstop, getElem?_sorted hstop, List.filter_append]
    by_cases horigin : path.origin = stop
    · simp [horigin, hstop]
    · simp [horigin]
  · have hbeyond : ∀ paths, (sorted count paths)[stop]? = none := fun paths =>
      List.getElem?_eq_none (by rw [length_sorted]; omega)
    rw [if_neg (by omega), hbeyond, hbeyond]

/-- The footpaths are sorted one after the other. -/
theorem foldlM_shelve {count : Nat} {paths : List Footpath}
    (hpaths : ∀ path ∈ paths, path.origin < count) (before : List Footpath) :
    paths.foldlM shelve (sorted count before) = .ok (sorted count (before ++ paths)) := by
  induction paths generalizing before with
  | nil =>
    rw [List.append_nil]
    rfl
  | cons path paths ih =>
    rw [List.forall_mem_cons] at hpaths
    have hrest := ih hpaths.2 (before ++ [path])
    rw [List.append_assoc, List.singleton_append] at hrest
    rw [List.foldlM_cons]
    exact bind_eq_ok_iff.mpr ⟨_, shelve_sorted hpaths.1 before, hrest⟩

/-- If all footpaths leave a stop that was entered, then there is a timetable. -/
theorem build_eq {builder : Builder}
    (hpaths : ∀ path ∈ builder.footpaths, path.origin < builder.stops.length) :
    builder.build = .ok { builder with
      footpathsByStop := sorted builder.stops.length builder.footpaths } := by
  have hbare : List.replicate builder.stops.length [] = sorted builder.stops.length [] := by
    simp [sorted]
  have hsorted := foldlM_shelve hpaths []
  rw [← hbare] at hsorted
  exact bind_eq_ok_iff.mpr ⟨_, hsorted, rfl⟩

end Builder

namespace Timetable

variable {steps : List Step}

/-- There always is a timetable. -/
theorem build_ofSteps (steps : List Step) :
    (Builder.ofSteps steps).build = .ok (ofSteps steps) := by
  have hconsistent := Builder.ofSteps_consistent steps
  have hbuild := Builder.build_eq fun path hpath => (hconsistent.footpaths_known path hpath).1
  rw [ofSteps, hbuild]

/-- What has been entered is handed out, with the footpaths sorted. -/
theorem ofSteps_eq (steps : List Step) :
    ofSteps steps = { Builder.ofSteps steps with
      footpathsByStop := Builder.sorted (Builder.ofSteps steps).stops.length
        (Builder.ofSteps steps).footpaths } := by
  have hconsistent := Builder.ofSteps_consistent steps
  have hbuild := Builder.build_eq fun path hpath => (hconsistent.footpaths_known path hpath).1
  exact Except.ok.inj ((build_ofSteps steps).symm.trans hbuild)

theorem toCatalogue_ofSteps (steps : List Step) :
    (ofSteps steps).toCatalogue = (Entries.ofSteps steps).toCatalogue := by
  rw [ofSteps_eq, ← (Builder.ofSteps_indexed steps).2]

end Timetable

/-! ## Look-ups -/

/-- Where an index leads to is what a search finds. -/
theorem Indexes.bind_getElem? {α κ : Type} [DecidableEq κ] [BEq κ] {indices : List (κ × Nat)}
    {index : α → Nat} {key : α → κ} {entries : List α} (h : Indexes indices index key entries)
    (hregister : Register index key entries) (k : κ) :
    (indices.lookup k).bind (entries[·]?) = entries.find? (key · = k) := by
  rw [h k]
  cases hfind : entries.find? (key · = k) with
  | none => rfl
  | some entry =>
    rw [Option.map_some, Option.bind_some]
    exact hregister.getElem?_index (List.mem_of_find?_eq_some hfind)

namespace Timetable

theorem stopById?_ofSteps (steps : List Step) (id : String) :
    (ofSteps steps).stopById? id = (ofSteps steps).stops.find? (·.id = id) := by
  rw [ofSteps_eq]
  exact (Builder.ofSteps_indexed steps).1.stops.bind_getElem?
    (Builder.ofSteps_consistent steps).stops id

theorem routeById?_ofSteps (steps : List Step) (id : String) :
    (ofSteps steps).routeById? id = (ofSteps steps).routes.find? (·.id = id) := by
  rw [ofSteps_eq]
  exact (Builder.ofSteps_indexed steps).1.routes.bind_getElem?
    (Builder.ofSteps_consistent steps).routes id

theorem tripById?_ofSteps (steps : List Step) (id : String) :
    (ofSteps steps).tripById? id = (ofSteps steps).trips.find? (·.id = id) := by
  rw [ofSteps_eq]
  exact (Builder.ofSteps_indexed steps).1.trips.bind_getElem?
    (Builder.ofSteps_consistent steps).trips id

/-- The footpaths from a stop are those that leave it, in the order in which they
were added. -/
theorem footpathsFrom_ofSteps (steps : List Step) (stop : Nat) :
    (ofSteps steps).footpathsFrom stop =
      (Entries.ofSteps steps).footpaths.filter (·.origin = stop) := by
  have hconsistent := Builder.ofSteps_consistent steps
  rw [← (Builder.ofSteps_indexed steps).2, footpathsFrom, ofSteps_eq]
  dsimp only
  by_cases hstop : stop < (Builder.ofSteps steps).stops.length
  · rw [Builder.getElem?_sorted hstop, Option.getD_some]
  · rw [List.getElem?_eq_none (by rw [Builder.length_sorted]; omega), Option.getD_none]
    refine (List.filter_eq_nil_iff.mpr fun path hpath horigin => ?_).symm
    have hknown := (hconsistent.footpaths_known path hpath).1
    rw [decide_eq_true_iff] at horigin
    omega

theorem footpathsFrom_sublist (table : Timetable) (stop : Nat) :
    (table.footpathsFrom stop).Sublist table.footpaths := by
  unfold footpathsFrom
  cases hlist : table.footpathsByStop[stop]? with
  | none => exact List.nil_sublist _
  | some paths => exact List.sublist_flatten_of_mem (List.mem_of_getElem? hlist)

/-! ## Timetables that were built -/

/-- A timetable was built by steps. -/
def Built (table : Timetable) : Prop := ∃ steps, table = ofSteps steps

/-- The data of a timetable fit together. -/
structure Consistent (table : Timetable) : Prop
    extends Catalogue.Consistent table.toCatalogue where
  footpaths_known : ∀ stop, ∀ footpath ∈ table.footpathsFrom stop,
    footpath.origin = stop ∧ stop < table.stops.length ∧
      footpath.destination < table.stops.length

theorem consistent_ofSteps (steps : List Step) : (ofSteps steps).Consistent where
  toConsistent := by
    rw [toCatalogue_ofSteps]
    exact (Entries.consistent_and_records steps).1.toConsistent
  footpaths_known stop footpath hfootpath := by
    rw [footpathsFrom_ofSteps, List.mem_filter, decide_eq_true_iff] at hfootpath
    obtain ⟨hmem, rfl⟩ := hfootpath
    rw [toCatalogue_ofSteps]
    exact ⟨rfl, (Entries.consistent_and_records steps).1.footpaths_known footpath hmem⟩

theorem Built.consistent {table : Timetable} (hbuilt : table.Built) : table.Consistent := by
  obtain ⟨steps, rfl⟩ := hbuilt
  exact consistent_ofSteps steps

/-- Every trip of a timetable that was built is timed. -/
theorem Built.timed {table : Timetable} (hbuilt : table.Built) {trip : Trip}
    (htrip : trip ∈ table.trips) : trip.Timed :=
  (hbuilt.consistent.houses trip htrip).timed

theorem records_ofSteps (steps : List Step) :
    (ofSteps steps).Records (Builder.empty.succeeding steps) := by
  rw [Builder.succeeding_eq_accepted Entries.consistent_empty Builder.indexed_empty,
    toCatalogue_ofSteps]
  exact (Entries.consistent_and_records steps).2.toRecords

/-- The footpaths from a stop are those that were asked for, in order. -/
theorem lays_footpathsFrom (steps : List Step) (stop : Nat) :
    List.Forall₂ (ofSteps steps).Lays
      ((Builder.empty.succeeding steps).filter ((ofSteps steps).leavesBy stop))
      ((ofSteps steps).footpathsFrom stop) := by
  obtain ⟨hconsistent, hrecords⟩ := Entries.consistent_and_records steps
  rw [Builder.succeeding_eq_accepted Entries.consistent_empty Builder.indexed_empty,
    footpathsFrom_ofSteps, toCatalogue_ofSteps]
  exact hconsistent.lays_leaving hrecords.footpaths stop

theorem footpathsFrom_eq_nil {table : Timetable} (h : table.Consistent) {stop : Nat}
    (hstop : table.stops.length ≤ stop) : table.footpathsFrom stop = [] := by
  refine List.eq_nil_iff_forall_not_mem.mpr fun footpath hfootpath => ?_
  obtain ⟨-, hknown, -⟩ := h.footpaths_known stop footpath hfootpath
  omega

/-- Every footpath that is listed for a stop leaves it. -/
def Shelved (table : Timetable) : Prop :=
  ∀ stop, ∀ path ∈ table.footpathsFrom stop, path.origin = stop

theorem Built.shelved {table : Timetable} (hbuilt : table.Built) : table.Shelved :=
  fun stop path hpath => (hbuilt.consistent.footpaths_known stop path hpath).1

/-! ## Answers -/

/-- Looking up an id gives the entry that was entered under it, and nothing if
there was none. -/
structure Answers (table : Timetable) (entered : List Step) : Prop where
  stop : ∀ id stop, table.stopById? id = some stop ↔ stop ∈ table.stops ∧ stop.id = id
  no_stop : ∀ id, table.stopById? id = none ↔ ∀ name, Step.stop id name ∉ entered
  route : ∀ id route, table.routeById? id = some route ↔ route ∈ table.routes ∧ route.id = id
  no_route : ∀ id, table.routeById? id = none ↔ ∀ shortName, Step.route id shortName ∉ entered
  trip : ∀ id trip, table.tripById? id = some trip ↔ trip ∈ table.trips ∧ trip.id = id
  no_trip : ∀ id, table.tripById? id = none ↔ ∀ route calls, Step.trip id route calls ∉ entered

theorem answers_ofSteps (steps : List Step) :
    (ofSteps steps).Answers (Builder.empty.succeeding steps) where
  stop id stop := by
    rw [stopById?_ofSteps]
    exact (consistent_ofSteps steps).stops.find?_eq_some_iff
  no_stop id := by
    rw [stopById?_ofSteps, ← not_exists, (records_ofSteps steps).stop_entered_iff]
    simp
  route id route := by
    rw [routeById?_ofSteps]
    exact (consistent_ofSteps steps).routes.find?_eq_some_iff
  no_route id := by
    rw [routeById?_ofSteps, ← not_exists, (records_ofSteps steps).route_entered_iff]
    simp
  trip id trip := by
    rw [tripById?_ofSteps]
    exact (consistent_ofSteps steps).trips.find?_eq_some_iff
  no_trip id := by
    simp only [tripById?_ofSteps, ← not_exists, (records_ofSteps steps).trip_entered_iff]
    simp

/-! ## Numbers -/

/-- What the number that a step has given stands for: the entry of the step, which
its id leads to as well.  Footpaths and rules have no number. -/
def Keeps (table : Timetable) : Step → Option Nat → Prop
  | .stop id name, some index =>
    table.stops[index]? = some ⟨index, id, name⟩ ∧
      table.stopById? id = some ⟨index, id, name⟩
  | .route id shortName, some index =>
    table.routes[index]? = some ⟨index, id, shortName⟩ ∧
      table.routeById? id = some ⟨index, id, shortName⟩
  | .trip id route calls, some index =>
    ∃ trip, table.trips[index]? = some trip ∧ table.tripById? id = some trip ∧
      trip.index = index ∧ table.Realizes (.trip id route calls) trip
  | .footpath _ _ _, none => True
  | .rule _, none => True
  | _, _ => False

/-- What a step has entered is in every later timetable. -/
theorem extends_of_apply {step : Step} {grown : Entries}
    (happly : (Entries.ofSteps steps).apply step = .ok grown) (more : List Step) :
    Catalogue.Extends grown.toCatalogue (ofSteps (steps ++ step :: more)).toCatalogue := by
  have hgrown : Entries.ofSteps (steps ++ [step]) = grown := by
    rw [Entries.ofSteps, List.foldl_append, List.foldl_cons, List.foldl_nil, ← Entries.ofSteps,
      Entries.advance, happly]
  have hlater := Entries.extends_ofSteps_append (steps ++ [step]) more
  rw [hgrown, List.append_assoc, List.singleton_append] at hlater
  rw [toCatalogue_ofSteps]
  exact hlater.toExtends

/-- The number that a step gives keeps standing for what the step has entered. -/
theorem keeps_of_run {step : Step} {number : Option Nat} {later : Builder}
    (hrun : Builder.run step (Builder.ofSteps steps) = .ok number later) (more : List Step) :
    (ofSteps (steps ++ step :: more)).Keeps step number := by
  obtain ⟨hindexed, hentries⟩ := Builder.ofSteps_indexed steps
  rcases Builder.run_cases (Builder.ofSteps_consistent steps) hindexed step with
    ⟨next, hnext, happly, -, -⟩ | ⟨e, hrefused, -⟩
  · rw [hrun] at hnext
    obtain ⟨rfl, rfl⟩ := EStateM.Result.ok.inj hnext
    rw [hentries] at happly
    have hextends := extends_of_apply happly more
    have hconsistent := consistent_ofSteps (steps ++ step :: more)
    have hanswers := answers_ofSteps (steps ++ step :: more)
    -- The entry is in the later list, and number and id both lead to it there.
    cases step with
    | stop id name =>
      obtain ⟨-, hgrown⟩ := Entries.addStop_eq_ok_iff.mp happly
      rw [hgrown] at hextends
      have hmem := hextends.stops.subset (List.mem_append_right _ (List.mem_singleton_self _))
      rw [Builder.nextNumber, hentries]
      exact ⟨hconsistent.stops.getElem?_index hmem, (hanswers.stop id _).mpr ⟨hmem, rfl⟩⟩
    | route id shortName =>
      obtain ⟨-, hgrown⟩ := Entries.addRoute_eq_ok_iff.mp happly
      rw [hgrown] at hextends
      have hmem := hextends.routes.subset (List.mem_append_right _ (List.mem_singleton_self _))
      rw [Builder.nextNumber, hentries]
      exact ⟨hconsistent.routes.getElem?_index hmem, (hanswers.route id _).mpr ⟨hmem, rfl⟩⟩
    | trip id route calls =>
      obtain ⟨-, index, hroute, -, stops, hstops, -, hgrown⟩ :=
        Entries.addTrip_eq_ok_iff.mp happly
      have hrealizes := Entries.realizes_tripOfCalls id hroute hstops
      have hlater := Entries.extends_of_apply happly
      rw [hgrown] at hextends hlater
      have hmem := hextends.trips.subset (List.mem_append_right _ (List.mem_singleton_self _))
      rw [Builder.nextNumber, hentries]
      exact ⟨_, hconsistent.trips.getElem?_index hmem, (hanswers.trip id _).mpr ⟨hmem, rfl⟩, rfl,
        (hrealizes.of_extends hlater.toExtends).of_extends hextends⟩
    | footpath origin destination duration => exact trivial
    | rule rule => exact trivial
  · rw [hrun] at hrefused
    cases hrefused

end Timetable

/-! ## A small network -/

namespace Network

theorem fits (n : Nat) : n % wordSize < wordSize := Nat.mod_lt n (by decide)

/-- The time after some seconds. -/
def clock (n : Nat) : Time := ⟨n % wordSize, fits n⟩

/-- Six stops and three trips that share some of them.  Riders must not change
at C, and are advised to walk from there to X. -/
def steps : List Timetable.Step :=
  [.stop "A" "A", .stop "B" "B", .stop "C" "C", .stop "D" "D", .stop "E" "E", .stop "X" "X",
    .route "1" none, .route "2" none, .route "3" none,
    .trip "red" "1" [⟨"A", clock 0, clock 60⟩, ⟨"B", clock 300, clock 300⟩,
      ⟨"C", clock 600, clock 600⟩],
    .trip "blue" "2" [⟨"X", clock 300, clock 300⟩, ⟨"B", clock 600, clock 600⟩,
      ⟨"C", clock 900, clock 900⟩, ⟨"D", clock 1200, clock 1200⟩],
    .trip "green" "3" [⟨"B", clock 1500, clock 1500⟩, ⟨"X", clock 1800, clock 1800⟩,
      ⟨"D", clock 2100, clock 2100⟩, ⟨"E", clock 2400, clock 2400⟩],
    .footpath "C" "X" ⟨120 % wordSize, fits 120⟩,
    .rule ⟨.stop 2, .stop 2, .notAllowed, false, false, none⟩,
    .rule ⟨.stop 2, .stop 5, .recommended, false, false, none⟩]

/-- The first trip of the network. -/
def red : Trip :=
  ⟨0, "red", 0, ⟨0, 0, [0, 1, 2]⟩, [0, 300, 600].map clock, [60, 300, 600].map clock⟩

/-- The second trip of the network. -/
def blue : Trip :=
  ⟨1, "blue", 1, ⟨1, 1, [5, 1, 2, 3]⟩, [300, 600, 900, 1200].map clock,
    [300, 600, 900, 1200].map clock⟩

/-- The third trip of the network. -/
def green : Trip :=
  ⟨2, "green", 2, ⟨2, 2, [1, 5, 3, 4]⟩, [1500, 1800, 2100, 2400].map clock,
    [1500, 1800, 2100, 2400].map clock⟩

end Network

namespace Timetable

variable {steps : List Step}

/-! ## The whole timetable -/

/-- Nothing that is in `small` is gone or different in `large`. -/
structure Extends (small large : Timetable) : Prop
    extends Catalogue.Extends small.toCatalogue large.toCatalogue where
  footpaths : ∀ stop, small.footpathsFrom stop <+: large.footpathsFrom stop

theorem extends_ofSteps_append (steps more : List Step) :
    Extends (ofSteps steps) (ofSteps (steps ++ more)) where
  toExtends := by
    rw [toCatalogue_ofSteps, toCatalogue_ofSteps]
    exact (Entries.extends_ofSteps_append steps more).toExtends
  footpaths stop := by
    rw [footpathsFrom_ofSteps, footpathsFrom_ofSteps]
    exact (Entries.extends_ofSteps_append steps more).footpaths.filter _

/-- Whatever steps a timetable is built in, and whichever of them are refused,
building it ends.  Its data fit together, and it holds what was entered and nothing
else.  Look-ups give that back, trips share patterns exactly if they visit the same
stops on the same route, and the footpaths from a stop are those that were entered,
in order.  The number that a step has given keeps its meaning, and later steps
change nothing of the timetable. -/
theorem ofSteps_sound (steps : List Step) :
    (Builder.ofSteps steps).build = .ok (ofSteps steps) ∧
      (ofSteps steps).Consistent ∧
      (ofSteps steps).Records (Builder.empty.succeeding steps) ∧
      (ofSteps steps).Answers (Builder.empty.succeeding steps) ∧
      (∀ a ∈ (ofSteps steps).trips, ∀ b ∈ (ofSteps steps).trips,
        a.pattern.index = b.pattern.index ↔
          a.route = b.route ∧ a.pattern.stops = b.pattern.stops) ∧
      (∀ stop, List.Forall₂ (ofSteps steps).Lays
        ((Builder.empty.succeeding steps).filter ((ofSteps steps).leavesBy stop))
        ((ofSteps steps).footpathsFrom stop)) ∧
      (∀ stop, (ofSteps steps).stops.length ≤ stop → (ofSteps steps).footpathsFrom stop = []) ∧
      (∀ step number later, Builder.run step (Builder.ofSteps steps) = .ok number later →
        ∀ more, (ofSteps (steps ++ step :: more)).Keeps step number) ∧
      ∀ more, Extends (ofSteps steps) (ofSteps (steps ++ more)) := by
  have hconsistent := consistent_ofSteps steps
  exact ⟨build_ofSteps steps, hconsistent, records_ofSteps steps, answers_ofSteps steps,
    fun a ha b hb => hconsistent.pattern_index_eq_iff ha hb, lays_footpathsFrom steps,
    fun stop hstop => footpathsFrom_eq_nil hconsistent hstop,
    fun step number later hrun more => keeps_of_run hrun more, extends_ofSteps_append steps⟩

/-- In the network, X is the stop with the number 5 from its step on, the third trip
is found by its id, and the only footpath from C leads to X. -/
theorem ofSteps_sound_network :
    (∃ later, Builder.run (.stop "X" "X") (Builder.ofSteps (Network.steps.take 5)) =
        .ok (some 5) later) ∧
      (ofSteps Network.steps).Keeps (.stop "X" "X") (some 5) ∧
      (ofSteps Network.steps).tripById? "green" = some Network.green ∧
      (ofSteps Network.steps).stopById? "F" = none ∧
      Network.red.pattern.index ≠ Network.green.pattern.index ∧
      (∃ path, (ofSteps Network.steps).footpathsFrom 2 = [path] ∧
        (ofSteps Network.steps).Lays
          (.footpath "C" "X" ⟨120 % wordSize, Network.fits 120⟩) path) ∧
      (ofSteps Network.steps).footpathsFrom 6 = [] := by
  obtain ⟨-, -, -, hanswers, hshare, hpaths, hunknown, -⟩ := ofSteps_sound Network.steps
  obtain ⟨-, -, -, -, -, -, -, hkeeps, -⟩ := ofSteps_sound (Network.steps.take 5)
  have hred : Network.red ∈ (ofSteps Network.steps).trips := by decide +kernel
  have hgreen : Network.green ∈ (ofSteps Network.steps).trips := by decide +kernel
  have hleaving : (Builder.empty.succeeding Network.steps).filter
      ((ofSteps Network.steps).leavesBy 2) =
        [.footpath "C" "X" ⟨120 % wordSize, Network.fits 120⟩] := by
    decide +kernel
  have hfootpaths := hpaths 2
  rw [hleaving] at hfootpaths
  obtain ⟨path, paths, hlays, hnil, hpath⟩ := List.forall₂_cons_left_iff.mp hfootpaths
  obtain rfl := List.forall₂_nil_left_iff.mp hnil
  refine ⟨⟨_, rfl⟩, hkeeps _ _ _ rfl (Network.steps.drop 6),
    (hanswers.trip "green" Network.green).mpr ⟨hgreen, rfl⟩,
    (hanswers.no_stop "F").mpr fun name hname => ?_, fun hsame => ?_, ⟨path, hpath, hlays⟩,
    hunknown 6 (by decide +kernel)⟩
  · have hstops : (Builder.empty.succeeding Network.steps).filter Step.entersStop =
        ["A", "B", "C", "D", "E", "X"].map fun id => .stop id id := by
      decide +kernel
    have hother : Step.stop "F" name ∈ (Builder.empty.succeeding Network.steps).filter
        Step.entersStop := List.mem_filter.mpr ⟨hname, rfl⟩
    rw [hstops] at hother
    simp at hother
  · have hroutes := ((hshare _ hred _ hgreen).mp hsame).1
    exact absurd hroutes (by decide)

end Timetable

end TransitTransfers
