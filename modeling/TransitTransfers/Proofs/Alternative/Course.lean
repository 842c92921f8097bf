import TransitTransfers.Proofs.Alternative.Guarantee

/-!
# What the alternatives depend on

All legs between access and egress get new times and new prices.  So the
alternatives of an itinerary depend on where it goes, and not on what its legs
cost or when exactly its walks start.

* `SameFrame` says what new times depend on: the trips and the two ends.
  `retime_congr` makes the same itinerary of a chain for either of two
  itineraries with the same frame.
* `SameCourse` adds what the joins depend on: the places where the itinerary
  changes, and how long it walks there.  `ofJunction_congr` is one junction and
  `offersFrom_congr` the run over all of them.
* `alternatives_congr` is the result for all alternatives.
-/

namespace TransitTransfers

/-- The trip of a ride and the two positions between which it goes. -/
def Ride.course (ride : Ride) : Trip × Nat × Nat := (ride.trip, ride.board, ride.alight)

theorem Ride.course_eq_iff {a b : Ride} :
    a.course = b.course ↔ a.trip = b.trip ∧ a.board = b.board ∧ a.alight = b.alight := by
  rw [course, course, Prod.mk.injEq, Prod.mk.injEq]

theorem Ride.alightStop_of_same {a b : Ride} (htrip : a.trip = b.trip)
    (halight : a.alight = b.alight) : a.alightStop = b.alightStop := by
  have hstop := a.stopAt_alight
  rw [htrip, halight] at hstop
  exact Except.ok.inj (hstop.symm.trans b.stopAt_alight)

theorem Ride.boardTime_of_same {a b : Ride} (htrip : a.trip = b.trip)
    (hboard : a.board = b.board) : a.boardTime = b.boardTime := by
  rw [boardTime, boardTime, htrip, hboard]

theorem Ride.alightTime_of_same {a b : Ride} (htrip : a.trip = b.trip)
    (halight : a.alight = b.alight) : a.alightTime = b.alightTime := by
  rw [alightTime, alightTime, htrip, halight]

theorem Ride.duration_of_same {a b : Ride} (h : a.course = b.course) :
    a.duration = b.duration := by
  obtain ⟨htrip, hboard, halight⟩ := Ride.course_eq_iff.mp h
  rw [duration, duration, boardTime_of_same htrip hboard, alightTime_of_same htrip halight]

theorem Ride.stretch_of_same {a b : Ride} (h : a.course = b.course) : a.stretch = b.stretch := by
  obtain ⟨htrip, hboard, halight⟩ := Ride.course_eq_iff.mp h
  rw [stretch, stretch, htrip, hboard, halight]

theorem Ride.forall₂_course {rides others : List Ride}
    (h : rides.map Ride.course = others.map Ride.course) :
    List.Forall₂ (fun ride other => ride.course = other.course) rides others := by
  rw [← List.forall₂_eq_eq_eq, List.forall₂_map_left_iff, List.forall₂_map_right_iff] at h
  exact h

theorem Ride.map_stretch_of_course {rides others : List Ride}
    (h : rides.map Ride.course = others.map Ride.course) :
    rides.map Ride.stretch = others.map Ride.stretch := by
  rw [← List.forall₂_eq_eq_eq, List.forall₂_map_left_iff, List.forall₂_map_right_iff]
  exact (Ride.forall₂_course h).imp fun _ _ => Ride.stretch_of_same

/-- Two junctions change between the same trips at the same positions, and
the walks take equally long, if there are walks. -/
structure Junction.Alike (a b : Junction) : Prop where
  arriving : a.arriving.course = b.arriving.course
  departing : a.departing.course = b.departing.course
  walk : a.walk.map Walk.duration = b.walk.map Walk.duration

theorem Junction.walkDuration_eq (junction : Junction) :
    junction.walkDuration = (junction.walk.map Walk.duration).getD (.ok .zero) := by
  unfold walkDuration
  cases junction.walk <;> rfl

theorem Junction.Alike.wait_eq {a b : Junction} (h : a.Alike b) : a.wait = b.wait := by
  obtain ⟨hsource, -, halight⟩ := Ride.course_eq_iff.mp h.arriving
  obtain ⟨htarget, hboard, -⟩ := Ride.course_eq_iff.mp h.departing
  rw [wait, wait, Ride.boardTime_of_same htarget hboard, Ride.alightTime_of_same hsource halight,
    walkDuration_eq, walkDuration_eq, h.walk]

namespace Itinerary

/-- Two itineraries ride the same trips between the same ends, wherever they
change. -/
structure SameFrame (a b : Itinerary) : Prop where
  access : a.access = b.access
  egress : a.egress = b.egress
  trips : a.rides.map (·.trip) = b.rides.map (·.trip)
  /-- They board the first trip at the same position. -/
  board : a.first.board = b.first.board
  /-- They leave the last trip at the same position. -/
  alight : a.lastRide.alight = b.lastRide.alight

/-- Two itineraries ride the same stretches between the same ends, and walk
equally long where they walk.  Their prices and the starts of their walks may
differ. -/
structure SameCourse (a b : Itinerary) : Prop where
  access : a.access = b.access
  egress : a.egress = b.egress
  rides : a.rides.map Ride.course = b.rides.map Ride.course
  /-- They walk before the same rides, and equally long. -/
  walks : a.changes.map (fun change => change.walk.map Walk.duration) =
    b.changes.map fun change => change.walk.map Walk.duration

variable {a b : Itinerary}

theorem lastFrom_course {ride other : Ride} {changes others : List Change}
    (hrides : (ride :: changes.map (·.ride)).map Ride.course =
      (other :: others.map (·.ride)).map Ride.course) :
    (lastFrom ride changes).course = (lastFrom other others).course := by
  induction changes generalizing ride other others with
  | nil =>
    cases others with
    | nil => exact List.head_eq_of_cons_eq hrides
    | cons next others => simp at hrides
  | cons change changes ih =>
    cases others with
    | nil => simp at hrides
    | cons next others =>
      rw [lastFrom, lastFrom]
      exact ih (List.tail_eq_of_cons_eq hrides)

theorem SameCourse.sameFrame (h : a.SameCourse b) : a.SameFrame b := by
  have htrips : a.rides.map (·.trip) = b.rides.map (·.trip) := by
    simpa [Ride.course, Function.comp_def] using congrArg (List.map Prod.fst) h.rides
  have hfirst : a.first.course = b.first.course := List.head_eq_of_cons_eq h.rides
  have hlast : (lastFrom a.first a.changes).course = (lastFrom b.first b.changes).course :=
    lastFrom_course h.rides
  rw [← lastRide_eq_lastFrom, ← lastRide_eq_lastFrom] at hlast
  exact ⟨h.access, h.egress, htrips, (Ride.course_eq_iff.mp hfirst).2.1,
    (Ride.course_eq_iff.mp hlast).2.2⟩

theorem SameCourse.changes_ne_nil (h : a.SameCourse b) (hchanges : a.changes ≠ []) :
    b.changes ≠ [] := by
  intro hnone
  have hwalks := h.walks
  rw [hnone, List.map_nil, List.map_eq_nil_iff] at hwalks
  exact hchanges hwalks

theorem SameCourse.rideDuration (h : a.SameCourse b) : a.rideDuration = b.rideDuration := by
  have hdurations : a.rides.mapM Ride.duration = b.rides.mapM Ride.duration :=
    mapM_congr ((Ride.forall₂_course h.rides).imp fun _ _ => Ride.duration_of_same)
  rw [Itinerary.rideDuration, Itinerary.rideDuration, hdurations]

/-- An itinerary rides the same stretches as either of two itineraries with
the same course, or as neither. -/
theorem SameCourse.sameStretches (h : a.SameCourse b) (itinerary : Itinerary) :
    itinerary.sameStretches a = itinerary.sameStretches b := by
  rw [Itinerary.sameStretches, Itinerary.sameStretches, Ride.map_stretch_of_course h.rides]

/-- Itineraries with the same course have the same junctions, prices and
starts of walks aside. -/
theorem alike_junctionsFrom {ride other : Ride} {changes others : List Change}
    (hrides : (ride :: changes.map (·.ride)).map Ride.course =
      (other :: others.map (·.ride)).map Ride.course)
    (hwalks : changes.map (fun change => change.walk.map Walk.duration) =
      others.map fun change => change.walk.map Walk.duration) :
    List.Forall₂ Junction.Alike (junctionsFrom ride changes) (junctionsFrom other others) := by
  induction changes generalizing ride other others with
  | nil =>
    cases others with
    | nil => exact .nil
    | cons next others => simp at hrides
  | cons change changes ih =>
    cases others with
    | nil => simp at hrides
    | cons next others =>
      have htail := List.tail_eq_of_cons_eq hrides
      refine .cons ?_ (ih htail (List.tail_eq_of_cons_eq hwalks))
      exact ⟨List.head_eq_of_cons_eq hrides, List.head_eq_of_cons_eq htail,
        List.head_eq_of_cons_eq hwalks⟩

theorem SameCourse.junctions (h : a.SameCourse b) :
    List.Forall₂ Junction.Alike a.junctions b.junctions :=
  alike_junctionsFrom h.rides h.walks

end Itinerary

/-! ## One junction -/

/-- The join of a junction has nothing from the prices of its legs, and of the
walk only its stops and its duration. -/
theorem Join.ofJunction_congr {table : Timetable} {a b : Junction} (ha : a.Sound)
    (hb : b.Sound) (h : a.Alike b) : ofJunction table a = ofJunction table b := by
  obtain ⟨hsource, -, halight⟩ := Ride.course_eq_iff.mp h.arriving
  obtain ⟨htarget, hboard, -⟩ := Ride.course_eq_iff.mp h.departing
  have hpath : walkedPath a.walk = walkedPath b.walk := by
    have hwalk := h.walk
    cases hwalkA : a.walk with
    | none =>
      cases hwalkB : b.walk with
      | none => rfl
      | some other =>
        rw [hwalkA, hwalkB] at hwalk
        cases hwalk
    | some walk =>
      cases hwalkB : b.walk with
      | none =>
        rw [hwalkA, hwalkB] at hwalk
        cases hwalk
      | some other =>
        rw [hwalkA, hwalkB] at hwalk
        have hduration : walk.duration = other.duration := Option.some.inj hwalk
        obtain ⟨horigin, hdestination⟩ := ha.walk_ends hwalkA
        obtain ⟨horigin', hdestination'⟩ := hb.walk_ends hwalkB
        rw [walkedPath, walkedPath, hduration, horigin, horigin', hdestination, hdestination',
          Ride.alightStop_of_same hsource halight, Ride.boardStop_of_same htarget hboard]
  rw [ofJunction, ofJunction, hpath, hsource, halight, htarget, hboard]

namespace Planner

variable {planner : Planner} {a b : Itinerary}

theorem offersFrom_congr {start : Nat} {junctions others : List Junction}
    (halike : List.Forall₂ Junction.Alike junctions others)
    (hsound : ∀ junction ∈ junctions, junction.Sound)
    (hsound' : ∀ junction ∈ others, junction.Sound) :
    planner.offersFrom start junctions = planner.offersFrom start others := by
  induction halike generalizing start with
  | nil => rfl
  | @cons junction other junctions others hhead _ ih =>
    rw [List.forall_mem_cons] at hsound hsound'
    obtain ⟨hsource, -⟩ := Ride.course_eq_iff.mp hhead.arriving
    obtain ⟨htarget, -⟩ := Ride.course_eq_iff.mp hhead.departing
    rw [offersFrom, offersFrom, Join.ofJunction_congr hsound.1 hsound'.1 hhead, hsource, htarget]
    simp only [ih hsound.2 hsound'.2]

/-! ## New times -/

/-- Only the trips of the rides and the end of the last one count when a chain
is ridden. -/
theorem ridesFrom_congr {isFirst : Bool} {ride other : Ride} {changes others : List Change}
    {board : Nat} {ready : Time} {chain : List Join} (hlength : chain.length = changes.length)
    (htrips : (ride :: changes.map (·.ride)).map (·.trip) =
      (other :: others.map (·.ride)).map (·.trip))
    (hlast : (lastFrom ride changes).alight = (lastFrom other others).alight) :
    planner.ridesFrom isFirst ride board ready (chain.zip (changes.map (·.ride))) =
      planner.ridesFrom isFirst other board ready (chain.zip (others.map (·.ride))) := by
  induction changes generalizing isFirst ride other others board ready chain with
  | nil =>
    cases others with
    | cons next others => simp at htrips
    | nil =>
      have htrip : ride.trip = other.trip := List.head_eq_of_cons_eq htrips
      have halight : ride.alight = other.alight := hlast
      rw [List.map_nil, List.zip_nil_right, ridesFrom, ridesFrom, htrip, halight]
  | cons change changes ih =>
    cases others with
    | nil => simp at htrips
    | cons next others =>
      cases chain with
      | nil => cases hlength
      | cons join chain =>
        have htrip : ride.trip = other.trip := List.head_eq_of_cons_eq htrips
        have hrest : ∀ ready, planner.ridesFrom false change.ride join.board ready
              (chain.zip (changes.map (·.ride))) =
            planner.ridesFrom false next.ride join.board ready
              (chain.zip (others.map (·.ride))) :=
          fun ready => ih (Nat.succ.inj hlength) (List.tail_eq_of_cons_eq htrips) hlast
        rw [List.map_cons, List.map_cons, List.zip_cons_cons, List.zip_cons_cons, ridesFrom,
          ridesFrom, htrip]
        simp only [hrest]

/-- A chain makes the same itinerary for two itineraries with the same trips
and ends. -/
theorem retime_congr (h : a.SameFrame b) {chain : List Join}
    (hlength : chain.length = a.changes.length) :
    planner.retime a chain = planner.retime b chain := by
  have hlast : (lastFrom a.first a.changes).alight = (lastFrom b.first b.changes).alight := by
    rw [← Itinerary.lastRide_eq_lastFrom, ← Itinerary.lastRide_eq_lastFrom]
    exact h.alight
  rw [retime, retime, h.access, h.egress, h.board, ridesFrom_congr hlength h.trips hlast]

/-- The chains of an itinerary have one join for every junction. -/
theorem length_of_mem_chainsOf {offers : List Offer} {chains : List (List Join)}
    (hoffers : planner.offers a = .ok offers) (hchains : chainsOf a offers = .ok chains)
    {chain : List Join} (hchain : chain ∈ chains) : chain.length = a.changes.length := by
  rw [((mem_chainsOf hchains).mp hchain).1.length_eq,
    ← (madeFrom_of_offersFrom hoffers).length_eq, Itinerary.junctions,
    Itinerary.length_junctionsFrom]

/-! ## All alternatives -/

/-- Itineraries with the same course have the same alternatives. -/
theorem alternatives_congr (h : a.SameCourse b) (hchanges : a.changes ≠ []) :
    planner.alternatives a = planner.alternatives b := by
  have hframe := h.sameFrame
  have hoffers : planner.offers a = planner.offers b := by
    rw [offers, offers, hframe.board]
    exact offersFrom_congr h.junctions a.sound_of_mem b.sound_of_mem
  rw [alternatives_eq hchanges, alternatives_eq (h.changes_ne_nil hchanges), ← hoffers]
  cases hmade : planner.offers a with
  | error fault => rfl
  | ok offers =>
    have hsame : chainsOf a offers = chainsOf b offers := by
      rw [chainsOf_eq, chainsOf_eq, hframe.board, hframe.alight]
    show (chainsOf a offers >>= _) = (chainsOf b offers >>= _)
    rw [← hsame]
    cases hchains : chainsOf a offers with
    | error fault => rfl
    | ok chains =>
      have hretimed : planner.retimeAll a chains = planner.retimeAll b chains := by
        refine mapM_congr (List.forall₂_same.mpr fun chain hchain => ?_)
        rw [retime_congr hframe (length_of_mem_chainsOf hmade hchains hchain)]
      show (planner.retimeAll a chains >>= _) = (planner.retimeAll b chains >>= _)
      rw [hretimed]

end Planner

end TransitTransfers
