import TransitTransfers.Proofs.Alternative.Retiming
import TransitTransfers.Proofs.Itinerary.Later

/-!
# Alternatives whose times are all later by the same number of seconds

When all times of a timetable and of an itinerary are moved by some seconds,
its alternatives are moved by as many seconds, step by step.

* `Join.LaterBy` moves a join.  The same joins are found (`find_agrees`), since
  a search only asks for positions (`Trip.LaterBy.boarding?_eq`).
* The same joins are combined (`chainsOf_agrees`), since a chain only asks for
  the order of positions.
* A chain is ridden at other times, but for the same prices
  (`ridesFrom_agrees`).  Even the start of a walk moves along
  (`walkStart_laterBy`): where the time before the next departure is cut off at
  midnight, the walk starts at the arrival.
* `alternatives_agrees` is the run of all steps.
-/

namespace TransitTransfers

variable {seconds : Int}

/-- All times of a timetable are moved by some seconds. -/
structure Timetable.LaterBy (seconds : Int) (table moved : Timetable) : Prop where
  stops : moved.stops = table.stops
  routes : moved.routes = table.routes
  patterns : moved.patterns = table.patterns
  trips : List.Forall₂ (Trip.LaterBy seconds) table.trips moved.trips
  footpaths : moved.footpathsByStop = table.footpathsByStop
  rules : moved.rules = table.rules

/-- The times of the trips of a join are moved. -/
structure Join.LaterBy (seconds : Int) (join moved : Join) : Prop where
  source : join.source.LaterBy seconds moved.source
  alight : moved.alight = join.alight
  target : join.target.LaterBy seconds moved.target
  board : moved.board = join.board
  footpath : moved.footpath = join.footpath
  rule : moved.rule = join.rule

/-! ## Rules -/

/-- A rule asks for the number of a trip and for its route, but not for its
times. -/
theorem Trip.LaterBy.covers_eq {trip moved : Trip} (h : trip.LaterBy seconds moved)
    (endpoint : Endpoint) (place : Nat) :
    endpoint.covers place moved = endpoint.covers place trip := by
  cases endpoint <;> simp only [Endpoint.covers, h.route, h.index]

theorem RuleTable.find?_laterBy (rules : RuleTable) {source source' target target' : Trip}
    (hsource : source.LaterBy seconds source') (htarget : target.LaterBy seconds target')
    (origin destination : Nat) :
    rules.find? origin destination source' target' =
      rules.find? origin destination source target := by
  simp only [find?, TransferRule.covers, hsource.covers_eq, htarget.covers_eq]

/-! ## Joins -/

namespace Join

section Finding

variable {table table' : Timetable} {source source' target target' : Trip}

theorem between_agrees (htable : table.LaterBy seconds table')
    (hsource : source.LaterBy seconds source') (htarget : target.LaterBy seconds target')
    (alight board : Nat) (footpath : Option Footpath) :
    Agrees (Join.LaterBy seconds) (between table source alight target board footpath)
      (between table' source' alight target' board footpath) := by
  unfold between
  rw [hsource.stopAt_eq, htarget.stopAt_eq]
  refine Agrees.bind_same (source.stopAt alight) fun origin => ?_
  refine Agrees.bind_same (target.stopAt board) fun destination => ?_
  rw [htable.rules, table.rules.find?_laterBy hsource htarget]
  exact Join.LaterBy.mk hsource rfl htarget rfl rfl rfl

theorem boardingAt_agrees (htable : table.LaterBy seconds table')
    (hsource : source.LaterBy seconds source') (htarget : target.LaterBy seconds target')
    {ready ready' : Time} (hready : ready.LaterBy seconds ready') (alight stop : Nat)
    (footpath : Option Footpath) :
    Agrees (Option.Rel (Join.LaterBy seconds))
      (boardingAt table source alight target footpath stop ready)
      (boardingAt table' source' alight target' footpath stop ready') := by
  unfold boardingAt
  rw [htarget.boarding?_eq hready]
  refine Agrees.bind_same (target.boarding? ready stop) fun found => ?_
  cases found with
  | none => exact Option.Rel.none
  | some board =>
    exact (between_agrees htable hsource htarget alight board footpath).bind
      fun _ _ hjoin => Option.Rel.some hjoin

theorem leavingAt_agrees (htable : table.LaterBy seconds table')
    (hsource : source.LaterBy seconds source') (htarget : target.LaterBy seconds target')
    (pause : Duration) (alight : Nat) :
    Agrees (List.Forall₂ (Join.LaterBy seconds)) (leavingAt table source target pause alight)
      (leavingAt table' source' target' pause alight) := by
  unfold leavingAt
  rw [hsource.stopAt_eq]
  refine Agrees.bind_same (source.stopAt alight) fun stop => ?_
  refine (hsource.arrivalAt alight).bind fun arrival arrival' harrival => ?_
  refine (harrival.add pause).bind fun ready ready' hready => ?_
  refine (boardingAt_agrees htable hsource htarget hready alight stop none).bind
    fun here here' hhere => ?_
  have hpaths : table'.footpathsFrom stop = table.footpathsFrom stop := by
    rw [Timetable.footpathsFrom, Timetable.footpathsFrom, htable.footpaths]
  rw [hpaths]
  refine (Agrees.mapM (List.forall₂_same.mpr fun path _ => rfl) fun path path' hsame => ?_).bind
    fun there there' hthere =>
      List.rel_filterMap (fun _ _ hfound => hfound) (List.Forall₂.cons hhere hthere)
  subst hsame
  refine (hready.add path.duration).bind fun later later' hlater => ?_
  exact boardingAt_agrees htable hsource htarget hlater alight path.destination (some path)

/-- The same joins are found. -/
theorem find_agrees (htable : table.LaterBy seconds table') (slack : SlackPolicy)
    (hsource : source.LaterBy seconds source') (htarget : target.LaterBy seconds target')
    (start : Nat) :
    Agrees (List.Forall₂ (Join.LaterBy seconds)) (find table slack source start target)
      (find table' slack source' start target') := by
  unfold find
  rw [hsource.pattern, hsource.length_eq]
  refine Agrees.bind_same (slack.total source.pattern) fun pause => ?_
  refine (Agrees.mapM (List.forall₂_same.mpr fun position _ => rfl) fun position _ hsame => ?_).bind
    fun found found' hfound => List.rel_flatten hfound
  subst hsame
  exact leavingAt_agrees htable hsource htarget pause position

/-- A junction uses the same join. -/
theorem ofJunction_agrees (htable : table.LaterBy seconds table') {junction moved : Junction}
    (h : junction.LaterBy seconds moved) :
    Agrees (Join.LaterBy seconds) (ofJunction table junction) (ofJunction table' moved) := by
  have hpath : walkedPath moved.walk = walkedPath junction.walk := by
    rcases junction with ⟨arriving, walk, departing⟩
    rcases moved with ⟨arriving', walk', departing'⟩
    rcases h.walk with hwalk | _
    · simp only [walkedPath, hwalk.duration_eq, hwalk.origin, hwalk.destination]
    · rfl
  unfold ofJunction
  rw [hpath, h.arriving.alight, h.departing.board]
  refine Agrees.bind_same (walkedPath junction.walk) fun footpath => ?_
  exact between_agrees htable h.arriving.trip h.departing.trip _ _ footpath

end Finding

end Join

/-! ## Offers -/

/-- The times of the joins of an offer are moved. -/
structure Offer.LaterBy (seconds : Int) (offer moved : Offer) : Prop where
  found : List.Forall₂ (Join.LaterBy seconds) offer.found moved.found
  own : offer.own.LaterBy seconds moved.own

namespace Offer.LaterBy

variable {offer moved : Offer}

theorem joins (h : offer.LaterBy seconds moved) :
    List.Forall₂ (Join.LaterBy seconds) offer.joins moved.joins := by
  have hpositions : moved.found.map Join.positions = offer.found.map Join.positions := by
    rw [← List.forall₂_eq_eq_eq, List.forall₂_map_left_iff, List.forall₂_map_right_iff]
    refine h.found.flip.imp fun _ _ hjoin => ?_
    rw [Join.positions, Join.positions, hjoin.alight, hjoin.board]
  have hany : (moved.found.any fun join => join.positions = moved.own.positions) =
      offer.found.any fun join => join.positions = offer.own.positions := by
    have hown : moved.own.positions = offer.own.positions := by
      rw [Join.positions, Join.positions, h.own.alight, h.own.board]
    have hmap : ∀ found : List Join, (found.any fun join => join.positions = offer.own.positions) =
        (found.map Join.positions).any (· = offer.own.positions) := by
      intro found
      rw [List.any_map]
      rfl
    rw [hown, hmap, hmap, hpositions]
  unfold Offer.joins
  rw [hany]
  split
  · exact h.found
  · exact List.rel_append h.found (.cons h.own .nil)

theorem earliestBoard_eq (h : offer.LaterBy seconds moved) :
    moved.earliestBoard = offer.earliestBoard := by
  have hboards : moved.joins.map (·.board) = offer.joins.map (·.board) := by
    rw [← List.forall₂_eq_eq_eq, List.forall₂_map_left_iff, List.forall₂_map_right_iff]
    exact h.joins.flip.imp fun _ _ hjoin => hjoin.board
  rw [earliestBoard, earliestBoard, hboards, h.own.board]

end Offer.LaterBy

namespace Planner

/-- The times of the timetable of a planner are moved. -/
structure LaterBy (seconds : Int) (planner moved : Planner) : Prop where
  table : planner.table.LaterBy seconds moved.table
  slack : moved.slack = planner.slack
  weights : moved.weights = planner.weights

variable {planner planner' : Planner}

/-- Offers are made of the same joins. -/
theorem offersFrom_agrees (hplanner : planner.LaterBy seconds planner')
    {junctions junctions' : List Junction}
    (h : List.Forall₂ (Junction.LaterBy seconds) junctions junctions') (start : Nat) :
    Agrees (List.Forall₂ (Offer.LaterBy seconds)) (planner.offersFrom start junctions)
      (planner'.offersFrom start junctions') := by
  induction h generalizing start with
  | nil => exact List.Forall₂.nil
  | cons hhead _ ih =>
    rw [offersFrom, offersFrom, hplanner.slack]
    refine (Join.ofJunction_agrees hplanner.table hhead).bind fun own own' hown => ?_
    refine (Join.find_agrees hplanner.table _ hhead.arriving.trip hhead.departing.trip start).bind
      fun found found' hfound => ?_
    have hoffer : Offer.LaterBy seconds ⟨found, own⟩ ⟨found', own'⟩ := ⟨hfound, hown⟩
    dsimp only
    rw [hoffer.earliestBoard_eq]
    exact (ih _).bind fun _ _ hoffers => List.Forall₂.cons hoffer hoffers

end Planner

/-! ## Chains -/

theorem forall₂_product {lists lists' : List (List Join)}
    (h : List.Forall₂ (List.Forall₂ (Join.LaterBy seconds)) lists lists') :
    List.Forall₂ (List.Forall₂ (Join.LaterBy seconds)) (product lists) (product lists') := by
  induction h with
  | nil => exact .cons .nil .nil
  | cons hjoins _ ih =>
    exact List.rel_flatMap ih fun _ _ hchain =>
      List.rel_map (fun _ _ hjoin => List.Forall₂.cons hjoin hchain) hjoins

/-- Being in order is a matter of positions. -/
theorem inOrder_laterBy_iff {chain moved : List Join}
    (h : List.Forall₂ (Join.LaterBy seconds) chain moved) {last board : Nat} :
    InOrder last board moved ↔ InOrder last board chain := by
  induction h generalizing board with
  | nil => rfl
  | cons hjoin _ ih => rw [InOrder, InOrder, hjoin.alight, hjoin.board, ih]

/-- The same joins are combined. -/
theorem Planner.chainsOf_agrees {itinerary moved : Itinerary}
    (h : itinerary.LaterBy seconds moved) {offers offers' : List Offer}
    (hoffers : List.Forall₂ (Offer.LaterBy seconds) offers offers') :
    Agrees (List.Forall₂ (List.Forall₂ (Join.LaterBy seconds))) (chainsOf itinerary offers)
      (chainsOf moved offers') := by
  have hjoins : List.Forall₂ (List.Forall₂ (Join.LaterBy seconds)) (offers.map Offer.joins)
      (offers'.map Offer.joins) :=
    List.rel_map (fun _ _ hoffer => hoffer.joins) hoffers
  rw [chainsOf_eq_product, chainsOf_eq_product, h.lastRide.alight, h.first.board]
  refine List.rel_filter (fun chain chain' hchain => ?_) (forall₂_product hjoins)
  dsimp only
  rw [decide_eq_true_iff, decide_eq_true_iff, inOrder_laterBy_iff hchain]

/-! ## New times -/

theorem Ride.rel_of? {trip moved : Trip} (h : trip.LaterBy seconds moved) (board alight : Nat)
    (cost : Cost) :
    Option.Rel (Ride.LaterBy seconds) (Ride.of? trip board alight cost)
      (Ride.of? moved board alight cost) := by
  have hiff : board < alight ∧ alight < moved.length ↔ board < alight ∧ alight < trip.length := by
    rw [h.length_eq]
  unfold of?
  by_cases hrides : board < alight ∧ alight < trip.length
  · rw [dif_pos hrides, dif_pos (hiff.mpr hrides)]
    exact .some ⟨h, rfl, rfl, rfl⟩
  · rw [dif_neg hrides, dif_neg (hiff.not.mpr hrides)]
    exact .none

namespace Planner

variable {planner planner' : Planner}

theorem rideFrom_agrees (hplanner : planner.LaterBy seconds planner') {trip trip' : Trip}
    (htrip : trip.LaterBy seconds trip') {ready ready' : Time}
    (hready : ready.LaterBy seconds ready') (isFirst : Bool) (board alight : Nat) :
    Agrees (Option.Rel (Ride.LaterBy seconds)) (planner.rideFrom isFirst ready trip board alight)
      (planner'.rideFrom isFirst ready' trip' board alight) := by
  unfold rideFrom
  rw [hplanner.weights]
  refine (htrip.departureAt board).bind fun departure departure' hdeparture => ?_
  rw [hdeparture.since?_eq hready]
  cases departure.since? ready with
  | none => exact Option.Rel.none
  | some wait =>
    refine (htrip.arrivalAt alight).bind fun arrival arrival' harrival => ?_
    rw [harrival.since?_eq hdeparture]
    cases arrival.since? departure with
    | none => exact Option.Rel.none
    | some duration =>
      refine (Agrees.refl (planner.weights.transitCost isFirst wait duration)).bind
        fun cost _ hsame => ?_
      subst hsame
      exact Ride.rel_of? htrip board alight cost

/-- The start of a walk moves along, although the time before the next
departure is cut off at midnight: it is cut off only where it is before the
arrival, and then the walk starts at the arrival. -/
theorem walkStart_laterBy {alighted alighted' preferred preferred' boarded boarded' : Time}
    (halighted : alighted.LaterBy seconds alighted')
    (hpreferred : preferred.LaterBy seconds preferred')
    (hboarded : boarded.LaterBy seconds boarded') (walk : Duration) :
    (walkStart alighted preferred boarded walk).LaterBy seconds
      (walkStart alighted' preferred' boarded' walk) := by
  unfold Time.LaterBy at *
  rw [walkStart_seconds, walkStart_seconds]
  omega

/-- A walk is moved, and with it the time when the rider is ready to board. -/
def WalkedLaterBy (seconds : Int) (walked moved : Option Walk × Time) : Prop :=
  Option.Rel (Walk.LaterBy seconds) walked.1 moved.1 ∧ walked.2.LaterBy seconds moved.2

theorem walkOver_agrees (hplanner : planner.LaterBy seconds planner') {join moved : Join}
    (hjoin : join.LaterBy seconds moved) :
    Agrees (WalkedLaterBy seconds) (planner.walkOver join) (planner'.walkOver moved) := by
  unfold walkOver Join.arriving Join.departing Call.time
  dsimp only
  rw [hplanner.slack, hplanner.weights, hjoin.alight, hjoin.board, hjoin.footpath,
    hjoin.source.pattern]
  refine (hjoin.source.arrivalAt join.alight).bind fun alighted alighted' halighted => ?_
  refine (hjoin.target.departureAt join.board).bind fun boarded boarded' hboarded => ?_
  cases join.footpath with
  | none => exact ⟨.none, halighted⟩
  | some path =>
    refine (halighted.add _).bind fun preferred preferred' hpreferred => ?_
    have hstart := walkStart_laterBy halighted hpreferred hboarded path.duration
    refine (hstart.add path.duration).bind fun arrival arrival' harrival => ?_
    refine (halighted.add path.duration).bind fun ready ready' hready => ?_
    exact ⟨.some ⟨rfl, rfl, hstart, harrival, rfl⟩, hready⟩

/-- What is ridden is moved. -/
def RiddenLaterBy (seconds : Int) (ridden moved : Ride × List Change) : Prop :=
  ridden.1.LaterBy seconds moved.1 ∧ List.Forall₂ (Change.LaterBy seconds) ridden.2 moved.2

/-- The run over the joins: each ride and each walk is moved. -/
theorem ridesFrom_agrees (hplanner : planner.LaterBy seconds planner') {ride ride' : Ride}
    {steps steps' : List (Join × Ride)} {ready ready' : Time}
    (hride : ride.LaterBy seconds ride') (hready : ready.LaterBy seconds ready')
    (hsteps : List.Forall₂ (fun step moved =>
      step.1.LaterBy seconds moved.1 ∧ step.2.LaterBy seconds moved.2) steps steps')
    (isFirst : Bool) (board : Nat) :
    Agrees (Option.Rel (RiddenLaterBy seconds)) (planner.ridesFrom isFirst ride board ready steps)
      (planner'.ridesFrom isFirst ride' board ready' steps') := by
  induction hsteps generalizing isFirst ride ride' board ready ready' with
  | nil =>
    rw [ridesFrom, ridesFrom, hride.alight]
    refine (rideFrom_agrees hplanner hride.trip hready isFirst board _).bind
      fun found found' hfound => ?_
    rcases hfound with htaken | _
    · exact Option.Rel.some ⟨htaken, .nil⟩
    · exact Option.Rel.none
  | @cons step moved _ _ hstep _ ih =>
    rcases step with ⟨join, next⟩
    rcases moved with ⟨join', next'⟩
    rcases hstep with ⟨hjoin, hnext⟩
    rw [ridesFrom, ridesFrom, hjoin.alight, hjoin.board]
    refine (rideFrom_agrees hplanner hride.trip hready isFirst board _).bind
      fun found found' hfound => ?_
    rcases hfound with htaken | _
    · refine (walkOver_agrees hplanner hjoin).bind fun walked walked' hwalked => ?_
      refine (ih hnext hwalked.2 false _).bind fun others others' hothers => ?_
      rcases hothers with hridden | _
      · exact Option.Rel.some ⟨htaken, .cons ⟨hwalked.1, hridden.1⟩ hridden.2⟩
      · exact Option.Rel.none
    · exact Option.Rel.none

/-- Steps are moved with their joins and their rides. -/
theorem forall₂_zip {chain chain' : List Join} {others others' : List Ride}
    (hchain : List.Forall₂ (Join.LaterBy seconds) chain chain')
    (hothers : List.Forall₂ (Ride.LaterBy seconds) others others') :
    List.Forall₂ (fun step moved =>
      step.1.LaterBy seconds moved.1 ∧ step.2.LaterBy seconds moved.2)
      (chain.zip others) (chain'.zip others') := by
  induction hchain generalizing others others' with
  | nil => exact .nil
  | cons hjoin _ ih =>
    cases hothers with
    | nil => exact .nil
    | cons hride hothers => exact .cons ⟨hjoin, hride⟩ (ih hothers)

theorem assemble_eq_verdict (access : Access) (first : Ride) (changes : List Change)
    (egress : Egress) :
    assemble access first changes egress =
      verdict (Itinerary.ofParts access first changes egress) := by
  rw [assemble]
  cases Itinerary.ofParts access first changes egress with
  | ok itinerary => rfl
  | error e => cases e <;> rfl

theorem retime_agrees (hplanner : planner.LaterBy seconds planner') {itinerary moved : Itinerary}
    (h : itinerary.LaterBy seconds moved) {chain chain' : List Join}
    (hchain : List.Forall₂ (Join.LaterBy seconds) chain chain') :
    Agrees (Option.Rel (Itinerary.LaterBy seconds)) (planner.retime itinerary chain)
      (planner'.retime moved chain') := by
  have hothers : List.Forall₂ (Ride.LaterBy seconds) (itinerary.changes.map (·.ride))
      (moved.changes.map (·.ride)) :=
    List.rel_map (fun _ _ hchange => hchange.ride) h.changes
  unfold retime
  dsimp only
  rw [h.first.board]
  refine (ridesFrom_agrees hplanner h.first h.access.arrival (forall₂_zip hchain hothers) true
    _).bind fun found found' hfound => ?_
  rcases hfound with hridden | _
  · dsimp only
    rw [assemble_eq_verdict, assemble_eq_verdict]
    exact ofParts_agrees h.access hridden.1 hridden.2 h.egress
  · exact Option.Rel.none

end Planner

/-! ## All alternatives -/

/-- The times of an alternative are moved. -/
structure Alternative.LaterBy (seconds : Int) (alternative moved : Alternative) : Prop where
  itinerary : alternative.itinerary.LaterBy seconds moved.itinerary
  joins : List.Forall₂ (Join.LaterBy seconds) alternative.joins moved.joins

/-- An itinerary with several rides has the same alternatives, all of them
moved. -/
theorem Planner.alternatives_agrees {planner planner' : Planner}
    (hplanner : planner.LaterBy seconds planner') {itinerary moved : Itinerary}
    (h : itinerary.LaterBy seconds moved) (hchanges : itinerary.changes ≠ []) :
    Agrees (List.Forall₂ (Alternative.LaterBy seconds)) (planner.alternatives itinerary)
      (planner'.alternatives moved) := by
  have hchanges' : moved.changes ≠ [] := mt (forall₂_nil_iff h.changes).mpr hchanges
  rw [alternatives_eq hchanges, alternatives_eq hchanges']
  unfold offers
  rw [h.first.board]
  refine (offersFrom_agrees hplanner h.junctions _).bind fun offers offers' hoffers => ?_
  refine (chainsOf_agrees h hoffers).bind fun chains chains' hchains => ?_
  have hretimed : Agrees (List.Forall₂ (Option.Rel (Alternative.LaterBy seconds)))
      (planner.retimeAll itinerary chains) (planner'.retimeAll moved chains') := by
    refine .mapM hchains fun chain chain' hchain => ?_
    refine (retime_agrees hplanner h hchain).bind fun found found' hfound => ?_
    rcases hfound with hitinerary | _
    · exact Option.Rel.some ⟨hitinerary, hchain⟩
    · exact Option.Rel.none
  exact hretimed.bind fun found found' hfound =>
    List.rel_filterMap (fun _ _ halternative => halternative) hfound

end TransitTransfers
