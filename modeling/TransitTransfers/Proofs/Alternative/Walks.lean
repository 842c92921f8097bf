import TransitTransfers.Proofs.Alternative.Joins

/-!
# When walks take place

A rider who leaves a trip first takes the alighting slack, and then walks.  If
the next trip would be missed that way, the walk starts just in time for it.

* `Walk.Scheduled` says this of a walk between an arrival and a departure, and
  `Walks.scheduled` proves it for the walk over a join that a rider can make:
  the clamp of `Planner.walkStart` never has to cut anything off the walk.
* `WalksOnTime` says it of a junction that uses a join of an offer.  A join that
  was found has time for the whole slack (`found_keep_slack`), so its walk never
  has to start early.
* `alternatives_walk_on_time` is the result for all junctions of all
  alternatives.
-/

namespace TransitTransfers

/-! ## One walk -/

/-- A walk of a given length takes place between an arrival and a departure.
It starts when a slack has passed after the arrival, or else just in time for
the departure. -/
structure Walk.Scheduled (walk : Walk) (alighted boarded : Time) (slack length : Duration) :
    Prop where
  duration : walk.duration = .ok length
  starts : alighted ≤ walk.departure
  ends : walk.arrival ≤ boarded
  /-- There is time for the slack. -/
  rested : alighted.seconds + slack.seconds + length.seconds ≤ boarded.seconds →
    walk.departure.seconds = alighted.seconds + slack.seconds
  /-- There is not. -/
  hurried : boarded.seconds < alighted.seconds + slack.seconds + length.seconds →
    walk.departure.seconds + length.seconds = boarded.seconds

namespace Planner

variable {planner : Planner} {given : Itinerary}

/-- The walk over a join that a rider can make. -/
theorem Walks.scheduled {join : Join} {alighted boarded : Time} {walk : Option Walk}
    {ready : Time} (h : planner.Walks join alighted boarded walk ready) {path : Footpath}
    (hpath : join.footpath = some path)
    (htime : alighted.seconds + path.duration.seconds ≤ boarded.seconds) :
    ∃ taken, walk = some taken ∧ taken.Scheduled alighted boarded
      (planner.slack.alighting join.source.pattern) path.duration := by
  unfold Walks at h
  rw [hpath] at h
  obtain ⟨-, preferred, arrival, hpreferred, harrival, rfl⟩ := h
  have hstart := walkStart_seconds alighted preferred boarded path.duration
  refine ⟨_, rfl, Time.since_eq_ok_iff.mpr harrival, ?_, ?_, fun hfits => ?_, fun hlate => ?_⟩
  · show alighted.seconds ≤ (walkStart alighted preferred boarded path.duration).seconds
    omega
  · show arrival.seconds ≤ boarded.seconds
    omega
  · show (walkStart alighted preferred boarded path.duration).seconds = _
    omega
  · show (walkStart alighted preferred boarded path.duration).seconds + _ = _
    omega

/-- A found join has time for the whole slack of the trip that is left. -/
theorem found_keep_slack (hbuilt : planner.table.Built) (hrides : given.RidesOn planner.table)
    {offers : List Offer} (hoffers : planner.offers given = .ok offers) :
    ∀ offer ∈ offers, ∀ join ∈ offer.found, ∃ pause,
      planner.slack.total join.source.pattern = .ok pause ∧ join.Feasible pause.seconds := by
  intro offer hoffer join hjoin
  have hmade := forall₂_imp_of_mem (madeFrom_of_offersFrom hoffers)
    fun junction hjunction _ h => And.intro hjunction h
  obtain ⟨junction, -, hjunction, start, hfrom⟩ := exists_mem_of_forall₂ hmade hoffer
  have hsearch := searchable_of_mem hbuilt hrides hjunction
  obtain ⟨hsource, -, -, -, hpause⟩ :=
    Join.mem_find hbuilt.shelved hsearch.departing hfrom.found hjoin
  rw [hsource]
  exact hpause

/-! ## Walks on time -/

/-- A junction uses a join of an offer, and its walk takes place when it
should. -/
structure WalksOnTime (planner : Planner) (offer : Offer) (junction : Junction) (join : Join) :
    Prop where
  uses : Join.ofJunction planner.table junction = .ok join
  /-- The join was found, or it is the own one and had to be appended. -/
  offered : join ∈ offer.found ∨ offer.Appends ∧ join = offer.own
  stays : join.footpath = none → junction.walk = none
  walks : ∀ path ∈ join.footpath, ∃ walk alighted boarded, junction.walk = some walk ∧
    junction.arriving.alightTime = .ok alighted ∧ junction.departing.boardTime = .ok boarded ∧
      walk.Scheduled alighted boarded (planner.slack.alighting junction.arriving.trip.pattern)
          path.duration ∧
        (join ∈ offer.found →
          walk.departure.seconds = alighted.seconds +
              (planner.slack.alighting junction.arriving.trip.pattern).seconds ∧
            walk.arrival.seconds + planner.slack.changing.seconds +
                (planner.slack.boarding junction.arriving.trip.pattern).seconds ≤
              boarded.seconds)

theorem MadeOver.walksOnTime {junction : Junction} {join : Join}
    (h : planner.MadeOver junction join) {offer : Offer} (hjoin : join ∈ offer.joins)
    (hfound : ∀ join ∈ offer.found, ∃ pause,
      planner.slack.total join.source.pattern = .ok pause ∧ join.Feasible pause.seconds) :
    planner.WalksOnTime offer junction join := by
  obtain ⟨ready, hwalk⟩ := h.walk
  obtain ⟨alighted, boarded, halighted, hboarded, hwalks, -, htime⟩ :=
    between_of_feasible h.feasible hwalk h.source h.alight h.target h.board
  refine ⟨h.uses, Offer.mem_joins_iff.mp hjoin, fun hnone => ?_, fun path hpath => ?_⟩
  · unfold Walks at hwalks
    rw [hnone] at hwalks
    exact hwalks.1
  · rw [Join.walkDuration_seconds, hpath] at htime
    obtain ⟨walk, hsome, hscheduled⟩ := hwalks.scheduled hpath htime
    rw [← h.source] at hscheduled
    refine ⟨walk, alighted, boarded, hsome, halighted, hboarded, hscheduled, fun hmem => ?_⟩
    obtain ⟨pause, hpause, hslack⟩ := hfound join hmem
    obtain ⟨alighted', boarded', halighted', hboarded', -, -, hroom⟩ :=
      between_of_feasible hslack hwalk h.source h.alight h.target h.board
    obtain rfl := Except.ok.inj (halighted.symm.trans halighted')
    obtain rfl := Except.ok.inj (hboarded.symm.trans hboarded')
    rw [Join.walkDuration_seconds, hpath, SlackPolicy.total_seconds hpause, ← h.source] at hroom
    have hlength : walk.departure.seconds + path.duration.seconds = walk.arrival.seconds :=
      (Time.since_eq_ok_iff.mp hscheduled.duration).symm
    have hlong : alighted.seconds + path.duration.seconds +
        ((planner.slack.alighting junction.arriving.trip.pattern).seconds +
            planner.slack.changing.seconds +
          (planner.slack.boarding junction.arriving.trip.pattern).seconds) ≤ boarded.seconds :=
      hroom
    have hstart := hscheduled.rested (by omega)
    exact ⟨hstart, by omega⟩

/-- Every junction of every alternative walks on time.  A walk takes as long as
its footpath.  It starts when the alighting slack has passed, or just in time
for the next ride if there is no time for the slack.  Only the own join of an
itinerary, where it had to be appended, ever leaves too little time: over a
join that was found the walk starts after the alighting slack, and ends with
the slacks for changing and boarding left. -/
theorem alternatives_walk_on_time (hbuilt : planner.table.Built)
    (hrides : given.RidesOn planner.table)
    (hfits : planner.alternatives given ≠ .error .addition) :
    ∃ offers alternatives, planner.offers given = .ok offers ∧
      planner.alternatives given = .ok alternatives ∧
        ∀ alternative ∈ alternatives, List.Forall₂
          (fun offer junction => ∃ join, planner.WalksOnTime offer junction join)
          offers alternative.itinerary.junctions := by
  obtain ⟨alternatives, hlist⟩ := exists_alternatives hbuilt hrides hfits
  obtain ⟨offers, hoffers, hoffered⟩ := exists_offered hbuilt hrides hlist
  refine ⟨offers, alternatives, hoffers, hlist, fun alternative hmem => ?_⟩
  obtain ⟨hjoins, hmade⟩ := hoffered alternative hmem
  have hmem := forall₂_imp_of_mem hjoins.flip
    (S := fun offer join => join ∈ offer.joins ∧ offer ∈ offers)
    fun offer hoffer join hjoin => ⟨hjoin, hoffer⟩
  exact forall₂_comp hmem hmade.flip fun offer join junction hoffer hover =>
    ⟨join, hover.walksOnTime hoffer.1 (found_keep_slack hbuilt hrides hoffers offer hoffer.2)⟩

end Planner

namespace Network

/-- A planner for the network whose riders take their time when they leave a
trip. -/
def resting (alighting : Duration) : Planner :=
  { planner with slack := .uniform { SlackTimes.default with alighting } }

theorem resting_built (alighting : Duration) : (resting alighting).table.Built := planner_built

/-- When the walks of an alternative take place. -/
def walkTimes (alternative : Alternative) : List (Option (Nat × Nat)) :=
  alternative.itinerary.junctions.map fun junction =>
    junction.walk.map fun walk => (walk.departure.seconds, walk.arrival.seconds)

end Network

/-- The trip to C arrives at 900 seconds, the walk to X takes two minutes, and
the next trip departs from there at 1800 seconds.  Riders who take twenty
minutes to leave a trip walk just in time for it. -/
theorem Planner.alternatives_walk_on_time_resting :
    (Network.resting ⟨1200, by decide⟩).alternatives Network.earlyWalk ≠ .error .addition ∧
      ∃ offers alternatives,
        (Network.resting ⟨1200, by decide⟩).alternatives Network.earlyWalk = .ok alternatives ∧
        alternatives.map Network.walkTimes = [[none, some (1680, 1800)]] ∧
          ∀ alternative ∈ alternatives, List.Forall₂
            (fun offer junction => ∃ join,
              (Network.resting ⟨1200, by decide⟩).WalksOnTime offer junction join)
            offers alternative.itinerary.junctions := by
  have hrides : Network.earlyWalk.RidesOn (Network.resting ⟨1200, by decide⟩).table := by
    decide +kernel
  have hfits : (Network.resting ⟨1200, by decide⟩).alternatives Network.earlyWalk ≠
      .error .addition := by
    decide +kernel
  obtain ⟨offers, alternatives, -, hlist, hwalks⟩ :=
    alternatives_walk_on_time (Network.resting_built _) hrides hfits
  have htimes : ((Network.resting ⟨1200, by decide⟩).alternatives Network.earlyWalk).map
      (·.map Network.walkTimes) = .ok [[none, some (1680, 1800)]] := by
    decide +kernel
  rw [hlist] at htimes
  exact ⟨hfits, offers, alternatives, hlist, Except.ok.inj htimes, hwalks⟩

-- Ten minutes leave enough time for the walk, and for a change at D besides.
example : ((Network.resting ⟨600, by decide⟩).alternatives Network.earlyWalk).map
    (·.map Network.walkTimes) = .ok [[none, some (1500, 1620)], [none, none]] := by
  decide +kernel

end TransitTransfers
