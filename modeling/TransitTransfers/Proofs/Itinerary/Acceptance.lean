import Mathlib.Computability.RegularExpressions
import TransitTransfers.Proofs.Itinerary.Shape

/-!
# Which lists of legs are itineraries

A list of legs is accepted exactly if it is a journey (`IsJourney`): the kinds of
its legs make up a word of a regular language, each leg runs forward, and each one
leads to the next in time and space.

* `map_kind_mem_journeyWord_iff` says that the words of the language are the
  lists of legs that have the parts of an itinerary.
* `connected_rides_iff` is the run over the changes: legs that are connected one by one
  are sound junction by junction, which is what the check accepts.
* `checkLegs_of_times` says that the check cannot fault where all times are known.
* `ofLegs_accepts_journeys` puts these together.
-/

namespace TransitTransfers

/-! ## The order of the kinds -/

/-- The kinds of legs. -/
inductive LegKind where
  | access
  | ride
  | walk
  | egress
deriving DecidableEq, Repr

/-- The kind of a leg. -/
def Leg.kind : Leg → LegKind
  | .access _ => .access
  | .ride _ => .ride
  | .walk _ => .walk
  | .egress _ => .egress

namespace LegKind

open RegularExpression (char)

/-- The next ride, with at most one walk before it. -/
def changeWord : RegularExpression LegKind := (1 + char walk) * char ride

/-- An access leg, a first ride, any number of changes, and an egress leg. -/
def journeyWord : RegularExpression LegKind :=
  char access * (char ride * changeWord.star) * char egress

theorem mem_changeWord_iff {word : List LegKind} :
    word ∈ changeWord.matches' ↔ word = [ride] ∨ word = [walk, ride] := by
  simp only [changeWord, RegularExpression.matches'_mul, RegularExpression.matches'_add,
    RegularExpression.matches'_epsilon, RegularExpression.matches'_char, Language.mem_mul,
    Language.mem_add, Language.mem_one]
  constructor
  · rintro ⟨before, rfl | rfl, _, rfl, rfl⟩
    · exact Or.inl rfl
    · exact Or.inr rfl
  · rintro (rfl | rfl)
    · exact ⟨[], Or.inl rfl, [ride], rfl, rfl⟩
    · exact ⟨[walk], Or.inr rfl, [ride], rfl, rfl⟩

theorem mem_journeyWord_iff {word : List LegKind} :
    word ∈ journeyWord.matches' ↔
      ∃ changes ∈ changeWord.star.matches', word = access :: ride :: (changes ++ [egress]) := by
  simp only [journeyWord, RegularExpression.matches'_mul, RegularExpression.matches'_char,
    Language.mem_mul]
  constructor
  · rintro ⟨_, ⟨_, rfl, _, ⟨_, rfl, changes, hchanges, rfl⟩, rfl⟩, _, rfl, rfl⟩
    exact ⟨changes, hchanges, rfl⟩
  · rintro ⟨changes, hchanges, rfl⟩
    exact ⟨_, ⟨_, rfl, _, ⟨_, rfl, changes, hchanges, rfl⟩, rfl⟩, _, rfl, rfl⟩

end LegKind

theorem Change.map_kind_legs_iff {legs : List Leg} :
    legs.map Leg.kind ∈ LegKind.changeWord.matches' ↔ ∃ change : Change, legs = change.legs := by
  rw [LegKind.mem_changeWord_iff]
  constructor
  · rintro (h | h)
    · obtain ⟨leg, rfl, hleg⟩ := List.map_eq_singleton_iff.mp h
      rcases leg with _ | ride | _ | _ <;> cases hleg
      exact ⟨⟨none, ride⟩, rfl⟩
    · obtain ⟨leg, rest, rfl, hleg, h⟩ := List.map_eq_cons_iff.mp h
      obtain ⟨last, rfl, hlast⟩ := List.map_eq_singleton_iff.mp h
      rcases leg with _ | _ | walk | _ <;> cases hleg
      rcases last with _ | ride | _ | _ <;> cases hlast
      exact ⟨⟨some walk, ride⟩, rfl⟩
  · rintro ⟨⟨_ | walk, ride⟩, rfl⟩
    · exact Or.inl rfl
    · exact Or.inr rfl

/-- The legs of changes, one change after the other, and no other legs. -/
theorem map_kind_mem_star_iff {legs : List Leg} :
    legs.map Leg.kind ∈ LegKind.changeWord.star.matches' ↔
      ∃ changes : List Change, legs = changes.flatMap Change.legs := by
  rw [RegularExpression.matches'_star, Language.mem_kstar]
  constructor
  · rintro ⟨words, hsplit, hwords⟩
    induction words generalizing legs with
    | nil => exact ⟨[], List.map_eq_nil_iff.mp hsplit⟩
    | cons word words ih =>
      obtain ⟨hword, hrest⟩ := List.forall_mem_cons.mp hwords
      obtain ⟨here, behind, rfl, hhere, hbehind⟩ := List.map_eq_append_iff.mp hsplit
      rw [← hhere, Change.map_kind_legs_iff] at hword
      obtain ⟨change, rfl⟩ := hword
      obtain ⟨changes, rfl⟩ := ih hbehind hrest
      exact ⟨change :: changes, rfl⟩
  · rintro ⟨changes, rfl⟩
    refine ⟨changes.map fun change => change.legs.map Leg.kind, ?_, ?_⟩
    · rw [List.map_flatMap, List.flatMap_def]
    · intro word hword
      obtain ⟨change, -, rfl⟩ := List.mem_map.mp hword
      exact Change.map_kind_legs_iff.mpr ⟨change, rfl⟩

/-- The words of the language are the lists of legs with the parts of an
itinerary. -/
theorem map_kind_mem_journeyWord_iff {legs : List Leg} :
    legs.map Leg.kind ∈ LegKind.journeyWord.matches' ↔
      ∃ access first changes egress, legs = joinLegs access first changes egress := by
  rw [LegKind.mem_journeyWord_iff]
  constructor
  · rintro ⟨word, hword, h⟩
    obtain ⟨start, rest, rfl, hstart, hrest⟩ := List.map_eq_cons_iff.mp h
    obtain ⟨first, behind, rfl, hfirst, hbehind⟩ := List.map_eq_cons_iff.mp hrest
    obtain ⟨between, ends, rfl, hbetween, hends⟩ := List.map_eq_append_iff.mp hbehind
    obtain ⟨last, rfl, hlast⟩ := List.map_eq_singleton_iff.mp hends
    rw [← hbetween, map_kind_mem_star_iff] at hword
    obtain ⟨changes, rfl⟩ := hword
    rcases start with access | _ | _ | _ <;> cases hstart
    rcases first with _ | ride | _ | _ <;> cases hfirst
    rcases last with _ | _ | _ | egress <;> cases hlast
    exact ⟨access, ride, changes, egress, rfl⟩
  · rintro ⟨access, first, changes, egress, rfl⟩
    have hchanges := map_kind_mem_star_iff.mpr ⟨changes, rfl⟩
    refine ⟨(changes.flatMap Change.legs).map Leg.kind, hchanges, ?_⟩
    simp [joinLegs, Leg.kind]

/-! ## Legs that are connected -/

/-- A leg has both of its times, and arrives no earlier than it departs. -/
def Leg.Forward (leg : Leg) : Prop :=
  ∃ departure arrival, leg.departure = .ok departure ∧ leg.arrival = .ok arrival ∧
    departure ≤ arrival

/-- A leg departs no earlier than the one before it arrives, and starts at the stop
where that one ends. -/
def Leg.LeadsTo (leg next : Leg) : Prop :=
  (∃ arrival departure, leg.arrival = .ok arrival ∧ next.departure = .ok departure ∧
    arrival ≤ departure) ∧
  ∃ stop, leg.destination? = some stop ∧ next.origin? = some stop

/-- Every leg runs forward and leads to the next one. -/
structure Connected (legs : List Leg) : Prop where
  forward : ∀ leg ∈ legs, leg.Forward
  chain : legs.IsChain Leg.LeadsTo

theorem connected_singleton_iff {leg : Leg} : Connected [leg] ↔ leg.Forward := by
  constructor
  · rintro ⟨hforward, -⟩
    exact hforward leg List.mem_cons_self
  · intro h
    exact ⟨List.forall_mem_singleton.mpr h, List.IsChain.singleton leg⟩

theorem connected_cons_cons_iff {leg next : Leg} {legs : List Leg} :
    Connected (leg :: next :: legs) ↔
      leg.Forward ∧ leg.LeadsTo next ∧ Connected (next :: legs) := by
  constructor
  · rintro ⟨hforward, hchain⟩
    rw [List.forall_mem_cons] at hforward
    rw [List.isChain_cons_cons] at hchain
    exact ⟨hforward.1, hchain.1, hforward.2, hchain.2⟩
  · rintro ⟨hleg, hleads, hforward, hchain⟩
    exact ⟨List.forall_mem_cons.mpr ⟨hleg, hforward⟩, List.isChain_cons_cons.mpr ⟨hleads, hchain⟩⟩

theorem leadsTo_first_iff {access : Access} {ride : Ride} :
    (Leg.access access).LeadsTo (.ride ride) ↔ ride.CaughtFrom access.stop access.arrival := by
  constructor
  -- An access leg has its time and stop anyway, so `⟨⟩` leaves nothing to look up.
  · rintro ⟨⟨arrival, boarded, ⟨⟩, hboarded, hle⟩, stop, ⟨⟩, hstop⟩
    exact ⟨(Option.some.inj hstop).symm, boarded, hboarded, hle⟩
  · rintro ⟨hstop, boarded, hboarded, hle⟩
    exact ⟨⟨access.arrival, boarded, rfl, hboarded, hle⟩, access.stop, rfl,
      congrArg some hstop.symm⟩

theorem leadsTo_ride_iff {arriving departing : Ride} :
    (Leg.ride arriving).LeadsTo (.ride departing) ↔
      (Junction.mk arriving none departing).Sound := by
  constructor
  · rintro ⟨⟨alighted, boarded, halighted, hboarded, hle⟩, stop, ⟨⟩, hstop⟩
    exact ⟨alighted, boarded, halighted, hboarded, (Option.some.inj hstop).symm, hle⟩
  · rintro ⟨alighted, boarded, halighted, hboarded, hstop, hle⟩
    exact ⟨⟨alighted, boarded, halighted, hboarded, hle⟩, arriving.alightStop, rfl,
      congrArg some hstop.symm⟩

theorem leadsTo_walk_iff {arriving departing : Ride} {walk : Walk} :
    (Leg.ride arriving).LeadsTo (.walk walk) ∧ (Leg.walk walk).Forward ∧
        (Leg.walk walk).LeadsTo (.ride departing) ↔
      (Junction.mk arriving (some walk) departing).Sound := by
  constructor
  · rintro ⟨⟨⟨alighted, start, halighted, ⟨⟩, hstart⟩, stop, ⟨⟩, horigin⟩,
      ⟨start, finish, ⟨⟩, ⟨⟩, hwalk⟩,
      ⟨finish, boarded, ⟨⟩, hboarded, hend⟩, place, ⟨⟩, hdestination⟩
    exact ⟨alighted, boarded, halighted, hboarded, Option.some.inj horigin,
      (Option.some.inj hdestination).symm, hstart, hwalk, hend⟩
  · rintro ⟨alighted, boarded, halighted, hboarded, horigin, hdestination, hstart, hwalk, hend⟩
    exact ⟨⟨⟨alighted, walk.departure, halighted, rfl, hstart⟩, arriving.alightStop, rfl,
        congrArg some horigin⟩,
      ⟨walk.departure, walk.arrival, rfl, rfl, hwalk⟩,
      ⟨walk.arrival, boarded, rfl, hboarded, hend⟩, walk.destination, rfl,
        congrArg some hdestination.symm⟩

theorem leadsTo_egress_iff {ride : Ride} {egress : Egress} :
    (Leg.ride ride).LeadsTo (.egress egress) ∧ (Leg.egress egress).Forward ↔
      ride.Reaches egress := by
  constructor
  · rintro ⟨⟨⟨alighted, start, halighted, ⟨⟩, hstart⟩, stop, ⟨⟩, hstop⟩,
      start, finish, ⟨⟩, ⟨⟩, hegress⟩
    exact ⟨(Option.some.inj hstop).symm, hegress, alighted, halighted, hstart⟩
  · rintro ⟨hstop, hegress, alighted, halighted, hstart⟩
    exact ⟨⟨⟨alighted, egress.departure, halighted, rfl, hstart⟩, ride.alightStop, rfl,
        congrArg some hstop.symm⟩,
      egress.departure, egress.arrival, rfl, rfl, hegress⟩

/-- The run over the changes: legs are connected one by one exactly if they are
sound junction by junction. -/
theorem connected_rides_iff {ride : Ride} {changes : List Change} {egress : Egress} :
    Connected (.ride ride :: (changes.flatMap Change.legs ++ [.egress egress])) ↔
      Onward egress ride changes := by
  induction changes generalizing ride with
  | nil =>
    rw [List.flatMap_nil, List.nil_append, connected_cons_cons_iff, connected_singleton_iff,
      leadsTo_egress_iff]
    exact Iff.rfl
  | cons change changes ih =>
    rcases change with ⟨_ | walk, next⟩
    · show Connected (.ride ride :: .ride next ::
        (changes.flatMap Change.legs ++ [.egress egress])) ↔ _
      rw [connected_cons_cons_iff, leadsTo_ride_iff, ih]
      exact Iff.rfl
    · show Connected (.ride ride :: .walk walk :: .ride next ::
        (changes.flatMap Change.legs ++ [.egress egress])) ↔ _
      rw [connected_cons_cons_iff, connected_cons_cons_iff, ih, Onward, ← leadsTo_walk_iff]
      constructor
      · rintro ⟨hforward, hstart, hwalk, hend, honward⟩
        exact ⟨hforward, ⟨hstart, hwalk, hend⟩, honward⟩
      · rintro ⟨hforward, ⟨hstart, hwalk, hend⟩, honward⟩
        exact ⟨hforward, hstart, hwalk, hend, honward⟩

/-- Legs in the order of an itinerary are accepted exactly if they are connected. -/
theorem connected_joinLegs_iff {access : Access} {first : Ride} {changes : List Change}
    {egress : Egress} :
    Connected (joinLegs access first changes egress) ↔
      checkLegs 0 none (joinLegs access first changes egress) = .ok () := by
  rw [checkLegs_joinLegs_eq_ok_iff, joinLegs, connected_cons_cons_iff, leadsTo_first_iff,
    connected_rides_iff]
  refine and_congr_left fun _ => ?_
  constructor
  · rintro ⟨departure, arrival, ⟨⟩, ⟨⟩, hle⟩
    exact hle
  · intro hle
    exact ⟨access.departure, access.arrival, rfl, rfl, hle⟩

/-! ## Checks that cannot fault -/

/-- Where both times of a leg are known, only a defect stops the check. -/
theorem checkLeg_of_times {index : Nat} {last : Option Reached} {leg : Leg}
    {departure arrival : Time} (hdeparture : leg.departure = .ok departure)
    (harrival : leg.arrival = .ok arrival) :
    checkLeg index last leg = .ok ⟨leg.destination?, arrival⟩ ∨
      ∃ defect, checkLeg index last leg = .error (.badItinerary defect) := by
  cases hdefect : legDefect index last leg.origin? departure arrival with
  | none =>
    refine Or.inl (checkLeg_eq_ok_iff.mpr ⟨rfl, harrival, departure, hdeparture, ?_⟩)
    exact legDefect_eq_none_iff.mp hdefect
  | some defect =>
    have hlift : ∀ time : Time,
        (liftM (Except.ok time : Except Fault Time) : Except Error Time) = pure time :=
      fun _ => rfl
    refine Or.inr ⟨defect, ?_⟩
    simp only [checkLeg, hdeparture, harrival, hlift, pure_bind, hdefect]
    rfl

/-- A leg has both of its times. -/
def Leg.HasTimes (leg : Leg) : Prop :=
  ∃ departure arrival, leg.departure = .ok departure ∧ leg.arrival = .ok arrival

/-- The run of the check over legs whose times are known. -/
theorem checkLegs_of_times {index : Nat} {last : Option Reached} {legs : List Leg}
    (htimes : ∀ leg ∈ legs, leg.HasTimes) :
    checkLegs index last legs = .ok () ∨
      ∃ defect, checkLegs index last legs = .error (.badItinerary defect) := by
  induction legs generalizing index last with
  | nil => exact Or.inl rfl
  | cons leg legs ih =>
    obtain ⟨⟨departure, arrival, hdeparture, harrival⟩, hrest⟩ := List.forall_mem_cons.mp htimes
    rw [checkLegs]
    rcases checkLeg_of_times hdeparture harrival with h | ⟨defect, h⟩
    · rw [h]
      exact ih hrest
    · rw [h]
      exact Or.inr ⟨defect, rfl⟩

/-- The legs of rides on timed trips have their times, and the other legs have them
anyway. -/
theorem Leg.hasTimes_of_timed {leg : Leg} (htimed : ∀ ride, leg = .ride ride → ride.trip.Timed) :
    leg.HasTimes := by
  cases leg with
  | access access => exact ⟨access.departure, access.arrival, rfl, rfl⟩
  | walk walk => exact ⟨walk.departure, walk.arrival, rfl, rfl⟩
  | egress egress => exact ⟨egress.departure, egress.arrival, rfl, rfl⟩
  | ride ride =>
    obtain ⟨boarded, hboarded⟩ := (htimed ride rfl).exists_departureAt ride.board_within
    obtain ⟨alighted, halighted⟩ := (htimed ride rfl).exists_arrivalAt ride.within
    exact ⟨boarded, alighted, hboarded, halighted⟩

/-! ## Which lists are accepted -/

/-- The kinds of the legs come in the order of a journey, and the legs are
connected. -/
structure IsJourney (legs : List Leg) : Prop extends Connected legs where
  kinds : legs.map Leg.kind ∈ LegKind.journeyWord.matches'

namespace Itinerary

theorem exists_ofLegs_iff {legs : List Leg} :
    (∃ itinerary, ofLegs legs = .ok itinerary) ↔ IsJourney legs := by
  simp only [ofLegs_eq_ok_iff]
  constructor
  · rintro ⟨itinerary, rfl⟩
    exact ⟨connected_joinLegs_iff.mpr itinerary.sound,
      map_kind_mem_journeyWord_iff.mpr ⟨_, _, _, _, rfl⟩⟩
  · rintro ⟨hconnected, hkinds⟩
    obtain ⟨access, first, changes, egress, rfl⟩ := map_kind_mem_journeyWord_iff.mp hkinds
    exact ⟨⟨access, first, changes, egress, connected_joinLegs_iff.mp hconnected⟩, rfl⟩

/-- A list of legs with known times is an itinerary or has a defect; reading it
cannot fault. -/
theorem ofLegs_of_times {legs : List Leg} (htimes : ∀ leg ∈ legs, leg.HasTimes) :
    (∃ itinerary, ofLegs legs = .ok itinerary) ∨
      ∃ defect, ofLegs legs = .error (.badItinerary defect) := by
  unfold ofLegs
  split
  · rename_i access first changes egress hparts
    obtain rfl := partsOf_eq_ok_iff.mp hparts
    unfold ofParts
    split
    · exact Or.inl ⟨_, rfl⟩
    · rename_i e he
      rcases checkLegs_of_times htimes with hok | ⟨defect, hdefect⟩
      · rw [hok] at he
        cases he
      · rw [hdefect] at he
        cases he
        exact Or.inr ⟨defect, rfl⟩
  · rename_i defect hparts
    exact Or.inr ⟨defect, rfl⟩

/-- Of the lists of legs that ride on the trips of a timetable, exactly the
journeys are accepted, and every other one is refused for a defect.  An itinerary
has the legs it was made from, and it can be made from its legs again. -/
theorem ofLegs_accepts_journeys {table : Timetable} (hbuilt : table.Built) {legs : List Leg}
    (hrides : ∀ ride, .ride ride ∈ legs → ride.trip ∈ table.trips) :
    ((∃ itinerary, ofLegs legs = .ok itinerary) ↔ IsJourney legs) ∧
      ((∃ defect, ofLegs legs = .error (.badItinerary defect)) ↔ ¬IsJourney legs) ∧
      (∀ itinerary, ofLegs legs = .ok itinerary → itinerary.legs = legs) ∧
      ∀ itinerary : Itinerary, ofLegs itinerary.legs = .ok itinerary := by
  have htimes : ∀ leg ∈ legs, leg.HasTimes := by
    intro leg hleg
    refine Leg.hasTimes_of_timed fun ride hride => hbuilt.timed (hrides ride ?_)
    rw [← hride]
    exact hleg
  refine ⟨exists_ofLegs_iff, ?_, fun _ => ofLegs_eq_ok_iff.mp, ofLegs_legs⟩
  constructor
  · rintro ⟨defect, hdefect⟩ hjourney
    obtain ⟨itinerary, hok⟩ := exists_ofLegs_iff.mpr hjourney
    rw [hok] at hdefect
    cases hdefect
  · intro hother
    exact (ofLegs_of_times htimes).resolve_left fun h => hother (exists_ofLegs_iff.mp h)

end Itinerary

namespace Network

/-- The legs of the journey that walks early, one after the other. -/
def earlyWalkLegs : List Leg :=
  [.access ⟨0, clock 0, clock 30, .zero⟩, .ride redToB, .ride blueToC,
    .walk ⟨2, 5, clock 900, clock 1020, .zero⟩, .ride greenFromX,
    .egress ⟨4, clock 2400, clock 2460, .zero⟩]

end Network

/-- These legs are a journey, and backwards they are none. -/
theorem Itinerary.ofLegs_accepts_journeys_earlyWalk :
    (Timetable.ofSteps Network.steps).Built ∧
      (∀ ride, .ride ride ∈ Network.earlyWalkLegs →
        ride.trip ∈ (Timetable.ofSteps Network.steps).trips) ∧
      IsJourney Network.earlyWalkLegs ∧
      ofLegs Network.earlyWalkLegs = .ok Network.earlyWalk ∧
      ¬IsJourney Network.earlyWalkLegs.reverse := by
  have hbuilt : (Timetable.ofSteps Network.steps).Built := ⟨Network.steps, rfl⟩
  have hrides : ∀ ride, .ride ride ∈ Network.earlyWalkLegs →
      ride.trip ∈ (Timetable.ofSteps Network.steps).trips := by
    intro ride hride
    simp only [Network.earlyWalkLegs, List.mem_cons, reduceCtorEq, Leg.ride.injEq,
      List.not_mem_nil, false_or, or_false] at hride
    rcases hride with rfl | rfl | rfl <;> decide +kernel
  have hback : ∀ ride, .ride ride ∈ Network.earlyWalkLegs.reverse →
      ride.trip ∈ (Timetable.ofSteps Network.steps).trips :=
    fun ride hride => hrides ride (List.mem_reverse.mp hride)
  obtain ⟨haccepts, -, -, hagain⟩ := ofLegs_accepts_journeys hbuilt hrides
  obtain ⟨-, hrefuses, -, -⟩ := ofLegs_accepts_journeys hbuilt hback
  have hwalk : ofLegs Network.earlyWalkLegs = .ok Network.earlyWalk := hagain Network.earlyWalk
  exact ⟨hbuilt, hrides, haccepts.mp ⟨Network.earlyWalk, hwalk⟩, hwalk,
    hrefuses.mp ⟨.noAccess, by decide +kernel⟩⟩

end TransitTransfers
