import TransitTransfers.Leg
import TransitTransfers.Proofs.Timetable.Built

/-!
# Finding a ride again

A ride is told by the stops and times at which it starts and ends.
`Ride.locate` finds it again with two searches that look at a bound on the time
only: the first call at the stop that departs no earlier, and the last call at
the stop that arrives no later.  Then it checks that the times are met exactly.
Times run forward along a trip, so the call that is found is one at the very
time if there is any, and nothing is missed.

* `Trip.DepartsAt` and `Trip.ArrivesAt` say which positions are looked for.
* `Timed.locateBoard_cases` and `Timed.locateAlight_cases` are the two searches
  with their checks: the least position that departs, and the greatest one that
  arrives if it is behind the first.
* `Timed.locate_cases` says which of three answers is given.  `exists_located` takes
  the answer for the stops and times of a ride, and `locate_complete` reads the whole
  specification off the three cases.
* `searches_extremal` is about the two searches alone, on a trip of a timetable: what
  they find is the first position to board and the last one to alight.
-/

namespace TransitTransfers

namespace Ride

theorem between_of_lt {trip : Trip} {board alight : Nat} (cost : Cost)
    (hforward : board < alight) (hwithin : alight < trip.length) :
    between trip board alight cost = .ok ⟨trip, board, alight, cost, hforward, hwithin⟩ := by
  rw [between, of?, dif_pos ⟨hforward, hwithin⟩]

theorem trip_of_between {trip : Trip} {board alight : Nat} {cost : Cost} {ride : Ride}
    (h : between trip board alight cost = .ok ride) : ride.trip = trip := by
  rw [between, of?] at h
  split_ifs at h with hforward
  cases h
  rfl

end Ride

namespace Trip

/-- A trip departs from `stop` at `time` at a position. -/
def DepartsAt (trip : Trip) (stop : Nat) (time : Time) (position : Nat) : Prop :=
  trip.stopAt position = .ok stop ∧ trip.departureAt position = .ok time

/-- A trip arrives at `stop` at `time` at a position. -/
def ArrivesAt (trip : Trip) (stop : Nat) (time : Time) (position : Nat) : Prop :=
  trip.stopAt position = .ok stop ∧ trip.arrivalAt position = .ok time

section Searches

variable {trip : Trip} {stop position : Nat} {time : Time}

theorem DepartsAt.boards (h : trip.DepartsAt stop time position) :
    trip.Boards time stop position :=
  ⟨h.1, time, h.2, Nat.le_refl _⟩

theorem ArrivesAt.alights (h : trip.ArrivesAt stop time position) :
    trip.Alights time stop position :=
  ⟨h.1, time, h.2, Nat.le_refl _⟩

/-! ## The two searches -/

/-- A call that departs no earlier than `time` departs at `time` if a later call
does. -/
theorem Timed.departure_eq (htimed : trip.Timed) {found : Nat} {departure : Time}
    (hfound : trip.departureAt found = .ok departure) (hearliest : time ≤ departure)
    (hle : found ≤ position) (hposition : trip.departureAt position = .ok time) :
    departure = time :=
  Time.ext (Nat.le_antisymm (htimed.departure_le_departure hle hfound hposition) hearliest)

/-- A call that arrives no later than `time` arrives at `time` if an earlier call
does. -/
theorem Timed.arrival_eq (htimed : trip.Timed) {found : Nat} {arrival : Time}
    (hfound : trip.arrivalAt found = .ok arrival) (hlatest : arrival ≤ time)
    (hle : position ≤ found) (hposition : trip.arrivalAt position = .ok time) :
    arrival = time :=
  Time.ext (Nat.le_antisymm hlatest (htimed.arrival_le_arrival hle hposition hfound))

/-- The first position that departs from the stop at the time is found. -/
theorem Timed.locateBoard_cases (htimed : trip.Timed) (stop : Nat) (time : Time) :
    (Ride.locateBoard trip stop time = .ok none ∧
        ∀ position, ¬trip.DepartsAt stop time position) ∨
      ∃ position, Ride.locateBoard trip stop time = .ok (some position) ∧
        IsLeast {other | trip.DepartsAt stop time other} position := by
  unfold Ride.locateBoard
  rcases htimed.boarding?_cases time stop with ⟨hsearch, hnone⟩ | ⟨found, hsearch, hleast⟩
  · rw [hsearch]
    exact Or.inl ⟨rfl, fun position hdeparts => hnone position hdeparts.boards⟩
  · obtain ⟨⟨hstop, departure, hdeparture, hearliest⟩, hfirst⟩ := hleast
    by_cases hmet : departure = time
    · refine Or.inr ⟨found, ?_, ⟨hstop, hmet ▸ hdeparture⟩, fun other hother => ?_⟩
      · refine bind_eq_ok_iff.mpr ⟨some found, hsearch, ?_⟩
        exact bind_eq_ok_iff.mpr ⟨departure, hdeparture, congrArg _ (if_pos hmet)⟩
      · exact hfirst (DepartsAt.boards hother)
    · refine Or.inl ⟨?_, fun position hdeparts => hmet ?_⟩
      · refine bind_eq_ok_iff.mpr ⟨some found, hsearch, ?_⟩
        exact bind_eq_ok_iff.mpr ⟨departure, hdeparture, congrArg _ (if_neg hmet)⟩
      · exact htimed.departure_eq hdeparture hearliest (hfirst hdeparts.boards) hdeparts.2

/-- The last position that arrives at the stop at the time is found, unless it is
not behind the position where the ride boards. -/
theorem Timed.locateAlight_cases (htimed : trip.Timed) (board stop : Nat) (time : Time) :
    (Ride.locateAlight trip board stop time = .ok none ∧
        ∀ position, trip.ArrivesAt stop time position → position ≤ board) ∨
      ∃ position, Ride.locateAlight trip board stop time = .ok (some position) ∧
        board < position ∧ IsGreatest {other | trip.ArrivesAt stop time other} position := by
  unfold Ride.locateAlight
  rcases htimed.alighting?_cases time stop with ⟨hsearch, hnone⟩ | ⟨found, hsearch, hgreatest⟩
  · rw [hsearch]
    exact Or.inl ⟨rfl, fun position harrives => absurd harrives.alights (hnone position)⟩
  · obtain ⟨⟨hstop, arrival, harrival, hlatest⟩, hlast⟩ := hgreatest
    by_cases hmet : arrival = time ∧ board < found
    · refine Or.inr ⟨found, ?_, hmet.2, ⟨hstop, hmet.1 ▸ harrival⟩, fun other hother => ?_⟩
      · refine bind_eq_ok_iff.mpr ⟨some found, hsearch, ?_⟩
        exact bind_eq_ok_iff.mpr ⟨arrival, harrival, congrArg _ (if_pos hmet)⟩
      · exact hlast (ArrivesAt.alights hother)
    · refine Or.inl ⟨?_, fun position harrives => ?_⟩
      · refine bind_eq_ok_iff.mpr ⟨some found, hsearch, ?_⟩
        exact bind_eq_ok_iff.mpr ⟨arrival, harrival, congrArg _ (if_neg hmet)⟩
      · have hle : position ≤ found := hlast harrives.alights
        have htime := htimed.arrival_eq harrival hlatest hle harrives.2
        by_contra hbehind
        exact hmet ⟨htime, by omega⟩

end Searches

/-! ## The ride between two calls -/

/-- A rider can go on a trip from a stop, at the time when the trip departs there,
to a stop behind it, at the time when the trip arrives there. -/
def Carries (trip : Trip) (boardStop : Nat) (boardTime : Time) (alightStop : Nat)
    (alightTime : Time) : Prop :=
  ∃ board alight, board < alight ∧ trip.DepartsAt boardStop boardTime board ∧
    trip.ArrivesAt alightStop alightTime alight

/-- Looking for a ride ends in one of three ways.  Nothing departs from the first
stop at the first time; or something does, but nothing behind it arrives at the
second stop at the second time; or the ride goes from the first position that
departs to the last one that arrives. -/
theorem Timed.locate_cases {trip : Trip} (htimed : trip.Timed) (boardStop : Nat)
    (boardTime : Time) (alightStop : Nat) (alightTime : Time) (cost : Cost) :
    (Ride.locate trip boardStop boardTime alightStop alightTime cost =
          .error (.noSuchCall trip.id boardStop boardTime) ∧
        ∀ board, ¬trip.DepartsAt boardStop boardTime board) ∨
      (Ride.locate trip boardStop boardTime alightStop alightTime cost =
            .error (.noSuchCall trip.id alightStop alightTime) ∧
          (∃ board, trip.DepartsAt boardStop boardTime board) ∧
            ¬trip.Carries boardStop boardTime alightStop alightTime) ∨
        ∃ ride, Ride.locate trip boardStop boardTime alightStop alightTime cost = .ok ride ∧
          ride.trip = trip ∧ ride.cost = cost ∧
            IsLeast {board | trip.DepartsAt boardStop boardTime board} ride.board ∧
              IsGreatest {alight | trip.ArrivesAt alightStop alightTime alight} ride.alight := by
  unfold Ride.locate
  rcases htimed.locateBoard_cases boardStop boardTime with
    ⟨hboard, hnone⟩ | ⟨board, hboard, hleast⟩
  · rw [hboard]
    exact Or.inl ⟨rfl, hnone⟩
  · rw [hboard]
    rcases htimed.locateAlight_cases board alightStop alightTime with
      ⟨halight, hbehind⟩ | ⟨alight, halight, hforward, hgreatest⟩
    · refine Or.inr (Or.inl ⟨?_, ⟨board, hleast.1⟩, ?_⟩)
      · show (liftFault (Ride.locateAlight trip board alightStop alightTime) >>= _) = _
        rw [halight]
        rfl
      · intro h
        obtain ⟨other, alight, hlt, hdeparts, harrives⟩ := h
        have hle : board ≤ other := hleast.2 hdeparts
        have hle' : alight ≤ board := hbehind alight harrives
        omega
    · have hwithin : alight < trip.length := lt_of_stopAt hgreatest.1.1
      refine Or.inr (Or.inr ⟨⟨trip, board, alight, cost, hforward, hwithin⟩, ?_, rfl, rfl,
        hleast, hgreatest⟩)
      show (liftFault (Ride.locateAlight trip board alightStop alightTime) >>= _) = _
      rw [halight]
      exact Ride.between_of_lt cost hforward hwithin

end Trip

namespace Ride

variable {ride : Ride} {stop : Nat} {time : Time}

theorem departsAt_iff :
    ride.trip.DepartsAt stop time ride.board ↔
      ride.boardStop = stop ∧ ride.boardTime = .ok time := by
  rw [Trip.DepartsAt, stopAt_board, Except.ok.injEq, boardTime]

theorem arrivesAt_iff :
    ride.trip.ArrivesAt stop time ride.alight ↔
      ride.alightStop = stop ∧ ride.alightTime = .ok time := by
  rw [Trip.ArrivesAt, stopAt_alight, Except.ok.injEq, alightTime]

/-- A ride is found again by its own stops and times, perhaps between other positions. -/
theorem exists_located (htimed : ride.trip.Timed) (cost : Cost) :
    ∃ boarded alighted found, ride.boardTime = .ok boarded ∧ ride.alightTime = .ok alighted ∧
      locate ride.trip ride.boardStop boarded ride.alightStop alighted cost = .ok found ∧
        found.boardStop = ride.boardStop ∧ found.boardTime = .ok boarded ∧
          found.alightStop = ride.alightStop ∧ found.alightTime = .ok alighted := by
  obtain ⟨boarded, hboarded⟩ := htimed.exists_departureAt ride.board_within
  obtain ⟨alighted, halighted⟩ := htimed.exists_arrivalAt ride.within
  have hdeparts := departsAt_iff.mpr ⟨rfl, hboarded⟩
  have harrives := arrivesAt_iff.mpr ⟨rfl, halighted⟩
  refine ⟨boarded, alighted, ?_⟩
  rcases htimed.locate_cases ride.boardStop boarded ride.alightStop alighted cost with
    ⟨-, hnone⟩ | ⟨-, -, hno⟩ | ⟨found, hrun, hfound, -, hleast, hgreatest⟩
  · exact absurd hdeparts (hnone ride.board)
  · exact absurd ⟨ride.board, ride.alight, ride.forward, hdeparts, harrives⟩ hno
  · have hstart : ride.trip.DepartsAt ride.boardStop boarded found.board := hleast.1
    have hend : ride.trip.ArrivesAt ride.alightStop alighted found.alight := hgreatest.1
    rw [← hfound, departsAt_iff] at hstart
    rw [← hfound, arrivesAt_iff] at hend
    exact ⟨found, hboarded, halighted, hrun, hstart.1, hstart.2, hend.1, hend.2⟩

/-- Looking for a ride on a trip of a timetable finds it whenever there is one:
some position departs from the first stop at the first time, and one behind it
arrives at the second stop at the second time.  What is found goes from the first
such position to the last.  Otherwise the call that is missing is named: the first
one if nothing departs there, and else the second one.  In particular every ride
on the trip is found again by its own stops and times. -/
theorem locate_complete {table : Timetable} (hbuilt : table.Built) {trip : Trip}
    (htrip : trip ∈ table.trips) :
    (∀ boardStop boardTime alightStop alightTime cost,
      ((∃ ride, locate trip boardStop boardTime alightStop alightTime cost = .ok ride) ↔
          trip.Carries boardStop boardTime alightStop alightTime) ∧
        (∀ ride, locate trip boardStop boardTime alightStop alightTime cost = .ok ride →
          ride.trip = trip ∧ ride.cost = cost ∧
            IsLeast {board | trip.DepartsAt boardStop boardTime board} ride.board ∧
              IsGreatest {alight | trip.ArrivesAt alightStop alightTime alight} ride.alight) ∧
        ((∀ board, ¬trip.DepartsAt boardStop boardTime board) →
          locate trip boardStop boardTime alightStop alightTime cost =
            .error (.noSuchCall trip.id boardStop boardTime)) ∧
        ((∃ board, trip.DepartsAt boardStop boardTime board) →
          ¬trip.Carries boardStop boardTime alightStop alightTime →
            locate trip boardStop boardTime alightStop alightTime cost =
              .error (.noSuchCall trip.id alightStop alightTime))) ∧
      ∀ board alight price ride, between trip board alight price = .ok ride → ∀ cost,
        ∃ boarded alighted found, ride.boardTime = .ok boarded ∧
          ride.alightTime = .ok alighted ∧
            locate trip ride.boardStop boarded ride.alightStop alighted cost = .ok found ∧
              found.boardStop = ride.boardStop ∧ found.boardTime = .ok boarded ∧
                found.alightStop = ride.alightStop ∧ found.alightTime = .ok alighted := by
  have htimed := hbuilt.timed htrip
  constructor
  · intro boardStop boardTime alightStop alightTime cost
    rcases htimed.locate_cases boardStop boardTime alightStop alightTime cost with
      ⟨hrun, hnone⟩ | ⟨hrun, ⟨board, hdeparts⟩, hno⟩ | ⟨ride, hrun, htrip, hcost, hleast, hgreatest⟩
    · have hno : ¬trip.Carries boardStop boardTime alightStop alightTime :=
        fun ⟨board, _, _, hdeparts, _⟩ => hnone board hdeparts
      rw [hrun]
      refine ⟨⟨?_, fun h => absurd h hno⟩, ?_, fun _ => rfl, ?_⟩
      · rintro ⟨ride, ⟨⟩⟩
      · rintro ride ⟨⟩
      · rintro ⟨board, hdeparts⟩
        exact absurd hdeparts (hnone board)
    · rw [hrun]
      refine ⟨⟨?_, fun h => absurd h hno⟩, ?_, ?_, fun _ _ => rfl⟩
      · rintro ⟨ride, ⟨⟩⟩
      · rintro ride ⟨⟩
      · intro hnone
        exact absurd hdeparts (hnone board)
    · subst htrip
      have hcarries : ride.trip.Carries boardStop boardTime alightStop alightTime :=
        ⟨ride.board, ride.alight, ride.forward, hleast.1, hgreatest.1⟩
      rw [hrun]
      refine ⟨⟨fun _ => hcarries, fun _ => ⟨ride, rfl⟩⟩, ?_, ?_, ?_⟩
      · rintro other ⟨⟩
        exact ⟨rfl, hcost, hleast, hgreatest⟩
      · intro hnone
        exact absurd hleast.1 (hnone ride.board)
      · intro _ hno
        exact absurd hcarries hno
  · intro board alight price ride hride cost
    obtain rfl := trip_of_between hride
    exact exists_located htimed cost

end Ride

/-! ## The two searches alone -/

namespace Trip

variable {trip : Trip}

/-- The search for a boarding has an answer: the least position with the stop and the
time, and none exactly if there is no such position. -/
theorem Timed.boarding?_isLeast (htimed : trip.Timed) (earliest : Time) (stop : Nat) :
    ∃ found, trip.boarding? earliest stop = .ok found ∧
      (∀ position, found = some position ↔
        IsLeast {other | trip.Boards earliest stop other} position) ∧
      (found = none ↔ ∀ position, ¬trip.Boards earliest stop position) := by
  rcases htimed.boarding?_cases earliest stop with ⟨hsearch, hnone⟩ | ⟨first, hsearch, hleast⟩
  · refine ⟨none, hsearch, fun position => ?_, iff_of_true rfl hnone⟩
    exact iff_of_false (by simp) fun h => hnone position h.1
  · refine ⟨some first, hsearch, fun position => ?_, ?_⟩
    · rw [Option.some.injEq]
      constructor
      · rintro rfl
        exact hleast
      · exact hleast.unique
    · exact iff_of_false (by simp) fun hnone => hnone first hleast.1

/-- The search for an alighting has an answer: the greatest position with the stop and
the time, and none exactly if there is no such position. -/
theorem Timed.alighting?_isGreatest (htimed : trip.Timed) (latest : Time) (stop : Nat) :
    ∃ found, trip.alighting? latest stop = .ok found ∧
      (∀ position, found = some position ↔
        IsGreatest {other | trip.Alights latest stop other} position) ∧
      (found = none ↔ ∀ position, ¬trip.Alights latest stop position) := by
  rcases htimed.alighting?_cases latest stop with ⟨hsearch, hnone⟩ | ⟨last, hsearch, hgreatest⟩
  · refine ⟨none, hsearch, fun position => ?_, iff_of_true rfl hnone⟩
    exact iff_of_false (by simp) fun h => hnone position h.1
  · refine ⟨some last, hsearch, fun position => ?_, ?_⟩
    · rw [Option.some.injEq]
      constructor
      · rintro rfl
        exact hgreatest
      · exact hgreatest.unique
    · exact iff_of_false (by simp) fun hnone => hnone last hgreatest.1

/-- On a trip of a timetable the two searches never fault.  For every bound on the time
and every stop, the first finds the least position that calls at the stop and departs no
earlier, the second the greatest position that calls at the stop and arrives no later,
and either finds nothing exactly if there is no such position. -/
theorem searches_extremal {table : Timetable} (hbuilt : table.Built) (htrip : trip ∈ table.trips)
    (bound : Time) (stop : Nat) :
    (∃ found, trip.boarding? bound stop = .ok found ∧
        (∀ position, found = some position ↔
          IsLeast {other | trip.Boards bound stop other} position) ∧
        (found = none ↔ ∀ position, ¬trip.Boards bound stop position)) ∧
      ∃ found, trip.alighting? bound stop = .ok found ∧
        (∀ position, found = some position ↔
          IsGreatest {other | trip.Alights bound stop other} position) ∧
        (found = none ↔ ∀ position, ¬trip.Alights bound stop position) :=
  ⟨(hbuilt.timed htrip).boarding?_isLeast bound stop,
    (hbuilt.timed htrip).alighting?_isGreatest bound stop⟩

end Trip

/-! ## A trip back and forth -/

namespace Network

/-- One trip that goes back and forth between two stops and takes no time for
some of it. -/
def shuttleSteps : List Timetable.Step :=
  [.stop "A" "A", .stop "B" "B", .route "1" none,
    .trip "shuttle" "1" [⟨"A", clock 0, clock 0⟩, ⟨"B", clock 60, clock 60⟩,
      ⟨"A", clock 60, clock 60⟩, ⟨"B", clock 60, clock 60⟩, ⟨"A", clock 120, clock 120⟩]]

/-- The trip back and forth. -/
def shuttle : Trip :=
  ⟨0, "shuttle", 0, ⟨0, 0, [0, 1, 0, 1, 0]⟩, [0, 60, 60, 60, 120].map clock,
    [0, 60, 60, 60, 120].map clock⟩

end Network

/-- The trip calls twice at B within one second, so a ride from B to B in no time
goes from the second position to the fourth.  Nothing departs from B at half a
minute, and behind B nothing arrives at A when the trip has just started. -/
theorem Ride.locate_complete_shuttle :
    Network.shuttle ∈ (Timetable.ofSteps Network.shuttleSteps).trips ∧
      Network.shuttle.Carries 1 (Network.clock 60) 1 (Network.clock 60) ∧
      (∃ ride, locate Network.shuttle 1 (Network.clock 60) 1 (Network.clock 60) .zero = .ok ride ∧
        IsLeast {board | Network.shuttle.DepartsAt 1 (Network.clock 60) board} ride.board ∧
          IsGreatest {alight | Network.shuttle.ArrivesAt 1 (Network.clock 60) alight} ride.alight ∧
            (ride.board, ride.alight) = (1, 3)) ∧
      locate Network.shuttle 1 (Network.clock 30) 0 (Network.clock 60) .zero =
        .error (.noSuchCall "shuttle" 1 (Network.clock 30)) ∧
      locate Network.shuttle 1 (Network.clock 60) 0 (Network.clock 0) .zero =
        .error (.noSuchCall "shuttle" 0 (Network.clock 0)) := by
  have hshuttle : Network.shuttle ∈ (Timetable.ofSteps Network.shuttleSteps).trips := by
    decide +kernel
  obtain ⟨hlocate, -⟩ := locate_complete ⟨Network.shuttleSteps, rfl⟩ hshuttle
  have hdeparts : Network.shuttle.DepartsAt 1 (Network.clock 60) 1 := ⟨by decide, by decide⟩
  have hcarries : Network.shuttle.Carries 1 (Network.clock 60) 1 (Network.clock 60) :=
    ⟨1, 3, by decide, hdeparts, by decide, by decide⟩
  obtain ⟨hfinds, hends, -, -⟩ := hlocate 1 (Network.clock 60) 1 (Network.clock 60) .zero
  obtain ⟨ride, hride⟩ := hfinds.mpr hcarries
  obtain ⟨-, -, hleast, hgreatest⟩ := hends ride hride
  refine ⟨hshuttle, hcarries, ⟨ride, hride, hleast, hgreatest, ?_⟩, ?_, ?_⟩
  · have hpositions : (locate Network.shuttle 1 (Network.clock 60) 1 (Network.clock 60) .zero).map
        (fun ride => (ride.board, ride.alight)) = .ok (1, 3) := by
      decide +kernel
    rw [hride] at hpositions
    exact Except.ok.inj hpositions
  · obtain ⟨-, -, hnone, -⟩ := hlocate 1 (Network.clock 30) 0 (Network.clock 60) .zero
    have hother : ∀ board < Network.shuttle.length,
        Network.shuttle.departureAt board ≠ .ok (Network.clock 30) := by
      decide +kernel
    exact hnone fun board h => hother board (Trip.lt_of_stopAt h.1) h.2
  · obtain ⟨-, -, -, hmissing⟩ := hlocate 1 (Network.clock 60) 0 (Network.clock 0) .zero
    have hstart : ∀ alight < Network.shuttle.length,
        Network.shuttle.arrivalAt alight = .ok (Network.clock 0) → alight = 0 := by
      decide +kernel
    refine hmissing ⟨1, hdeparts⟩ ?_
    rintro ⟨board, alight, hlt, -, harrives⟩
    have hzero := hstart alight (Trip.lt_of_stopAt harrives.1) harrives.2
    omega

/-- Three calls share the second of one minute.  From then on the trip can be boarded at B
at the second position already, though it calls there again, and until then it can be
left at B at the fourth position, though it has called there before.  It never calls at a
third stop. -/
theorem Trip.searches_extremal_shuttle :
    Network.shuttle ∈ (Timetable.ofSteps Network.shuttleSteps).trips ∧
      IsLeast {position | Network.shuttle.Boards (Network.clock 60) 1 position} 1 ∧
      IsGreatest {position | Network.shuttle.Alights (Network.clock 60) 1 position} 3 ∧
      ∀ position, ¬Network.shuttle.Boards (Network.clock 60) 2 position := by
  have hshuttle : Network.shuttle ∈ (Timetable.ofSteps Network.shuttleSteps).trips := by
    decide +kernel
  have hsearches := searches_extremal ⟨Network.shuttleSteps, rfl⟩ hshuttle (Network.clock 60)
  obtain ⟨⟨first, hfirst, hleast, -⟩, last, hlast, hgreatest, -⟩ := hsearches 1
  obtain ⟨⟨other, hother, -, hnone⟩, -⟩ := hsearches 2
  have hfound : Network.shuttle.boarding? (Network.clock 60) 1 = .ok (some 1) := by
    decide +kernel
  have hleft : Network.shuttle.alighting? (Network.clock 60) 1 = .ok (some 3) := by
    decide +kernel
  have hmissed : Network.shuttle.boarding? (Network.clock 60) 2 = .ok none := by
    decide +kernel
  rw [hfound] at hfirst
  rw [hleft] at hlast
  rw [hmissed] at hother
  exact ⟨hshuttle, (hleast 1).mp (Except.ok.inj hfirst).symm,
    (hgreatest 3).mp (Except.ok.inj hlast).symm, hnone.mp (Except.ok.inj hother).symm⟩

end TransitTransfers
