import TransitTransfers.Proofs.Join.Finding
import TransitTransfers.Proofs.Timetable.Built

/-!
# All joins between two trips, in order

`Join.candidates` lists the joins between two trips without a search and
without words of bounded size.  It goes through the positions behind a given
one and, at each of them, through the `ways` on: to stay at the stop, or to
take one of the footpaths to another stop, in the order in which they were
added.  A way is a candidate if the second trip departs where the way ends late
enough for the slack and the walk, and the first such position of the second
trip is boarded (`Trip.firstDeparture?`).

* `Trip.Timed.boarding?_eq` says that the search of a trip is exact.
* `leavingAt_eq` and `find_eq_candidates` say the same of the joins at one
  position and of all joins, if no sum of times overflows (`SumsFit`).
* `find_eq` is that for the trips of a timetable, from any position on.
-/

namespace TransitTransfers

/-! ## The first departure from a stop -/

/-- The first position where a trip departs from a stop no earlier than
`ready`, in seconds. -/
def Trip.firstDeparture? (trip : Trip) (stop ready : Nat) : Option Nat :=
  (List.range trip.length).find? fun position =>
    trip.callsAt stop position && (trip.departures[position]?).any (ready ≤ ·.seconds)

theorem Trip.firstDeparture?_eq_some_iff {trip : Trip} {earliest : Time} {stop position : Nat} :
    trip.firstDeparture? stop earliest.seconds = some position ↔
      trip.Boards earliest stop position ∧
        ∀ before < position, ¬trip.Boards earliest stop before := by
  have hboards : ∀ position, (trip.callsAt stop position &&
      (trip.departures[position]?).any (earliest.seconds ≤ ·.seconds)) = true ↔
        trip.Boards earliest stop position := by
    intro position
    rw [Bool.and_eq_true, callsAt_iff, Option.any_eq_true]
    simp only [decide_eq_true_eq]
    refine and_congr_right fun _ => exists_congr fun departure => ?_
    rw [departureAt, entryAt_eq_ok_iff, Time.le_iff]
  rw [firstDeparture?, List.find?_range_eq_some, List.mem_range]
  simp only [hboards, Bool.not_eq_true', Bool.eq_false_iff, ne_eq]
  constructor
  · intro h
    exact ⟨h.1, h.2.2⟩
  · intro h
    exact ⟨h.1, lt_of_stopAt h.1.1, h.2⟩

/-- On a timed trip the search for a boarding finds the first departure from the
stop that is late enough. -/
theorem Trip.Timed.boarding?_eq {trip : Trip} (htimed : trip.Timed) (earliest : Time)
    (stop : Nat) :
    trip.boarding? earliest stop = .ok (trip.firstDeparture? stop earliest.seconds) := by
  obtain ⟨found, hfound, hspec⟩ := htimed.boarding?_spec earliest stop
  have heq : found = trip.firstDeparture? stop earliest.seconds := by
    refine Option.ext fun position => ?_
    rw [hspec position, firstDeparture?_eq_some_iff]
  rw [hfound, heq]

namespace Join

/-! ## Candidates -/

/-- The join over a way, if the second trip departs from its end late enough
after an arrival, a pause and the walk. -/
def candidate? (table : Timetable) (source target : Trip) (pause alight stop : Nat)
    (arrival : Time) (way : Option Footpath) : Option Join :=
  let ready := arrival.seconds + pause + pathSeconds way
  (target.firstDeparture? (wayEnd stop way) ready).map fun board =>
    ⟨source, alight, target, board, way,
      table.rules.find? stop (wayEnd stop way) source target⟩

/-- The candidates that leave a trip at a position. -/
def candidatesAt (table : Timetable) (source target : Trip) (pause alight : Nat) : List Join :=
  match source.pattern.stops[alight]?, source.arrivals[alight]? with
  | some stop, some arrival =>
    (ways table stop).filterMap (candidate? table source target pause alight stop arrival)
  | _, _ => []

/-- The candidates that leave a trip behind a position. -/
def candidates (table : Timetable) (slack : SlackPolicy) (source : Trip) (start : Nat)
    (target : Trip) : List Join :=
  (List.range' (start + 1) (source.length - (start + 1))).flatMap
    (candidatesAt table source target (slack.totalSeconds source.pattern))

/-- No sum of times overflows behind a position: not the slack, and not what it
makes together with an arrival and a walk. -/
structure SumsFit (table : Timetable) (slack : SlackPolicy) (source : Trip) (start : Nat) :
    Prop where
  total : slack.totalSeconds source.pattern < wordSize
  ready : ∀ {alight stop : Nat} {arrival : Time}, start < alight →
    source.stopAt alight = .ok stop → source.arrivalAt alight = .ok arrival →
      ∀ way ∈ ways table stop,
        arrival.seconds + slack.totalSeconds source.pattern + pathSeconds way < wordSize

variable {table : Timetable} {slack : SlackPolicy} {source target : Trip}

/-- It is enough that the slack may be added to all arrivals, and all footpaths
to that. -/
theorem SumsFit.of_forall (htotal : slack.totalSeconds source.pattern < wordSize)
    (harrivals : ∀ arrival ∈ source.arrivals,
      slack.totalSeconds source.pattern + arrival.seconds < wordSize)
    (hpaths : ∀ arrival ∈ source.arrivals, ∀ stop ∈ source.pattern.stops,
      ∀ path ∈ table.footpathsFrom stop,
        slack.totalSeconds source.pattern + arrival.seconds + path.duration.seconds < wordSize)
    (start : Nat) : SumsFit table slack source start := by
  refine ⟨htotal, fun {alight stop arrival} _ hstop harrival way hway => ?_⟩
  have hstop' : stop ∈ source.pattern.stops := List.mem_of_getElem? (entryAt_eq_ok_iff.mp hstop)
  have harrival' : arrival ∈ source.arrivals :=
    List.mem_of_getElem? (entryAt_eq_ok_iff.mp harrival)
  rcases List.mem_cons.mp hway with rfl | hwalk
  · have hfits := harrivals arrival harrival'
    show arrival.seconds + slack.totalSeconds source.pattern < wordSize
    omega
  · obtain ⟨path, hpath, rfl⟩ := List.mem_map.mp hwalk
    have hfits := hpaths arrival harrival' stop hstop' path (List.mem_filter.mp hpath).1
    show arrival.seconds + slack.totalSeconds source.pattern + path.duration.seconds < wordSize
    omega

/-! ## The search is exact -/

theorem boardingAt_eq {alight origin stop : Nat} (htarget : target.Timed)
    (horigin : source.stopAt alight = .ok origin) (footpath : Option Footpath) (ready : Time) :
    boardingAt table source alight target footpath stop ready =
      .ok ((target.firstDeparture? stop ready.seconds).map fun board =>
        ⟨source, alight, target, board, footpath,
          table.rules.find? origin stop source target⟩) := by
  rw [boardingAt, htarget.boarding?_eq]
  cases hfound : target.firstDeparture? stop ready.seconds with
  | none => rfl
  | some board =>
    have hboards := (Trip.firstDeparture?_eq_some_iff.mp hfound).1
    have hjoin : between table source alight target board footpath =
        .ok ⟨source, alight, target, board, footpath,
          table.rules.find? origin stop source target⟩ :=
      between_eq_ok_iff.mpr ⟨origin, stop, horigin, hboards.1, rfl⟩
    exact bind_eq_ok_iff.mpr ⟨some board, rfl, bind_eq_ok_iff.mpr ⟨_, hjoin, rfl⟩⟩

/-- At one position the search finds the candidates. -/
theorem leavingAt_eq {pause : Duration} {alight stop : Nat} {arrival : Time}
    (htarget : target.Timed) (hstop : source.stopAt alight = .ok stop)
    (harrival : source.arrivalAt alight = .ok arrival)
    (hfits : ∀ way ∈ ways table stop,
      arrival.seconds + pause.seconds + pathSeconds way < wordSize) :
    leavingAt table source target pause alight =
      .ok (candidatesAt table source target pause.seconds alight) := by
  have hcandidates : candidatesAt table source target pause.seconds alight =
      (ways table stop).filterMap
        (candidate? table source target pause.seconds alight stop arrival) := by
    rw [candidatesAt, entryAt_eq_ok_iff.mp hstop, entryAt_eq_ok_iff.mp harrival]
  let ready : Time := ⟨arrival.seconds + pause.seconds, hfits none List.mem_cons_self⟩
  have hready : arrival.add pause = .ok ready := Time.add_eq_ok_iff.mpr rfl
  have hhere : boardingAt table source alight target none stop ready = .ok _ :=
    boardingAt_eq htarget hstop none ready
  have hthere : ((table.footpathsFrom stop).filter (·.destination ≠ stop)).mapM (fun path => do
      let ready ← ready.add path.duration
      boardingAt table source alight target (some path) path.destination ready) =
        .ok (((table.footpathsFrom stop).filter (·.destination ≠ stop)).map fun path =>
          candidate? table source target pause.seconds alight stop arrival (some path)) := by
    rw [mapM_eq_ok_iff, List.forall₂_map_right_iff, List.forall₂_same]
    intro path hpath
    have hway : some path ∈ ways table stop :=
      List.mem_cons_of_mem _ (List.mem_map_of_mem hpath)
    let later : Time := ⟨ready.seconds + path.duration.seconds, hfits (some path) hway⟩
    have hlater : ready.add path.duration = .ok later := Time.add_eq_ok_iff.mpr rfl
    exact bind_eq_ok_iff.mpr ⟨later, hlater, boardingAt_eq htarget hstop (some path) later⟩
  rw [hcandidates, leavingAt]
  refine bind_eq_ok_iff.mpr ⟨stop, hstop, bind_eq_ok_iff.mpr ⟨arrival, harrival, ?_⟩⟩
  refine bind_eq_ok_iff.mpr ⟨ready, hready, bind_eq_ok_iff.mpr ⟨_, hhere, ?_⟩⟩
  refine bind_eq_ok_iff.mpr ⟨_, hthere, congrArg Except.ok ?_⟩
  rw [← Function.id_comp (candidate? table source target pause.seconds alight stop arrival),
    ← List.filterMap_map, ways, List.map_cons, List.map_map]
  rfl

/-- Between two timed trips the search finds the candidates. -/
theorem find_eq_candidates {start : Nat} (hsource : source.Timed) (htarget : target.Timed)
    (hsums : SumsFit table slack source start) :
    find table slack source start target = .ok (candidates table slack source start target) := by
  obtain ⟨pause, hpause, hseconds⟩ := SlackPolicy.exists_total hsums.total
  refine find_eq_ok_iff.mpr ⟨pause, hpause,
    (List.range' (start + 1) (source.length - (start + 1))).map
      (candidatesAt table source target pause.seconds), ?_, ?_⟩
  · rw [mapM_eq_ok_iff, List.forall₂_map_right_iff, List.forall₂_same]
    intro alight halight
    rw [List.mem_range'_1] at halight
    have hwithin : alight < source.length := by omega
    obtain ⟨stop, hstop⟩ := Trip.exists_stopAt hwithin
    obtain ⟨arrival, harrival⟩ := hsource.exists_arrivalAt hwithin
    refine leavingAt_eq htarget hstop harrival fun way hway => ?_
    rw [hseconds]
    exact hsums.ready (by omega) hstop harrival way hway
  · rw [candidates, hseconds, List.flatMap]

end Join

end TransitTransfers
