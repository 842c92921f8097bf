import TransitTransfers.Join
import TransitTransfers.Proofs.Itinerary.Soundness

/-!
# The joins that are found

A join is `Feasible` if a rider can make it: the footpath leads from the stop
of the first call to the stop of the second, and the second trip departs late
enough for the walk and a pause.

* `ways` are the ways on from a stop, and a join that is found takes one of them
  (`mem_leavingAt`).  It keeps the whole slack as its pause, and its footpath is one
  of the timetable (`mem_find`).
* The join that a sound junction uses already is feasible without a pause
  (`ofJunction_spec`).
* The position where the search starts only leaves joins out.  What is found
  behind a later position is what is found behind an earlier one, without the
  joins that leave the trip too early (`find_eq_filter`).
* On timed trips a search can only stop because a sum does not fit
  (`find_succeeds`).
-/

namespace TransitTransfers

/-- The slack of a change from a trip of a pattern, in seconds. -/
def SlackPolicy.totalSeconds (policy : SlackPolicy) (pattern : Pattern) : Nat :=
  (policy.alighting pattern).seconds + policy.changing.seconds + (policy.boarding pattern).seconds

theorem SlackPolicy.exists_total {policy : SlackPolicy} {pattern : Pattern}
    (hfits : policy.totalSeconds pattern < wordSize) :
    ∃ pause, policy.total pattern = .ok pause ∧ pause.seconds = policy.totalSeconds pattern := by
  unfold totalSeconds at hfits
  let left : Duration :=
    ⟨(policy.alighting pattern).seconds + policy.changing.seconds, by omega⟩
  have hleft : (policy.alighting pattern).add policy.changing = .ok left :=
    Duration.add_eq_ok_iff.mpr rfl
  refine ⟨⟨policy.totalSeconds pattern, hfits⟩, bind_eq_ok_iff.mpr ⟨left, hleft, ?_⟩, rfl⟩
  exact Duration.add_eq_ok_iff.mpr rfl

theorem SlackPolicy.total_seconds {policy : SlackPolicy} {pattern : Pattern} {pause : Duration}
    (h : policy.total pattern = .ok pause) : pause.seconds = policy.totalSeconds pattern := by
  obtain ⟨left, hleft, htotal⟩ := bind_eq_ok_iff.mp h
  rw [Duration.add_eq_ok_iff] at hleft htotal
  unfold totalSeconds
  omega

namespace Join

/-! ## Joins that a rider can make -/

/-- A footpath leads from one stop to another.  Without a footpath it is one
stop. -/
def PathFits (origin destination : Nat) : Option Footpath → Prop
  | none => origin = destination
  | some path => path.origin = origin ∧ path.destination = destination

/-- A rider can make a join with a pause of some seconds besides the walk. -/
def Feasible (pause : Nat) (join : Join) : Prop :=
  ∃ origin destination alighted boarded,
    join.source.stopAt join.alight = .ok origin ∧
      join.target.stopAt join.board = .ok destination ∧
        PathFits origin destination join.footpath ∧
          join.source.arrivalAt join.alight = .ok alighted ∧
            join.target.departureAt join.board = .ok boarded ∧
              alighted.seconds + join.walkDuration.seconds + pause ≤ boarded.seconds

theorem Feasible.mono {join : Join} {pause shorter : Nat} (h : join.Feasible pause)
    (hle : shorter ≤ pause) : join.Feasible shorter := by
  rcases h with ⟨origin, destination, alighted, boarded, horigin, hdestination, hpath, halighted,
    hboarded, htime⟩
  exact ⟨origin, destination, alighted, boarded, horigin, hdestination, hpath, halighted,
    hboarded, by omega⟩

/-! ## Making one join -/

theorem between_eq_ok_iff {table : Timetable} {source target : Trip} {alight board : Nat}
    {footpath : Option Footpath} {join : Join} :
    between table source alight target board footpath = .ok join ↔
      ∃ origin destination, source.stopAt alight = .ok origin ∧
        target.stopAt board = .ok destination ∧
          join = ⟨source, alight, target, board, footpath,
            table.rules.find? origin destination source target⟩ := by
  rw [between, bind_eq_ok_iff]
  refine exists_congr fun origin => ?_
  simp only [bind_eq_ok_iff, pure_eq_ok_iff]
  constructor
  · intro h
    rcases h with ⟨horigin, destination, hdestination, rfl⟩
    exact ⟨destination, horigin, hdestination, rfl⟩
  · intro h
    rcases h with ⟨destination, horigin, hdestination, rfl⟩
    exact ⟨horigin, destination, hdestination, rfl⟩

/-- The rule of a join is the one that the table finds for its stops and
trips. -/
def Ruled (table : Timetable) (join : Join) : Prop :=
  ∃ origin destination, join.source.stopAt join.alight = .ok origin ∧
    join.target.stopAt join.board = .ok destination ∧
      join.rule = table.rules.find? origin destination join.source join.target

/-- A join boards the first call that is found, if there is one. -/
theorem boardingAt_eq_some {table : Timetable} {source target : Trip} {alight stop : Nat}
    {footpath : Option Footpath} {ready : Time} {join : Join}
    (h : boardingAt table source alight target footpath stop ready = .ok (some join)) :
    ∃ board origin destination, target.boarding? ready stop = .ok (some board) ∧
      source.stopAt alight = .ok origin ∧ target.stopAt board = .ok destination ∧
        join = ⟨source, alight, target, board, footpath,
          table.rules.find? origin destination source target⟩ := by
  obtain ⟨found, hfound, h⟩ := bind_eq_ok_iff.mp h
  cases found with
  | none => cases h
  | some board =>
    obtain ⟨made, hmade, h⟩ := bind_eq_ok_iff.mp h
    cases h
    obtain ⟨origin, destination, hjoin⟩ := between_eq_ok_iff.mp hmade
    exact ⟨board, origin, destination, hfound, hjoin⟩

/-- On a timed trip there always is an answer, be it a join or none. -/
theorem exists_boardingAt {table : Timetable} {source target : Trip} {alight stop origin : Nat}
    {footpath : Option Footpath} {ready : Time} (htimed : target.Timed)
    (horigin : source.stopAt alight = .ok origin) :
    ∃ found, boardingAt table source alight target footpath stop ready = .ok found := by
  obtain ⟨found, hfound, hspec⟩ := htimed.boarding?_spec ready stop
  cases found with
  | none => exact ⟨none, bind_eq_ok_iff.mpr ⟨none, hfound, rfl⟩⟩
  | some board =>
    have hboards := (hspec board).mp rfl
    let join : Join := ⟨source, alight, target, board, footpath,
      table.rules.find? origin stop source target⟩
    have hjoin : between table source alight target board footpath = .ok join :=
      between_eq_ok_iff.mpr ⟨origin, stop, horigin, hboards.1.1, rfl⟩
    refine ⟨some join, bind_eq_ok_iff.mpr ⟨some board, hfound, ?_⟩⟩
    exact bind_eq_ok_iff.mpr ⟨join, hjoin, rfl⟩

theorem boardingAt_succeeds {table : Timetable} {source target : Trip} {alight stop origin : Nat}
    {footpath : Option Footpath} {ready : Time} (htimed : target.Timed)
    (horigin : source.stopAt alight = .ok origin) :
    Succeeds (boardingAt table source alight target footpath stop ready) := by
  obtain ⟨found, hfound⟩ := exists_boardingAt htimed horigin
  exact .of_eq_ok hfound

/-! ## Joins that leave at one position -/

/-- The ways on from a stop where a trip is left: to stay there, and the
footpaths to other stops. -/
def ways (table : Timetable) (stop : Nat) : List (Option Footpath) :=
  none :: ((table.footpathsFrom stop).filter (·.destination ≠ stop)).map some

/-- The stop where a way from `stop` ends. -/
def wayEnd (stop : Nat) : Option Footpath → Nat
  | none => stop
  | some path => path.destination

/-- A way fits the stops that it joins, and its footpath is in the timetable. -/
theorem pathFits_of_mem_ways {table : Timetable} (hshelved : table.Shelved) {stop : Nat}
    {way : Option Footpath} (hway : way ∈ ways table stop) :
    PathFits stop (wayEnd stop way) way ∧ ∀ path ∈ way, path ∈ table.footpaths := by
  rcases List.mem_cons.mp hway with rfl | hwalk
  · exact ⟨rfl, by simp⟩
  · obtain ⟨path, hpath, rfl⟩ := List.mem_map.mp hwalk
    have hleaves := (List.mem_filter.mp hpath).1
    refine ⟨⟨hshelved stop path hleaves, rfl⟩, fun path' hpath' => ?_⟩
    cases hpath'
    exact (table.footpathsFrom_sublist stop).subset hleaves

/-- A join that leaves at a position takes one of the ways on. -/
theorem mem_leavingAt {table : Timetable} {source target : Trip} {pause : Duration}
    {alight : Nat} {joins : List Join}
    (h : leavingAt table source target pause alight = .ok joins) {join : Join}
    (hjoin : join ∈ joins) :
    ∃ stop alighted, source.stopAt alight = .ok stop ∧ source.arrivalAt alight = .ok alighted ∧
      ∃ way ∈ ways table stop, ∃ ready : Time,
        boardingAt table source alight target way (wayEnd stop way) ready = .ok (some join) ∧
          ready.seconds = alighted.seconds + pause.seconds + join.walkDuration.seconds := by
  obtain ⟨stop, hstop, h⟩ := bind_eq_ok_iff.mp h
  obtain ⟨alighted, halighted, h⟩ := bind_eq_ok_iff.mp h
  obtain ⟨ready, hready, h⟩ := bind_eq_ok_iff.mp h
  obtain ⟨here, hhere, h⟩ := bind_eq_ok_iff.mp h
  obtain ⟨there, hthere, h⟩ := bind_eq_ok_iff.mp h
  cases h
  rw [Time.add_eq_ok_iff] at hready
  refine ⟨stop, alighted, hstop, halighted, ?_⟩
  rw [List.mem_filterMap] at hjoin
  rcases hjoin with ⟨found, hmem, hfound⟩
  cases hfound
  rcases List.mem_cons.mp hmem with hsame | hwalk
  · have hboarding := hsame ▸ hhere
    obtain ⟨board, origin, destination, -, -, -, rfl⟩ := boardingAt_eq_some hboarding
    exact ⟨none, List.mem_cons_self, ready, hboarding, hready.symm⟩
  · rw [mapM_eq_ok_iff] at hthere
    obtain ⟨path, hpath, hboarding⟩ := exists_mem_of_forall₂ hthere hwalk
    obtain ⟨ready', hready', hboarding⟩ := bind_eq_ok_iff.mp hboarding
    rw [Time.add_eq_ok_iff] at hready'
    refine ⟨some path, List.mem_cons_of_mem _ (List.mem_map_of_mem hpath), ready', hboarding, ?_⟩
    obtain ⟨board, -, -, -, -, -, rfl⟩ := boardingAt_eq_some hboarding
    dsimp only [walkDuration, Option.map_some, Option.getD_some]
    omega

theorem leavingAt_succeeds {table : Timetable} {source target : Trip} {pause : Duration}
    {alight : Nat} (hsource : source.Timed) (htarget : target.Timed)
    (halight : alight < source.length) :
    Succeeds (leavingAt table source target pause alight) := by
  obtain ⟨stop, hstop⟩ := Trip.exists_stopAt halight
  obtain ⟨alighted, halighted⟩ := hsource.exists_arrivalAt halight
  refine (Yields.of_eq_ok hstop rfl).bind fun stop' hstop' => ?_
  subst hstop'
  refine (Yields.of_eq_ok halighted rfl).bind fun alighted' halighted' => ?_
  subst halighted'
  refine (alighted.add_yields pause).bind fun ready _ => ?_
  refine (boardingAt_succeeds htarget hstop).bind fun here _ => ?_
  refine (Succeeds.mapM fun path _ => ?_).bind fun there _ => trivial
  refine (ready.add_yields path.duration).bind fun later _ => ?_
  exact boardingAt_succeeds htarget hstop

/-! ## All joins between two trips -/

theorem find_eq_ok_iff {table : Timetable} {slack : SlackPolicy} {source target : Trip}
    {start : Nat} {joins : List Join} :
    find table slack source start target = .ok joins ↔
      ∃ pause, slack.total source.pattern = .ok pause ∧
        ∃ found, (List.range' (start + 1) (source.length - (start + 1))).mapM
            (leavingAt table source target pause) = .ok found ∧ found.flatten = joins := by
  simp only [find, bind_eq_ok_iff, pure_eq_ok_iff]

/-- A search knows the rules of what it finds. -/
theorem ruled_of_mem_find {table : Timetable} {slack : SlackPolicy} {source target : Trip}
    {start : Nat} {joins : List Join} (h : find table slack source start target = .ok joins)
    {join : Join} (hjoin : join ∈ joins) : join.Ruled table := by
  obtain ⟨pause, -, found, hfound, rfl⟩ := find_eq_ok_iff.mp h
  obtain ⟨leaving, hleaving, hmem⟩ := List.mem_flatten.mp hjoin
  obtain ⟨alight, -, halight⟩ := exists_mem_of_forall₂ (mapM_eq_ok_iff.mp hfound) hleaving
  obtain ⟨stop, -, -, -, way, -, ready, hboarding, -⟩ := mem_leavingAt halight hmem
  obtain ⟨board, origin, destination, -, horigin, hdestination, rfl⟩ := boardingAt_eq_some hboarding
  exact ⟨origin, destination, horigin, hdestination, rfl⟩

/-- What a search finds: a join of the two trips that leaves behind the start
and keeps the slack, over a footpath of the timetable if it walks. -/
theorem mem_find {table : Timetable} {slack : SlackPolicy} {source target : Trip} {start : Nat}
    {joins : List Join} (hshelved : table.Shelved) (htarget : target.Timed)
    (h : find table slack source start target = .ok joins) {join : Join} (hjoin : join ∈ joins) :
    join.source = source ∧ join.target = target ∧ start < join.alight ∧
      (∀ path ∈ join.footpath, path ∈ table.footpaths) ∧
        ∃ pause, slack.total source.pattern = .ok pause ∧ join.Feasible pause.seconds := by
  obtain ⟨pause, hpause, found, hfound, rfl⟩ := find_eq_ok_iff.mp h
  obtain ⟨joins, hjoins, hmem⟩ := List.mem_flatten.mp hjoin
  obtain ⟨alight, halight, hleaving⟩ :=
    exists_mem_of_forall₂ (mapM_eq_ok_iff.mp hfound) hjoins
  rw [List.mem_range'_1] at halight
  obtain ⟨stop, alighted, hstop, halighted, way, hway, ready, hboarding, hready⟩ :=
    mem_leavingAt hleaving hmem
  obtain ⟨hpath, hknown⟩ := pathFits_of_mem_ways hshelved hway
  obtain ⟨board, origin, place, hboard, horigin, hplace, rfl⟩ := boardingAt_eq_some hboarding
  obtain ⟨found', hfound', hspec⟩ := htarget.boarding?_spec ready (wayEnd stop way)
  rw [hfound'] at hboard
  obtain ⟨⟨hdestination, boarded, hboarded, hlate⟩, -⟩ := (hspec board).mp (Except.ok.inj hboard)
  refine ⟨rfl, rfl, Nat.lt_of_succ_le halight.1, hknown, pause, hpause, stop, wayEnd stop way,
    alighted, boarded, hstop, hdestination, hpath, halighted, hboarded, ?_⟩
  rw [Time.le_iff] at hlate
  omega

/-- Every join that leaves at a position leaves there. -/
theorem alight_of_mem_leavingAt {table : Timetable} {source target : Trip} {pause : Duration}
    {alight : Nat} {joins : List Join}
    (h : leavingAt table source target pause alight = .ok joins) {join : Join}
    (hjoin : join ∈ joins) : join.alight = alight := by
  obtain ⟨stop, -, -, -, way, -, ready, hboarding, -⟩ := mem_leavingAt h hjoin
  obtain ⟨board, origin, destination, -, -, -, rfl⟩ := boardingAt_eq_some hboarding
  rfl

/-- Of the positions behind `start` those behind `later` are those that are
greater. -/
theorem filter_range'_succ {start later : Nat} (hle : start ≤ later) (length : Nat) :
    (List.range' (start + 1) (length - (start + 1))).filter (later < ·) =
      List.range' (later + 1) (length - (later + 1)) := by
  by_cases hlt : later + 1 ≤ length
  · have hsplit : List.range' (start + 1) (length - (start + 1)) =
        List.range' (start + 1) (later - start) ++
          List.range' (later + 1) (length - (later + 1)) := by
      rw [show later + 1 = start + 1 + (later - start) by omega, List.range'_append_1]
      congr 1
      omega
    have hbefore : (List.range' (start + 1) (later - start)).filter (later < ·) = [] := by
      rw [List.filter_eq_nil_iff]
      intro position hposition
      rw [List.mem_range'_1] at hposition
      rw [decide_eq_true_iff]
      omega
    have hbehind : (List.range' (later + 1) (length - (later + 1))).filter (later < ·) =
        List.range' (later + 1) (length - (later + 1)) := by
      rw [List.filter_eq_self]
      intro position hposition
      rw [List.mem_range'_1] at hposition
      rw [decide_eq_true_iff]
      omega
    rw [hsplit, List.filter_append, hbefore, hbehind, List.nil_append]
  · rw [show length - (later + 1) = 0 by omega, List.range'_zero, List.filter_eq_nil_iff]
    intro position hposition
    rw [List.mem_range'_1] at hposition
    rw [decide_eq_true_iff]
    omega

/-- A later start only leaves out the joins that leave the trip too early. -/
theorem find_eq_filter {table : Timetable} {slack : SlackPolicy} {source target : Trip}
    {start later : Nat} {all : List Join} (hle : start ≤ later)
    (h : find table slack source start target = .ok all) :
    find table slack source later target = .ok (all.filter (later < ·.alight)) := by
  obtain ⟨pause, hpause, found, hfound, rfl⟩ := find_eq_ok_iff.mp h
  obtain ⟨kept, hkept, hflat⟩ := mapM_filter (p := (later < ·)) (q := (later < ·.alight))
    (fun hleaving join hjoin => by rw [alight_of_mem_leavingAt hleaving hjoin]) hfound
  rw [filter_range'_succ hle] at hkept
  exact find_eq_ok_iff.mpr ⟨pause, hpause, kept, hkept, hflat⟩

theorem total_succeeds (slack : SlackPolicy) (pattern : Pattern) :
    Succeeds (slack.total pattern) :=
  (Duration.add_yields _ _).bind fun left _ => (left.add_yields _).succeeds

/-- On timed trips a search can only stop because a sum does not fit. -/
theorem find_succeeds {table : Timetable} {slack : SlackPolicy} {source target : Trip}
    {start : Nat} (hsource : source.Timed) (htarget : target.Timed) :
    Succeeds (find table slack source start target) := by
  refine (total_succeeds slack source.pattern).bind fun pause _ => ?_
  refine (Succeeds.mapM fun alight halight => ?_).bind fun found _ => trivial
  rw [List.mem_range'_1] at halight
  exact leavingAt_succeeds hsource htarget (by omega)

/-! ## The join of a junction -/

/-- How long a rider walks on a footpath, in seconds. -/
def pathSeconds : Option Footpath → Nat
  | none => 0
  | some path => path.duration.seconds

theorem walkDuration_seconds (join : Join) :
    join.walkDuration.seconds = pathSeconds join.footpath := by
  rw [walkDuration]
  cases join.footpath <;> rfl

/-- The walk of a sound junction has a duration, and its footpath fits. -/
theorem walkedPath_spec {origin destination : Nat} {alighted boarded : Time}
    {walk : Option Walk} (h : WalkFits origin alighted destination boarded walk) :
    ∃ footpath, walkedPath walk = .ok footpath ∧ PathFits origin destination footpath ∧
      alighted.seconds + pathSeconds footpath ≤ boarded.seconds := by
  cases walk with
  | none =>
    rcases h with ⟨hstop, htime⟩
    exact ⟨none, rfl, hstop, htime⟩
  | some walk =>
    rcases h with ⟨horigin, hdestination, hstart, hwalk, hend⟩
    obtain ⟨d, hd, hseconds⟩ := Time.exists_since hwalk
    refine ⟨some ⟨walk.origin, walk.destination, d⟩, ?_, ⟨horigin, hdestination⟩, ?_⟩
    · rw [walkedPath, Walk.duration, hd]
      rfl
    · rw [Time.le_iff] at hstart hend
      show alighted.seconds + d.seconds ≤ boarded.seconds
      omega

theorem ofJunction_positions {table : Timetable} {junction : Junction} {own : Join}
    (h : ofJunction table junction = .ok own) :
    own.positions = (junction.arriving.alight, junction.departing.board) := by
  obtain ⟨footpath, -, h⟩ := bind_eq_ok_iff.mp h
  obtain ⟨origin, destination, -, -, rfl⟩ := between_eq_ok_iff.mp h
  rfl

theorem ofJunction_ruled {table : Timetable} {junction : Junction} {own : Join}
    (h : ofJunction table junction = .ok own) : own.Ruled table := by
  obtain ⟨footpath, -, h⟩ := bind_eq_ok_iff.mp h
  obtain ⟨origin, destination, horigin, hdestination, rfl⟩ := between_eq_ok_iff.mp h
  exact ⟨origin, destination, horigin, hdestination, rfl⟩

/-- The join that a sound junction uses is feasible without a pause. -/
theorem ofJunction_spec {table : Timetable} {junction : Junction} (hsound : junction.Sound) :
    ∃ own, ofJunction table junction = .ok own ∧ own.source = junction.arriving.trip ∧
      own.target = junction.departing.trip ∧ own.Feasible 0 := by
  rcases hsound with ⟨alighted, boarded, halighted, hboarded, hwalk⟩
  obtain ⟨footpath, hfootpath, hpath, htime⟩ := walkedPath_spec hwalk
  let own : Join := ⟨junction.arriving.trip, junction.arriving.alight, junction.departing.trip,
    junction.departing.board, footpath, table.rules.find? junction.arriving.alightStop
      junction.departing.boardStop junction.arriving.trip junction.departing.trip⟩
  have horigin := junction.arriving.stopAt_alight
  have hdestination := junction.departing.stopAt_board
  have hfeasible : own.Feasible 0 := by
    refine ⟨_, _, alighted, boarded, horigin, hdestination, hpath, halighted, hboarded, ?_⟩
    rw [walkDuration_seconds]
    exact htime
  refine ⟨own, ?_, rfl, rfl, hfeasible⟩
  rw [ofJunction, bind_eq_ok_iff]
  exact ⟨footpath, hfootpath, between_eq_ok_iff.mpr ⟨_, _, horigin, hdestination, rfl⟩⟩

theorem ofJunction_succeeds {table : Timetable} {junction : Junction} (hsound : junction.Sound) :
    Succeeds (ofJunction table junction) := by
  obtain ⟨own, hown, -⟩ := ofJunction_spec hsound
  exact .of_eq_ok hown

end Join

end TransitTransfers
