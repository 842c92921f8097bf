import TransitTransfers.Slack
import TransitTransfers.Timetable
import TransitTransfers.Itinerary.Junction

/-!
# Joins between trips

A join is a place where a rider can leave one trip and board the next: a
position on either trip, the footpath between the two stops unless they are
the same, and the transfer rule that decides the change.

`Join.find` lists the joins that leave enough slack.  For every position of
the first trip behind a given one it takes the stop itself first and then the
stops that footpaths lead to, and boards the second trip there at the first
call that can be reached.  `Join.ofJunction` is the join that an itinerary
uses already, with whatever slack it has.
-/

namespace TransitTransfers

/-- A place where one trip can be left and another one boarded. -/
structure Join where
  source : Trip
  /-- The position where it is left. -/
  alight : Nat
  target : Trip
  /-- The position where it is boarded. -/
  board : Nat
  /-- The walk between the stops; none if it is one stop. -/
  footpath : Option Footpath
  /-- The rule that decides the change, if there is one. -/
  rule : Option TransferRule
deriving DecidableEq, Repr

namespace Join

/-- The two positions, which tell a join from others of the same trips. -/
def positions (join : Join) : Nat × Nat := (join.alight, join.board)

/-- The arrival at which the first trip is left. -/
def arriving (join : Join) : Call := ⟨join.source, join.alight, .arrival⟩

/-- The departure at which the second trip is boarded. -/
def departing (join : Join) : Call := ⟨join.target, join.board, .departure⟩

/-- How long the walk takes; no time without a walk. -/
def walkDuration (join : Join) : Duration := (join.footpath.map (·.duration)).getD .zero

/-- Whether the second trip is boarded at the stop where the first is left. -/
def sameStop (join : Join) : Except Fault Bool := do
  let origin ← join.arriving.stop
  let destination ← join.departing.stop
  return origin = destination

/-- A join as text. -/
def text (join : Join) : Except Fault String := do
  let arriving ← join.arriving.text
  let departing ← join.departing.text
  match join.footpath with
  | some path => return s!"{arriving} ~ Walk {path.duration.text} ~ {departing}"
  | none => return s!"{arriving} ~ {departing}"

/-- The join between two positions, with the rule that decides it. -/
def between (table : Timetable) (source : Trip) (alight : Nat) (target : Trip) (board : Nat)
    (footpath : Option Footpath) : Except Fault Join := do
  let origin ← source.stopAt alight
  let destination ← target.stopAt board
  return { source, alight, target, board, footpath
           rule := table.rules.find? origin destination source target }

/-- The walk of a junction as a footpath. -/
def walkedPath : Option Walk → Except Fault (Option Footpath)
  | none => return none
  | some walk => do
    let duration ← walk.duration
    return some ⟨walk.origin, walk.destination, duration⟩

/-- The join that a junction uses. -/
def ofJunction (table : Timetable) (junction : Junction) : Except Fault Join := do
  let footpath ← walkedPath junction.walk
  between table junction.arriving.trip junction.arriving.alight
    junction.departing.trip junction.departing.board footpath

/-! ## Finding joins -/

/-- The join that leaves `source` at the position `alight` and boards `target`
at the first call at `stop` that departs at `ready` or later. -/
def boardingAt (table : Timetable) (source : Trip) (alight : Nat) (target : Trip)
    (footpath : Option Footpath) (stop : Nat) (ready : Time) : Except Fault (Option Join) := do
  let some board ← target.boarding? ready stop | return none
  let join ← between table source alight target board footpath
  return some join

/-- The joins that leave `source` at the position `alight`, where a change
takes `pause`: at the stop itself, and over the footpaths to other stops. -/
def leavingAt (table : Timetable) (source target : Trip) (pause : Duration) (alight : Nat) :
    Except Fault (List Join) := do
  let stop ← source.stopAt alight
  let arrival ← source.arrivalAt alight
  let ready ← arrival.add pause
  let here ← boardingAt table source alight target none stop ready
  let paths := (table.footpathsFrom stop).filter (·.destination ≠ stop)
  let there ← paths.mapM fun path => do
    let ready ← ready.add path.duration
    boardingAt table source alight target (some path) path.destination ready
  return (here :: there).filterMap id

/-- The joins from `source` to `target` that leave `source` behind the
position `start` and keep the slack.  A position is that of an entry in memory or
is given as a signed 64-bit word, so the one behind it is a word as well and needs
no check. -/
def find (table : Timetable) (slack : SlackPolicy) (source : Trip) (start : Nat)
    (target : Trip) : Except Fault (List Join) := do
  let pause ← slack.total source.pattern
  let behind := List.range' (start + 1) (source.length - (start + 1))
  let found ← behind.mapM (leavingAt table source target pause)
  return found.flatten

end Join

end TransitTransfers
