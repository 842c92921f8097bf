import TransitTransfers.Proofs.Schedule.Times

/-!
# Times that are all later by the same number of seconds

Times are compared with each other, and never with a fixed time.  So a search
on a trip finds the same positions when all times of the trip are moved by some
seconds, and the time that is searched for with them.

* `Time.LaterBy` moves one time.  Orders and differences of times stay
  (`LaterBy.lt_iff`, `since_eq`), and sums move along (`LaterBy.add`).
* `Trip.LaterBy` moves all times of a trip.  Its calls move along
  (`LaterBy.arrivalAt`), and the search for a boarding is not affected
  (`LaterBy.boarding?_eq`).
-/

namespace TransitTransfers

/-- A time is moved by some seconds.  It becomes earlier if they are
negative. -/
def Time.LaterBy (seconds : Int) (t moved : Time) : Prop :=
  (moved.seconds : Int) = t.seconds + seconds

namespace Time.LaterBy

variable {seconds : Int} {t moved u umoved : Time}

theorem lt_iff (h : t.LaterBy seconds moved) (h' : u.LaterBy seconds umoved) :
    moved < umoved ↔ t < u := by
  unfold LaterBy at h h'
  rw [Time.lt_iff, Time.lt_iff]
  omega

theorem le_iff (h : t.LaterBy seconds moved) (h' : u.LaterBy seconds umoved) :
    moved ≤ umoved ↔ t ≤ u := by
  unfold LaterBy at h h'
  rw [Time.le_iff, Time.le_iff]
  omega

/-- The duration between two times stays. -/
theorem since?_eq (h : t.LaterBy seconds moved) (h' : u.LaterBy seconds umoved) :
    moved.since? umoved = t.since? u := by
  unfold LaterBy at h h'
  refine Option.ext fun d => ?_
  rw [Time.since?_eq_some_iff, Time.since?_eq_some_iff]
  omega

theorem since_eq (h : t.LaterBy seconds moved) (h' : u.LaterBy seconds umoved) :
    moved.since umoved = t.since u := by
  rw [Time.since, Time.since, h.since?_eq h']

/-- A sum with a duration moves along. -/
theorem add (h : t.LaterBy seconds moved) (d : Duration) :
    Agrees (LaterBy seconds) (t.add d) (moved.add d) := by
  unfold LaterBy at h
  unfold Time.add
  split
  · split
    · show ((moved.seconds + d.seconds : Nat) : Int) = (t.seconds + d.seconds : Nat) + seconds
      omega
    · trivial
  · split
    · trivial
    · exact Or.inl rfl

end Time.LaterBy

/-! ## Entries and prefixes of lists -/

section Lists

variable {α β : Type} {R : α → β → Prop} {xs : List α} {ys : List β}

theorem agrees_entryAt (h : List.Forall₂ R xs ys) (position : Nat) :
    Agrees R (entryAt xs position) (entryAt ys position) := by
  have hlength := h.length_eq
  by_cases hlt : position < xs.length
  · rw [entryAt_of_lt hlt, entryAt_of_lt (hlength ▸ hlt)]
    exact h.get hlt (hlength ▸ hlt)
  · have hxs : xs[position]? = none := List.getElem?_eq_none (by omega)
    have hys : ys[position]? = none := List.getElem?_eq_none (by omega)
    rw [entryAt, entryAt, hxs, hys, hlength]
    exact Or.inl rfl

theorem length_takeWhile_of_forall₂ {p : α → Bool} {q : β → Bool} (h : List.Forall₂ R xs ys)
    (hpq : ∀ a b, R a b → p a = q b) : (xs.takeWhile p).length = (ys.takeWhile q).length := by
  induction h with
  | nil => rfl
  | @cons a b _ _ hhead _ ih =>
    rw [List.takeWhile_cons, List.takeWhile_cons, hpq a b hhead]
    cases q b with
    | true => simp [ih]
    | false => rfl

end Lists

/-! ## Trips -/

/-- All times of a trip are moved by some seconds. -/
structure Trip.LaterBy (seconds : Int) (trip moved : Trip) : Prop where
  index : moved.index = trip.index
  id : moved.id = trip.id
  route : moved.route = trip.route
  pattern : moved.pattern = trip.pattern
  arrivals : List.Forall₂ (Time.LaterBy seconds) trip.arrivals moved.arrivals
  departures : List.Forall₂ (Time.LaterBy seconds) trip.departures moved.departures

namespace Trip.LaterBy

variable {seconds : Int} {trip moved : Trip} {earliest late : Time}

theorem length_eq (h : trip.LaterBy seconds moved) : moved.length = trip.length := by
  rw [Trip.length, Trip.length, h.pattern]

theorem stopAt_eq (h : trip.LaterBy seconds moved) (position : Nat) :
    moved.stopAt position = trip.stopAt position := by
  rw [Trip.stopAt, Trip.stopAt, h.pattern]

theorem arrivalAt (h : trip.LaterBy seconds moved) (position : Nat) :
    Agrees (Time.LaterBy seconds) (trip.arrivalAt position) (moved.arrivalAt position) :=
  agrees_entryAt h.arrivals position

theorem departureAt (h : trip.LaterBy seconds moved) (position : Nat) :
    Agrees (Time.LaterBy seconds) (trip.departureAt position) (moved.departureAt position) :=
  agrees_entryAt h.departures position

/-- The same calls are passed over. -/
theorem callsBefore_eq (h : trip.LaterBy seconds moved) (ht : earliest.LaterBy seconds late) :
    moved.callsBefore late = trip.callsBefore earliest := by
  have hearly : ((moved.departures.take trip.length).takeWhile (· < late)).length =
      ((trip.departures.take trip.length).takeWhile (· < earliest)).length := by
    refine (length_takeWhile_of_forall₂ (List.forall₂_take _ h.departures) ?_).symm
    intro departure departure' hdeparture
    rw [decide_eq_decide, hdeparture.lt_iff ht]
  unfold callsBefore
  simp only [h.length_eq, hearly, h.departures.length_eq]

/-- The search for a boarding finds the same position. -/
theorem boarding?_eq (h : trip.LaterBy seconds moved) (ht : earliest.LaterBy seconds late)
    (stop : Nat) : moved.boarding? late stop = trip.boarding? earliest stop := by
  have hcalls : moved.callsAt stop = trip.callsAt stop := by
    funext position
    rw [callsAt, callsAt, h.pattern]
  rw [boarding?, boarding?, h.callsBefore_eq ht, h.length_eq, hcalls]

end Trip.LaterBy

end TransitTransfers
