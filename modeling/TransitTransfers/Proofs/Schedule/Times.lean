import Mathlib.Data.Nat.Init
import Mathlib.Order.Bounds.Basic
import TransitTransfers.Schedule
import TransitTransfers.Proofs.Computation

/-!
# Times along a trip

A trip of a timetable is `Timed`: it has an arrival and a departure at each of
its positions, and the times never run backwards.  Three facts follow.

* Times are monotone.  `departure_le_arrival` compares a departure with a
  later arrival, and the lemmas beside it compare the other pairs.
* The search for a boarding is exact.  `Trip.boarding?` passes over the calls
  that depart too early without looking at their stops, and then takes the
  first call at the stop without looking at its time.  On a timed trip this is
  the first call that has both the stop and the time, and the search never
  faults (`Timed.boarding?_spec`).
* The search for an alighting is exact.  `Trip.alighting?` looks for the last call
  that arrives early enough, and from there back for a call at the stop.  On a
  timed trip this is the last call that has both (`Timed.alighting?_spec`).
-/

namespace TransitTransfers

/-- A trip has both times at each of its positions, and they run forward. -/
structure Trip.Timed (trip : Trip) : Prop where
  arrivals_length : trip.arrivals.length = trip.length
  departures_length : trip.departures.length = trip.length
  /-- The trip arrives at a position before it departs there. -/
  stays : ∀ {position : Nat} {arrival departure : Time},
    trip.arrivalAt position = .ok arrival → trip.departureAt position = .ok departure →
      arrival ≤ departure
  /-- The trip departs at a position before it arrives at the next one. -/
  runs : ∀ {position : Nat} {departure arrival : Time},
    trip.departureAt position = .ok departure → trip.arrivalAt (position + 1) = .ok arrival →
      departure ≤ arrival

/-! ## The time between two times -/

theorem Time.exists_since? {earlier later : Time} (h : earlier ≤ later) :
    ∃ d, later.since? earlier = some d ∧ later.seconds = earlier.seconds + d.seconds := by
  rw [Time.le_iff] at h
  have hsum : later.seconds = earlier.seconds + (later.seconds - earlier.seconds) := by omega
  exact ⟨_, if_pos h, hsum⟩

theorem Time.since_eq_ok_iff {earlier later : Time} {d : Duration} :
    later.since earlier = .ok d ↔ later.seconds = earlier.seconds + d.seconds := by
  rw [← Time.since?_eq_some_iff, Time.since]
  cases later.since? earlier <;> simp

theorem Time.exists_since {earlier later : Time} (h : earlier ≤ later) :
    ∃ d, later.since earlier = .ok d ∧ later.seconds = earlier.seconds + d.seconds := by
  obtain ⟨d, -, hd⟩ := Time.exists_since? h
  exact ⟨d, Time.since_eq_ok_iff.mpr hd, hd⟩

theorem Time.min_seconds (a b : Time) : (min a b).seconds = min a.seconds b.seconds := by
  show (if a ≤ b then a else b).seconds = _
  by_cases hle : a ≤ b
  · rw [if_pos hle]
    rw [Time.le_iff] at hle
    omega
  · rw [if_neg hle]
    rw [Time.le_iff] at hle
    omega

theorem Time.max_seconds (a b : Time) : (max a b).seconds = max a.seconds b.seconds := by
  show (if a ≤ b then b else a).seconds = _
  by_cases hle : a ≤ b
  · rw [if_pos hle]
    rw [Time.le_iff] at hle
    omega
  · rw [if_neg hle]
    rw [Time.le_iff] at hle
    omega

/-- A time to which a duration is added is later by that duration, or the sum
does not fit. -/
theorem Time.add_yields (t : Time) (d : Duration) :
    Yields (t.add d) fun u => u.seconds = t.seconds + d.seconds := by
  unfold Time.add
  split
  · exact rfl
  · exact rfl

theorem Duration.add_yields (a b : Duration) :
    Yields (a.add b) fun c => c.seconds = a.seconds + b.seconds := by
  unfold Duration.add
  split
  · exact rfl
  · exact rfl

/-! ## Entries of lists -/

theorem lt_length_of_entryAt {α : Type} {xs : List α} {position : Nat} {x : α}
    (h : entryAt xs position = .ok x) : position < xs.length := by
  rw [entryAt_eq_ok_iff] at h
  exact (List.getElem?_eq_some_iff.mp h).1

theorem exists_entryAt_of_lt {α : Type} {xs : List α} {position : Nat}
    (h : position < xs.length) : ∃ x, entryAt xs position = .ok x :=
  ⟨_, entryAt_of_lt h⟩

/-- The entries that `q` holds of stand before all others, so the first `q`
entries are those below the length of `takeWhile`. -/
theorem lt_length_takeWhile_iff {α : Type} {q : α → Bool} {xs : List α} {position : Nat}
    {x : α} (hdown : ∀ {i j : Nat} {y z : α}, i ≤ j → xs[i]? = some y → xs[j]? = some z →
      q z = true → q y = true) (hx : xs[position]? = some x) :
    position < (xs.takeWhile q).length ↔ q x = true := by
  induction xs generalizing position with
  | nil => simp at hx
  | cons y ys ih =>
    by_cases hy : q y = true
    · rw [List.takeWhile_cons_of_pos hy, List.length_cons]
      cases position with
      | zero =>
        have hyx : y = x := by simpa using hx
        simp [← hyx, hy]
      | succ position =>
        have htail : position < (ys.takeWhile q).length ↔ q x = true :=
          ih (fun hij hi hj => hdown (Nat.succ_le_succ hij) (by simpa using hi)
            (by simpa using hj)) (by simpa using hx)
        rw [← htail]
        omega
    · rw [List.takeWhile_cons_of_neg hy]
      have hqx : ¬q x = true := fun hqx => hy (hdown (Nat.zero_le position) rfl hx hqx)
      simp [hqx]

/-- A search from the end of a range finds the last number that `p` holds of. -/
theorem find?_reverse_range_eq_some {p : Nat → Bool} {bound i : Nat} :
    (List.range bound).reverse.find? p = some i ↔
      p i = true ∧ i < bound ∧ ∀ j, i < j → j < bound → p j = false := by
  induction bound with
  | zero => simp
  | succ bound ih =>
    rw [List.range_succ, List.reverse_concat]
    by_cases hlast : p bound = true
    · rw [List.find?_cons_of_pos hlast, Option.some.injEq]
      constructor
      · rintro rfl
        exact ⟨hlast, Nat.lt_succ_self _, fun j hj hlt => by omega⟩
      · intro h
        rcases h with ⟨-, hlt, hnone⟩
        by_contra hne
        have hno := hnone bound (by omega) (Nat.lt_succ_self _)
        rw [hlast] at hno
        cases hno
    · rw [List.find?_cons_of_neg hlast, ih]
      constructor
      · intro h
        rcases h with ⟨hi, hlt, hnone⟩
        refine ⟨hi, by omega, fun j hj hj' => ?_⟩
        rcases Nat.lt_succ_iff_lt_or_eq.mp hj' with hbelow | rfl
        · exact hnone j hj hbelow
        · exact Bool.eq_false_iff.mpr hlast
      · intro h
        rcases h with ⟨hi, hlt, hnone⟩
        have hne : i ≠ bound := by
          rintro rfl
          exact hlast hi
        exact ⟨hi, by omega, fun j hj hj' => hnone j hj (by omega)⟩

namespace Trip

/-! ## Times of a trip in order -/

section Order

variable {trip : Trip}

theorem Timed.exists_arrivalAt (htimed : trip.Timed) {position : Nat}
    (h : position < trip.length) : ∃ arrival, trip.arrivalAt position = .ok arrival := by
  have hlt : position < trip.arrivals.length := by
    rw [htimed.arrivals_length]
    exact h
  exact exists_entryAt_of_lt hlt

theorem Timed.exists_departureAt (htimed : trip.Timed) {position : Nat}
    (h : position < trip.length) : ∃ departure, trip.departureAt position = .ok departure := by
  have hlt : position < trip.departures.length := by
    rw [htimed.departures_length]
    exact h
  exact exists_entryAt_of_lt hlt

theorem Timed.lt_of_arrivalAt (htimed : trip.Timed) {position : Nat} {arrival : Time}
    (h : trip.arrivalAt position = .ok arrival) : position < trip.length := by
  rw [← htimed.arrivals_length]
  exact lt_length_of_entryAt h

theorem Timed.lt_of_departureAt (htimed : trip.Timed) {position : Nat} {departure : Time}
    (h : trip.departureAt position = .ok departure) : position < trip.length := by
  rw [← htimed.departures_length]
  exact lt_length_of_entryAt h

theorem exists_stopAt {position : Nat} (h : position < trip.length) :
    ∃ stop, trip.stopAt position = .ok stop :=
  exists_entryAt_of_lt h

theorem lt_of_stopAt {position stop : Nat} (h : trip.stopAt position = .ok stop) :
    position < trip.length :=
  lt_length_of_entryAt h

/-- A trip departs at a position before it arrives at any later one. -/
theorem Timed.departure_le_arrival (htimed : trip.Timed) {p q : Nat} {departure arrival : Time}
    (hpq : p < q) (hp : trip.departureAt p = .ok departure)
    (hq : trip.arrivalAt q = .ok arrival) : departure ≤ arrival := by
  induction q, hpq using Nat.le_induction generalizing arrival with
  | base => exact htimed.runs hp hq
  | succ q hpq ih =>
    have hlt : q < trip.length := by
      have := htimed.lt_of_arrivalAt hq
      omega
    obtain ⟨a, ha⟩ := htimed.exists_arrivalAt hlt
    obtain ⟨d, hd⟩ := htimed.exists_departureAt hlt
    have h₁ := Time.le_iff.mp (ih ha)
    have h₂ := Time.le_iff.mp (htimed.stays ha hd)
    have h₃ := Time.le_iff.mp (htimed.runs hd hq)
    rw [Time.le_iff]
    omega

theorem Timed.departure_le_departure (htimed : trip.Timed) {p q : Nat} {first second : Time}
    (hpq : p ≤ q) (hp : trip.departureAt p = .ok first)
    (hq : trip.departureAt q = .ok second) : first ≤ second := by
  rcases Nat.lt_or_eq_of_le hpq with hlt | rfl
  · obtain ⟨a, ha⟩ := htimed.exists_arrivalAt (htimed.lt_of_departureAt hq)
    have h₁ := Time.le_iff.mp (htimed.departure_le_arrival hlt hp ha)
    have h₂ := Time.le_iff.mp (htimed.stays ha hq)
    rw [Time.le_iff]
    omega
  · rw [hp] at hq
    cases hq
    exact Nat.le_refl _

theorem Timed.arrival_le_arrival (htimed : trip.Timed) {p q : Nat} {first second : Time}
    (hpq : p ≤ q) (hp : trip.arrivalAt p = .ok first) (hq : trip.arrivalAt q = .ok second) :
    first ≤ second := by
  rcases Nat.lt_or_eq_of_le hpq with hlt | rfl
  · obtain ⟨d, hd⟩ := htimed.exists_departureAt (htimed.lt_of_arrivalAt hp)
    have h₁ := Time.le_iff.mp (htimed.stays hp hd)
    have h₂ := Time.le_iff.mp (htimed.departure_le_arrival hlt hd hq)
    rw [Time.le_iff]
    omega
  · rw [hp] at hq
    cases hq
    exact Nat.le_refl _

end Order

/-! ## The search for a boarding -/

/-- A trip can be boarded at `stop` at a position, not before `earliest`. -/
def Boards (trip : Trip) (earliest : Time) (stop position : Nat) : Prop :=
  trip.stopAt position = .ok stop ∧
    ∃ departure, trip.departureAt position = .ok departure ∧ earliest ≤ departure

theorem callsAt_iff {trip : Trip} {stop position : Nat} :
    trip.callsAt stop position = true ↔ trip.stopAt position = .ok stop := by
  rw [stopAt, entryAt_eq_ok_iff, callsAt, decide_eq_true_iff]

/-- The calls that are passed over are those that depart before `earliest`. -/
theorem Timed.callsBefore_spec {trip : Trip} (htimed : trip.Timed) (earliest : Time) :
    ∃ first, trip.callsBefore earliest = .ok first ∧ first ≤ trip.length ∧
      ∀ {position : Nat} {departure : Time}, trip.departureAt position = .ok departure →
        (position < first ↔ departure < earliest) := by
  have htake : trip.departures.take trip.length = trip.departures :=
    List.take_of_length_le (Nat.le_of_eq htimed.departures_length)
  have hlength : (trip.departures.takeWhile (· < earliest)).length ≤ trip.length := by
    rw [← htimed.departures_length]
    exact (List.takeWhile_sublist _).length_le
  refine ⟨(trip.departures.takeWhile (· < earliest)).length, ?_, hlength, ?_⟩
  · unfold callsBefore
    rw [htake, if_neg]
    rw [htimed.departures_length]
    omega
  · intro position departure hdeparture
    have hentry := entryAt_eq_ok_iff.mp hdeparture
    refine (lt_length_takeWhile_iff ?_ hentry).trans decide_eq_true_iff
    intro i j y z hij hy hz hlate
    have hmono := htimed.departure_le_departure hij (entryAt_eq_ok_iff.mpr hy)
      (entryAt_eq_ok_iff.mpr hz)
    rw [decide_eq_true_iff, Time.lt_iff] at hlate ⊢
    rw [Time.le_iff] at hmono
    omega

/-- On a timed trip the search never faults, and it finds the first position
that has both the stop and the time. -/
theorem Timed.boarding?_spec {trip : Trip} (htimed : trip.Timed) (earliest : Time)
    (stop : Nat) :
    ∃ found, trip.boarding? earliest stop = .ok found ∧
      ∀ position, found = some position ↔
        trip.Boards earliest stop position ∧
          ∀ before < position, ¬trip.Boards earliest stop before := by
  obtain ⟨first, hfirst, hle, hbefore⟩ := htimed.callsBefore_spec earliest
  have hboards : ∀ {position : Nat}, trip.Boards earliest stop position ↔
      trip.callsAt stop position = true ∧ first ≤ position ∧ position < trip.length := by
    intro position
    rw [callsAt_iff]
    constructor
    · intro h
      rcases h with ⟨hstop, departure, hdeparture, hlate⟩
      have h := hbefore hdeparture
      rw [Time.lt_iff] at h
      rw [Time.le_iff] at hlate
      exact ⟨hstop, by omega, lt_of_stopAt hstop⟩
    · intro h
      rcases h with ⟨hstop, hlate, hlt⟩
      obtain ⟨departure, hdeparture⟩ := htimed.exists_departureAt hlt
      have h := hbefore hdeparture
      rw [Time.lt_iff] at h
      have htime : earliest ≤ departure := by
        rw [Time.le_iff]
        omega
      exact ⟨hstop, departure, hdeparture, htime⟩
  have hsearch : trip.boarding? earliest stop =
      .ok ((List.range' first (trip.length - first)).find? (trip.callsAt stop)) := by
    rw [boarding?, hfirst]
    rfl
  refine ⟨_, hsearch, fun position => ?_⟩
  rw [List.find?_range'_eq_some, List.mem_range'_1, hboards]
  constructor
  · intro h
    rcases h with ⟨hcalls, hrange, hnone⟩
    refine ⟨⟨hcalls, by omega, by omega⟩, fun before hlt hb => ?_⟩
    have h := hboards.mp hb
    have hno := hnone before h.2.1 hlt
    rw [h.1] at hno
    simp at hno
  · intro h
    rcases h with ⟨⟨hcalls, hge, hlt⟩, hnone⟩
    refine ⟨hcalls, by omega, fun before hb hbefore' => ?_⟩
    rw [Bool.not_eq_true', Bool.eq_false_iff]
    intro hcall
    exact hnone before hbefore' (hboards.mpr ⟨hcall, hb, by omega⟩)

/-- The search for a boarding finds the first position there is. -/
theorem Timed.boarding?_cases {trip : Trip} (htimed : trip.Timed) (earliest : Time)
    (stop : Nat) :
    (trip.boarding? earliest stop = .ok none ∧
        ∀ position, ¬trip.Boards earliest stop position) ∨
      ∃ position, trip.boarding? earliest stop = .ok (some position) ∧
        IsLeast {other | trip.Boards earliest stop other} position := by
  obtain ⟨found, hsearch, hspec⟩ := htimed.boarding?_spec earliest stop
  cases found with
  | none =>
    refine Or.inl ⟨hsearch, fun position => ?_⟩
    induction position using Nat.strong_induction_on with
    | _ position ih =>
      intro hboards
      have hfound := (hspec position).mpr ⟨hboards, ih⟩
      cases hfound
  | some position =>
    obtain ⟨hboards, hfirst⟩ := (hspec position).mp rfl
    refine Or.inr ⟨position, hsearch, hboards, fun other hother => ?_⟩
    by_contra hlt
    exact hfirst other (Nat.lt_of_not_le hlt) hother

/-! ## The search for an alighting -/

/-- A trip can be left at `stop` at a position, not after `latest`. -/
def Alights (trip : Trip) (latest : Time) (stop position : Nat) : Prop :=
  trip.stopAt position = .ok stop ∧
    ∃ arrival, trip.arrivalAt position = .ok arrival ∧ arrival ≤ latest

/-- The calls that are left are those that arrive up to `latest`. -/
theorem Timed.callsUpTo_spec {trip : Trip} (htimed : trip.Timed) (latest : Time) :
    ∃ bound, trip.callsUpTo latest = .ok bound ∧ bound ≤ trip.length ∧
      ∀ {position : Nat} {arrival : Time}, trip.arrivalAt position = .ok arrival →
        (position < bound ↔ arrival ≤ latest) := by
  have htake : trip.arrivals.take trip.length = trip.arrivals :=
    List.take_of_length_le (Nat.le_of_eq htimed.arrivals_length)
  -- Seen from the end, the late calls stand before all others.
  let late := trip.arrivals.reverse.takeWhile (latest < ·)
  refine ⟨trip.length - late.length, ?_, Nat.sub_le _ _, ?_⟩
  · unfold callsUpTo
    rw [if_neg, htake]
    rw [htimed.arrivals_length]
    omega
  · intro position arrival harrival
    have hlt := lt_length_of_entryAt harrival
    have hmirror : ∀ {i : Nat} {time : Time}, trip.arrivals.reverse[i]? = some time →
        trip.arrivalAt (trip.arrivals.length - 1 - i) = .ok time := by
      intro i time hi
      have hbound := (List.getElem?_eq_some_iff.mp hi).1
      rw [List.length_reverse] at hbound
      rw [List.getElem?_reverse hbound] at hi
      exact entryAt_eq_ok_iff.mpr hi
    have hentry : trip.arrivals.reverse[trip.arrivals.length - 1 - position]? = some arrival := by
      rw [List.getElem?_reverse (by omega), show trip.arrivals.length - 1 -
        (trip.arrivals.length - 1 - position) = position by omega]
      exact entryAt_eq_ok_iff.mp harrival
    have hcount : trip.arrivals.length - 1 - position < late.length ↔ latest < arrival := by
      refine (lt_length_takeWhile_iff ?_ hentry).trans decide_eq_true_iff
      intro i j y z hij hy hz hlate
      have hmono := htimed.arrival_le_arrival (by omega) (hmirror hz) (hmirror hy)
      rw [decide_eq_true_iff, Time.lt_iff] at hlate ⊢
      rw [Time.le_iff] at hmono
      omega
    rw [Time.lt_iff] at hcount
    rw [Time.le_iff, ← htimed.arrivals_length]
    omega

/-- On a timed trip the search never faults, and it finds the last position
that has both the stop and the time. -/
theorem Timed.alighting?_spec {trip : Trip} (htimed : trip.Timed) (latest : Time)
    (stop : Nat) :
    ∃ found, trip.alighting? latest stop = .ok found ∧
      ∀ position, found = some position ↔
        trip.Alights latest stop position ∧
          ∀ after, position < after → ¬trip.Alights latest stop after := by
  obtain ⟨bound, hbound, hle, hupTo⟩ := htimed.callsUpTo_spec latest
  have halights : ∀ {position : Nat}, trip.Alights latest stop position ↔
      trip.callsAt stop position = true ∧ position < bound := by
    intro position
    rw [callsAt_iff]
    constructor
    · intro h
      rcases h with ⟨hstop, arrival, harrival, htime⟩
      exact ⟨hstop, (hupTo harrival).mpr htime⟩
    · intro h
      rcases h with ⟨hstop, hlt⟩
      obtain ⟨arrival, harrival⟩ := htimed.exists_arrivalAt (lt_of_stopAt hstop)
      exact ⟨hstop, arrival, harrival, (hupTo harrival).mp hlt⟩
  have hsearch : trip.alighting? latest stop =
      .ok ((List.range bound).reverse.find? (trip.callsAt stop)) := by
    rw [alighting?, hbound]
    rfl
  refine ⟨_, hsearch, fun position => ?_⟩
  rw [find?_reverse_range_eq_some, halights, and_assoc]
  refine and_congr_right fun _ => and_congr_right fun _ => forall_congr' fun after => ?_
  refine imp_congr_right fun _ => ?_
  rw [halights]
  cases trip.callsAt stop after <;> simp

/-- The search for an alighting finds the last position there is. -/
theorem Timed.alighting?_cases {trip : Trip} (htimed : trip.Timed) (latest : Time)
    (stop : Nat) :
    (trip.alighting? latest stop = .ok none ∧
        ∀ position, ¬trip.Alights latest stop position) ∨
      ∃ position, trip.alighting? latest stop = .ok (some position) ∧
        IsGreatest {other | trip.Alights latest stop other} position := by
  obtain ⟨found, hsearch, hspec⟩ := htimed.alighting?_spec latest stop
  cases found with
  | none =>
    refine Or.inl ⟨hsearch, fun position => ?_⟩
    -- The induction goes from the end of the trip.
    induction hleft : trip.length - position using Nat.strong_induction_on
      generalizing position with
    | _ left ih =>
      intro halights
      have hlt := lt_of_stopAt halights.1
      have hfound := (hspec position).mpr ⟨halights, fun after hafter =>
        ih (trip.length - after) (by omega) after rfl⟩
      cases hfound
  | some position =>
    obtain ⟨halights, hlast⟩ := (hspec position).mp rfl
    refine Or.inr ⟨position, hsearch, halights, fun other hother => ?_⟩
    by_contra hlt
    exact hlast other (Nat.lt_of_not_le hlt) hother

end Trip

end TransitTransfers
