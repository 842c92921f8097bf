import TransitTransfers.Proofs.Itinerary.Soundness

/-!
# Times that every itinerary has

The legs of an itinerary follow each other in time.  So its rides and walks
take some time, its waits are known, and none of this can fault.

* `Ride.Forward.exists_duration` is one ride, and `Junction.Sound.exists_split`
  is one junction: what is left after the walk is the wait.
* `Onward.exists_stages` adds the rides and junctions up.  Together they lead from
  the first departure to the last arrival, so the sum of the rides fits
  (`exists_rideDuration`).
* `Itinerary.time_adds_up` adds what lies before the first ride and behind the last
  one, and so accounts for all the time from door to door.
* `Duration.min?_perm` is about the shortest of some durations, whatever their
  order.
-/

namespace TransitTransfers

/-! ## One ride and one junction -/

theorem Ride.Forward.exists_duration {ride : Ride} (h : ride.Forward) :
    ∃ boarded alighted duration, ride.boardTime = .ok boarded ∧
      ride.alightTime = .ok alighted ∧ ride.duration = .ok duration ∧
        alighted.seconds = boarded.seconds + duration.seconds := by
  rcases h with ⟨boarded, alighted, hboarded, halighted, hle⟩
  obtain ⟨duration, hduration, hseconds⟩ := Time.exists_since hle
  refine ⟨boarded, alighted, duration, hboarded, halighted, ?_, hseconds⟩
  rw [Ride.duration, halighted]
  show (ride.boardTime >>= fun boarded => alighted.since boarded) = .ok duration
  rw [hboarded]
  exact hduration

/-- There is time for the walk of a sound junction. -/
theorem Junction.Sound.exists_times {junction : Junction} (h : junction.Sound) :
    ∃ alighted walk boarded, junction.arriving.alightTime = .ok alighted ∧
      junction.walkDuration = .ok walk ∧ junction.departing.boardTime = .ok boarded ∧
        alighted.seconds + walk.seconds ≤ boarded.seconds := by
  rcases h with ⟨alighted, boarded, halighted, hboarded, hfits⟩
  rw [Junction.walkDuration]
  cases hwalk : junction.walk with
  | none =>
    rw [hwalk] at hfits
    exact ⟨alighted, .zero, boarded, halighted, rfl, hboarded, hfits.2⟩
  | some walk =>
    rw [hwalk] at hfits
    rcases hfits with ⟨-, -, hstart, hforward, hend⟩
    obtain ⟨duration, hduration, hseconds⟩ := Time.exists_since hforward
    rw [Time.le_iff] at hstart hend
    exact ⟨alighted, duration, boarded, halighted, hduration, hboarded, by omega⟩

/-- From the arrival of a ride to the departure of the next one: the walk, and then
the wait. -/
def Junction.pause (junction : Junction) : Except Fault Duration := do
  let walk ← junction.walkDuration
  let wait ← junction.wait
  walk.add wait

/-- The times of a sound junction are exact.  The wait is what is left after the walk,
and not the zero that stands for a ride that was missed. -/
theorem Junction.Sound.exists_split {junction : Junction} (h : junction.Sound) :
    ∃ alighted walk ready boarded wait, junction.arriving.alightTime = .ok alighted ∧
      junction.walkDuration = .ok walk ∧ alighted.add walk = .ok ready ∧
      junction.departing.boardTime = .ok boarded ∧ boarded.since? ready = some wait ∧
      junction.wait = .ok wait ∧
      alighted.seconds + walk.seconds + wait.seconds = boarded.seconds := by
  obtain ⟨alighted, walk, boarded, halighted, hwalk, hboarded, hle⟩ := h.exists_times
  let ready : Time := ⟨alighted.seconds + walk.seconds, Nat.lt_of_le_of_lt hle boarded.fits⟩
  have hready : alighted.add walk = .ok ready := Time.add_eq_ok_iff.mpr rfl
  obtain ⟨wait, hwait, hseconds⟩ := Time.exists_since? (show ready ≤ boarded from hle)
  refine ⟨alighted, walk, ready, boarded, wait, halighted, hwalk, hready, hboarded, hwait, ?_,
    hseconds.symm⟩
  rw [Junction.wait, hboarded, halighted, hwalk]
  show (alighted.add walk >>= fun ready => pure ((boarded.since? ready).getD .zero)) = _
  rw [hready]
  exact congrArg (fun rest : Option Duration => Except.ok (rest.getD .zero)) hwait

theorem Junction.Sound.exists_wait {junction : Junction} (h : junction.Sound) :
    ∃ wait, junction.wait = .ok wait := by
  obtain ⟨-, -, -, -, wait, -, -, -, -, -, hwait, -⟩ := h.exists_split
  exact ⟨wait, hwait⟩

theorem Junction.Sound.exists_pause {junction : Junction} (h : junction.Sound) :
    ∃ alighted boarded pause, junction.arriving.alightTime = .ok alighted ∧
      junction.departing.boardTime = .ok boarded ∧ junction.pause = .ok pause ∧
        boarded.seconds = alighted.seconds + pause.seconds := by
  obtain ⟨alighted, walk, -, boarded, wait, halighted, hwalk, -, hboarded, -, hwait, hseconds⟩ :=
    h.exists_split
  have hfits : walk.seconds + wait.seconds < wordSize := by
    have hlt := boarded.fits
    omega
  refine ⟨alighted, boarded, ⟨_, hfits⟩, halighted, hboarded, ?_, ?_⟩
  · exact bind_eq_ok_iff.mpr ⟨walk, hwalk, bind_eq_ok_iff.mpr ⟨wait, hwait, dif_pos hfits⟩⟩
  · show boarded.seconds = alighted.seconds + (walk.seconds + wait.seconds)
    omega

/-! ## All rides and all junctions -/

/-- The seconds of some durations, added up. -/
def totalSeconds : List Duration → Nat
  | [] => 0
  | duration :: durations => duration.seconds + totalSeconds durations

@[simp] theorem totalSeconds_nil : totalSeconds [] = 0 := rfl

@[simp] theorem totalSeconds_cons (duration : Duration) (durations : List Duration) :
    totalSeconds (duration :: durations) = duration.seconds + totalSeconds durations := rfl

/-- Durations can be added up if the sum of all seconds fits a word, because no sum on
the way is greater. -/
theorem Duration.foldlM_add {durations : List Duration} {before : Duration}
    (hfits : before.seconds + totalSeconds durations < wordSize) :
    durations.foldlM add before = .ok ⟨before.seconds + totalSeconds durations, hfits⟩ := by
  induction durations generalizing before with
  | nil => rfl
  | cons duration durations ih =>
    rw [totalSeconds_cons, ← Nat.add_assoc] at hfits
    have hnext : before.seconds + duration.seconds < wordSize :=
      Nat.lt_of_le_of_lt (Nat.le_add_right _ _) hfits
    rw [List.foldlM_cons, add, dif_pos hnext]
    show durations.foldlM add _ = _
    rw [ih hfits]
    exact congrArg Except.ok (Duration.ext (Nat.add_assoc _ _ _))

/-- The run over the rides: from the first departure to the last arrival, the rider is
on a ride or at a junction. -/
theorem Onward.exists_stages {egress : Egress} {ride : Ride} {changes : List Change}
    (h : Onward egress ride changes) :
    ∃ boarded alighted durations pauses, ride.boardTime = .ok boarded ∧
      (lastFrom ride changes).alightTime = .ok alighted ∧
      (ride :: changes.map (·.ride)).mapM Ride.duration = .ok durations ∧
      (Itinerary.junctionsFrom ride changes).mapM Junction.pause = .ok pauses ∧
      alighted.seconds = boarded.seconds + totalSeconds durations + totalSeconds pauses := by
  induction changes generalizing ride with
  | nil =>
    obtain ⟨boarded, alighted, duration, hboarded, halighted, hduration, hseconds⟩ :=
      h.1.exists_duration
    exact ⟨boarded, alighted, [duration], [], hboarded, halighted,
      mapM_eq_ok_iff.mpr (.cons hduration .nil), rfl, hseconds⟩
  | cons change changes ih =>
    rcases h with ⟨hforward, hsound, honward⟩
    obtain ⟨boarded, alighted, duration, hboarded, halighted, hduration, hride⟩ :=
      hforward.exists_duration
    obtain ⟨alighted', next, pause, halighted', hnext, hpause, hjunction⟩ := hsound.exists_pause
    obtain ⟨next', last, durations, pauses, hnext', hlast, hdurations, hpauses, hrest⟩ :=
      ih honward
    obtain rfl : alighted = alighted' := Except.ok.inj (halighted.symm.trans halighted')
    obtain rfl : next = next' := Except.ok.inj (hnext.symm.trans hnext')
    refine ⟨boarded, last, duration :: durations, pause :: pauses, hboarded, hlast, ?_, ?_, ?_⟩
    · exact mapM_eq_ok_iff.mpr (.cons hduration (mapM_eq_ok_iff.mp hdurations))
    · exact mapM_eq_ok_iff.mpr (.cons hpause (mapM_eq_ok_iff.mp hpauses))
    · simp only [totalSeconds_cons]
      omega

/-- From the first departure to the last arrival of an itinerary, and the time in
vehicles of it. -/
theorem Itinerary.exists_stages (itinerary : Itinerary) :
    ∃ boarded alighted riding pauses, itinerary.first.boardTime = .ok boarded ∧
      itinerary.lastRide.alightTime = .ok alighted ∧ itinerary.rideDuration = .ok riding ∧
      itinerary.junctions.mapM Junction.pause = .ok pauses ∧
      alighted.seconds = boarded.seconds + riding.seconds + totalSeconds pauses := by
  obtain ⟨boarded, alighted, durations, pauses, hboarded, halighted, hdurations, hpauses, hsum⟩ :=
    itinerary.onward.exists_stages
  -- The rides take no longer than until the last arrival, so their sum fits.
  have hfits : Duration.zero.seconds + totalSeconds durations < wordSize := by
    have hlt := alighted.fits
    have hzero : Duration.zero.seconds = 0 := rfl
    omega
  rw [← lastRide_eq_lastFrom] at halighted
  refine ⟨boarded, alighted, _, pauses, hboarded, halighted,
    bind_eq_ok_iff.mpr ⟨durations, hdurations, Duration.foldlM_add hfits⟩, hpauses, ?_⟩
  rw [hsum]
  show _ = boarded.seconds + (0 + totalSeconds durations) + totalSeconds pauses
  rw [Nat.zero_add]

/-- The time in vehicles is known of every itinerary. -/
theorem Itinerary.exists_rideDuration (itinerary : Itinerary) :
    ∃ total, itinerary.rideDuration = .ok total := by
  obtain ⟨-, -, riding, -, -, -, hriding, -⟩ := itinerary.exists_stages
  exact ⟨riding, hriding⟩

/-! ## From door to door -/

/-- No time of an itinerary is lost or counted twice.  At each junction, the walk and
the wait lead from the arrival of one ride to the departure of the next one, and all
stages together lead from the start of the journey to its end. -/
theorem Itinerary.time_adds_up (itinerary : Itinerary) :
    (∀ junction ∈ itinerary.junctions,
      ∃ alighted walk ready boarded wait, junction.arriving.alightTime = .ok alighted ∧
        junction.walkDuration = .ok walk ∧ alighted.add walk = .ok ready ∧
        junction.departing.boardTime = .ok boarded ∧ boarded.since? ready = some wait ∧
        junction.wait = .ok wait ∧
        alighted.seconds + walk.seconds + wait.seconds = boarded.seconds) ∧
      ∃ boarded alighted access firstWait riding pauses rest egress whole,
        itinerary.first.boardTime = .ok boarded ∧
        itinerary.lastRide.alightTime = .ok alighted ∧
        itinerary.access.arrival.since itinerary.access.departure = .ok access ∧
        boarded.since itinerary.access.arrival = .ok firstWait ∧
        itinerary.rideDuration = .ok riding ∧
        itinerary.junctions.mapM Junction.pause = .ok pauses ∧
        itinerary.egress.departure.since alighted = .ok rest ∧
        itinerary.egress.arrival.since itinerary.egress.departure = .ok egress ∧
        itinerary.arrival.since itinerary.departure = .ok whole ∧
        access.seconds + firstWait.seconds + riding.seconds + totalSeconds pauses +
          rest.seconds + egress.seconds = whole.seconds := by
  refine ⟨fun junction hjunction => (itinerary.sound_of_mem junction hjunction).exists_split, ?_⟩
  obtain ⟨boarded, alighted, riding, pauses, hboarded, halighted, hriding, hpauses, hstages⟩ :=
    itinerary.exists_stages
  obtain ⟨-, caught, hcaught, hfirst⟩ := itinerary.first_caught
  obtain rfl : caught = boarded := Except.ok.inj (hcaught.symm.trans hboarded)
  obtain ⟨-, hforward, reached, hreached, hlast⟩ := itinerary.lastRide_reaches
  obtain rfl : reached = alighted := Except.ok.inj (hreached.symm.trans halighted)
  obtain ⟨access, haccess, hstart⟩ := Time.exists_since itinerary.access_forward
  obtain ⟨firstWait, hfirstWait, hwait⟩ := Time.exists_since hfirst
  obtain ⟨rest, hrest, hleft⟩ := Time.exists_since hlast
  obtain ⟨egress, hegress, hend⟩ := Time.exists_since hforward
  have hwhole : itinerary.departure ≤ itinerary.arrival := by
    show itinerary.access.departure.seconds ≤ itinerary.egress.arrival.seconds
    omega
  obtain ⟨whole, hduration, hsum⟩ := Time.exists_since hwhole
  refine ⟨caught, reached, access, firstWait, riding, pauses, rest, egress, whole, hboarded,
    halighted, haccess, hfirstWait, hriding, hpauses, hrest, hegress, hduration, ?_⟩
  have hbetween : itinerary.egress.arrival.seconds =
      itinerary.access.departure.seconds + whole.seconds := hsum
  omega

/-- The journey that walks early takes 41 minutes, of which the rider is 19 minutes in
vehicles and 20 minutes at the two junctions. -/
theorem Itinerary.time_adds_up_earlyWalk :
    ∃ riding pauses whole, Network.earlyWalk.rideDuration = .ok riding ∧
      Network.earlyWalk.junctions.mapM Junction.pause = .ok pauses ∧
      Network.earlyWalk.arrival.since Network.earlyWalk.departure = .ok whole ∧
      riding.seconds = 1140 ∧ totalSeconds pauses = 1200 ∧ whole.seconds = 2460 := by
  obtain ⟨-, -, -, -, -, riding, pauses, -, -, whole, -, -, -, -, hriding, hpauses, -, -, hwhole,
    -⟩ := Network.earlyWalk.time_adds_up
  refine ⟨riding, pauses, whole, hriding, hpauses, hwhole, ?_, ?_, ?_⟩
  · have hseconds : Network.earlyWalk.rideDuration.map Duration.seconds = .ok 1140 := by
      decide +kernel
    rw [hriding] at hseconds
    exact Except.ok.inj hseconds
  · have hseconds : (Network.earlyWalk.junctions.mapM Junction.pause).map totalSeconds =
        .ok 1200 := by
      decide +kernel
    rw [hpauses] at hseconds
    exact Except.ok.inj hseconds
  · have hseconds := Time.since_eq_ok_iff.mp hwhole
    have hstart : Network.earlyWalk.departure.seconds = 0 := by decide +kernel
    have hend : Network.earlyWalk.arrival.seconds = 2460 := by decide +kernel
    omega

/-! ## The shortest duration -/

namespace Duration

instance : Std.IsLinearOrder Duration := by
  apply Std.IsLinearOrder.of_le
  · exact ⟨fun _ _ hab hba => Duration.ext (Nat.le_antisymm hab hba)⟩
  · exact ⟨fun hab hbc => Nat.le_trans hab hbc⟩
  · exact ⟨fun a b => Nat.le_total a.seconds b.seconds⟩

/-- The shortest duration does not depend on the order of the list. -/
theorem min?_perm {xs ys : List Duration} (h : xs.Perm ys) : xs.min? = ys.min? := by
  cases hmin : xs.min? with
  | none =>
    rw [List.min?_eq_none_iff] at hmin
    rw [hmin, List.nil_perm] at h
    rw [h]
    rfl
  | some least =>
    obtain ⟨hmem, hle⟩ := List.min?_eq_some_iff.mp hmin
    refine (List.min?_eq_some_iff.mpr ⟨h.mem_iff.mp hmem, fun other hother => ?_⟩).symm
    exact hle other (h.mem_iff.mpr hother)

end Duration

end TransitTransfers
