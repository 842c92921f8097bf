import TransitTransfers.Proofs.Binary64.Rounding
import TransitTransfers.Proofs.Itinerary.Durations
import TransitTransfers.WaitRisk

/-!
# The safe transfer time of a batch

The safe transfer time is a share of the shortest time in vehicles, rounded to
a whole second and kept within bounds.

* `nearest_share_mono` says that a longer time in vehicles does not make for a
  smaller share.  Between two words there is far more room than rounding takes.
* `ofRide_bounds`, `ofRide_of_most_le` and `ofRide_mono` are about one time in
  vehicles.
* `IsShortest` is the shortest time in vehicles of a batch; it does not depend
  on how the batch is listed.  `ofBatch_eq` takes the safe transfer time from
  it.
* `ofBatch_account` is the account of all batches.
-/

namespace TransitTransfers

/-! ## Bounds in seconds -/

namespace Duration

theorem max_seconds (a b : Duration) : (max a b).seconds = max a.seconds b.seconds := by
  show (if a ≤ b then b else a).seconds = _
  split <;> rename_i h <;> rw [le_iff] at h <;> omega

theorem min_seconds (a b : Duration) : (min a b).seconds = min a.seconds b.seconds := by
  show (if a ≤ b then a else b).seconds = _
  split <;> rename_i h <;> rw [le_iff] at h <;> omega

/-- The duration nearest to a positive value; it is cut off at the greatest
word. -/
theorem nearest_seconds {x : Float} {m : Nat} {e : Int}
    (hx : Binary64.ofFloat x = .finite false m e) :
    (nearest x).seconds = min (Binary64.nearestNat m e) (wordSize - 1) := by
  have hpos : 0 < wordSize := by decide
  let cut : Duration := ⟨min (Binary64.nearestNat m e) (wordSize - 1), by omega⟩
  have hcut : (Binary64.nearestInt 0 (wordSize - 1) (.ofFloat x)).toNat = cut.seconds := by
    rw [hx]
    show (max 0 (min ((wordSize : Int) - 1) (Binary64.nearestNat m e : Int))).toNat =
      min (Binary64.nearestNat m e) (wordSize - 1)
    omega
  rw [nearest, hcut, (ofSeconds?_eq_some_iff (d := cut)).mpr rfl]
  rfl

end Duration

namespace SafeTransfer

/-! ## The share of a time in vehicles -/

/-- What the share stands for exactly. -/
def exactShare : ℚ := Binary64.value 4806241522329793 (-56)

theorem ofFloat_share : Binary64.ofFloat share = .finite false 4806241522329793 (-56) := by
  decide +kernel

theorem nearest_share_zero {ride : Duration} (h : ride.seconds = 0) :
    (Duration.nearest (ride.toFloat * share)).seconds = 0 := by
  obtain rfl : ride = .zero := Duration.ext h
  decide +kernel

/-- The share of a time in vehicles is computed as exactly as rounding to 53 bits
can be. -/
theorem share_near {ride : Duration} (h : 0 < ride.seconds) :
    ∃ m e, Binary64.ofFloat (ride.toFloat * share) = .finite false m e ∧
      |Binary64.value m e - ride.seconds * exactShare| ≤ ride.seconds * exactShare / 2 ^ 52 := by
  have hword : (UInt32.ofNat ride.seconds).toNat = ride.seconds :=
    UInt32.toNat_ofNat_of_lt ride.fits
  have hshare : Binary64.Normal 4806241522329793 (-56) :=
    ⟨by decide, by decide, by decide, by decide⟩
  obtain ⟨m, e, hride, hnormal, hle, hge, hvalue⟩ :=
    Binary64.ofFloat_word (n := .ofNat ride.seconds) (by omega)
  rw [hword] at hvalue
  have hnear := Binary64.mul_near hride ofFloat_share hnormal hshare (by omega) (by omega)
  rwa [hvalue] at hnear

/-- A longer time in vehicles has no smaller share. -/
theorem nearest_share_mono {ride longer : Duration} (h : ride ≤ longer) :
    Duration.nearest (ride.toFloat * share) ≤ Duration.nearest (longer.toFloat * share) := by
  rw [Duration.le_iff]
  rcases Nat.eq_zero_or_pos ride.seconds with hzero | hpos
  · rw [nearest_share_zero hzero]
    exact Nat.zero_le _
  rcases Nat.eq_or_lt_of_le h with heq | hlt
  · obtain rfl : ride = longer := Duration.ext heq
    exact Nat.le_refl _
  obtain ⟨m, e, hride, hnear⟩ := share_near hpos
  obtain ⟨m', e', hlonger, hnear'⟩ := share_near (Nat.lt_trans hpos hlt)
  rw [Duration.nearest_seconds hride, Duration.nearest_seconds hlonger]
  have hvalue : Binary64.value m e ≤ Binary64.value m' e' := by
    have hshare : 0 ≤ exactShare := Binary64.value_nonneg _ _
    -- The exact shares are a second's share apart, and neither is off by as much.
    have hsecond : (ride.seconds + 1) * exactShare ≤ longer.seconds * exactShare := by
      have hstep : (ride.seconds : ℚ) + 1 ≤ longer.seconds := by exact_mod_cast hlt
      exact mul_le_mul_of_nonneg_right hstep hshare
    have hword : longer.seconds * exactShare ≤ 2 ^ 32 * exactShare := by
      have hfits : (longer.seconds : ℚ) ≤ 2 ^ 32 := by exact_mod_cast Nat.le_of_lt longer.fits
      exact mul_le_mul_of_nonneg_right hfits hshare
    rw [abs_le] at hnear hnear'
    linarith [hnear.2, hnear'.1]
  have hnearest := Binary64.nearestNat_mono hvalue
  omega

/-! ## One time in vehicles -/

theorem ofRide_bounds (changing ride : Duration) :
    max changing least ≤ ofRide changing ride ∧
      ofRide changing ride ≤ max most (max changing least) := by
  simp only [ofRide, Duration.le_iff, Duration.max_seconds, Duration.min_seconds]
  omega

/-- The lower bound wins. -/
theorem ofRide_of_most_le {changing : Duration} (h : most ≤ changing) (ride : Duration) :
    ofRide changing ride = max changing least := by
  apply Duration.ext
  rw [Duration.le_iff] at h
  simp only [ofRide, Duration.max_seconds, Duration.min_seconds]
  omega

theorem ofRide_mono (changing : Duration) {ride longer : Duration} (h : ride ≤ longer) :
    ofRide changing ride ≤ ofRide changing longer := by
  have hshare := nearest_share_mono h
  rw [Duration.le_iff] at hshare ⊢
  simp only [ofRide, Duration.max_seconds, Duration.min_seconds]
  omega

/-! ## The shortest time in vehicles -/

/-- A time in vehicles that one of some itineraries has, and none of them falls
below. -/
structure IsShortest (batch : List Itinerary) (shortest : Duration) : Prop where
  attained : ∃ itinerary ∈ batch, itinerary.rideDuration = .ok shortest
  least : ∀ itinerary ∈ batch, ∃ ride, itinerary.rideDuration = .ok ride ∧ shortest ≤ ride

variable {changing : Duration} {batch other : List Itinerary} {shortest : Duration}

theorem IsShortest.congr (h : IsShortest batch shortest)
    (hsame : ∀ itinerary, itinerary ∈ other ↔ itinerary ∈ batch) : IsShortest other shortest := by
  obtain ⟨itinerary, hmem, hride⟩ := h.attained
  exact ⟨⟨itinerary, (hsame itinerary).mpr hmem, hride⟩,
    fun itinerary hmem => h.least itinerary ((hsame itinerary).mp hmem)⟩

theorem isShortest_singleton {itinerary : Itinerary} {ride : Duration}
    (h : itinerary.rideDuration = .ok ride) : IsShortest [itinerary] ride := by
  refine ⟨⟨itinerary, List.mem_singleton_self _, h⟩, fun other hother => ?_⟩
  rw [List.mem_singleton.mp hother]
  exact ⟨ride, h, Nat.le_refl _⟩

/-- Another itinerary does not make the shortest time longer. -/
theorem IsShortest.le_of_subset {ride : Duration} (h : IsShortest batch shortest)
    (hother : IsShortest other ride) (hsubset : batch ⊆ other) : ride ≤ shortest := by
  obtain ⟨itinerary, hmem, hride⟩ := h.attained
  obtain ⟨ride', hride', hle⟩ := hother.least itinerary (hsubset hmem)
  obtain rfl : shortest = ride' := Except.ok.inj (hride.symm.trans hride')
  exact hle

/-- Every batch with an itinerary in it has a shortest time, and its safe transfer
time is made of that. -/
theorem exists_isShortest (changing : Duration) (hbatch : batch ≠ []) :
    ∃ shortest, IsShortest batch shortest ∧
      ofBatch changing batch = .ok (ofRide changing shortest) := by
  obtain ⟨rides, hrides⟩ : ∃ rides, batch.mapM Itinerary.rideDuration = .ok rides :=
    exists_mapM fun itinerary _ => itinerary.exists_rideDuration
  have hpairs := mapM_eq_ok_iff.mp hrides
  cases hmin : rides.min? with
  | none =>
    rw [List.min?_eq_none_iff] at hmin
    exact absurd ((forall₂_nil_iff hpairs).mpr hmin) hbatch
  | some shortest =>
    obtain ⟨hmem, hle⟩ := List.min?_eq_some_iff.mp hmin
    refine ⟨shortest, ⟨exists_mem_of_forall₂ hpairs hmem, fun itinerary hitinerary => ?_⟩, ?_⟩
    · obtain ⟨ride, hride, hpair⟩ := exists_mem_of_forall₂ hpairs.flip hitinerary
      exact ⟨ride, hpair, hle ride hride⟩
    · unfold ofBatch
      rw [hrides]
      simp only [liftFault_ok, bind, Except.bind, hmin]
      rfl

/-! ## The account of a batch -/

/-- The safe transfer time of a batch with a given shortest time in vehicles. -/
theorem ofBatch_eq (changing : Duration) (h : IsShortest batch shortest) :
    ofBatch changing batch = .ok (ofRide changing shortest) := by
  obtain ⟨itinerary, hmem, -⟩ := h.attained
  obtain ⟨shortest', h', hbatch⟩ := exists_isShortest changing (List.ne_nil_of_mem hmem)
  have hle := h.le_of_subset h' (List.Subset.refl _)
  have hge := h'.le_of_subset h (List.Subset.refl _)
  obtain rfl : shortest = shortest' := Duration.ext (Nat.le_antisymm hge hle)
  exact hbatch

theorem ofBatch_nil (changing : Duration) : ofBatch changing [] = .error .noItineraries := rfl

/-- A batch lacks a safe transfer time only if there is nothing in it. -/
theorem ofBatch_error_iff (changing : Duration) (batch : List Itinerary) :
    (∃ problem, ofBatch changing batch = .error problem) ↔ batch = [] := by
  constructor
  · rintro ⟨problem, hproblem⟩
    by_contra hbatch
    obtain ⟨shortest, -, hsafe⟩ := exists_isShortest changing hbatch
    rw [hsafe] at hproblem
    cases hproblem
  · rintro rfl
    exact ⟨.noItineraries, ofBatch_nil changing⟩

/-- Nothing but the members of a batch matters. -/
theorem ofBatch_congr (changing : Duration)
    (hsame : ∀ itinerary, itinerary ∈ other ↔ itinerary ∈ batch) :
    ofBatch changing other = ofBatch changing batch := by
  by_cases hbatch : batch = []
  · have hother : other = [] := by
      rw [List.eq_nil_iff_forall_not_mem]
      intro itinerary hmem
      rw [hsame, hbatch] at hmem
      cases hmem
    rw [hbatch, hother]
  · obtain ⟨shortest, hshortest, hsafe⟩ := exists_isShortest changing hbatch
    rw [hsafe, ofBatch_eq changing (hshortest.congr hsame)]

/-- The batch has what the itinerary with the least safe transfer time would have
alone. -/
theorem exists_alone (changing : Duration) (h : IsShortest batch shortest) :
    ∃ alone, batch.mapM (fun itinerary => ofBatch changing [itinerary]) = .ok alone ∧
      alone.min? = some (ofRide changing shortest) := by
  have hsingle {itinerary : Itinerary} {ride : Duration}
      (hride : itinerary.rideDuration = .ok ride) :
      ofBatch changing [itinerary] = .ok (ofRide changing ride) :=
    ofBatch_eq changing (isShortest_singleton hride)
  obtain ⟨alone, halone⟩ :
      ∃ alone, batch.mapM (fun itinerary => ofBatch changing [itinerary]) = .ok alone :=
    exists_mapM fun itinerary hmem =>
      let ⟨ride, hride, _⟩ := h.least itinerary hmem
      ⟨_, hsingle hride⟩
  have hpairs := mapM_eq_ok_iff.mp halone
  refine ⟨alone, halone, List.min?_eq_some_iff.mpr ⟨?_, fun safe hsafe => ?_⟩⟩
  · obtain ⟨itinerary, hmem, hride⟩ := h.attained
    obtain ⟨safe, hsafe, hpair⟩ := exists_mem_of_forall₂ hpairs.flip hmem
    obtain rfl : ofRide changing shortest = safe :=
      Except.ok.inj ((hsingle hride).symm.trans hpair)
    exact hsafe
  · obtain ⟨itinerary, hmem, hpair⟩ := exists_mem_of_forall₂ hpairs hsafe
    obtain ⟨ride, hride, hle⟩ := h.least itinerary hmem
    obtain rfl : ofRide changing ride = safe := Except.ok.inj ((hsingle hride).symm.trans hpair)
    exact ofRide_mono changing hle

/-- A batch has a safe transfer time exactly if there is an itinerary in it.  It
lies within the bounds, of which the lower one wins, and it is the least that
one of the itineraries would have alone.  So neither the order of the batch nor
repetitions in it matter, and another itinerary never raises it. -/
theorem ofBatch_account (changing : Duration) (batch : List Itinerary) :
    ((∃ problem, ofBatch changing batch = .error problem) ↔ batch = []) ∧
    (batch ≠ [] → ∃ safe alone, ofBatch changing batch = .ok safe ∧
      max changing least ≤ safe ∧ safe ≤ max most (max changing least) ∧
      (most ≤ changing → safe = max changing least) ∧
      batch.mapM (fun itinerary => ofBatch changing [itinerary]) = .ok alone ∧
      alone.min? = some safe) ∧
    (∀ other, (∀ itinerary, itinerary ∈ other ↔ itinerary ∈ batch) →
      ofBatch changing other = ofBatch changing batch) ∧
    (batch ≠ [] → ∀ itinerary, ∃ before after, ofBatch changing batch = .ok before ∧
      ofBatch changing (itinerary :: batch) = .ok after ∧ after ≤ before) := by
  refine ⟨ofBatch_error_iff changing batch, fun hbatch => ?_,
    fun other hsame => ofBatch_congr changing hsame, fun hbatch itinerary => ?_⟩
  · obtain ⟨shortest, hshortest, hsafe⟩ := exists_isShortest changing hbatch
    obtain ⟨alone, halone, hmin⟩ := exists_alone changing hshortest
    obtain ⟨hlower, hupper⟩ := ofRide_bounds changing shortest
    exact ⟨_, alone, hsafe, hlower, hupper, fun hmost => ofRide_of_most_le hmost shortest, halone,
      hmin⟩
  · obtain ⟨shortest, hshortest, hbefore⟩ := exists_isShortest changing hbatch
    obtain ⟨ride, hride, hafter⟩ :=
      exists_isShortest changing (List.cons_ne_nil itinerary batch)
    exact ⟨_, _, hbefore, hafter,
      ofRide_mono changing (hshortest.le_of_subset hride (List.subset_cons_self _ _))⟩

/-- Two journeys with 19 minutes in vehicles each, in any order: transfers are safe in
76 seconds, but in 40 minutes if a change takes that long. -/
theorem ofBatch_account_network :
    (∃ safe, ∃ alone : List Duration,
      ofBatch .zero [Network.journey, Network.earlyWalk] = .ok safe ∧ safe.seconds = 76 ∧
      alone.map Duration.seconds = [76, 76] ∧ alone.min? = some safe) ∧
    ofBatch .zero [Network.earlyWalk, Network.journey, Network.earlyWalk] =
      ofBatch .zero [Network.journey, Network.earlyWalk] ∧
    ofBatch most [Network.journey, Network.earlyWalk] = .ok most := by
  have hbatch : [Network.journey, Network.earlyWalk] ≠ [] := List.cons_ne_nil _ _
  obtain ⟨-, hsafe, hsame, -⟩ := ofBatch_account .zero [Network.journey, Network.earlyWalk]
  refine ⟨?_, hsame _ fun itinerary => ?_, ?_⟩
  · obtain ⟨safe, alone, hok, -, -, -, halone, hmin⟩ := hsafe hbatch
    have hseconds : (ofBatch .zero [Network.journey, Network.earlyWalk]).map Duration.seconds =
        .ok 76 := by
      decide +kernel
    have hsingle : ([Network.journey, Network.earlyWalk].mapM fun itinerary =>
        ofBatch .zero [itinerary]).map (List.map Duration.seconds) = .ok [76, 76] := by
      decide +kernel
    rw [hok] at hseconds
    rw [halone] at hsingle
    exact ⟨safe, alone, hok, Except.ok.inj hseconds, Except.ok.inj hsingle, hmin⟩
  · simp only [List.mem_cons, List.not_mem_nil]
    tauto
  · obtain ⟨-, hlong, -⟩ := ofBatch_account most [Network.journey, Network.earlyWalk]
    obtain ⟨safe, -, hok, -, -, hmost, -⟩ := hlong hbatch
    rw [hok, hmost (Nat.le_refl _)]
    rfl

end SafeTransfer

end TransitTransfers
