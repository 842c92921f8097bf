import TransitTransfers.Proofs.Join.Listing

/-!
# No join is found twice

Two stops can have several footpaths between them, and then a search finds the
same two positions several times, once over each.  Where they have one at most,
all joins that a search finds have different positions.

* `Timetable.SinglePaths` is that condition.  Then the ways from a stop end at
  different stops (`ends_ways_nodup`), and a trip is boarded at different
  positions there (`candidatesAt_distinct`).
* Joins that leave a trip at different positions differ anyway, which makes
  `candidates_distinct` of it.
* A search that comes to an end has made all its sums (`SumsFit.of_find`), so
  what it found are the candidates, and `find_distinct` is the result.
-/

namespace TransitTransfers

/-- No value of a function repeats along a list. -/
theorem nodup_map_iff_pairwise {α β : Type} {f : α → β} {xs : List α} :
    (xs.map f).Nodup ↔ xs.Pairwise fun a b => f a ≠ f b :=
  List.pairwise_map

/-- No stop has two footpaths to the same stop. -/
def Timetable.SinglePaths (table : Timetable) : Prop :=
  (table.footpaths.map fun path => (path.origin, path.destination)).Nodup

instance (table : Timetable) : Decidable table.SinglePaths :=
  inferInstanceAs (Decidable (List.Nodup _))

theorem Trip.stopAt_of_firstDeparture? {trip : Trip} {stop ready position : Nat}
    (h : trip.firstDeparture? stop ready = some position) : trip.stopAt position = .ok stop := by
  have hboards := List.find?_some h
  rw [Bool.and_eq_true] at hboards
  exact callsAt_iff.mp hboards.1

namespace Join

/-- No two of some joins have the same positions. -/
def Distinct (joins : List Join) : Prop := (joins.map Join.positions).Nodup

theorem distinct_iff {joins : List Join} :
    Distinct joins ↔ joins.Pairwise fun a b => a.positions ≠ b.positions :=
  nodup_map_iff_pairwise

variable {table : Timetable} {slack : SlackPolicy} {source target : Trip}

/-! ## Candidates -/

/-- The ways from a stop end at different stops. -/
theorem ends_ways_nodup (hshelved : table.Shelved) (hpaths : table.SinglePaths) (stop : Nat) :
    ((ways table stop).map (wayEnd stop)).Nodup := by
  have hends : (ways table stop).map (wayEnd stop) =
      stop :: ((table.footpathsFrom stop).filter (·.destination ≠ stop)).map (·.destination) := by
    rw [ways, List.map_cons, List.map_map]
    rfl
  rw [hends, List.nodup_cons]
  constructor
  · intro hmem
    obtain ⟨path, hpath, hdestination⟩ := List.mem_map.mp hmem
    exact of_decide_eq_true (List.mem_filter.mp hpath).2 hdestination
  · -- All these paths have the same origin, so they differ in where they end.
    have hsub : ((table.footpathsFrom stop).filter (·.destination ≠ stop)).Sublist
        table.footpaths := List.filter_sublist.trans (table.footpathsFrom_sublist stop)
    rw [Timetable.SinglePaths, nodup_map_iff_pairwise] at hpaths
    rw [nodup_map_iff_pairwise]
    refine (hpaths.sublist hsub).imp_of_mem fun ha hb hne hsame => hne ?_
    have horigin : ∀ path ∈ (table.footpathsFrom stop).filter (·.destination ≠ stop),
        path.origin = stop := fun path hpath =>
      hshelved stop path (List.mem_filter.mp hpath).1
    rw [horigin _ ha, horigin _ hb, hsame]

/-- A candidate leaves the first trip at the position and boards the second one
where its way ends. -/
theorem candidate?_eq_some {pause alight stop : Nat} {arrival : Time} {way : Option Footpath}
    {join : Join}
    (h : candidate? table source target pause alight stop arrival way = some join) :
    join.alight = alight ∧ target.stopAt join.board = .ok (wayEnd stop way) := by
  obtain ⟨board, hboard, rfl⟩ := Option.map_eq_some_iff.mp h
  exact ⟨rfl, Trip.stopAt_of_firstDeparture? hboard⟩

theorem candidatesAt_distinct (hshelved : table.Shelved) (hpaths : table.SinglePaths)
    (pause alight : Nat) : Distinct (candidatesAt table source target pause alight) := by
  unfold candidatesAt
  split
  · rename_i stop arrival _ _
    have hends := ends_ways_nodup hshelved hpaths stop
    rw [nodup_map_iff_pairwise] at hends
    rw [distinct_iff, List.pairwise_filterMap]
    refine hends.imp fun hne join hjoin other hother hsame => hne ?_
    have hstop := (candidate?_eq_some hjoin).2
    have hboard : join.board = other.board := congrArg Prod.snd hsame
    rw [hboard, (candidate?_eq_some hother).2] at hstop
    exact (Except.ok.inj hstop).symm
  · exact List.nodup_nil

theorem alight_of_mem_candidatesAt {pause alight : Nat} {join : Join}
    (h : join ∈ candidatesAt table source target pause alight) : join.alight = alight := by
  unfold candidatesAt at h
  split at h
  · obtain ⟨way, -, hjoin⟩ := List.mem_filterMap.mp h
    exact (candidate?_eq_some hjoin).1
  · cases h

theorem candidates_distinct (hshelved : table.Shelved) (hpaths : table.SinglePaths)
    (start : Nat) : Distinct (candidates table slack source start target) := by
  rw [distinct_iff, candidates, List.pairwise_flatMap]
  refine ⟨fun alight _ => distinct_iff.mp (candidatesAt_distinct hshelved hpaths _ alight), ?_⟩
  have hpositions : (List.range' (start + 1) (source.length - (start + 1))).Nodup :=
    List.nodup_range' 1
  refine List.Pairwise.imp (fun hne join hjoin other hother hsame => hne ?_) hpositions
  rw [← alight_of_mem_candidatesAt hjoin, ← alight_of_mem_candidatesAt hother]
  exact congrArg Prod.fst hsame

/-! ## What a search finds -/

/-- A search at one position that comes to an end has made all its sums. -/
theorem fits_of_leavingAt {pause : Duration} {alight stop : Nat} {arrival : Time}
    {joins : List Join} (h : leavingAt table source target pause alight = .ok joins)
    (hstop : source.stopAt alight = .ok stop) (harrival : source.arrivalAt alight = .ok arrival) :
    ∀ way ∈ ways table stop, arrival.seconds + pause.seconds + pathSeconds way < wordSize := by
  obtain ⟨stop', hstop', h⟩ := bind_eq_ok_iff.mp h
  obtain ⟨arrival', harrival', h⟩ := bind_eq_ok_iff.mp h
  obtain ⟨ready, hready, h⟩ := bind_eq_ok_iff.mp h
  obtain ⟨here, -, h⟩ := bind_eq_ok_iff.mp h
  obtain ⟨there, hthere, -⟩ := bind_eq_ok_iff.mp h
  obtain rfl := Except.ok.inj (hstop.symm.trans hstop')
  obtain rfl := Except.ok.inj (harrival.symm.trans harrival')
  rw [Time.add_eq_ok_iff] at hready
  intro way hway
  rcases List.mem_cons.mp hway with rfl | hwalk
  · have hfits := ready.fits
    show arrival.seconds + pause.seconds < wordSize
    omega
  · obtain ⟨path, hpath, rfl⟩ := List.mem_map.mp hwalk
    obtain ⟨found, -, hfound⟩ := exists_mem_of_forall₂ (mapM_eq_ok_iff.mp hthere).flip hpath
    obtain ⟨later, hlater, -⟩ := bind_eq_ok_iff.mp hfound
    rw [Time.add_eq_ok_iff] at hlater
    have hfits := later.fits
    show arrival.seconds + pause.seconds + path.duration.seconds < wordSize
    omega

/-- A search that comes to an end has made all its sums. -/
theorem SumsFit.of_find {start : Nat} {joins : List Join}
    (h : find table slack source start target = .ok joins) : SumsFit table slack source start := by
  obtain ⟨pause, hpause, found, hfound, -⟩ := find_eq_ok_iff.mp h
  have htotal := SlackPolicy.total_seconds hpause
  refine ⟨htotal ▸ pause.fits, fun {alight stop arrival} hlt hstop harrival => ?_⟩
  have hposition : alight ∈ List.range' (start + 1) (source.length - (start + 1)) := by
    have hwithin := Trip.lt_of_stopAt hstop
    rw [List.mem_range'_1]
    omega
  obtain ⟨leaving, -, hleaving⟩ :=
    exists_mem_of_forall₂ (mapM_eq_ok_iff.mp hfound).flip hposition
  rw [← htotal]
  exact fits_of_leavingAt hleaving hstop harrival

/-- What a search finds are the candidates. -/
theorem eq_candidates_of_find {start : Nat} {joins : List Join} (hsource : source.Timed)
    (htarget : target.Timed) (h : find table slack source start target = .ok joins) :
    joins = candidates table slack source start target :=
  Except.ok.inj (h.symm.trans (find_eq_candidates hsource htarget (.of_find h)))

/-- Where no stop has two footpaths to the same stop, all joins that a search
finds have different positions. -/
theorem find_distinct {start : Nat} {joins : List Join} (hshelved : table.Shelved)
    (hpaths : table.SinglePaths) (hsource : source.Timed) (htarget : target.Timed)
    (h : find table slack source start target = .ok joins) : Distinct joins := by
  rw [eq_candidates_of_find hsource htarget h]
  exact candidates_distinct hshelved hpaths start

end Join

end TransitTransfers
