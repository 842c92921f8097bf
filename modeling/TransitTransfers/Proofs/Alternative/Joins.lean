import TransitTransfers.Proofs.Alternative.Restart

/-!
# The joins that an alternative keeps

An alternative keeps the joins of the chain that it was made of.  This module
reads them back from its itinerary.

* `stretches_eq_iff` and `SameFrame.sameStretches_iff` are about itineraries
  alone: between the same ends, two of them ride the same stretches exactly if
  their junctions have the same positions.
* `exists_offered` says that the junctions of an alternative are made over its
  joins, one by one.  So they use these joins (`uses_joins`), and the positions
  of the joins tell alternatives apart (`sameStretches_iff_positions`).
  `alternatives_use_joins` is both for all alternatives of an itinerary.
* `exists_own_alternative` finds the itinerary's own changes among the
  alternatives, since no step of the listing can lose them.
-/

namespace TransitTransfers

/-! ## Where an itinerary changes -/

/-- The position where the first trip of a junction is left, and the one where
the second trip is boarded. -/
def Junction.positions (junction : Junction) : Nat × Nat :=
  (junction.arriving.alight, junction.departing.board)

namespace Itinerary

/-- The rides and their junctions: between the same ends, the stretches are
given by the positions of the junctions. -/
theorem stretches_eq_iff {ride other : Ride} {changes others : List Change}
    (htrips : (ride :: changes.map (·.ride)).map (·.trip) =
      (other :: others.map (·.ride)).map (·.trip))
    (hboard : ride.board = other.board)
    (hlast : (lastFrom ride changes).alight = (lastFrom other others).alight) :
    (ride :: changes.map (·.ride)).map Ride.stretch =
        (other :: others.map (·.ride)).map Ride.stretch ↔
      (junctionsFrom ride changes).map Junction.positions =
        (junctionsFrom other others).map Junction.positions := by
  induction changes generalizing ride other others with
  | nil =>
    cases others with
    | nil =>
      have htrip : ride.trip = other.trip := List.head_eq_of_cons_eq htrips
      have hends : ride.alight = other.alight := hlast
      have hstretch : ride.stretch = other.stretch := by
        rw [Ride.stretch, Ride.stretch, htrip, hboard, hends]
      exact iff_of_true (congrArg (fun stretch => [stretch]) hstretch) rfl
    | cons next others => simp at htrips
  | cons change changes ih =>
    cases others with
    | nil => simp at htrips
    | cons next others =>
      have htrip : ride.trip = other.trip := List.head_eq_of_cons_eq htrips
      have htrips := List.tail_eq_of_cons_eq htrips
      show ride.stretch :: (change.ride :: changes.map (·.ride)).map Ride.stretch =
          other.stretch :: (next.ride :: others.map (·.ride)).map Ride.stretch ↔
        (ride.alight, change.ride.board) ::
            (junctionsFrom change.ride changes).map Junction.positions =
          (other.alight, next.ride.board) ::
            (junctionsFrom next.ride others).map Junction.positions
      simp only [List.cons.injEq, Prod.mk.injEq]
      -- Either side says that the next trip is boarded at the same position.
      constructor
      · rintro ⟨hstretch, hrest⟩
        have hnext : change.ride.board = next.ride.board :=
          congrArg (·.2.1) (List.head_eq_of_cons_eq hrest)
        exact ⟨⟨congrArg (·.2.2) hstretch, hnext⟩, (ih htrips hnext hlast).mp hrest⟩
      · rintro ⟨⟨halight, hnext⟩, hrest⟩
        refine ⟨?_, (ih htrips hnext hlast).mpr hrest⟩
        rw [Ride.stretch, Ride.stretch, htrip, hboard, halight]

/-- Two itineraries on the same trips between the same ends ride the same
stretches exactly if they change at the same positions. -/
theorem SameFrame.sameStretches_iff {given a b : Itinerary} (ha : a.SameFrame given)
    (hb : b.SameFrame given) :
    a.sameStretches b = true ↔
      a.junctions.map Junction.positions = b.junctions.map Junction.positions := by
  have hlast : (lastFrom a.first a.changes).alight = (lastFrom b.first b.changes).alight := by
    rw [← lastRide_eq_lastFrom, ← lastRide_eq_lastFrom]
    exact ha.alight.trans hb.alight.symm
  rw [sameStretches, decide_eq_true_iff]
  exact stretches_eq_iff (ha.trips.trans hb.trips.symm) (ha.board.trans hb.board.symm) hlast

end Itinerary

namespace Planner

variable {planner : Planner} {given : Itinerary} {alternatives : List Alternative}

/-! ## The joins in use -/

/-- The joins of an alternative are taken from the offers, one from each, and
its junctions are made over them. -/
theorem exists_offered (hbuilt : planner.table.Built) (hrides : given.RidesOn planner.table)
    (hlist : planner.alternatives given = .ok alternatives) :
    ∃ offers, planner.offers given = .ok offers ∧ ∀ alternative ∈ alternatives,
      List.Forall₂ (fun join offer => join ∈ offer.joins) alternative.joins offers ∧
        List.Forall₂ planner.MadeOver alternative.itinerary.junctions alternative.joins := by
  by_cases hchanges : given.changes = []
  · have hjunctions : given.junctions = [] := by
      rw [Itinerary.junctions, hchanges]
      rfl
    rw [Planner.alternatives, hchanges] at hlist
    cases hlist
    refine ⟨[], by rw [offers, hjunctions]; rfl, fun alternative hmem => ?_⟩
    obtain rfl := List.mem_singleton.mp hmem
    rw [hjunctions]
    exact ⟨.nil, .nil⟩
  · obtain ⟨offers, chains, hoffers, hchains, -, hmakes⟩ :=
      alternatives_spec hbuilt hrides hchanges hlist
    refine ⟨offers, hoffers, fun alternative hmem => ?_⟩
    obtain ⟨chain, hchain, rfl, hretimed⟩ := exists_mem_of_forall₂ hmakes hmem
    obtain ⟨hretimes, -, -⟩ := retime_eq_some_iff.mp hretimed
    exact ⟨((mem_chainsOf hchains).mp hchain).1,
      hretimes.madeOver (connects_of_mem_chainsOf hbuilt hrides hoffers hchains hchain)⟩

/-- The junctions of an alternative use its joins, one by one. -/
theorem uses_joins (hbuilt : planner.table.Built) (hrides : given.RidesOn planner.table)
    (hlist : planner.alternatives given = .ok alternatives) {alternative : Alternative}
    (hmem : alternative ∈ alternatives) :
    List.Forall₂ (fun junction join => Join.ofJunction planner.table junction = .ok join)
      alternative.itinerary.junctions alternative.joins := by
  obtain ⟨offers, -, hoffered⟩ := exists_offered hbuilt hrides hlist
  exact (hoffered alternative hmem).2.imp fun _ _ hmade => hmade.uses

/-- The joins of an alternative know the rules of the timetable. -/
theorem ruled_of_mem_alternatives (hbuilt : planner.table.Built)
    (hrides : given.RidesOn planner.table)
    (hlist : planner.alternatives given = .ok alternatives) {alternative : Alternative}
    (hmem : alternative ∈ alternatives) {join : Join} (hjoin : join ∈ alternative.joins) :
    join.Ruled planner.table := by
  obtain ⟨junction, -, huses⟩ :=
    exists_mem_of_forall₂ (uses_joins hbuilt hrides hlist hmem) hjoin
  exact Join.ofJunction_ruled huses

/-- An itinerary has alternatives, unless a sum does not fit. -/
theorem exists_alternatives (hbuilt : planner.table.Built)
    (hrides : given.RidesOn planner.table)
    (hfits : planner.alternatives given ≠ .error .addition) :
    ∃ alternatives, planner.alternatives given = .ok alternatives := by
  by_cases hchanges : given.changes = []
  · exact ⟨[⟨given, []⟩], by rw [Planner.alternatives, hchanges]; rfl⟩
  · obtain ⟨alternatives, hlist, -⟩ :=
      (alternatives_succeeds hbuilt hrides hchanges).ok_of_ne hfits
    exact ⟨alternatives, hlist⟩

/-- The joins that junctions use have their positions. -/
theorem positions_of_uses {junctions : List Junction} {joins : List Join}
    (h : List.Forall₂ (fun junction join => Join.ofJunction planner.table junction = .ok join)
      junctions joins) :
    joins.map Join.positions = junctions.map Junction.positions := by
  rw [← List.forall₂_eq_eq_eq, List.forall₂_map_left_iff, List.forall₂_map_right_iff]
  exact h.flip.imp fun _ _ => Join.ofJunction_positions

/-- Two alternatives ride the same stretches exactly if their joins have the
same positions. -/
theorem sameStretches_iff_positions (hbuilt : planner.table.Built)
    (hrides : given.RidesOn planner.table)
    (hlist : planner.alternatives given = .ok alternatives) {a b : Alternative}
    (ha : a ∈ alternatives) (hb : b ∈ alternatives) :
    a.itinerary.sameStretches b.itinerary = true ↔
      a.joins.map Join.positions = b.joins.map Join.positions := by
  have hframe := (alters_of_mem_alternatives hbuilt hrides hlist ha).sameFrame
  have hframe' := (alters_of_mem_alternatives hbuilt hrides hlist hb).sameFrame
  rw [hframe.sameStretches_iff hframe', positions_of_uses (uses_joins hbuilt hrides hlist ha),
    positions_of_uses (uses_joins hbuilt hrides hlist hb)]

/-- An alternative rides the stretches of the itinerary exactly if its joins
have the positions of the junctions. -/
theorem sameStretches_given_iff (hbuilt : planner.table.Built)
    (hrides : given.RidesOn planner.table)
    (hlist : planner.alternatives given = .ok alternatives) {alternative : Alternative}
    (hmem : alternative ∈ alternatives) :
    alternative.itinerary.sameStretches given = true ↔
      alternative.joins.map Join.positions = given.junctions.map Junction.positions := by
  have hframe := (alters_of_mem_alternatives hbuilt hrides hlist hmem).sameFrame
  rw [hframe.sameStretches_iff ⟨rfl, rfl, rfl, rfl, rfl⟩,
    positions_of_uses (uses_joins hbuilt hrides hlist hmem)]

/-! ## The own changes of an itinerary -/

/-- The chains that alternatives are made of are the joins that they keep. -/
theorem exists_chains (hbuilt : planner.table.Built) (hrides : given.RidesOn planner.table)
    (hchanges : given.changes ≠ []) (hlist : planner.alternatives given = .ok alternatives) :
    ∃ offers, planner.offers given = .ok offers ∧
      chainsOf given offers = .ok (alternatives.map (·.joins)) := by
  obtain ⟨offers, chains, hoffers, hchains, -, hmakes⟩ :=
    alternatives_spec hbuilt hrides hchanges hlist
  have hjoins : alternatives.map (·.joins) = chains := by
    rw [← List.forall₂_eq_eq_eq, List.forall₂_map_left_iff]
    exact hmakes.flip.imp fun _ _ hmake => hmake.1
  rw [hjoins]
  exact ⟨offers, hoffers, hchains⟩

/-- Some alternative has the positions of the itinerary itself. -/
theorem mem_positions (hbuilt : planner.table.Built) (hrides : given.RidesOn planner.table)
    (hchanges : given.changes ≠ []) (hlist : planner.alternatives given = .ok alternatives) :
    given.junctions.map Junction.positions ∈
      alternatives.map (·.joins.map Join.positions) := by
  obtain ⟨offers, hoffers, hchains⟩ := exists_chains hbuilt hrides hchanges hlist
  obtain ⟨chain, hchain, hstays⟩ := exists_own_chain hoffers hchains
  obtain ⟨own, hown, rfl⟩ := List.mem_map.mp hchain
  refine List.mem_map.mpr ⟨own, hown, ?_⟩
  rw [← List.forall₂_eq_eq_eq, List.forall₂_map_left_iff, List.forall₂_map_right_iff]
  exact hstays

/-- One of the alternatives changes where the itinerary does. -/
theorem exists_own_alternative (hbuilt : planner.table.Built)
    (hrides : given.RidesOn planner.table) (hchanges : given.changes ≠ [])
    (hlist : planner.alternatives given = .ok alternatives) :
    ∃ own ∈ alternatives, own.itinerary.sameStretches given = true := by
  obtain ⟨own, hown, hpositions⟩ :=
    List.mem_map.mp (mem_positions hbuilt hrides hchanges hlist)
  exact ⟨own, hown, (sameStretches_given_iff hbuilt hrides hlist hown).mpr hpositions⟩

/-- The joins that are kept beside an alternative are those that its itinerary
uses: there is one for every junction, in order, and reading the junction back
gives that join with its positions, its walk and its rule.  So the alternatives
of an itinerary ride the same stretches exactly if the positions of their joins
agree at every junction. -/
theorem alternatives_use_joins (hbuilt : planner.table.Built)
    (hrides : given.RidesOn planner.table)
    (hfits : planner.alternatives given ≠ .error .addition) :
    ∃ alternatives, planner.alternatives given = .ok alternatives ∧
      (∀ alternative ∈ alternatives, List.Forall₂
        (fun junction join => Join.ofJunction planner.table junction = .ok join)
          alternative.itinerary.junctions alternative.joins) ∧
        ∀ a ∈ alternatives, ∀ b ∈ alternatives,
          (a.itinerary.sameStretches b.itinerary = true ↔
            a.joins.map Join.positions = b.joins.map Join.positions) := by
  obtain ⟨alternatives, hlist⟩ := exists_alternatives hbuilt hrides hfits
  refine ⟨alternatives, hlist, ?_, ?_⟩
  · intro alternative hmem
    exact uses_joins hbuilt hrides hlist hmem
  · intro a ha b hb
    exact sameStretches_iff_positions hbuilt hrides hlist ha hb

end Planner

theorem Network.journey_fits :
    Network.planner.alternatives Network.journey ≠ .error .addition := by
  decide +kernel

/-- The first alternative of the journey walks over the footpath that it keeps. -/
theorem Planner.alternatives_use_joins_journey :
    Network.planner.alternatives Network.journey ≠ .error .addition ∧
      ∃ alternatives, Network.planner.alternatives Network.journey = .ok alternatives ∧
        alternatives.map (·.joins.map Join.positions) =
          [[(1, 1), (2, 1)], [(1, 1), (3, 2)], [(2, 2), (3, 2)]] ∧
        ∀ alternative ∈ alternatives, List.Forall₂
          (fun junction join => Join.ofJunction Network.planner.table junction = .ok join)
            alternative.itinerary.junctions alternative.joins := by
  obtain ⟨alternatives, hlist, huses, -⟩ := alternatives_use_joins Network.planner_built
    Network.journey_ridesOn Network.journey_fits
  have hpositions : (Network.planner.alternatives Network.journey).map
      (·.map (·.joins.map Join.positions)) =
        .ok [[(1, 1), (2, 1)], [(1, 1), (3, 2)], [(2, 2), (3, 2)]] := by
    decide +kernel
  rw [hlist] at hpositions
  exact ⟨Network.journey_fits, alternatives, hlist, Except.ok.inj hpositions, huses⟩

end TransitTransfers
