import TransitTransfers.Proofs.Alternative.Course

/-!
# Starting again from an alternative

An alternative is an itinerary itself, and has alternatives of its own.  They
are among those of the itinerary that it comes from, in the same order, and the
alternative is one of them.

* `MadeOver` says that a junction has the rides and the walk of a join, and
  `Retimes.madeOver` carries it along a chain.  `ofJunction_of_walkOver` reads the
  join back from such a junction, and `Retimes.uses` reads a whole chain back.
* `Offer.restart` is one junction: an offer that starts again from one of its
  joins, and later on the trip, has fewer joins and keeps that one.
* `Retimes.restart` is the run over the junctions.  Its invariant is that the
  later search starts no earlier, but before the chain leaves the trip.
* `alternatives_restart` puts the pieces together: a chain makes the same
  itinerary again.
-/

namespace TransitTransfers

namespace Offer

/-- Some join of an offer with joins boards at the first position. -/
theorem exists_earliestBoard {offer : Offer} {join : Join} (h : join ∈ offer.joins) :
    ∃ first ∈ offer.joins, first.board = offer.earliestBoard := by
  unfold earliestBoard
  cases hmin : (offer.joins.map (·.board)).min? with
  | none =>
    rw [List.min?_eq_none_iff, List.map_eq_nil_iff] at hmin
    rw [hmin] at h
    cases h
  | some least =>
    obtain ⟨first, hfirst, hboard⟩ := List.mem_map.mp (List.min?_eq_some_iff.mp hmin).1
    exact ⟨first, hfirst, hboard⟩

/-- Fewer joins board no earlier. -/
theorem earliestBoard_le_of_sublist {few all : Offer} (hsub : few.joins.Sublist all.joins)
    {join : Join} (h : join ∈ few.joins) : all.earliestBoard ≤ few.earliestBoard := by
  obtain ⟨first, hfirst, hboard⟩ := exists_earliestBoard h
  rw [← hboard]
  exact earliestBoard_le (hsub.subset hfirst)

/-- An offer whose search starts later, and whose own join is one of the joins
from before, has fewer joins and keeps that one. -/
theorem restart {found : List Join} {own join : Join} {later : Nat}
    (hjoin : join ∈ (Offer.mk found own).joins) (hlater : later < join.alight) :
    (Offer.mk (found.filter (later < ·.alight)) join).joins.Sublist (Offer.mk found own).joins ∧
      join ∈ (Offer.mk (found.filter (later < ·.alight)) join).joins := by
  have hkept : found.filter (later < ·.alight) |>.Sublist found := List.filter_sublist
  by_cases hmem : join ∈ found
  · -- The join is found again, so nothing is put behind.
    have hagain : join ∈ found.filter (later < ·.alight) :=
      List.mem_filter.mpr ⟨hmem, decide_eq_true hlater⟩
    have hany : (found.filter (later < ·.alight)).any (·.positions = join.positions) = true :=
      List.any_eq_true.mpr ⟨join, hagain, decide_eq_true rfl⟩
    have hall : found.Sublist (Offer.mk found own).joins := by
      unfold joins
      split
      · exact List.Sublist.refl found
      · exact List.sublist_append_left found [own]
    have hjoins : (Offer.mk (found.filter (later < ·.alight)) join).joins =
        found.filter (later < ·.alight) := if_pos hany
    rw [hjoins]
    exact ⟨hkept.trans hall, hagain⟩
  · -- The join is the own one, and nothing that is found has its positions.
    obtain rfl : join = own := (mem_joins hjoin).resolve_left hmem
    have hnone : ¬found.any (·.positions = join.positions) = true := by
      intro hany
      rw [joins, if_pos hany] at hjoin
      exact hmem hjoin
    have hnone' : ¬(found.filter (later < ·.alight)).any
        (·.positions = join.positions) = true := by
      intro hany
      obtain ⟨other, hother, hpositions⟩ := List.any_eq_true.mp hany
      exact hnone (List.any_eq_true.mpr ⟨other, hkept.subset hother, hpositions⟩)
    have hjoins : (Offer.mk (found.filter (later < ·.alight)) join).joins =
        found.filter (later < ·.alight) ++ [join] := if_neg hnone'
    rw [hjoins, joins, if_neg hnone]
    exact ⟨hkept.append_right [join], List.mem_append_right _ (List.mem_singleton_self join)⟩

/-- The joins of an offer that is made again for the junction over one of its
joins, with a later start. -/
theorem MadeFrom.restart {planner : Planner} {start later : Nat} {given made : Junction}
    {offer again : Offer} (hoffer : offer.MadeFrom planner start given)
    (hagain : again.MadeFrom planner later made) {join : Join} (hjoin : join ∈ offer.joins)
    (hown : Join.ofJunction planner.table made = .ok join)
    (hsource : made.arriving.trip = given.arriving.trip)
    (htarget : made.departing.trip = given.departing.trip) (hstart : start ≤ later)
    (hlater : later < join.alight) :
    again.joins.Sublist offer.joins ∧ join ∈ again.joins := by
  have hsearch := hagain.found
  rw [hsource, htarget] at hsearch
  have hfilter := Join.find_eq_filter hstart hoffer.found
  have hfound : again.found = offer.found.filter (later < ·.alight) :=
    Except.ok.inj (hsearch.symm.trans hfilter)
  have hown' : again.own = join := Except.ok.inj (hagain.own.symm.trans hown)
  rcases again with ⟨found, own⟩
  obtain rfl : found = _ := hfound
  obtain rfl : own = _ := hown'
  exact Offer.restart hjoin hlater

end Offer

namespace Planner

variable {planner : Planner}

/-! ## The join that was used -/

/-- A junction that was made over a join uses that join. -/
theorem ofJunction_of_walkOver {join : Join} (hruled : join.Ruled planner.table)
    {walk : Option Walk} {ready : Time} (hwalk : planner.walkOver join = .ok (walk, ready))
    {arriving departing : Ride} (hsource : arriving.trip = join.source)
    (halight : arriving.alight = join.alight) (htarget : departing.trip = join.target)
    (hboard : departing.board = join.board) :
    Join.ofJunction planner.table ⟨arriving, walk, departing⟩ = .ok join := by
  obtain ⟨alighted, boarded, -, -, hwalks⟩ := walkOver_eq_ok_iff.mp hwalk
  have hpath : Join.walkedPath walk = .ok join.footpath := by
    unfold Walks at hwalks
    cases hfootpath : join.footpath with
    | none =>
      rw [hfootpath] at hwalks
      rw [hwalks.1]
      rfl
    | some path =>
      rw [hfootpath] at hwalks
      rcases hwalks with ⟨-, preferred, arrival, -, harrival, rfl⟩
      exact bind_eq_ok_iff.mpr ⟨path.duration, Time.since_eq_ok_iff.mpr harrival, rfl⟩
  obtain ⟨origin, destination, horigin, hdestination, hrule⟩ := hruled
  refine bind_eq_ok_iff.mpr ⟨join.footpath, hpath, ?_⟩
  dsimp only
  rw [hsource, halight, htarget, hboard, Join.between_eq_ok_iff]
  refine ⟨origin, destination, horigin, hdestination, ?_⟩
  rw [← hrule]

/-- The rides and the walk of a junction are those of a join that a rider can
make. -/
structure MadeOver (planner : Planner) (junction : Junction) (join : Join) : Prop where
  source : junction.arriving.trip = join.source
  alight : junction.arriving.alight = join.alight
  target : junction.departing.trip = join.target
  board : junction.departing.board = join.board
  walk : ∃ ready, planner.walkOver join = .ok (junction.walk, ready)
  feasible : join.Feasible 0
  ruled : join.Ruled planner.table

/-- A junction that was made over a join uses it. -/
theorem MadeOver.uses {junction : Junction} {join : Join} (h : planner.MadeOver junction join) :
    Join.ofJunction planner.table junction = .ok join := by
  obtain ⟨ready, hwalk⟩ := h.walk
  exact ofJunction_of_walkOver h.ruled hwalk h.source h.alight h.target h.board

/-! ## The run over the junctions -/

/-- The run over a chain: every junction is made over the join of the chain. -/
theorem Retimes.madeOver {isFirst : Bool} {ride : Ride} {changes : List Change} {board : Nat}
    {ready : Time} {chain : List Join} {taken : Ride} {made : List Change}
    (hconnects : List.Forall₂ planner.Connects (Itinerary.junctionsFrom ride changes) chain)
    (h : planner.Retimes isFirst ride board ready (chain.zip (changes.map (·.ride))) taken made) :
    List.Forall₂ planner.MadeOver (Itinerary.junctionsFrom taken made) chain := by
  induction changes generalizing isFirst ride board ready chain taken made with
  | nil =>
    cases hconnects
    cases h with
    | last _ => exact .nil
  | cons change changes ih =>
    cases hconnects with
    | cons hjoin hconnects =>
      cases h with
      | next htaken hwalk hrest =>
        obtain ⟨htrip, -, halight⟩ := parts_of_rideFrom htaken
        obtain ⟨hnext, hboard, -⟩ := hrest.boards
        refine .cons ?_ (ih hconnects hrest)
        exact ⟨htrip.trans hjoin.source.symm, halight, hnext.trans hjoin.target.symm, hboard,
          ⟨_, hwalk⟩, hjoin.feasible, hjoin.ruled⟩

/-- The junctions that were made over a chain use its joins, one by one. -/
theorem Retimes.uses {isFirst : Bool} {ride : Ride} {changes : List Change} {board : Nat}
    {ready : Time} {chain : List Join} {taken : Ride} {made : List Change}
    (hconnects : List.Forall₂ planner.Connects (Itinerary.junctionsFrom ride changes) chain)
    (h : planner.Retimes isFirst ride board ready (chain.zip (changes.map (·.ride))) taken made) :
    List.Forall₂ (fun junction join => Join.ofJunction planner.table junction = .ok join)
      (Itinerary.junctionsFrom taken made) chain :=
  (h.madeOver hconnects).imp fun _ _ hmade => hmade.uses

/-- The offers for the rides that a chain was made into have fewer joins than
those that the chain was taken from, and still have the joins of the chain. -/
theorem Retimes.restart {isFirst : Bool} {ride : Ride} {changes : List Change} {board : Nat}
    {ready : Time} {chain : List Join} {taken : Ride} {made : List Change} {last : Nat}
    {start later : Nat} {offers again : List Offer}
    (hconnects : List.Forall₂ planner.Connects (Itinerary.junctionsFrom ride changes) chain)
    (horder : InOrder last board chain)
    (h : planner.Retimes isFirst ride board ready (chain.zip (changes.map (·.ride))) taken made)
    (hoffers : planner.offersFrom start (Itinerary.junctionsFrom ride changes) = .ok offers)
    (hjoins : List.Forall₂ (fun join offer => join ∈ offer.joins) chain offers)
    (hstart : start ≤ later) (hlater : later ≤ board)
    (hagain : planner.offersFrom later (Itinerary.junctionsFrom taken made) = .ok again) :
    List.Forall₂ List.Sublist (again.map Offer.joins) (offers.map Offer.joins) ∧
      List.Forall₂ (fun join offer => join ∈ offer.joins) chain again := by
  induction changes generalizing isFirst ride board ready chain taken made start later offers
    again with
  | nil =>
    cases hconnects
    cases hoffers
    cases h with
    | last _ =>
      cases hagain
      exact ⟨.nil, .nil⟩
  | cons change changes ih =>
    have huses := h.uses hconnects
    cases hconnects with
    | cons _ hconnects =>
      cases h with
      | next htaken _ hrest =>
        obtain ⟨offer, rest, hoffer, hothers, rfl⟩ := offersFrom_cons_eq_ok_iff.mp hoffers
        obtain ⟨reoffer, others, hreoffer, hreothers, rfl⟩ := offersFrom_cons_eq_ok_iff.mp hagain
        cases hjoins with
        | cons hmem hjoins =>
          obtain ⟨htrip, -, -⟩ := parts_of_rideFrom htaken
          obtain ⟨hnext, -, -⟩ := hrest.boards
          obtain ⟨hown, -⟩ := List.forall₂_cons.mp huses
          obtain ⟨hsub, hkept⟩ := hoffer.restart hreoffer hmem hown htrip hnext hstart
            (Nat.lt_of_le_of_lt hlater horder.1)
          -- The next search starts later again, but no later than the chain boards.
          obtain ⟨hsubs, hkepts⟩ := ih hconnects horder.2 hrest hothers hjoins
            (Offer.earliestBoard_le_of_sublist hsub hkept) (Offer.earliestBoard_le hkept) hreothers
          exact ⟨.cons hsub hsubs, .cons hkept hkepts⟩

/-! ## A whole itinerary -/

theorem Alters.sameFrame {given made : Itinerary} (h : planner.Alters given made) :
    made.SameFrame given :=
  ⟨h.access, h.egress, h.trips, h.board, h.alight⟩

theorem Alters.ridesOn {given made : Itinerary} (h : planner.Alters given made)
    {table : Timetable} (hrides : given.RidesOn table) : made.RidesOn table := by
  have hall : ∀ trip ∈ given.rides.map (·.trip), trip ∈ table.trips :=
    List.forall_mem_map.mpr hrides
  rw [← h.trips] at hall
  exact List.forall_mem_map.mp hall

theorem Alters.changes_eq_nil_iff {given made : Itinerary} (h : planner.Alters given made) :
    made.changes = [] ↔ given.changes = [] := by
  have hlength := congrArg List.length h.trips
  simp only [Itinerary.rides, List.length_map, List.length_cons, Nat.add_right_cancel_iff]
    at hlength
  rw [← List.length_eq_zero_iff, hlength, List.length_eq_zero_iff]

theorem Makes.unique {itinerary : Itinerary} {chain : List Join} {a b : Alternative}
    (ha : planner.Makes itinerary chain a) (hb : planner.Makes itinerary chain b) : a = b := by
  rcases a with ⟨made, joins⟩
  rcases b with ⟨made', joins'⟩
  obtain rfl : joins = chain := ha.1
  obtain rfl : joins' = joins := hb.1
  obtain rfl : made = made' := Option.some.inj (Except.ok.inj (ha.2.symm.trans hb.2))
  rfl

/-- The alternatives of an alternative are some of those of the itinerary that
it comes from, in the same order, and it is one of them itself. -/
theorem alternatives_restart {itinerary : Itinerary} (hbuilt : planner.table.Built)
    (hrides : itinerary.RidesOn planner.table) (hchanges : itinerary.changes ≠ [])
    {alternatives : List Alternative} (h : planner.alternatives itinerary = .ok alternatives)
    {alternative : Alternative} (hmem : alternative ∈ alternatives) {again : List Alternative}
    (hagain : planner.alternatives alternative.itinerary = .ok again) :
    again.Sublist alternatives ∧ alternative ∈ again := by
  have halters := alters_of_mem_alternatives hbuilt hrides h hmem
  have hframe := halters.sameFrame
  have hchanges' : alternative.itinerary.changes ≠ [] :=
    fun hnone => hchanges (halters.changes_eq_nil_iff.mp hnone)
  obtain ⟨offers, chains, hoffers, hchains, -, hmakes⟩ :=
    alternatives_spec hbuilt hrides hchanges h
  obtain ⟨reoffers, rechains, hreoffers, hrechains, -, hremakes⟩ :=
    alternatives_spec hbuilt (halters.ridesOn hrides) hchanges' hagain
  obtain ⟨chain, hchain, hmake⟩ := exists_mem_of_forall₂ hmakes hmem
  obtain ⟨hjoins, horder⟩ := (mem_chainsOf hchains).mp hchain
  -- The offers have fewer joins, so there are fewer chains in order.
  obtain ⟨hretimes, -, -⟩ := retime_eq_some_iff.mp hmake.2
  obtain ⟨hsubs, hkept⟩ := hretimes.restart
    (connects_of_mem_chainsOf hbuilt hrides hoffers hchains hchain) horder hoffers hjoins
    (Nat.le_of_eq halters.board.symm) (Nat.le_of_eq halters.board) hreoffers
  have hchain' : chain ∈ rechains := by
    refine (mem_chainsOf hrechains).mpr ⟨hkept, ?_⟩
    rw [halters.alight, halters.board]
    exact horder
  have hfewer : rechains.Sublist chains := by
    rw [chainsOf_eq_product] at hchains hrechains
    obtain rfl := Except.ok.inj hchains
    obtain rfl := Except.ok.inj hrechains
    rw [halters.alight, halters.board]
    exact (product_sublist hsubs).filter _
  -- Each of them makes what it made before.
  have hsame : List.Forall₂ (planner.Makes itinerary) rechains again := by
    refine forall₂_imp_of_mem hremakes fun other hother made hmade => ⟨hmade.1, ?_⟩
    rw [← retime_congr hframe (length_of_mem_chainsOf hreoffers hrechains hother)]
    exact hmade.2
  have hunique : ∀ chain a b, planner.Makes itinerary chain a →
      planner.Makes itinerary chain b → a = b := fun _ _ _ => Makes.unique
  refine ⟨sublist_of_forall₂ hunique hfewer hsame hmakes, ?_⟩
  obtain ⟨made, hmade, hmakes'⟩ := exists_mem_of_forall₂ hsame.flip hchain'
  obtain rfl : made = alternative := Makes.unique hmakes' hmake
  exact hmade

end Planner

end TransitTransfers
