import TransitTransfers.Proofs.Alternative.Enumeration
import TransitTransfers.Proofs.Join.Finding

/-!
# The offers of an itinerary

The search for joins at a junction starts at the first position where the trip
can be boarded by a join of the junction before.  The reference starts every
search at the first position of the trip.  Both make the same chains.

* `Offer.MadeFrom` says what an offer is for one junction and one start, and
  `offersFrom_cons_eq_ok_iff` is the step of `Planner.offersFrom` in its terms.
* `offersFrom_succeeds` shows that the searches can only stop at a sum.
* `pruned_of_offersFrom` is the invariant of the run over the junctions: what a
  later start leaves out is `Pruned`, and the own join is never left out.
* `chains_eq_enumeration` puts the pieces together.
* `Connects` says what the joins of a chain have in common, own or found, and
  `connects_of_mem_chainsOf` that all joins of all chains have it.
-/

namespace TransitTransfers

/-- A join has the positions of a junction. -/
def Join.StaysAt (join : Join) (junction : Junction) : Prop :=
  join.positions = (junction.arriving.alight, junction.departing.board)

/-! ## One offer -/

namespace Offer

/-- An offer has a join with the positions of the itinerary's own one. -/
theorem exists_own (offer : Offer) :
    ∃ join ∈ offer.joins, join.positions = offer.own.positions := by
  unfold joins
  split
  · rename_i hany
    obtain ⟨join, hjoin, hpositions⟩ := List.any_eq_true.mp hany
    exact ⟨join, hjoin, of_decide_eq_true hpositions⟩
  · exact ⟨offer.own, by simp, rfl⟩

/-- The own join is appended to the joins that were found: none of them has its
positions. -/
def Appends (offer : Offer) : Prop :=
  ∀ join ∈ offer.found, join.positions ≠ offer.own.positions

theorem mem_joins_iff {offer : Offer} {join : Join} :
    join ∈ offer.joins ↔ join ∈ offer.found ∨ offer.Appends ∧ join = offer.own := by
  unfold joins
  by_cases hany : offer.found.any (·.positions = offer.own.positions) = true
  · obtain ⟨other, hother, hpositions⟩ := List.any_eq_true.mp hany
    have hnot : ¬offer.Appends := fun happends =>
      happends other hother (of_decide_eq_true hpositions)
    rw [if_pos hany]
    simp [hnot]
  · have happends : offer.Appends := fun other hother hpositions =>
      hany (List.any_eq_true.mpr ⟨other, hother, decide_eq_true hpositions⟩)
    rw [if_neg hany, List.mem_append, List.mem_singleton]
    simp [happends]

theorem mem_joins {offer : Offer} {join : Join} (h : join ∈ offer.joins) :
    join ∈ offer.found ∨ join = offer.own :=
  (mem_joins_iff.mp h).imp_right And.right

theorem earliestBoard_le {offer : Offer} {join : Join} (h : join ∈ offer.joins) :
    offer.earliestBoard ≤ join.board :=
  List.min?_getD_le_of_mem (List.mem_map_of_mem h)

/-- Searching from a later start takes the joins that leave too early out of
the offer, if the own join is not one of them. -/
theorem joins_filter {found : List Join} {own : Join} {start : Nat}
    (hown : start < own.alight) :
    (Offer.mk (found.filter (start < ·.alight)) own).joins =
      (Offer.mk found own).joins.filter (start < ·.alight) := by
  have hany : (found.filter (start < ·.alight)).any (·.positions = own.positions) =
      found.any (·.positions = own.positions) := by
    rw [Bool.eq_iff_iff, List.any_eq_true, List.any_eq_true]
    constructor
    · intro h
      rcases h with ⟨join, hjoin, hpositions⟩
      exact ⟨join, (List.mem_filter.mp hjoin).1, hpositions⟩
    · intro h
      rcases h with ⟨join, hjoin, hpositions⟩
      have halight : join.alight = own.alight :=
        congrArg Prod.fst (of_decide_eq_true hpositions)
      refine ⟨join, List.mem_filter.mpr ⟨hjoin, decide_eq_true ?_⟩, hpositions⟩
      omega
  unfold joins
  dsimp only
  rw [hany]
  by_cases hdup : found.any (·.positions = own.positions) = true
  · rw [if_pos hdup, if_pos hdup]
  · rw [if_neg hdup, if_neg hdup, List.filter_append]
    simp [hown]

/-- The offer that is made of a junction when the search starts at `start`. -/
structure MadeFrom (planner : Planner) (start : Nat) (junction : Junction) (offer : Offer) :
    Prop where
  /-- The own join is that of the junction. -/
  own : Join.ofJunction planner.table junction = .ok offer.own
  /-- The others are those that are found. -/
  found : Join.find planner.table planner.slack junction.arriving.trip start
    junction.departing.trip = .ok offer.found

/-- The own join boards where the next ride does, so the search that follows
starts before that ride ends. -/
theorem MadeFrom.earliestBoard_lt {planner : Planner} {start : Nat} {junction : Junction}
    {offer : Offer} (h : offer.MadeFrom planner start junction) :
    offer.earliestBoard < junction.departing.alight := by
  obtain ⟨join, hjoin, hpositions⟩ := offer.exists_own
  have hle := earliestBoard_le hjoin
  have hboard : join.board = junction.departing.board :=
    congrArg Prod.snd (hpositions.trans (Join.ofJunction_positions h.own))
  have hforward := junction.departing.forward
  omega

/-- An offer made from a later start is the one made from the first position,
without the joins that leave too early. -/
theorem MadeFrom.joins_eq_filter {planner : Planner} {start : Nat} {junction : Junction}
    {all kept : Offer} (hall : all.MadeFrom planner 0 junction)
    (hkept : kept.MadeFrom planner start junction) (hstart : start < junction.arriving.alight) :
    kept.joins = all.joins.filter (start < ·.alight) := by
  have hfilter := Join.find_eq_filter (Nat.zero_le start) hall.found
  have hfound : kept.found = all.found.filter (start < ·.alight) :=
    Except.ok.inj (hkept.found.symm.trans hfilter)
  have hown : kept.own = all.own := Except.ok.inj (hkept.own.symm.trans hall.own)
  have halight : all.own.alight = junction.arriving.alight :=
    congrArg Prod.fst (Join.ofJunction_positions hall.own)
  rcases kept with ⟨found, own⟩
  obtain rfl : found = _ := hfound
  obtain rfl : own = _ := hown
  exact joins_filter (by omega)

end Offer

namespace Planner

/-! ## The offers of junctions -/

variable {planner : Planner}

theorem offersFrom_cons_eq_ok_iff {start : Nat} {junction : Junction}
    {junctions : List Junction} {offers : List Offer} :
    planner.offersFrom start (junction :: junctions) = .ok offers ↔
      ∃ offer rest, offer.MadeFrom planner start junction ∧
        planner.offersFrom offer.earliestBoard junctions = .ok rest ∧
          offers = offer :: rest := by
  rw [offersFrom, bind_eq_ok_iff]
  constructor
  · intro h
    rcases h with ⟨own, hown, h⟩
    obtain ⟨found, hfound, h⟩ := bind_eq_ok_iff.mp h
    obtain ⟨rest, hrest, h⟩ := bind_eq_ok_iff.mp h
    exact ⟨⟨found, own⟩, rest, ⟨hown, hfound⟩, hrest, (pure_eq_ok_iff.mp h).symm⟩
  · intro h
    rcases h with ⟨⟨found, own⟩, rest, ⟨hown, hfound⟩, hrest, rfl⟩
    refine ⟨own, hown, bind_eq_ok_iff.mpr ⟨found, hfound, ?_⟩⟩
    exact bind_eq_ok_iff.mpr ⟨rest, hrest, rfl⟩

/-- Every offer is made of its junction, by a search from some start. -/
theorem madeFrom_of_offersFrom {start : Nat} {junctions : List Junction} {offers : List Offer}
    (h : planner.offersFrom start junctions = .ok offers) :
    List.Forall₂ (fun junction offer => ∃ start, Offer.MadeFrom planner start junction offer)
      junctions offers := by
  induction junctions generalizing start offers with
  | nil =>
    cases h
    exact .nil
  | cons junction junctions ih =>
    obtain ⟨offer, rest, hoffer, hrest, rfl⟩ := offersFrom_cons_eq_ok_iff.mp h
    exact .cons ⟨start, hoffer⟩ (ih hrest)

/-- A junction is sound, and both of its trips are timed. -/
structure Searchable (junction : Junction) : Prop where
  sound : junction.Sound
  arriving : junction.arriving.trip.Timed
  departing : junction.departing.trip.Timed

theorem searchable_of_mem {itinerary : Itinerary} (hbuilt : planner.table.Built)
    (hrides : itinerary.RidesOn planner.table) {junction : Junction}
    (h : junction ∈ itinerary.junctions) : Searchable junction := by
  have hmem := Itinerary.mem_rides_of_mem_junctionsFrom h
  exact ⟨itinerary.sound_of_mem junction h, hrides.timed hbuilt hmem.1,
    hrides.timed hbuilt hmem.2⟩

/-- Making offers can only stop because a sum does not fit. -/
theorem offersFrom_succeeds {start : Nat} {junctions : List Junction}
    (hsearch : ∀ junction ∈ junctions, Searchable junction) :
    Succeeds (planner.offersFrom start junctions) := by
  induction junctions generalizing start with
  | nil => trivial
  | cons junction junctions ih =>
    have hhead := hsearch junction List.mem_cons_self
    rw [offersFrom]
    refine (Join.ofJunction_succeeds hhead.sound).bind fun own _ => ?_
    refine (Join.find_succeeds hhead.arriving hhead.departing).bind fun found _ => ?_
    refine (ih fun other hother => hsearch other (List.mem_cons_of_mem _ hother)).bind
      fun rest _ => ?_
    trivial

/-! ## The reference -/

/-- The offer that is made of a junction when the search starts at the first
position. -/
def freeOffer (planner : Planner) (junction : Junction) : Except Fault Offer := do
  let own ← Join.ofJunction planner.table junction
  let found ← Join.find planner.table planner.slack junction.arriving.trip 0
    junction.departing.trip
  return ⟨found, own⟩

/-- The chains in order of the product of all joins of all junctions. -/
def enumeration (planner : Planner) (itinerary : Itinerary) :
    Except Fault (List (List Join)) := do
  let offers ← itinerary.junctions.mapM planner.freeOffer
  return (product (offers.map Offer.joins)).filter
    (InOrder itinerary.lastRide.alight itinerary.first.board ·)

theorem freeOffer_eq_ok_iff {junction : Junction} {offer : Offer} :
    planner.freeOffer junction = .ok offer ↔ offer.MadeFrom planner 0 junction := by
  rw [freeOffer, bind_eq_ok_iff]
  constructor
  · intro h
    rcases h with ⟨own, hown, h⟩
    obtain ⟨found, hfound, h⟩ := bind_eq_ok_iff.mp h
    obtain rfl := pure_eq_ok_iff.mp h
    exact ⟨hown, hfound⟩
  · intro h
    exact ⟨offer.own, h.own, bind_eq_ok_iff.mpr ⟨offer.found, h.found, rfl⟩⟩

theorem freeOffer_succeeds {junction : Junction} (hsearch : Searchable junction) :
    Succeeds (planner.freeOffer junction) := by
  refine (Join.ofJunction_succeeds hsearch.sound).bind fun own _ => ?_
  exact (Join.find_succeeds hsearch.arriving hsearch.departing).bind fun found _ => trivial

/-- The run over the junctions: the starts only leave out joins that leave a
trip before it can be boarded. -/
theorem pruned_of_offersFrom {ride : Ride} {changes : List Change} {start : Nat}
    {free offers : List Offer} (hstart : start < ride.alight)
    (hfree : List.Forall₂ (fun junction offer => Offer.MadeFrom planner 0 junction offer)
      (Itinerary.junctionsFrom ride changes) free)
    (h : planner.offersFrom start (Itinerary.junctionsFrom ride changes) = .ok offers) :
    Pruned start (free.map Offer.joins) (offers.map Offer.joins) := by
  induction changes generalizing ride start free offers with
  | nil =>
    cases hfree
    cases h
    exact .nil
  | cons change changes ih =>
    obtain ⟨offer, rest, hoffer, hrest, rfl⟩ := offersFrom_cons_eq_ok_iff.mp h
    obtain ⟨all, frees, hall, hfrees, rfl⟩ := List.forall₂_cons_left_iff.mp hfree
    have hjoins : offer.joins = all.joins.filter (start < ·.alight) :=
      hall.joins_eq_filter hoffer hstart
    rw [List.map_cons, List.map_cons, hjoins]
    refine .cons (fun join hjoin => ?_) (ih hoffer.earliestBoard_lt hfrees hrest)
    rw [← hjoins] at hjoin
    exact Offer.earliestBoard_le hjoin

/-! ## The joins of a chain -/

/-- A join may be used at a junction: it leads from one trip to the other, a
rider can make it, and it is where the itinerary changes already or keeps the
slack, over a footpath of the timetable if it walks. -/
structure Connects (planner : Planner) (junction : Junction) (join : Join) : Prop where
  source : join.source = junction.arriving.trip
  target : join.target = junction.departing.trip
  /-- A rider can make it. -/
  feasible : join.Feasible 0
  /-- Its rule is that of the timetable. -/
  ruled : join.Ruled planner.table
  /-- It is the own join or one with slack. -/
  kept : Join.ofJunction planner.table junction = .ok join ∨
    (∀ path ∈ join.footpath, path ∈ planner.table.footpaths) ∧
      ∃ pause, planner.slack.total junction.arriving.trip.pattern = .ok pause ∧
        join.Feasible pause.seconds

theorem connects_of_mem_joins {start : Nat} {junction : Junction} {offer : Offer}
    (hshelved : planner.table.Shelved) (hsearch : Searchable junction)
    (hoffer : offer.MadeFrom planner start junction) {join : Join} (hjoin : join ∈ offer.joins) :
    planner.Connects junction join := by
  rcases Offer.mem_joins hjoin with hfound | rfl
  · obtain ⟨hsource, htarget, -, hpaths, pause, hpause, hfeasible⟩ :=
      Join.mem_find hshelved hsearch.departing hoffer.found hfound
    exact ⟨hsource, htarget, hfeasible.mono (Nat.zero_le _),
      Join.ruled_of_mem_find hoffer.found hfound, Or.inr ⟨hpaths, pause, hpause, hfeasible⟩⟩
  · obtain ⟨own, hown, hsource, htarget, hfeasible⟩ := Join.ofJunction_spec hsearch.sound
    obtain rfl : own = offer.own := Except.ok.inj (hown.symm.trans hoffer.own)
    exact ⟨hsource, htarget, hfeasible, Join.ofJunction_ruled hown, Or.inl hown⟩

/-- An itinerary with several rides goes through all three steps. -/
theorem alternatives_eq {itinerary : Itinerary} (hchanges : itinerary.changes ≠ []) :
    planner.alternatives itinerary = do
      let offers ← planner.offers itinerary
      let chains ← chainsOf itinerary offers
      let retimed ← planner.retimeAll itinerary chains
      return retimed.filterMap id := by
  have hempty : itinerary.changes.isEmpty = false := by
    simp [hchanges]
  rw [alternatives, hempty]
  rfl

/-- The chains of an itinerary are those that take a join of every offer and
are in order. -/
theorem mem_chainsOf {itinerary : Itinerary} {offers : List Offer} {chains : List (List Join)}
    (h : chainsOf itinerary offers = .ok chains) {chain : List Join} :
    chain ∈ chains ↔ List.Forall₂ (fun join offer => join ∈ offer.joins) chain offers ∧
      InOrder itinerary.lastRide.alight itinerary.first.board chain := by
  rw [chainsOf_eq_product] at h
  obtain rfl := Except.ok.inj h
  rw [List.mem_filter, mem_product, List.forall₂_map_right_iff, decide_eq_true_iff]

theorem forall₂_connects {junctions : List Junction} {offers : List Offer} {chain : List Join}
    (hshelved : planner.table.Shelved) (hsearch : ∀ junction ∈ junctions, Searchable junction)
    (hmade : List.Forall₂ (fun junction offer =>
      ∃ start, Offer.MadeFrom planner start junction offer) junctions offers)
    (hjoins : List.Forall₂ (fun join offer => join ∈ offer.joins) chain offers) :
    List.Forall₂ planner.Connects junctions chain := by
  induction hmade generalizing chain with
  | nil =>
    cases hjoins
    exact .nil
  | cons hoffer hrest ih =>
    rcases hoffer with ⟨start, hoffer⟩
    cases hjoins with
    | cons hjoin hjoins =>
      exact .cons (connects_of_mem_joins hshelved (hsearch _ List.mem_cons_self) hoffer hjoin)
        (ih (fun other hother => hsearch other (List.mem_cons_of_mem _ hother)) hjoins)

/-- One chain changes where the itinerary does: at every junction there is a
join to take with the positions of the junction. -/
theorem exists_own_joins {junctions : List Junction} {offers : List Offer}
    (hmade : List.Forall₂ (fun junction offer =>
      ∃ start, Offer.MadeFrom planner start junction offer) junctions offers) :
    ∃ chain, List.Forall₂ (fun join offer => join ∈ offer.joins) chain offers ∧
      List.Forall₂ Join.StaysAt chain junctions := by
  induction hmade with
  | nil => exact ⟨[], .nil, .nil⟩
  | @cons junction offer _ _ hoffer _ ih =>
    rcases hoffer with ⟨start, hoffer⟩
    rcases ih with ⟨chain, hjoins, hstays⟩
    obtain ⟨join, hjoin, hpositions⟩ := offer.exists_own
    have hown := hpositions.trans (Join.ofJunction_positions hoffer.own)
    exact ⟨join :: chain, .cons hjoin hjoins, .cons hown hstays⟩

/-- Joins at the positions of the junctions are in order. -/
theorem inOrder_of_staysAt {ride : Ride} {changes : List Change} {chain : List Join}
    (h : List.Forall₂ Join.StaysAt chain (Itinerary.junctionsFrom ride changes)) :
    InOrder (lastFrom ride changes).alight ride.board chain := by
  induction changes generalizing ride chain with
  | nil =>
    cases h
    exact ride.forward
  | cons change changes ih =>
    cases h with
    | @cons join _ chain _ hstays hrest =>
      have halight : join.alight = ride.alight := congrArg Prod.fst hstays
      have hboard : join.board = change.ride.board := congrArg Prod.snd hstays
      refine ⟨?_, ?_⟩
      · rw [halight]
        exact ride.forward
      · rw [hboard]
        exact ih hrest

theorem exists_own_chain {itinerary : Itinerary} {offers : List Offer}
    {chains : List (List Join)} (hoffers : planner.offers itinerary = .ok offers)
    (hchains : chainsOf itinerary offers = .ok chains) :
    ∃ chain ∈ chains, List.Forall₂ Join.StaysAt chain itinerary.junctions := by
  obtain ⟨chain, hjoins, hstays⟩ := exists_own_joins (madeFrom_of_offersFrom hoffers)
  refine ⟨chain, (mem_chainsOf hchains).mpr ⟨hjoins, ?_⟩, hstays⟩
  rw [Itinerary.lastRide_eq_lastFrom]
  exact inOrder_of_staysAt hstays

/-- The joins of a chain may be used at the junctions, one by one. -/
theorem connects_of_mem_chainsOf {itinerary : Itinerary} (hbuilt : planner.table.Built)
    (hrides : itinerary.RidesOn planner.table) {offers : List Offer}
    {chains : List (List Join)} (hoffers : planner.offers itinerary = .ok offers)
    (hchains : chainsOf itinerary offers = .ok chains) {chain : List Join}
    (hchain : chain ∈ chains) :
    List.Forall₂ planner.Connects itinerary.junctions chain :=
  forall₂_connects hbuilt.shelved (fun _ h => searchable_of_mem hbuilt hrides h)
    (madeFrom_of_offersFrom hoffers) ((mem_chainsOf hchains).mp hchain).1

end Planner

/-! ## A planner for the network -/

namespace Network

/-- A planner for the network. -/
def planner : Planner := ⟨Timetable.ofSteps steps, .uniform default, default⟩

theorem planner_built : planner.table.Built := ⟨steps, rfl⟩

theorem journey_ridesOn : journey.RidesOn planner.table := by decide +kernel

end Network

/-! ## Nothing is lost -/

namespace Planner

/-- The chains that are made into itineraries are those of the reference, in
the same order and each as often: nothing is lost by later starts, by skipping
tails or in the arena. -/
theorem chains_eq_enumeration {planner : Planner} {itinerary : Itinerary}
    (hbuilt : planner.table.Built) (hrides : itinerary.RidesOn planner.table)
    (hchanges : itinerary.changes ≠ [])
    (hoffers : planner.offers itinerary ≠ .error .addition)
    (henum : planner.enumeration itinerary ≠ .error .addition) :
    ∃ chains, planner.enumeration itinerary = .ok chains ∧
      (planner.offers itinerary >>= chainsOf itinerary) = .ok chains ∧
        planner.alternatives itinerary = do
          let retimed ← planner.retimeAll itinerary chains
          return retimed.filterMap id := by
  have hsearch : ∀ junction ∈ itinerary.junctions, Searchable junction :=
    fun _ h => searchable_of_mem hbuilt hrides h
  have hsucceeds : Succeeds (planner.enumeration itinerary) :=
    (Succeeds.mapM fun junction h => freeOffer_succeeds (hsearch junction h)).bind
      fun _ _ => trivial
  obtain ⟨chains, hchains, -⟩ := hsucceeds.ok_of_ne henum
  obtain ⟨free, hfree, hproduct⟩ := bind_eq_ok_iff.mp hchains
  obtain ⟨offers, hoffered, -⟩ := (offersFrom_succeeds hsearch).ok_of_ne hoffers
  have hpruned : Pruned itinerary.first.board (free.map Offer.joins) (offers.map Offer.joins) :=
    pruned_of_offersFrom itinerary.first.forward
      ((mapM_eq_ok_iff.mp hfree).imp fun _ _ => freeOffer_eq_ok_iff.mp) hoffered
  have hof : chainsOf itinerary offers = .ok chains := by
    rw [chainsOf_eq_product, hpruned.filter_product _ (Nat.le_refl _)]
    exact hproduct
  have hrun : planner.offers itinerary = .ok offers := hoffered
  refine ⟨chains, hchains, ?_, ?_⟩
  · rw [hrun]
    exact hof
  · rw [alternatives_eq hchanges, hrun]
    show (do
      let chains ← chainsOf itinerary offers
      let retimed ← planner.retimeAll itinerary chains
      return retimed.filterMap id) = _
    rw [hof]
    rfl

/-- The journey has three alternatives. -/
theorem chains_eq_enumeration_journey :
    Network.planner.offers Network.journey ≠ .error .addition ∧
      Network.planner.enumeration Network.journey ≠ .error .addition ∧
        ∃ chains, Network.planner.enumeration Network.journey = .ok chains ∧
          chains.map (·.map Join.positions) =
            [[(1, 1), (2, 1)], [(1, 1), (3, 2)], [(2, 2), (3, 2)]] ∧
          (Network.planner.offers Network.journey >>= chainsOf Network.journey) = .ok chains := by
  have hoffers : Network.planner.offers Network.journey ≠ .error .addition := by decide +kernel
  have henum : Network.planner.enumeration Network.journey ≠ .error .addition := by
    decide +kernel
  obtain ⟨chains, hchains, hof, -⟩ := chains_eq_enumeration Network.planner_built
    Network.journey_ridesOn (by decide +kernel) hoffers henum
  refine ⟨hoffers, henum, chains, hchains, ?_, hof⟩
  have hpositions : (Network.planner.enumeration Network.journey).map
      (·.map (·.map Join.positions)) =
        .ok [[(1, 1), (2, 1)], [(1, 1), (3, 2)], [(2, 2), (3, 2)]] := by
    decide +kernel
  rw [hchains] at hpositions
  exact Except.ok.inj hpositions

end Planner

end TransitTransfers
