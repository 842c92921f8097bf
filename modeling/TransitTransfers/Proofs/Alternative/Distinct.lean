import Mathlib.Data.List.Nodup
import TransitTransfers.Proofs.Alternative.Joins
import TransitTransfers.Proofs.Join.Distinct

/-!
# No alternative is listed twice

Where no stop has two footpaths to the same stop, all joins of an offer have
different positions.  So no two chains have the same positions everywhere, and
no two alternatives change at the same places.  One alternative changes where
the itinerary does, so it is the only one.

* `Offer.joins_distinct` adds the own join to those that were found, and
  `Offer.count_own` says that its positions are there once.
* `product_distinct` goes from lists of joins to their chains.  The induction is
  on the lists, and two chains differ in their first joins or behind them.
* `positions_nodup` says what this means for the joins of the alternatives, and
  `countP_sameStretches` counts the alternatives that change where the itinerary
  does.
* `ListsOnce` puts it together, and `exists_listsOnce` is the result for an
  itinerary with several rides.
-/

namespace TransitTransfers

namespace Offer

/-! ## One junction -/

/-- The joins of an offer have different positions, if those that were found
do. -/
theorem joins_distinct {offer : Offer} (hfound : Join.Distinct offer.found) :
    Join.Distinct offer.joins := by
  unfold joins
  split
  · exact hfound
  · rename_i hnone
    rw [Join.distinct_iff] at hfound ⊢
    refine List.pairwise_append.mpr ⟨hfound, List.pairwise_singleton _ _, ?_⟩
    intro join hjoin own hown hsame
    obtain rfl := List.mem_singleton.mp hown
    exact hnone (List.any_eq_true.mpr ⟨join, hjoin, decide_eq_true hsame⟩)

/-- The positions of the own join are there exactly once. -/
theorem count_own {offer : Offer} (hdistinct : Join.Distinct offer.joins) :
    (offer.joins.map Join.positions).count offer.own.positions = 1 := by
  obtain ⟨join, hjoin, hpositions⟩ := offer.exists_own
  refine List.count_eq_one_of_mem hdistinct ?_
  rw [← hpositions]
  exact List.mem_map_of_mem hjoin

end Offer

/-! ## Chains -/

/-- Chains that take their joins from lists without repeated positions do not
repeat positions either. -/
theorem product_distinct {lists : List (List Join)} (h : ∀ joins ∈ lists, Join.Distinct joins) :
    ((product lists).map (List.map Join.positions)).Nodup := by
  induction lists with
  | nil => exact List.nodup_singleton _
  | cons joins others ih =>
    have hjoins := Join.distinct_iff.mp (h joins List.mem_cons_self)
    have hothers := ih fun list hlist => h list (List.mem_cons_of_mem _ hlist)
    rw [nodup_map_iff_pairwise] at hothers
    rw [nodup_map_iff_pairwise, product, List.pairwise_flatMap]
    constructor
    · intro chain _
      rw [List.pairwise_map]
      exact hjoins.imp fun hne hsame => hne (List.head_eq_of_cons_eq hsame)
    · refine hothers.imp fun hne front hfront other hother hsame => hne ?_
      obtain ⟨join, -, rfl⟩ := List.mem_map.mp hfront
      obtain ⟨join', -, rfl⟩ := List.mem_map.mp hother
      exact List.tail_eq_of_cons_eq hsame

namespace Planner

variable {planner : Planner} {given : Itinerary} {offers : List Offer}
  {alternatives : List Alternative}

/-! ## Offers -/

/-- At every junction the joins to choose from have different positions, and
one of them has the positions of the junction. -/
theorem offers_distinct (hbuilt : planner.table.Built) (hpaths : planner.table.SinglePaths)
    (hrides : given.RidesOn planner.table) (hoffers : planner.offers given = .ok offers) :
    List.Forall₂ (fun junction offer => Join.Distinct offer.joins ∧
        (offer.joins.map Join.positions).count junction.positions = 1)
      given.junctions offers := by
  refine forall₂_imp_of_mem (madeFrom_of_offersFrom hoffers) ?_
  rintro junction hjunction offer ⟨start, hmade⟩
  have hsearch := searchable_of_mem hbuilt hrides hjunction
  have hdistinct := Offer.joins_distinct
    (Join.find_distinct hbuilt.shelved hpaths hsearch.arriving hsearch.departing hmade.found)
  have hown : offer.own.positions = junction.positions := Join.ofJunction_positions hmade.own
  rw [← hown]
  exact ⟨hdistinct, Offer.count_own hdistinct⟩

/-! ## Alternatives -/

/-- No two alternatives have the same positions at all junctions. -/
theorem positions_nodup (hbuilt : planner.table.Built) (hpaths : planner.table.SinglePaths)
    (hrides : given.RidesOn planner.table) (hchanges : given.changes ≠ [])
    (hlist : planner.alternatives given = .ok alternatives) :
    (alternatives.map (·.joins.map Join.positions)).Nodup := by
  obtain ⟨offers, hoffers, hchains⟩ := exists_chains hbuilt hrides hchanges hlist
  have hdistinct : ∀ joins ∈ offers.map Offer.joins, Join.Distinct joins := by
    intro joins hmem
    obtain ⟨offer, hoffer, rfl⟩ := List.mem_map.mp hmem
    obtain ⟨junction, -, hoffered⟩ :=
      exists_mem_of_forall₂ (offers_distinct hbuilt hpaths hrides hoffers) hoffer
    exact hoffered.1
  rw [chainsOf_eq_product] at hchains
  have hsub : (alternatives.map (·.joins)).Sublist (product (offers.map Offer.joins)) :=
    Except.ok.inj hchains ▸ List.filter_sublist
  have hpositions := (product_distinct hdistinct).sublist (hsub.map (List.map Join.positions))
  rw [List.map_map] at hpositions
  exact hpositions

/-- Exactly one alternative rides the stretches of the itinerary. -/
theorem countP_sameStretches (hbuilt : planner.table.Built)
    (hpaths : planner.table.SinglePaths) (hrides : given.RidesOn planner.table)
    (hchanges : given.changes ≠ []) (hlist : planner.alternatives given = .ok alternatives) :
    alternatives.countP (·.itinerary.sameStretches given) = 1 := by
  calc alternatives.countP (·.itinerary.sameStretches given)
      = alternatives.countP
          (·.joins.map Join.positions == given.junctions.map Junction.positions) := by
        refine List.countP_congr fun alternative halternative => ?_
        rw [beq_iff_eq]
        exact sameStretches_given_iff hbuilt hrides hlist halternative
    _ = (alternatives.map (·.joins.map Join.positions)).count
          (given.junctions.map Junction.positions) := by
        rw [List.count_eq_countP, List.countP_map]
        rfl
    _ = 1 := List.count_eq_one_of_mem
        (positions_nodup hbuilt hpaths hrides hchanges hlist)
        (mem_positions hbuilt hrides hchanges hlist)

/-- An itinerary has offers and alternatives, where nothing is listed twice and
the changes of the itinerary itself are listed once. -/
structure ListsOnce (planner : Planner) (given : Itinerary) (offers : List Offer)
    (alternatives : List Alternative) : Prop where
  offered : planner.offers given = .ok offers
  /-- The joins of a junction have different positions, and one of them has
  those of the junction. -/
  joins : List.Forall₂ (fun junction offer => Join.Distinct offer.joins ∧
    (offer.joins.map Join.positions).count junction.positions = 1) given.junctions offers
  listed : planner.alternatives given = .ok alternatives
  nonempty : alternatives ≠ []
  distinct : alternatives.Pairwise fun a b => a.itinerary.sameStretches b.itinerary = false
  own : alternatives.countP (·.itinerary.sameStretches given) = 1

theorem exists_listsOnce (hbuilt : planner.table.Built) (hpaths : planner.table.SinglePaths)
    (hrides : given.RidesOn planner.table) (hchanges : given.changes ≠ [])
    (hfits : planner.alternatives given ≠ .error .addition) :
    ∃ offers alternatives, planner.ListsOnce given offers alternatives := by
  obtain ⟨alternatives, hlist⟩ := exists_alternatives hbuilt hrides hfits
  obtain ⟨offers, hoffers, -⟩ := exists_offered hbuilt hrides hlist
  have hone := countP_sameStretches hbuilt hpaths hrides hchanges hlist
  refine ⟨offers, alternatives, hoffers, offers_distinct hbuilt hpaths hrides hoffers, hlist,
    ?_, ?_, hone⟩
  · rintro rfl
    cases hone
  · have hpositions := positions_nodup hbuilt hpaths hrides hchanges hlist
    rw [nodup_map_iff_pairwise] at hpositions
    refine hpositions.imp_of_mem fun ha hb hne => Bool.eq_false_iff.mpr fun hsame => hne ?_
    exact (sameStretches_iff_positions hbuilt hrides hlist ha hb).mp hsame

end Planner

end TransitTransfers
