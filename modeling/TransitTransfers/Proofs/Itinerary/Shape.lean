import TransitTransfers.Proofs.Itinerary.Soundness

/-!
# Reading an itinerary back from its legs

The legs of an itinerary are accepted as a list of legs, and what is read from
them is the itinerary itself (`ofLegs_legs`).  No other list is read as that
itinerary (`ofLegs_eq_ok_iff`), because each step of the reading keeps all legs:
`flatMap_legs_of_changesOf` for the changes, `eq_of_ridesOf` and `eq_of_endsOf`
for the first ride and the ends.
-/

namespace TransitTransfers

namespace Itinerary

theorem changesOf_flatMap_legs (changes : List Change) :
    changesOf (changes.flatMap Change.legs) = .ok changes := by
  induction changes with
  | nil => rfl
  | cons change changes ih =>
    rcases change with ⟨walk, ride⟩
    cases walk with
    | none =>
      show (changesOf (changes.flatMap Change.legs)).map _ = _
      rw [ih]
      rfl
    | some walk =>
      show (changesOf (changes.flatMap Change.legs)).map _ = _
      rw [ih]
      rfl

theorem partsOf_joinLegs (access : Access) (first : Ride) (changes : List Change)
    (egress : Egress) :
    partsOf (joinLegs access first changes egress) = .ok (access, first, changes, egress) := by
  have hends : endsOf (joinLegs access first changes egress) =
      .ok (access, .ride first :: changes.flatMap Change.legs, egress) := by
    rw [joinLegs, ← List.cons_append, endsOf, List.getLast?_concat]
    dsimp only
    rw [List.dropLast_concat]
  have hrides : ridesOf (.ride first :: changes.flatMap Change.legs) = .ok (first, changes) := by
    rw [ridesOf, changesOf_flatMap_legs]
    rfl
  refine bind_eq_ok_iff.mpr ⟨_, hends, ?_⟩
  exact bind_eq_ok_iff.mpr ⟨_, hrides, rfl⟩

/-- Changes are read from their own legs only. -/
theorem flatMap_legs_of_changesOf {legs : List Leg} {changes : List Change}
    (h : changesOf legs = .ok changes) : legs = changes.flatMap Change.legs := by
  fun_induction changesOf legs generalizing changes with
  | case1 =>
    cases h
    rfl
  | case2 ride legs ih =>
    obtain ⟨rest, hrest, rfl⟩ := map_eq_ok_iff.mp h
    rw [ih hrest]
    rfl
  | case3 walk ride legs ih =>
    obtain ⟨rest, hrest, rfl⟩ := map_eq_ok_iff.mp h
    rw [ih hrest]
    rfl
  | case4 => cases h
  | case5 => cases h
  | case6 => cases h

theorem eq_of_ridesOf {legs : List Leg} {first : Ride} {changes : List Change}
    (h : ridesOf legs = .ok (first, changes)) :
    legs = .ride first :: changes.flatMap Change.legs := by
  unfold ridesOf at h
  split at h
  · cases h
  · obtain ⟨rest, hrest, hparts⟩ := map_eq_ok_iff.mp h
    cases hparts
    rw [flatMap_legs_of_changesOf hrest]
  · cases h
  · cases h

theorem eq_of_endsOf {legs between : List Leg} {access : Access} {egress : Egress}
    (h : endsOf legs = .ok (access, between, egress)) :
    legs = .access access :: (between ++ [.egress egress]) := by
  unfold endsOf at h
  split at h
  · rename_i start rest
    split at h
    · rename_i last hlast
      cases h
      rw [List.dropLast_append_getLast? _ hlast]
    · cases h
  · cases h

/-- The parts of a list of legs are those that make it up. -/
theorem partsOf_eq_ok_iff {legs : List Leg} {access : Access} {first : Ride}
    {changes : List Change} {egress : Egress} :
    partsOf legs = .ok (access, first, changes, egress) ↔
      legs = joinLegs access first changes egress := by
  constructor
  · intro h
    obtain ⟨⟨start, between, last⟩, hends, h⟩ := bind_eq_ok_iff.mp h
    obtain ⟨⟨ride, rest⟩, hrides, h⟩ := bind_eq_ok_iff.mp h
    cases h
    rw [eq_of_endsOf hends, eq_of_ridesOf hrides]
    rfl
  · rintro rfl
    exact partsOf_joinLegs access first changes egress

/-- The legs of an itinerary are accepted, and they are that itinerary. -/
theorem ofLegs_legs (itinerary : Itinerary) : ofLegs itinerary.legs = .ok itinerary := by
  rw [ofLegs, legs, partsOf_joinLegs]
  exact ofParts_eq_ok_iff.mpr ⟨rfl, rfl, rfl, rfl⟩

/-- A list of legs is read as the itinerary that has these legs. -/
theorem ofLegs_eq_ok_iff {legs : List Leg} {itinerary : Itinerary} :
    ofLegs legs = .ok itinerary ↔ itinerary.legs = legs := by
  constructor
  · intro h
    unfold ofLegs at h
    split at h
    · rename_i access first changes egress hparts
      obtain ⟨rfl, rfl, rfl, rfl⟩ := ofParts_eq_ok_iff.mp h
      exact (partsOf_eq_ok_iff.mp hparts).symm
    · cases h
  · rintro rfl
    exact ofLegs_legs itinerary

end Itinerary

end TransitTransfers
