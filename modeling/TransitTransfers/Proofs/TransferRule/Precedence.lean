import Mathlib.Data.List.MinMax
import TransitTransfers.TransferRule.Table

/-!
# Which rule decides a change

Rules are kept in shelves by pairs of stops, and a change is looked up on the
shelf of its two stops.  The shelves are there for speed only: a look-up finds
what it would find in one list of all rules, in the order in which they were
added.

* `between_ofList` says what is on a shelf.  A rule that covers a change names
  the two stops of the change, so no such rule is on another shelf
  (`stops_of_covers`, `filter_between`).
* `scan` is the search through the one list: the first of the most specific
  rules that cover the change.  `scan_eq_some_iff` spells that out, and
  `scan_concat` says what one more rule changes.
* `find?_ofList` puts this together for all tables and changes.
-/

namespace TransitTransfers

namespace RuleTable

variable {rules : List TransferRule} {origin destination : Nat} {source target : Trip}

theorem ofList_concat (rules : List TransferRule) (rule : TransferRule) :
    ofList (rules ++ [rule]) = (ofList rules).add rule := by
  rw [ofList, List.foldl_append]
  rfl

/-! ## Shelves -/

/-- A look-up ends at the first shelf of its stops. -/
theorem between_cons (shelf : RuleShelf) (shelves : List RuleShelf) (origin destination : Nat) :
    (RuleTable.mk (shelf :: shelves)).between origin destination =
      if shelf.origin = origin ∧ shelf.destination = destination then shelf.rules
      else (RuleTable.mk shelves).between origin destination := by
  by_cases hshelf : shelf.origin = origin ∧ shelf.destination = destination
  · simp [between, hshelf]
  · have hother : (decide (shelf.origin = origin) &&
        decide (shelf.destination = destination)) = false := by
      simpa using hshelf
    simp [between, hshelf, hother]

/-- One more rule goes to the end of its own shelf, and no other shelf
changes. -/
theorem between_add (table : RuleTable) (rule : TransferRule) (origin destination : Nat) :
    (table.add rule).between origin destination =
      table.between origin destination ++
        if rule.arriving.stopIndex = origin ∧ rule.departing.stopIndex = destination then [rule]
        else [] := by
  rcases table with ⟨shelves⟩
  rw [add]
  induction shelves with
  | nil =>
    rw [addTo, between_cons]
    rfl
  | cons shelf shelves ih =>
    dsimp only at ih ⊢
    rw [addTo]
    by_cases hown : shelf.origin = rule.arriving.stopIndex ∧
        shelf.destination = rule.departing.stopIndex
    · -- The rule is put on this shelf.
      rw [if_pos hown, between_cons, between_cons]
      dsimp only
      rw [← hown.1, ← hown.2]
      split <;> simp
    · rw [if_neg hown, between_cons, between_cons, ih]
      by_cases hshelf : shelf.origin = origin ∧ shelf.destination = destination
      · -- The look-up ends here, and the rule is put further behind.
        rw [if_pos hshelf, if_pos hshelf, ← hshelf.1, ← hshelf.2, if_neg, List.append_nil]
        exact fun h => hown ⟨h.1.symm, h.2.symm⟩
      · rw [if_neg hshelf, if_neg hshelf]

/-- A shelf holds the rules that name its stops, in the order in which they
were added. -/
theorem between_ofList (rules : List TransferRule) (origin destination : Nat) :
    (ofList rules).between origin destination = rules.filter fun rule =>
      rule.arriving.stopIndex = origin ∧ rule.departing.stopIndex = destination := by
  induction rules using List.reverseRecOn with
  | nil => rfl
  | append_singleton rules rule ih =>
    rw [ofList_concat, between_add, ih, List.filter_append, List.filter_singleton]
    simp

/-- A rule that covers a change names both stops of it. -/
theorem stops_of_covers {rule : TransferRule}
    (h : rule.covers origin destination source target = true) :
    rule.arriving.stopIndex = origin ∧ rule.departing.stopIndex = destination := by
  simp only [TransferRule.covers, Endpoint.covers, Bool.and_eq_true, decide_eq_true_eq] at h
  exact ⟨h.1.1, h.2.1⟩

/-- On the shelf of its stops a change has all rules that cover it. -/
theorem filter_between (rules : List TransferRule) (origin destination : Nat)
    (source target : Trip) :
    ((ofList rules).between origin destination).filter
        (·.covers origin destination source target) =
      rules.filter (·.covers origin destination source target) := by
  rw [between_ofList, List.filter_filter]
  refine List.filter_congr fun rule _ => ?_
  by_cases hcovers : rule.covers origin destination source target = true
  · simp [hcovers, stops_of_covers hcovers]
  · simp [hcovers]

/-! ## One list of all rules -/

/-- The first of the most specific rules of a list that cover a change. -/
def scan (rules : List TransferRule) (origin destination : Nat) (source target : Trip) :
    Option TransferRule :=
  (rules.filter (·.covers origin destination source target)).argmax TransferRule.rank

/-- A rule decides a change among others: it covers the change, it is more
specific than those before it that do, and as specific as those behind it. -/
def Decides (rules : List TransferRule) (origin destination : Nat) (source target : Trip)
    (rule : TransferRule) : Prop :=
  rule.covers origin destination source target = true ∧
    ∃ before behind, rules = before ++ rule :: behind ∧
      (∀ other ∈ before, other.covers origin destination source target = true →
        other.rank < rule.rank) ∧
        ∀ other ∈ behind, other.covers origin destination source target = true →
          other.rank ≤ rule.rank

/-- Going through rules and keeping the more specific one ends with the first of
the most specific ones. -/
theorem foldl_moreSpecific (rules : List TransferRule) :
    rules.foldl moreSpecific none = rules.argmax TransferRule.rank := by
  induction rules using List.reverseRecOn with
  | nil => rfl
  | append_singleton rules rule ih =>
    rw [List.foldl_append, List.argmax_concat, ih]
    cases rules.argmax TransferRule.rank <;> simp [moreSpecific]

theorem scan_eq_none_iff :
    scan rules origin destination source target = none ↔
      ∀ rule ∈ rules, ¬rule.covers origin destination source target = true := by
  rw [scan, List.argmax_eq_none, List.filter_eq_nil_iff]

/-- A rule is more specific than the one that is found exactly if it is more
specific than all that cover the change. -/
theorem forall_mem_scan_iff {rank : Nat} :
    (∀ held ∈ scan rules origin destination source target, held.rank < rank) ↔
      ∀ other ∈ rules, other.covers origin destination source target = true →
        other.rank < rank := by
  constructor
  · intro h other hother hcovers
    have hmem : other ∈ rules.filter (·.covers origin destination source target) :=
      List.mem_filter.mpr ⟨hother, hcovers⟩
    cases hscan : scan rules origin destination source target with
    | none => exact absurd hcovers (scan_eq_none_iff.mp hscan other hother)
    | some held =>
      have hle : other.rank ≤ held.rank := List.le_of_mem_argmax hmem hscan
      exact Nat.lt_of_le_of_lt hle (h held hscan)
  · intro h held hheld
    have hmem := List.mem_filter.mp (List.argmax_mem hheld)
    exact h held hmem.1 hmem.2

/-- One more rule decides if it covers the change and is more specific than the
rule that decided before. -/
theorem scan_concat (rules : List TransferRule) (rule : TransferRule) (origin destination : Nat)
    (source target : Trip) :
    scan (rules ++ [rule]) origin destination source target =
      if rule.covers origin destination source target = true ∧
          ∀ held ∈ scan rules origin destination source target, held.rank < rule.rank then
        some rule
      else scan rules origin destination source target := by
  rw [scan, List.filter_append]
  by_cases hcovers : rule.covers origin destination source target = true
  · have hlast : [rule].filter (·.covers origin destination source target) = [rule] :=
      List.filter_cons_of_pos hcovers
    have hscan : (rules.filter (·.covers origin destination source target)).argmax
        TransferRule.rank = scan rules origin destination source target := rfl
    rw [hlast, List.argmax_concat, hscan]
    cases scan rules origin destination source target <;> simp [hcovers]
  · have hlast : [rule].filter (·.covers origin destination source target) = [] :=
      List.filter_cons_of_neg hcovers
    rw [hlast, List.append_nil, if_neg fun h => hcovers h.1]
    rfl

section Decides

variable {rule : TransferRule}

theorem Decides.mem (h : Decides rules origin destination source target rule) : rule ∈ rules := by
  obtain ⟨-, before, behind, rfl, -⟩ := h
  simp

/-- No other rule that covers the change is more specific. -/
theorem Decides.rank_le (h : Decides rules origin destination source target rule)
    {other : TransferRule} (hother : other ∈ rules)
    (hcovers : other.covers origin destination source target = true) :
    other.rank ≤ rule.rank := by
  obtain ⟨-, before, behind, rfl, hbefore, hbehind⟩ := h
  rcases List.mem_append.mp hother with hmem | hmem
  · exact Nat.le_of_lt (hbefore other hmem hcovers)
  · rcases List.mem_cons.mp hmem with rfl | hmem
    · exact Nat.le_refl _
    · exact hbehind other hmem hcovers

/-- Behind one more rule, a rule decides as the last one or as it did before. -/
theorem decides_concat (last : TransferRule) :
    Decides (rules ++ [last]) origin destination source target rule ↔
      rule = last ∧ last.covers origin destination source target = true ∧
          (∀ other ∈ rules, other.covers origin destination source target = true →
            other.rank < last.rank) ∨
        Decides rules origin destination source target rule ∧
          (last.covers origin destination source target = true → last.rank ≤ rule.rank) := by
  constructor
  · intro h
    obtain ⟨hcovers, before, behind, hsplit, hbefore, hbehind⟩ := h
    rcases List.eq_nil_or_concat' behind with rfl | ⟨behind, final, rfl⟩
    · obtain ⟨rfl, hlast⟩ := List.append_inj' hsplit rfl
      obtain rfl : last = rule := List.head_eq_of_cons_eq hlast
      exact Or.inl ⟨rfl, hcovers, hbefore⟩
    · rw [← List.cons_append, ← List.append_assoc] at hsplit
      obtain ⟨rfl, hlast⟩ := List.append_inj' hsplit rfl
      obtain rfl : last = final := List.head_eq_of_cons_eq hlast
      exact Or.inr ⟨⟨hcovers, before, behind, rfl, hbefore,
        fun other hother => hbehind other (List.mem_append_left _ hother)⟩,
        hbehind last (by simp)⟩
  · intro h
    rcases h with ⟨rfl, hcovers, hbefore⟩ | ⟨hdecides, hlast⟩
    · exact ⟨hcovers, rules, [], rfl, hbefore, by simp⟩
    · obtain ⟨hcovers, before, behind, rfl, hbefore, hbehind⟩ := hdecides
      refine ⟨hcovers, before, behind ++ [last], by simp, hbefore, fun other hother => ?_⟩
      rcases List.mem_append.mp hother with hmem | hmem
      · exact hbehind other hmem
      · exact List.mem_singleton.mp hmem ▸ hlast

end Decides

/-- The scan finds a rule exactly if that rule decides. -/
theorem scan_eq_some_iff {rule : TransferRule} :
    scan rules origin destination source target = some rule ↔
      Decides rules origin destination source target rule := by
  induction rules using List.reverseRecOn generalizing rule with
  | nil => simp [scan, Decides]
  | append_singleton rules last ih =>
    rw [scan_concat, decides_concat]
    simp only [forall_mem_scan_iff]
    by_cases hlast : last.covers origin destination source target = true ∧
        ∀ other ∈ rules, other.covers origin destination source target = true →
          other.rank < last.rank
    · rw [if_pos hlast, Option.some.injEq, eq_comm]
      constructor
      · intro hrule
        exact Or.inl ⟨hrule, hlast⟩
      · intro h
        rcases h with ⟨hrule, -⟩ | ⟨hdecides, hle⟩
        · exact hrule
        · have hlt := hlast.2 rule hdecides.mem hdecides.1
          have hle := hle hlast.1
          omega
    · rw [if_neg hlast, ih]
      constructor
      · intro hdecides
        refine Or.inr ⟨hdecides, fun hcovers => ?_⟩
        -- The last rule is no more specific than some other, which is no more than `rule`.
        by_contra hgt
        refine hlast ⟨hcovers, fun other hother h => ?_⟩
        have hle := hdecides.rank_le hother h
        omega
      · intro h
        rcases h with ⟨-, hlast'⟩ | ⟨hdecides, -⟩
        · exact absurd hlast' hlast
        · exact hdecides

/-! ## All tables -/

/-- A table finds for every change the first of the most specific rules that
cover it, and none exactly if no rule covers it.  One more rule decides only
if it covers the change and is more specific than the rule that decided. -/
theorem find?_ofList (rules : List TransferRule) (origin destination : Nat)
    (source target : Trip) :
    (ofList rules).find? origin destination source target =
        scan rules origin destination source target ∧
      ((ofList rules).find? origin destination source target = none ↔
        ∀ rule ∈ rules, ¬rule.covers origin destination source target = true) ∧
      (∀ rule, (ofList rules).find? origin destination source target = some rule ↔
        Decides rules origin destination source target rule) ∧
      ∀ rule, ((ofList rules).add rule).find? origin destination source target =
        if rule.covers origin destination source target = true ∧
            ∀ held ∈ (ofList rules).find? origin destination source target,
              held.rank < rule.rank then
          some rule
        else (ofList rules).find? origin destination source target := by
  have hscan : ∀ rules, (ofList rules).find? origin destination source target =
      scan rules origin destination source target := by
    intro rules
    rw [find?, filter_between, foldl_moreSpecific]
    rfl
  refine ⟨hscan rules, ?_, fun rule => ?_, fun rule => ?_⟩
  · rw [hscan, scan_eq_none_iff]
  · rw [hscan, scan_eq_some_iff]
  · rw [← ofList_concat, hscan, hscan, scan_concat]

/-- Two rules that are as specific as each other in different ways: the one
that was added first decides. -/
example :
    let pattern : Pattern := ⟨0, 0, [5, 6]⟩
    let trip : Trip := ⟨0, "A", 0, pattern, [], []⟩
    let byTrip : TransferRule := ⟨.trip 5 0, .stop 6, .preferred, false, false, none⟩
    let byRoutes : TransferRule := ⟨.route 5 0, .route 6 0, .notAllowed, false, false, none⟩
    (ofList [byTrip, byRoutes]).find? 5 6 trip trip = some byTrip ∧
      (ofList [byRoutes, byTrip]).find? 5 6 trip trip = some byRoutes := by
  decide

end RuleTable

end TransitTransfers
