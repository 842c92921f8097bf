import TransitTransfers.Optimizer
import TransitTransfers.Proofs.Journal
import TransitTransfers.Proofs.Narrowing.Lexicographic

/-!
# What remains after each criterion

`Narrowing.best` are the items whose costs are least in the lexicographic
order, found by one look at all of them.  The criteria of a narrowing are
applied one by one, and yet what remains after any number of them is the best
by these criteria (`stages_getElem?`).  So the order of a list is kept, and
how many times an item is in it.

* Whoever is told about a narrowing is told once for each criterion, in their
  order, what remains then (`narrowTelling_eq`).
* What remains at the end is what was told last (`narrow_eq_getLast?`).
* The items that remain have the same costs (`costs_eq_of_mem_narrow`), and
  remain if they are narrowed down again (`narrow_narrow`).
* A list can be narrowed down part by part (`narrow_append`).

`narrowTelling_lexicographic` is all of this for one narrowing.
-/

namespace TransitTransfers

/-- Lists of equal length that are in order both ways are the same. -/
theorem LexLe.antisymm {as bs : List Int} (hlength : as.length = bs.length) (h : LexLe as bs)
    (h' : LexLe bs as) : as = bs := by
  induction as generalizing bs with
  | nil => exact (List.length_eq_zero_iff.mp hlength.symm).symm
  | cons a as ih =>
    cases bs with
    | nil => exact absurd h id
    | cons b bs =>
      -- Neither of the first costs is less, so they are equal and the rest decides.
      rcases h with hlt | ⟨rfl, hrest⟩
      · rcases h' with hlt' | ⟨rfl, -⟩ <;> omega
      · rcases h' with hlt' | ⟨-, hrest'⟩
        · omega
        · rw [ih (Nat.succ.inj hlength) hrest hrest']

namespace Narrowing

variable {α : Type} {criteria : List (Criterion α)} {items : List α}

/-- The items whose costs are least in the lexicographic order. -/
def best (criteria : List (Criterion α)) (items : List α) : List α :=
  items.filter fun item => ∀ other ∈ items, LexLe (costs criteria item) (costs criteria other)

theorem narrow_eq_best (criteria : List (Criterion α)) (items : List α) :
    narrow criteria items = best criteria items :=
  narrow_eq_filter criteria items

theorem mem_narrow_iff {item : α} : item ∈ narrow criteria items ↔
    item ∈ items ∧ ∀ other ∈ items, LexLe (costs criteria item) (costs criteria other) := by
  rw [narrow_eq_filter, List.mem_filter, decide_eq_true_iff]

/-! ## Stage by stage -/

/-- After the criterion with number `k` the best by all criteria up to it
remain. -/
theorem stages_getElem? (criteria : List (Criterion α)) (items : List α) (k : Nat) :
    (stages criteria items)[k]? =
      criteria[k]?.map fun criterion => (criterion.name, best (criteria.take (k + 1)) items) := by
  induction criteria generalizing items k with
  | nil => rfl
  | cons criterion criteria ih =>
    simp only [List.take_succ_cons, ← narrow_eq_best]
    cases k with
    | zero => rfl
    | succ k =>
      rw [stages, List.getElem?_cons_succ, List.getElem?_cons_succ, ih]
      simp only [← narrow_eq_best]
      rfl

/-- What was told last is what remains; without criteria all items do. -/
theorem narrow_eq_getLast? (criteria : List (Criterion α)) (items : List α) :
    narrow criteria items = ((stages criteria items).getLast?.map Prod.snd).getD items := by
  induction criteria generalizing items with
  | nil => rfl
  | cons criterion criteria ih =>
    rw [narrow, ih, stages, List.getLast?_cons]
    cases (stages criteria (criterion.least items)).getLast? <;> rfl

/-- To tell what remains while narrowing down is to tell of the stages, one by
one. -/
theorem narrowTelling_eq {m : Type → Type} [Monad m] [LawfulMonad m]
    (tell : String → List α → m PUnit) (criteria : List (Criterion α)) (items : List α) :
    narrowTelling tell criteria items = do
      (stages criteria items).forM fun stage => tell stage.1 stage.2
      return narrow criteria items := by
  induction criteria generalizing items with
  | nil => exact (pure_bind PUnit.unit fun _ => pure items).symm
  | cons criterion criteria ih =>
    rw [narrowTelling, ih]
    exact (bind_assoc (tell criterion.name (criterion.least items)) _ _).symm

/-! ## What remains -/

theorem costs_eq_of_mem_narrow {a b : α} (ha : a ∈ narrow criteria items)
    (hb : b ∈ narrow criteria items) : costs criteria a = costs criteria b := by
  rw [mem_narrow_iff] at ha hb
  have hlength : (costs criteria a).length = (costs criteria b).length := by
    rw [costs, costs, List.length_map, List.length_map]
  exact LexLe.antisymm hlength (ha.2 b hb.1) (hb.2 a ha.1)

theorem narrow_narrow (criteria : List (Criterion α)) (items : List α) :
    narrow criteria (narrow criteria items) = narrow criteria items := by
  rw [narrow_eq_filter criteria (narrow criteria items), List.filter_eq_self]
  intro item hitem
  rw [decide_eq_true_iff]
  intro other hother
  exact (mem_narrow_iff.mp hitem).2 other (mem_of_mem_narrow hother)

/-- Narrowing down a part loses none of the best of all items. -/
theorem filter_narrow {part all : List α} (hsub : part ⊆ all) :
    (narrow criteria part).filter (fun item =>
        ∀ other ∈ all, LexLe (costs criteria item) (costs criteria other)) =
      part.filter fun item =>
        ∀ other ∈ all, LexLe (costs criteria item) (costs criteria other) := by
  rw [narrow_eq_filter, List.filter_filter]
  refine List.filter_congr fun item _ => ?_
  rw [← Bool.decide_and, decide_eq_decide]
  constructor
  · intro h
    exact h.1
  · intro h
    exact ⟨h, fun other hother => h other (hsub hother)⟩

theorem narrow_append (criteria : List (Criterion α)) (xs ys : List α) :
    narrow criteria (xs ++ ys) = narrow criteria (narrow criteria xs ++ narrow criteria ys) := by
  have hparts : narrow criteria (xs ++ ys) =
      (narrow criteria xs ++ narrow criteria ys).filter fun item =>
        ∀ other ∈ xs ++ ys, LexLe (costs criteria item) (costs criteria other) := by
    rw [List.filter_append, filter_narrow (List.subset_append_left xs ys),
      filter_narrow (List.subset_append_right xs ys), ← List.filter_append, ← narrow_eq_filter]
  cases hall : narrow criteria (xs ++ ys) with
  | nil =>
    rw [narrow_eq_nil_iff, List.append_eq_nil_iff] at hall
    rw [hall.1, hall.2, (narrow_eq_nil_iff criteria).mpr rfl]
    exact ((narrow_eq_nil_iff criteria).mpr rfl).symm
  | cons winner others =>
    have hwinner : winner ∈ narrow criteria (xs ++ ys) := by
      rw [hall]
      exact List.mem_cons_self
    have hmem : winner ∈ narrow criteria xs ++ narrow criteria ys := by
      rw [hparts] at hwinner
      exact (List.mem_filter.mp hwinner).1
    have hsub : narrow criteria xs ++ narrow criteria ys ⊆ xs ++ ys := by
      intro item hitem
      rw [List.mem_append] at hitem ⊢
      exact hitem.imp mem_of_mem_narrow mem_of_mem_narrow
    rw [← hall, hparts, narrow_eq_filter_of_mem hsub hwinner hmem]

/-! ## All together -/

/-- To narrow down by criteria one after the other is to minimize in the
lexicographic order.  After each criterion it is told once what remains, and
that is the best by the criteria so far, in the order of the items; in the end
what was told last remains.  So nothing remains only of nothing, what remains
costs the same, is not narrowed down any further, and may be found part by
part. -/
theorem narrowTelling_lexicographic {m : Type → Type} [Monad m] [LawfulMonad m]
    (tell : String → List α → m PUnit) (criteria : List (Criterion α)) (items : List α) :
    (narrowTelling tell criteria items = do
        (stages criteria items).forM fun stage => tell stage.1 stage.2
        return narrow criteria items) ∧
      (∀ k, (stages criteria items)[k]? = criteria[k]?.map fun criterion =>
        (criterion.name, best (criteria.take (k + 1)) items)) ∧
      narrow criteria items = ((stages criteria items).getLast?.map Prod.snd).getD items ∧
      (narrow criteria items = [] ↔ items = []) ∧
      (∀ a ∈ narrow criteria items, ∀ b ∈ narrow criteria items,
        costs criteria a = costs criteria b) ∧
      narrow criteria (narrow criteria items) = narrow criteria items ∧
      ∀ xs ys, narrow criteria (xs ++ ys) =
        narrow criteria (narrow criteria xs ++ narrow criteria ys) :=
  ⟨narrowTelling_eq tell criteria items, stages_getElem? criteria items,
    narrow_eq_getLast? criteria items, narrow_eq_nil_iff criteria,
    fun _ ha _ hb => costs_eq_of_mem_narrow ha hb, narrow_narrow criteria items,
    narrow_append criteria⟩

/-- Of four items the last two remain, and the counts that were told are kept in
a list. -/
theorem narrowTelling_lexicographic_pairs :
    (narrowTelling
        (fun name left =>
          (modify (· ++ [(name, left.length)]) : StateM (List (String × Nat)) PUnit))
        [⟨"first", fun item => item.1⟩, ⟨"second", fun item => item.2.1⟩]
        [(1, 5, 'a'), (2, 0, 'b'), (1, 3, 'c'), (1, 3, 'd')]).run [] =
      ([(1, 3, 'c'), (1, 3, 'd')], [("first", 3), ("second", 2)]) := by
  rw [(narrowTelling_lexicographic _ _ _).1]
  rfl

end Narrowing

/-! ## Choices -/

/-- Choices are narrowed down while it is told what remains after each
criterion. -/
theorem Optimizer.narrowDown_eq (optimizer : Optimizer) (given : Itinerary)
    (choices : List Choice) :
    optimizer.narrowDown given choices =
      Narrowing.narrowTelling
        (fun stage left => tellStage given stage (left.map (·.itinerary)))
        optimizer.criteria choices := by
  rw [Narrowing.narrowTelling_eq]
  rfl

end TransitTransfers
