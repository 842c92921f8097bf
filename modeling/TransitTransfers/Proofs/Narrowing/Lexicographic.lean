import TransitTransfers.Narrowing
import TransitTransfers.Proofs.Computation

/-!
# Narrowing down is lexicographic minimization

Each criterion keeps the items of least cost among those that are left.  So
all criteria together keep the items whose list of costs is least in the
lexicographic order, in the order of the list (`narrow_eq_filter`).  If there
are items at all, some of them are kept (`narrow_eq_nil_iff`).  What is kept of
fewer items is kept of all, as long as one of the best is among them
(`narrow_sublist`).  Two lists whose costs compare alike are narrowed down
alike (`narrow_forall₂`).
-/

namespace TransitTransfers

/-- The lexicographic order of costs: the first cost that differs decides. -/
def LexLe : List Int → List Int → Prop
  | [], _ => True
  | _ :: _, [] => False
  | a :: as, b :: bs => a < b ∨ a = b ∧ LexLe as bs

instance decidableLexLe : (as bs : List Int) → Decidable (LexLe as bs)
  | [], _ => inferInstanceAs (Decidable True)
  | _ :: _, [] => inferInstanceAs (Decidable False)
  | a :: as, b :: bs =>
    have := decidableLexLe as bs
    inferInstanceAs (Decidable (a < b ∨ a = b ∧ LexLe as bs))

theorem LexLe.trans {as bs cs : List Int} (h : LexLe as bs) (h' : LexLe bs cs) :
    LexLe as cs := by
  induction as generalizing bs cs with
  | nil => trivial
  | cons a as ih =>
    cases bs with
    | nil => exact absurd h id
    | cons b bs =>
      cases cs with
      | nil => exact absurd h' id
      | cons c cs =>
        rcases h with hlt | ⟨rfl, hrest⟩
        · rcases h' with hlt' | ⟨rfl, -⟩
          · exact Or.inl (Int.lt_trans hlt hlt')
          · exact Or.inl hlt
        · rcases h' with hlt' | ⟨rfl, hrest'⟩
          · exact Or.inl hlt'
          · exact Or.inr ⟨rfl, ih hrest hrest'⟩

/-- The costs of an item, by all criteria in order. -/
def costs {α : Type} (criteria : List (Criterion α)) (item : α) : List Int :=
  criteria.map (·.cost item)

namespace Criterion

variable {α : Type} {criterion : Criterion α} {items : List α}

/-- The items of least cost are those that cost no more than any other. -/
theorem least_eq_filter :
    criterion.least items =
      items.filter fun item => ∀ other ∈ items, criterion.cost item ≤ criterion.cost other := by
  unfold least
  cases hmin : (items.map criterion.cost).min? with
  | none =>
    rw [List.min?_eq_none_iff, List.map_eq_nil_iff] at hmin
    rw [hmin]
    rfl
  | some best =>
    obtain ⟨hmem, hle⟩ := List.min?_eq_some_iff.mp hmin
    obtain ⟨first, hfirst, hbest⟩ := List.mem_map.mp hmem
    refine List.filter_congr fun item hitem => ?_
    rw [decide_eq_decide]
    constructor
    · intro heq other hother
      have hother := hle _ (List.mem_map_of_mem hother)
      omega
    · intro hall
      have hitem := hle _ (List.mem_map_of_mem hitem)
      have hfirst := hall first hfirst
      omega

theorem least_eq_nil_iff : criterion.least items = [] ↔ items = [] := by
  constructor
  · intro h
    cases hmin : (items.map criterion.cost).min? with
    | none =>
      rw [List.min?_eq_none_iff, List.map_eq_nil_iff] at hmin
      exact hmin
    | some best =>
      obtain ⟨hmem, -⟩ := List.min?_eq_some_iff.mp hmin
      obtain ⟨first, hfirst, hbest⟩ := List.mem_map.mp hmem
      rw [least, hmin, List.filter_eq_nil_iff] at h
      have hkept := h first hfirst
      rw [decide_eq_true_iff] at hkept
      exact absurd hbest hkept
  · intro h
    rw [h]
    rfl

end Criterion

namespace Narrowing

variable {α : Type}

/-- What remains after all criteria is what is least in the lexicographic
order of the costs. -/
theorem narrow_eq_filter (criteria : List (Criterion α)) (items : List α) :
    narrow criteria items = items.filter fun item =>
      ∀ other ∈ items, LexLe (costs criteria item) (costs criteria other) := by
  induction criteria generalizing items with
  | nil =>
    refine (List.filter_eq_self.mpr fun item _ => ?_).symm
    rw [decide_eq_true_iff]
    intro other _
    trivial
  | cons criterion criteria ih =>
    rw [narrow, ih, Criterion.least_eq_filter, List.filter_filter]
    refine List.filter_congr fun item hitem => ?_
    rw [← Bool.decide_and, decide_eq_decide]
    have hcons : ∀ other,
        LexLe (costs (criterion :: criteria) item) (costs (criterion :: criteria) other) ↔
          criterion.cost item < criterion.cost other ∨
            criterion.cost item = criterion.cost other ∧
              LexLe (costs criteria item) (costs criteria other) :=
      fun other => Iff.rfl
    simp only [hcons, List.mem_filter, decide_eq_true_iff]
    constructor
    · intro h other hother
      rcases h with ⟨hrest, hleast⟩
      have hle := hleast other hother
      by_cases hlt : criterion.cost item < criterion.cost other
      · exact Or.inl hlt
      · -- Then the other item is of least cost, too.
        refine Or.inr ⟨by omega, hrest other ⟨hother, fun third hthird => ?_⟩⟩
        have hthird := hleast third hthird
        omega
    · intro h
      refine ⟨fun other hother => ?_, fun other hother => ?_⟩
      · have hle := hother.2 item hitem
        rcases h other hother.1 with hlt | heq
        · omega
        · exact heq.2
      · rcases h other hother with hlt | heq
        · omega
        · omega

theorem narrow_eq_nil_iff (criteria : List (Criterion α)) {items : List α} :
    narrow criteria items = [] ↔ items = [] := by
  induction criteria generalizing items with
  | nil => exact Iff.rfl
  | cons criterion criteria ih => rw [narrow, ih, Criterion.least_eq_nil_iff]

/-- Items that cost the same as those that they are made from are narrowed
down with them. -/
theorem narrow_map {criteria : List (Criterion α)} {make : α → α}
    (hcosts : ∀ item, costs criteria (make item) = costs criteria item) (items : List α) :
    narrow criteria (items.map make) = (narrow criteria items).map make := by
  rw [narrow_eq_filter, narrow_eq_filter, List.filter_map]
  congr 1
  refine List.filter_congr fun item _ => ?_
  simp only [Function.comp_apply, List.forall_mem_map, hcosts]

theorem mem_of_mem_narrow {criteria : List (Criterion α)} {items : List α} {item : α}
    (h : item ∈ narrow criteria items) : item ∈ items := by
  rw [narrow_eq_filter] at h
  exact (List.mem_filter.mp h).1

/-- The best of some items are the best of all, if one of these is among them. -/
theorem narrow_eq_filter_of_mem {criteria : List (Criterion α)} {few all : List α}
    (hsub : few ⊆ all) {best : α} (hbest : best ∈ narrow criteria all) (hmem : best ∈ few) :
    narrow criteria few = few.filter fun item =>
      ∀ other ∈ all, LexLe (costs criteria item) (costs criteria other) := by
  rw [narrow_eq_filter, List.mem_filter, decide_eq_true_iff] at hbest
  rw [narrow_eq_filter]
  refine List.filter_congr fun item _ => ?_
  rw [decide_eq_decide]
  constructor
  · intro h other hother
    exact (h best hmem).trans (hbest.2 other hother)
  · intro h other hother
    exact h other (hsub hother)

/-- What remains of fewer items, in the same order, remains of all items, if
one of the best is still there.  That one remains, too. -/
theorem narrow_sublist {criteria : List (Criterion α)} {few all : List α}
    (hsub : few.Sublist all) {best : α} (hbest : best ∈ narrow criteria all)
    (hmem : best ∈ few) :
    (narrow criteria few).Sublist (narrow criteria all) ∧ best ∈ narrow criteria few := by
  rw [narrow_eq_filter_of_mem hsub.subset hbest hmem]
  rw [narrow_eq_filter] at hbest ⊢
  exact ⟨hsub.filter _, List.mem_filter.mpr ⟨hmem, (List.mem_filter.mp hbest).2⟩⟩

/-- Of two lists the same places remain, if the costs at any two places of the
one compare as those at the same places of the other. -/
theorem narrow_forall₂ {β : Type} {criteria : List (Criterion α)} {criteria' : List (Criterion β)}
    {R : α → β → Prop} {items : List α} {items' : List β} (h : List.Forall₂ R items items')
    (hcosts : ∀ a b other other', R a b → R other other' →
      (LexLe (costs criteria a) (costs criteria other) ↔
        LexLe (costs criteria' b) (costs criteria' other'))) :
    List.Forall₂ R (narrow criteria items) (narrow criteria' items') := by
  rw [narrow_eq_filter, narrow_eq_filter]
  refine List.rel_filter (fun a b hab => ?_) h
  dsimp only
  rw [decide_eq_true_iff, decide_eq_true_iff]
  constructor
  · intro hleast other' hother'
    obtain ⟨other, hother, hrel⟩ := exists_mem_of_forall₂ h hother'
    exact (hcosts _ _ _ _ hab hrel).mp (hleast other hother)
  · intro hleast other hother
    obtain ⟨other', hother', hrel⟩ := exists_mem_of_forall₂ h.flip hother
    exact (hcosts _ _ _ _ hab hrel).mpr (hleast other' hother')

end Narrowing

end TransitTransfers
