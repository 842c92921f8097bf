/-!
# Narrowing down a list

A list is narrowed down by criteria, one after the other.  Each criterion
keeps the items of least cost and leaves the choice among them to the next
one.  What remains is what is least in the lexicographic order of the costs,
in the order of the list.
-/

namespace TransitTransfers

/-- A named cost by which a list is narrowed down. -/
structure Criterion (α : Type) where
  name : String
  cost : α → Int

namespace Criterion

/-- The items of least cost. -/
def least {α : Type} (criterion : Criterion α) (items : List α) : List α :=
  match (items.map criterion.cost).min? with
  | some best => items.filter (criterion.cost · = best)
  | none => items

end Criterion

namespace Narrowing

/-- What remains after each criterion, under the name of the criterion. -/
def stages {α : Type} : List (Criterion α) → List α → List (String × List α)
  | [], _ => []
  | criterion :: criteria, items =>
    let kept := criterion.least items
    (criterion.name, kept) :: stages criteria kept

/-- What remains after all criteria. -/
def narrow {α : Type} : List (Criterion α) → List α → List α
  | [], items => items
  | criterion :: criteria, items => narrow criteria (criterion.least items)

/-- Narrows items down, and tells what remains as soon as a criterion has been
applied. -/
def narrowTelling {m : Type → Type} [Monad m] {α : Type} (tell : String → List α → m PUnit) :
    List (Criterion α) → List α → m (List α)
  | [], items => return items
  | criterion :: criteria, items => do
    let kept := criterion.least items
    tell criterion.name kept
    narrowTelling tell criteria kept

end Narrowing

end TransitTransfers
