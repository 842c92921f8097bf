import TransitTransfers.Join

/-!
# Chains of joins

A chain takes one join at every junction, so that each trip is boarded before
it is left.  Chains are made from the last junction to the first.  On the way
a `Tail` is what is there of a chain already: its joins at the last junctions.

Chains that end alike share their ends.  All joins in use stand in one
`Arena`, and each one knows the place of the join that follows it.  So a tail
is no more than the place of its first join, and putting a join in front of a
tail copies nothing.
-/

namespace TransitTransfers

/-- A join in an arena. -/
structure Node where
  join : Join
  /-- The place of the join that follows it; none behind the last junction. -/
  next : Option Nat
deriving DecidableEq, Repr

/-- The joins of a chain at the last junctions. -/
structure Tail where
  /-- The place of its first join; none if it has no joins. -/
  node : Option Nat
  /-- The position where the trip ahead of it is left. -/
  alight : Nat
deriving DecidableEq, Repr

/-- Tails and the joins that they are made of. -/
structure Arena where
  /-- The joins, those of later junctions first. -/
  nodes : Array Node
  tails : Array Tail
deriving DecidableEq, Repr

namespace Arena

/-- The tail behind all junctions.  It has no joins, and the trip ahead of it
is left at `last`. -/
def start (last : Nat) : Arena := ⟨#[], #[⟨none, last⟩]⟩

/-- Puts a join in front of a tail, if the trip between them is boarded before
it is left. -/
def put (tail : Tail) (arena : Arena) (join : Join) : Arena :=
  if join.board < tail.alight then
    { nodes := arena.nodes.push ⟨join, tail.node⟩
      tails := arena.tails.push ⟨some arena.nodes.size, join.alight⟩ }
  else arena

/-- Puts each of some joins in front of each tail.  The tails change slowest. -/
def extend (arena : Arena) (joins : List Join) : Arena :=
  arena.tails.toList.foldl (fun grown tail => joins.foldl (put tail) grown) ⟨arena.nodes, #[]⟩

/-- The arena for the joins of some junctions, where the last trip is left at
`last`. -/
def build (last : Nat) : List (List Join) → Arena
  | [] => start last
  | joins :: others => (build last others).extend joins

/-- The joins from a place on.  A join is put in front of a tail that is there
already, so the way leads to smaller and smaller places. -/
def follow (arena : Arena) : Option Nat → Except Fault (List Join)
  | none => return []
  | some place =>
    match arena.nodes[place]? with
    | none => throw (.index arena.nodes.size place)
    | some node => do
      let behind ← arena.follow (node.next.filter (· < place))
      return node.join :: behind
termination_by place => place.elim 0 (· + 1)
decreasing_by
  cases node.next with
  | none => simp
  | some next => by_cases h : next < place <;> simp [Option.filter, h]

end Arena

end TransitTransfers
