import TransitTransfers.Alternative
import TransitTransfers.Proofs.Computation

/-!
# The arena holds all chains

`chains` lists the chains of joins without an arena: it takes the chains of
the later junctions and puts a join in front of each.  This module shows that
the arena is another way to write that list down.

* `Leads` says that a place of the arena leads to some joins and then stops.
  Every link of it goes to a smaller place, so `Arena.follow` reads the joins
  off (`Leads.follow`), and what is pushed later does not change them
  (`Leads.push`).
* `Arena.Holds` is the invariant of the loops: the tails stand for given
  chains, in order, and know where the trip ahead of them is left.
  `Holds.put` is one step, `Holds.putAll` is the inner loop and `Holds.extend`
  is the outer one.
* `holds_build` is the run over all junctions, and `chainsOf_eq` says which
  chains a planner takes from the arena.
-/

namespace TransitTransfers

/-! ## Chains without an arena -/

/-- The position where the trip ahead of a chain is left: by the first join of
the chain, or at `last` behind its end. -/
def alightBefore (last : Nat) : List Join → Nat
  | [] => last
  | join :: _ => join.alight

/-- All chains of one join from every list, where each trip is boarded before
it is left and the last one is left at `last`.  The choice from the last list
changes slowest. -/
def chains (last : Nat) : List (List Join) → List (List Join)
  | [] => [[]]
  | joins :: others =>
    (chains last others).flatMap fun chain =>
      (joins.filter (·.board < alightBefore last chain)).map (· :: chain)

/-! ## The way from a place -/

/-- The place leads to the joins, one after the other, and then stops. -/
inductive Leads (nodes : Array Node) : Option Nat → List Join → Prop where
  | stop : Leads nodes none []
  /-- A node leads to its join and goes on at a smaller place. -/
  | go {place : Nat} {node : Node} {joins : List Join} (hnode : nodes[place]? = some node)
      (hless : ∀ next ∈ node.next, next < place) (hrest : Leads nodes node.next joins) :
      Leads nodes (some place) (node.join :: joins)

/-- A node that is pushed later leaves the others where they are. -/
theorem getElem?_push_of_eq_some {nodes : Array Node} {place : Nat} {old : Node}
    (h : nodes[place]? = some old) (node : Node) : (nodes.push node)[place]? = some old := by
  have hlt := (Array.getElem?_eq_some_iff.mp h).1
  rw [Array.getElem?_push_lt hlt, ← h, Array.getElem?_eq_getElem hlt]

namespace Leads

variable {nodes : Array Node} {place : Option Nat} {joins : List Join}

theorem lt_size (h : Leads nodes place joins) : ∀ first ∈ place, first < nodes.size := by
  intro first hfirst
  cases h with
  | stop => cases hfirst
  | go hnode hless hrest =>
    cases hfirst
    exact (Array.getElem?_eq_some_iff.mp hnode).1

/-- Nodes that are pushed later change no way. -/
theorem push (h : Leads nodes place joins) (node : Node) :
    Leads (nodes.push node) place joins := by
  induction h with
  | stop => exact stop
  | go hnode hless hrest ih => exact go (getElem?_push_of_eq_some hnode node) hless ih

theorem follow {arena : Arena} (h : Leads arena.nodes place joins) :
    arena.follow place = .ok joins := by
  induction h with
  | stop =>
    rw [Arena.follow]
    rfl
  | @go place node joins hnode hless hrest ih =>
    have hnext : node.next.filter (· < place) = node.next := by
      cases hn : node.next with
      | none => rfl
      | some next =>
        have hlt := hless next hn
        simp [hlt]
    rw [Arena.follow, hnode]
    show (do
      let behind ← arena.follow (node.next.filter (· < place))
      return node.join :: behind) = Except.ok (node.join :: joins)
    rw [hnext, ih]
    rfl

end Leads

/-! ## The invariant of the loops -/

/-- A tail stands for a chain. -/
structure Tail.StandsFor (last : Nat) (nodes : Array Node) (tail : Tail) (chain : List Join) :
    Prop where
  leads : Leads nodes tail.node chain
  alight : tail.alight = alightBefore last chain

theorem Tail.StandsFor.push {last : Nat} {nodes : Array Node} {tail : Tail} {chain : List Join}
    (h : tail.StandsFor last nodes chain) (node : Node) :
    tail.StandsFor last (nodes.push node) chain :=
  ⟨h.leads.push node, h.alight⟩

namespace Arena

/-- The tails of an arena stand for chains, in order. -/
def Holds (last : Nat) (arena : Arena) (chains : List (List Join)) : Prop :=
  List.Forall₂ (Tail.StandsFor last arena.nodes) arena.tails.toList chains

/-- What stands for a chain in one arena does so in another. -/
def Keeps (last : Nat) (arena grown : Arena) : Prop :=
  ∀ tail chain, Tail.StandsFor last arena.nodes tail chain →
    Tail.StandsFor last grown.nodes tail chain

variable {last : Nat} {arena : Arena} {tail : Tail} {chain : List Join}
  {front : List (List Join)}

/-- One step: a join that fits in front of a tail makes one more chain. -/
theorem Holds.put (h : arena.Holds last front)
    (htail : tail.StandsFor last arena.nodes chain) (join : Join) :
    (put tail arena join).Holds last
        (front ++ ([join].filter (·.board < alightBefore last chain)).map (· :: chain)) ∧
      arena.Keeps last (put tail arena join) := by
  unfold Arena.put
  rw [htail.alight]
  by_cases hfits : join.board < alightBefore last chain
  · rw [if_pos hfits]
    have hkeeps : arena.Keeps last ⟨arena.nodes.push ⟨join, tail.node⟩,
        arena.tails.push ⟨some arena.nodes.size, join.alight⟩⟩ :=
      fun other chain' hother => hother.push _
    have hnode : (arena.nodes.push ⟨join, tail.node⟩)[arena.nodes.size]? =
        some ⟨join, tail.node⟩ := Array.getElem?_push_size
    have hnew : Tail.StandsFor last (arena.nodes.push ⟨join, tail.node⟩)
        ⟨some arena.nodes.size, join.alight⟩ (join :: chain) :=
      ⟨.go hnode htail.leads.lt_size (htail.leads.push _), rfl⟩
    have hsingle : ([join].filter (·.board < alightBefore last chain)).map (· :: chain) =
        [join :: chain] := by
      simp [hfits]
    refine ⟨?_, hkeeps⟩
    show List.Forall₂ _ (arena.tails.push _).toList _
    rw [Array.toList_push, hsingle]
    exact List.rel_append (h.imp hkeeps) (.cons hnew .nil)
  · rw [if_neg hfits]
    have hnone : ([join].filter (·.board < alightBefore last chain)).map (· :: chain) = [] := by
      simp [hfits]
    rw [hnone, List.append_nil]
    exact ⟨h, fun _ _ hother => hother⟩

/-- The inner loop: every join that fits in front of a tail makes one more
chain, in order. -/
theorem Holds.putAll (h : arena.Holds last front)
    (htail : tail.StandsFor last arena.nodes chain) (joins : List Join) :
    (joins.foldl (Arena.put tail) arena).Holds last
        (front ++ (joins.filter (·.board < alightBefore last chain)).map (· :: chain)) ∧
      arena.Keeps last (joins.foldl (Arena.put tail) arena) := by
  induction joins generalizing arena front with
  | nil =>
    rw [List.filter_nil, List.map_nil, List.append_nil]
    exact ⟨h, fun _ _ hother => hother⟩
  | cons join joins ih =>
    obtain ⟨hput, hkeeps⟩ := h.put htail join
    obtain ⟨hrest, hkeeps'⟩ := ih hput (hkeeps _ _ htail)
    rw [List.append_assoc, ← List.map_append, ← List.filter_append] at hrest
    exact ⟨hrest, fun _ _ hother => hkeeps' _ _ (hkeeps _ _ hother)⟩

/-- The outer loop: the tails that are there are taken one after the other. -/
theorem Holds.extend {chains : List (List Join)} (h : arena.Holds last chains)
    (joins : List Join) :
    (arena.extend joins).Holds last (chains.flatMap fun chain =>
      (joins.filter (·.board < alightBefore last chain)).map (· :: chain)) := by
  -- The tails still to be taken stand for chains of the arena that grows.
  have hloop : ∀ (tails : List Tail) (chains front : List (List Join)) (grown : Arena),
      grown.Holds last front →
        List.Forall₂ (Tail.StandsFor last grown.nodes) tails chains →
          (tails.foldl (fun grown tail => joins.foldl (Arena.put tail) grown) grown).Holds last
            (front ++ chains.flatMap fun chain =>
              (joins.filter (·.board < alightBefore last chain)).map (· :: chain)) := by
    intro tails
    induction tails with
    | nil =>
      intro chains front grown hgrown htails
      cases htails
      rw [List.flatMap_nil, List.append_nil]
      exact hgrown
    | cons tail tails ih =>
      intro chains front grown hgrown htails
      cases htails with
      | cons htail htails =>
        obtain ⟨hput, hkeeps⟩ := hgrown.putAll htail joins
        have hrest := ih _ _ _ hput (htails.imp hkeeps)
        rw [List.append_assoc] at hrest
        rw [List.flatMap_cons]
        exact hrest
  exact hloop _ _ [] ⟨arena.nodes, #[]⟩ .nil h

/-- The arena that is built holds all chains, in order. -/
theorem holds_build (last : Nat) (lists : List (List Join)) :
    (build last lists).Holds last (chains last lists) := by
  induction lists with
  | nil => exact .cons ⟨.stop, rfl⟩ .nil
  | cons joins others ih => exact ih.extend joins

end Arena

/-- The chains that a planner takes from the arena are all chains that leave
the first trip behind the position where it is boarded.  Following the arena
never fails. -/
theorem chainsOf_eq (itinerary : Itinerary) (offers : List Offer) :
    Planner.chainsOf itinerary offers =
      .ok ((chains itinerary.lastRide.alight (offers.map Offer.joins)).filter fun chain =>
        itinerary.first.board < alightBefore itinerary.lastRide.alight chain) := by
  have hholds := Arena.holds_build itinerary.lastRide.alight (offers.map Offer.joins)
  refine mapM_eq_ok_iff.mpr ?_
  have hfilter := List.rel_filter
    (p := fun tail : Tail => itinerary.first.board < tail.alight)
    (q := fun chain => itinerary.first.board < alightBefore itinerary.lastRide.alight chain)
    (fun tail chain hstands => by
      have halight := hstands.alight
      simp only [halight]) hholds
  exact hfilter.imp fun _ _ hstands => hstands.leads.follow

end TransitTransfers
