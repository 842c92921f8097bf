import TransitTransfers.Proofs.Alternative.Offers

/-!
# The arena while it grows

The arena is made by three loops, one inside the other: over the junctions,
over the tails that are there and over the joins of the junction.  This module
follows the loops from one point to the next.

* `Arena.Passes` are the moves of the loops.  `passes_build` says that they
  come to the arena that is built, and `Passes.finish_eq` that they lead to no
  other one.
* `Arena.Extends` says that nodes stay where they are.  So the nodes of one
  junction fill a stretch of places of their own, `Arena.IsFilledAt`.
* `Arena.Reads` is the loop that reads a chain off.  It compares no places, so
  it need not stop.  It does where links lead to smaller places, and then
  `Arena.follow` reads the same chain (`Reads.leads`).
* `Arena.Threads` says what a tail is: its links go through one node of each
  junction that is done with, and each trip is boarded before it is left.
* `Arena.Threaded` is the invariant: links lead to smaller places, and every
  tail is a thread.  `Threaded.put` is one step of the innermost loop, and
  `Passes.threaded` is the run.
-/

namespace TransitTransfers

namespace Arena

variable {last : Nat} {lists others : List (List Join)} {joins untried : List Join}
  {waiting : List Tail} {arena grown : Arena} {tail : Tail} {join : Join}

/-! ## The points of the loops -/

/-- The loops have come to the first junction of `lists`, and the junctions
behind it are done with.  The tails `waiting` are still to be taken, and the
joins `untried` are still to be put in front of the first of them. -/
inductive Passes (last : Nat) : List (List Join) → List Tail → List Join → Arena → Prop where
  /-- Behind all junctions no tail is waiting. -/
  | start : Passes last [] [] [] (start last)
  /-- The next junction is taken when no tail is waiting.  All tails that were
  made wait then, and none is made yet. -/
  | junction {others : List (List Join)} {untried : List Join} {arena : Arena}
      (joins : List Join) (hdone : Passes last others [] untried arena) :
      Passes last (joins :: others) arena.tails.toList joins ⟨arena.nodes, #[]⟩
  /-- The next join is tried in front of a tail. -/
  | join {joins : List Join} {others : List (List Join)} {tail : Tail} {waiting : List Tail}
      {join : Join} {untried : List Join} {arena : Arena}
      (hpoint : Passes last (joins :: others) (tail :: waiting) (join :: untried) arena) :
      Passes last (joins :: others) (tail :: waiting) untried (put tail arena join)
  /-- The next tail is taken when all joins were tried. -/
  | tail {joins : List Join} {others : List (List Join)} {tail : Tail} {waiting : List Tail}
      {arena : Arena} (hpoint : Passes last (joins :: others) (tail :: waiting) [] arena) :
      Passes last (joins :: others) waiting joins arena

theorem Passes.putAll (h : Passes last (joins :: others) (tail :: waiting) untried arena) :
    Passes last (joins :: others) (tail :: waiting) [] (untried.foldl (put tail) arena) := by
  induction untried generalizing arena with
  | nil => exact h
  | cons join untried ih => exact ih h.join

theorem Passes.takeAll (h : Passes last (joins :: others) waiting joins arena) :
    Passes last (joins :: others) [] joins
      (waiting.foldl (fun grown tail => joins.foldl (put tail) grown) arena) := by
  induction waiting generalizing arena with
  | nil => exact h
  | cons tail waiting ih => exact ih h.putAll.tail

/-- The loops come to the arena that is built. -/
theorem passes_build (last : Nat) (lists : List (List Join)) :
    ∃ untried, Passes last lists [] untried (build last lists) := by
  induction lists with
  | nil => exact ⟨[], .start⟩
  | cons joins others ih =>
    obtain ⟨untried, hdone⟩ := ih
    exact ⟨joins, (Passes.junction joins hdone).takeAll⟩

/-- The arena when the loops are through with a junction, from a point of it. -/
def finish (joins : List Join) : List Tail → List Join → Arena → Arena
  | [], _, arena => arena
  | tail :: waiting, untried, arena =>
    waiting.foldl (fun grown tail => joins.foldl (put tail) grown)
      (untried.foldl (put tail) arena)

theorem finish_all (joins : List Join) (waiting : List Tail) (arena : Arena) :
    finish joins waiting joins arena =
      waiting.foldl (fun grown tail => joins.foldl (put tail) grown) arena := by
  cases waiting with
  | nil => rfl
  | cons tail waiting => rfl

/-- From every point the loops go on to the arena that is built. -/
theorem Passes.finish_eq (h : Passes last lists waiting untried arena) :
    finish (lists.headD []) waiting untried arena = build last lists := by
  induction h with
  | start => rfl
  | @junction others untried arena joins hdone ih =>
    -- No tail was waiting before, so the arena was the one that is built behind.
    have hbuilt : arena = build last others := ih
    subst hbuilt
    exact finish_all joins _ _
  | join hpoint ih => exact ih
  | @tail joins others tail waiting arena hpoint ih =>
    show finish joins waiting joins arena = _
    rw [finish_all]
    exact ih

theorem Passes.eq_build (h : Passes last lists [] untried arena) : arena = build last lists :=
  h.finish_eq

/-- A tail that is waiting was made at the junction behind. -/
theorem Passes.mem_made (h : Passes last lists waiting untried arena) :
    ∀ tail ∈ waiting, tail ∈ (build last lists.tail).tails := by
  induction h with
  | start =>
    intro tail hmem
    cases hmem
  | junction joins hdone ih =>
    intro tail hmem
    rw [List.tail_cons, ← hdone.eq_build]
    exact Array.mem_toList_iff.mp hmem
  | join hpoint ih => exact ih
  | tail hpoint ih => exact fun tail hmem => ih tail (List.mem_cons_of_mem _ hmem)

/-- A join that is still to be tried is one of the junction. -/
theorem Passes.mem_joins (h : Passes last lists waiting untried arena) :
    ∀ join ∈ untried, join ∈ lists.headD [] := by
  induction h with
  | start =>
    intro join hmem
    cases hmem
  | junction joins hdone ih => exact fun join hmem => hmem
  | join hpoint ih => exact fun join hmem => ih join (List.mem_cons_of_mem _ hmem)
  | tail hpoint ih => exact fun join hmem => hmem

/-! ## Nodes stay where they are -/

/-- The nodes of an arena are in another one as well, at the same places. -/
def Extends (arena grown : Arena) : Prop :=
  ∀ (place : Nat) (node : Node), arena.nodes[place]? = some node →
    grown.nodes[place]? = some node

namespace Extends

theorem refl (arena : Arena) : arena.Extends arena := fun _ _ hnode => hnode

theorem trans {other : Arena} (h : arena.Extends grown) (h' : grown.Extends other) :
    arena.Extends other :=
  fun place node hnode => h' place node (h place node hnode)

theorem size_le (h : arena.Extends grown) : arena.nodes.size ≤ grown.nodes.size := by
  by_contra hless
  have hlt : grown.nodes.size < arena.nodes.size := by omega
  have hnode := h _ _ (Array.getElem?_eq_getElem hlt)
  have hnone : grown.nodes[grown.nodes.size]? = none :=
    Array.getElem?_eq_none (Nat.le_refl _)
  rw [hnone] at hnode
  cases hnode

theorem push (arena : Arena) (node : Node) (tails : Array Tail) :
    arena.Extends ⟨arena.nodes.push node, tails⟩ :=
  fun _ _ hold => getElem?_push_of_eq_some hold node

theorem put (tail : Tail) (arena : Arena) (join : Join) :
    arena.Extends (Arena.put tail arena join) := by
  unfold Arena.put
  split
  · exact push arena _ _
  · exact refl arena

theorem putAll (tail : Tail) (joins : List Join) (arena : Arena) :
    arena.Extends (joins.foldl (Arena.put tail) arena) :=
  List.foldlRecOn joins _ (refl arena) fun grown h join _ => h.trans (put tail grown join)

theorem takeAll (joins : List Join) (tails : List Tail) (arena : Arena) :
    arena.Extends (tails.foldl (fun grown tail => joins.foldl (Arena.put tail) grown) arena) :=
  List.foldlRecOn tails _ (refl arena) fun grown h tail _ => h.trans (putAll tail joins grown)

theorem finish (joins : List Join) (waiting : List Tail) (untried : List Join) (arena : Arena) :
    arena.Extends (Arena.finish joins waiting untried arena) := by
  cases waiting with
  | nil => exact refl arena
  | cons tail waiting => exact (putAll tail untried arena).trans (takeAll joins waiting _)

end Extends

/-- At every point the arena has the nodes of the junctions behind. -/
theorem Passes.build_extends (h : Passes last lists waiting untried arena) :
    (build last lists.tail).Extends arena := by
  induction h with
  | start => exact .refl _
  | @junction others untried arena joins hdone ih =>
    obtain rfl := hdone.eq_build
    exact fun place node hnode => hnode
  | join hpoint ih => exact ih.trans (.put _ _ _)
  | tail hpoint ih => exact ih

/-- No node is lost until the loops are through with the junction. -/
theorem Passes.extends_build (h : Passes last lists waiting untried arena) :
    arena.Extends (build last lists) := by
  rw [← h.finish_eq]
  exact .finish _ _ _ _

/-- The place of a node of the first junction of `lists`: it is filled after
those of the junctions behind, and before the loops are through with it. -/
def IsFilledAt (last : Nat) (lists : List (List Join)) (place : Nat) : Prop :=
  (build last lists.tail).nodes.size ≤ place ∧ place < (build last lists).nodes.size

/-! ## Reading a chain off -/

/-- The loop that reads a chain off, from a place: it takes the join of the
node at the place and goes on where the node says, and stops where there is no
place.  On the way it looks at `places`, one after the other, whatever their
order. -/
inductive Reads (nodes : Array Node) : Option Nat → List Nat → List Join → Prop where
  | stop : Reads nodes none [] []
  | turn {place : Nat} {node : Node} {places : List Nat} {chain : List Join}
      (hnode : nodes[place]? = some node) (hrest : Reads nodes node.next places chain) :
      Reads nodes (some place) (place :: places) (node.join :: chain)

/-- Every link leads to a smaller place. -/
def LinksDown (nodes : Array Node) : Prop :=
  ∀ (place : Nat) (node : Node), nodes[place]? = some node → ∀ next ∈ node.next, next < place

theorem Reads.leads {nodes : Array Node} {place : Option Nat} {places : List Nat}
    {chain : List Join} (h : Reads nodes place places chain) (hdown : LinksDown nodes) :
    Leads nodes place chain := by
  induction h with
  | stop => exact .stop
  | turn hnode hrest ih => exact .go hnode (hdown _ _ hnode) ih

/-! ## The links of a tail -/

/-- The links of a tail go through one node of each junction of `lists`, in
order, and then stop.  Every node has a join of its junction, and boards a trip
before the position where the tail behind it leaves that trip. -/
inductive Threads (last : Nat) (nodes : Array Node) :
    List (List Join) → Tail → List Nat → List Join → Prop where
  /-- Behind all junctions there are no links, and the trip is left at `last`. -/
  | stop : Threads last nodes [] ⟨none, last⟩ [] []
  /-- The tail of a node leaves the trip ahead where the join of the node does. -/
  | go {joins : List Join} {others : List (List Join)} {place : Nat} {join : Join}
      {behind : Tail} {places : List Nat} {chain : List Join}
      (hnode : nodes[place]? = some ⟨join, behind.node⟩)
      (hfilled : IsFilledAt last (joins :: others) place) (hjoin : join ∈ joins)
      (hboard : join.board < behind.alight)
      (hrest : Threads last nodes others behind places chain) :
      Threads last nodes (joins :: others) ⟨some place, join.alight⟩ (place :: places)
        (join :: chain)

namespace Threads

variable {nodes : Array Node} {places : List Nat} {chain : List Join}

theorem mono (h : Threads last arena.nodes lists tail places chain)
    (hextends : arena.Extends grown) : Threads last grown.nodes lists tail places chain := by
  induction h with
  | stop => exact .stop
  | go hnode hfilled hjoin hboard hrest ih =>
    exact .go (hextends _ _ hnode) hfilled hjoin hboard ih

theorem lt_size (h : Threads last nodes lists tail places chain) :
    ∀ first ∈ tail.node, first < nodes.size := by
  intro first hfirst
  cases h with
  | stop => cases hfirst
  | go hnode hfilled hjoin hboard hrest =>
    cases hfirst
    exact (Array.getElem?_eq_some_iff.mp hnode).1

theorem reads (h : Threads last nodes lists tail places chain) :
    Reads nodes tail.node places chain := by
  induction h with
  | stop => exact .stop
  | go hnode hfilled hjoin hboard hrest ih => exact .turn hnode ih

theorem length_places (h : Threads last nodes lists tail places chain) :
    places.length = lists.length := by
  induction h with
  | stop => rfl
  | go hnode hfilled hjoin hboard hrest ih => rw [List.length_cons, ih, List.length_cons]

theorem forall₂_mem (h : Threads last nodes lists tail places chain) :
    List.Forall₂ (fun join joins => join ∈ joins) chain lists := by
  induction h with
  | stop => exact .nil
  | go hnode hfilled hjoin hboard hrest ih => exact .cons hjoin ih

end Threads

/-! ## The invariant -/

/-- What holds of the arena while the first junction of `lists` is in work, and
when the loops are through with it. -/
structure Threaded (last : Nat) (lists : List (List Join)) (arena : Arena) : Prop where
  down : LinksDown arena.nodes
  /-- The tails that are taken at this junction go through the ones behind. -/
  taken : ∀ tail ∈ (build last lists.tail).tails,
    ∃ places chain, Threads last arena.nodes lists.tail tail places chain
  /-- The tails that are made go through this junction as well. -/
  made : ∀ tail ∈ arena.tails, ∃ places chain, Threads last arena.nodes lists tail places chain

theorem LinksDown.push {nodes : Array Node} (h : LinksDown nodes) {node : Node}
    (hnode : ∀ next ∈ node.next, next < nodes.size) : LinksDown (nodes.push node) := by
  intro place found hfound
  rw [Array.getElem?_push] at hfound
  split at hfound
  · rename_i hplace
    cases hfound
    rw [hplace]
    exact hnode
  · exact h place found hfound

theorem threaded_start (last : Nat) : Threaded last [] (start last) := by
  have hstart : ∀ tail ∈ (start last).tails,
      ∃ places chain, Threads last (start last).nodes [] tail places chain := by
    intro tail hmem
    obtain rfl : tail = ⟨none, last⟩ := by simpa [start] using hmem
    exact ⟨[], [], .stop⟩
  refine ⟨fun place node hnode => ?_, hstart, hstart⟩
  cases hnode

/-- One step: a join that fits in front of a tail makes one more tail, and its
node is pushed behind all others. -/
theorem Threaded.put (h : Threaded last (joins :: others) arena)
    (hbehind : (build last others).Extends arena)
    (hahead : (Arena.put tail arena join).Extends (build last (joins :: others)))
    (htail : tail ∈ (build last others).tails) (hjoin : join ∈ joins) :
    Threaded last (joins :: others) (Arena.put tail arena join) := by
  have hextends : arena.Extends (Arena.put tail arena join) := .put tail arena join
  have htaken : ∀ other ∈ (build last others).tails, ∃ places chain,
      Threads last (Arena.put tail arena join).nodes others other places chain := by
    intro other hother
    obtain ⟨places, chain, hthreads⟩ := h.taken other hother
    exact ⟨places, chain, hthreads.mono hextends⟩
  by_cases hfits : join.board < tail.alight
  · have hput : Arena.put tail arena join = ⟨arena.nodes.push ⟨join, tail.node⟩,
        arena.tails.push ⟨some arena.nodes.size, join.alight⟩⟩ := if_pos hfits
    obtain ⟨places, chain, hthreads⟩ := h.taken tail htail
    rw [hput] at hextends hahead htaken ⊢
    refine ⟨h.down.push hthreads.lt_size, htaken, fun other hother => ?_⟩
    rcases Array.mem_push.mp hother with hold | rfl
    · obtain ⟨places, chain, hthreads⟩ := h.made other hold
      exact ⟨places, chain, hthreads.mono hextends⟩
    · -- The new node stands behind those of the junctions behind, and it stays.
      have hnode : (arena.nodes.push ⟨join, tail.node⟩)[arena.nodes.size]? =
          some ⟨join, tail.node⟩ := Array.getElem?_push_size
      have hlt : arena.nodes.size < (build last (joins :: others)).nodes.size :=
        (Array.getElem?_eq_some_iff.mp (hahead _ _ hnode)).1
      exact ⟨arena.nodes.size :: places, join :: chain,
        .go hnode ⟨hbehind.size_le, hlt⟩ hjoin hfits (hthreads.mono hextends)⟩
  · have hput : Arena.put tail arena join = arena := if_neg hfits
    rw [hput]
    exact h

/-- The run: the invariant holds at every point of the loops. -/
theorem Passes.threaded (h : Passes last lists waiting untried arena) :
    Threaded last lists arena := by
  induction h with
  | start => exact threaded_start last
  | @junction others untried arena joins hdone ih =>
    obtain rfl := hdone.eq_build
    refine ⟨ih.down, ih.made, fun tail hmem => ?_⟩
    cases Array.not_mem_empty tail hmem
  | join hpoint ih =>
    exact ih.put hpoint.build_extends (Passes.join hpoint).extends_build
      (hpoint.mem_made _ List.mem_cons_self) (hpoint.mem_joins _ List.mem_cons_self)
  | tail hpoint ih => exact ih

end Arena

/-! ## The chains of an itinerary -/

namespace Planner

/-- At every point of the loops that combine the offers of an itinerary, links
lead to smaller places, and the links of each tail go through one join of every
junction from its own to the last one, where each trip is boarded before it is
left.  So reading a tail off when the loops are through stops after as many
turns as there are junctions, at places of the arena only, and gives the joins
of the junctions in order. -/
theorem tails_thread_junctions {planner : Planner} {itinerary : Itinerary}
    {offers : List Offer} (hoffers : planner.offers itinerary = .ok offers) :
    let last := itinerary.lastRide.alight
    let lists := offers.map Offer.joins
    lists.length = itinerary.junctions.length ∧
      (∀ j waiting untried arena, Arena.Passes last (lists.drop j) waiting untried arena →
        Arena.Threaded last (lists.drop j) arena) ∧
      (∀ j arena, (∃ untried, Arena.Passes last (lists.drop j) [] untried arena) ↔
        arena = Arena.build last (lists.drop j)) ∧
      ∀ tail ∈ (Arena.build last lists).tails, ∃ places chain,
        Arena.Reads (Arena.build last lists).nodes tail.node places chain ∧
          places.length = itinerary.junctions.length ∧
          (Arena.build last lists).follow tail.node = .ok chain ∧
          chain.length = itinerary.junctions.length ∧
          List.Forall₂ (fun join offer => join ∈ offer.joins) chain offers := by
  intro last lists
  have hlength : lists.length = itinerary.junctions.length := by
    rw [List.length_map]
    exact (madeFrom_of_offersFrom hoffers).length_eq.symm
  refine ⟨hlength, fun j waiting untried arena h => h.threaded, fun j arena => ?_,
    fun tail hmem => ?_⟩
  · constructor
    · rintro ⟨untried, h⟩
      exact h.eq_build
    · rintro rfl
      exact Arena.passes_build last (lists.drop j)
  · obtain ⟨untried, hpasses⟩ := Arena.passes_build last lists
    have hthreaded := hpasses.threaded
    obtain ⟨places, chain, hthreads⟩ := hthreaded.made tail hmem
    have hmem := hthreads.forall₂_mem
    refine ⟨places, chain, hthreads.reads, ?_, ?_, ?_, List.forall₂_map_right_iff.mp hmem⟩
    · rw [hthreads.length_places, hlength]
    · exact (hthreads.reads.leads hthreaded.down).follow
    · rw [hmem.length_eq, hlength]

/-- The three tails of the journey are made of five nodes, and two of them go on
over the same one. -/
theorem tails_thread_junctions_journey :
    ∃ offers, Network.planner.offers Network.journey = .ok offers ∧
      (Arena.build Network.journey.lastRide.alight (offers.map Offer.joins)).nodes.map
        Node.next = #[none, none, some 0, some 1, some 1] ∧
      ∀ tail ∈ (Arena.build Network.journey.lastRide.alight (offers.map Offer.joins)).tails,
        ∃ places chain,
          Arena.Reads (Arena.build Network.journey.lastRide.alight
            (offers.map Offer.joins)).nodes tail.node places chain ∧
          places.length = 2 ∧ chain.length = 2 := by
  obtain ⟨offers, hoffers⟩ : ∃ offers, Network.planner.offers Network.journey = .ok offers :=
    exists_ok_of_toBool (by decide +kernel)
  obtain ⟨-, -, -, hread⟩ := tails_thread_junctions hoffers
  have hnext : (Network.planner.offers Network.journey).map (fun offers =>
      (Arena.build Network.journey.lastRide.alight (offers.map Offer.joins)).nodes.map
        Node.next) = .ok #[none, none, some 0, some 1, some 1] := by
    decide +kernel
  rw [hoffers] at hnext
  refine ⟨offers, hoffers, Except.ok.inj hnext, fun tail hmem => ?_⟩
  obtain ⟨places, chain, hreads, hplaces, -, hchain, -⟩ := hread tail hmem
  exact ⟨places, chain, hreads, hplaces, hchain⟩

end Planner

end TransitTransfers
