import Mathlib.Data.List.Flatten
import TransitTransfers.Proofs.Alternative.Chains

/-!
# What pruning leaves out

The plain way to list the chains of some lists is to take the whole `product`
and to keep the chains that are `InOrder`.  A planner does less work: it skips
joins for which the trip behind them is left too early, and it searches every
list only behind a position where the trip can be boarded at all.

* `filter_chains_eq` shows that skipping loses nothing: the chains made
  backwards are those of the product that are in order.
* `Pruned` says what a search from later positions may leave out of the lists,
  and `Pruned.filter_product` shows that no chain in order is lost.  The
  induction goes from the first junction to the last, and its invariant is a
  bound on all positions where the next trip is boarded.
-/

namespace TransitTransfers

/-! ## The reference -/

/-- All lists of one join from every list.  The choice from the last list
changes slowest. -/
def product : List (List Join) → List (List Join)
  | [] => [[]]
  | joins :: others => (product others).flatMap fun chain => joins.map (· :: chain)

/-- Every trip is boarded before it is left, where the first one is boarded at
`board` and the last one is left at `last`. -/
def InOrder (last : Nat) : Nat → List Join → Prop
  | board, [] => board < last
  | board, join :: chain => board < join.alight ∧ InOrder last join.board chain

instance decidableInOrder (last : Nat) :
    (board : Nat) → (chain : List Join) → Decidable (InOrder last board chain)
  | board, [] => inferInstanceAs (Decidable (board < last))
  | board, join :: chain =>
    have := decidableInOrder last join.board chain
    inferInstanceAs (Decidable (board < join.alight ∧ InOrder last join.board chain))

theorem InOrder.mono {last board earlier : Nat} {chain : List Join}
    (h : InOrder last board chain) (hle : earlier ≤ board) : InOrder last earlier chain := by
  cases chain with
  | nil =>
    have hlast : board < last := h
    show earlier < last
    omega
  | cons join chain =>
    have halight := h.1
    exact ⟨by omega, h.2⟩

/-! ## Lists -/

/-- Entries that make nothing can be left out. -/
theorem flatMap_filter_of_nil {α β : Type} {p : α → Bool} {f : α → List β} {xs : List α}
    (hnil : ∀ x ∈ xs, p x = false → f x = []) : (xs.filter p).flatMap f = xs.flatMap f := by
  induction xs with
  | nil => rfl
  | cons x xs ih =>
    have htail := ih fun y hy => hnil y (List.mem_cons_of_mem x hy)
    by_cases hx : p x = true
    · rw [List.filter_cons_of_pos hx, List.flatMap_cons, List.flatMap_cons, htail]
    · have hfx := hnil x List.mem_cons_self (Bool.eq_false_iff.mpr hx)
      rw [List.filter_cons_of_neg hx, List.flatMap_cons, hfx, htail, List.nil_append]

theorem mem_product {lists : List (List Join)} {chain : List Join} :
    chain ∈ product lists ↔ List.Forall₂ (fun join joins => join ∈ joins) chain lists := by
  induction lists generalizing chain with
  | nil => simp [product, List.forall₂_nil_right_iff]
  | cons joins others ih =>
    rw [product, List.mem_flatMap, List.forall₂_cons_right_iff]
    constructor
    · intro h
      rcases h with ⟨rest, hrest, hchain⟩
      obtain ⟨join, hjoin, rfl⟩ := List.mem_map.mp hchain
      exact ⟨join, rest, hjoin, ih.mp hrest, rfl⟩
    · intro h
      rcases h with ⟨join, rest, hjoin, hrest, rfl⟩
      exact ⟨rest, ih.mpr hrest, List.mem_map.mpr ⟨join, hjoin, rfl⟩⟩

/-- Fewer joins make fewer chains, in the same order. -/
theorem product_sublist {few all : List (List Join)} (h : List.Forall₂ List.Sublist few all) :
    (product few).Sublist (product all) := by
  induction h with
  | nil => exact List.Sublist.refl _
  | @cons joins more few all hhead _ ih =>
    have hjoins : ((product few).flatMap fun chain => joins.map (· :: chain)).Sublist
        ((product few).flatMap fun chain => more.map (· :: chain)) :=
      List.Sublist.flatMap_right _ fun chain _ => hhead.map _
    exact hjoins.trans (ih.flatMap _)

/-- The chains in order of a product, by their first joins. -/
theorem filter_product_cons (last board : Nat) (joins : List Join) (others : List (List Join)) :
    (product (joins :: others)).filter (InOrder last board ·) =
      (product others).flatMap fun chain =>
        (joins.filter fun join =>
          board < join.alight ∧ InOrder last join.board chain).map (· :: chain) := by
  rw [product, List.filter_flatMap]
  refine List.flatMap_congr fun chain _ => ?_
  rw [List.filter_map]
  rfl

/-! ## Skipping joins behind which a trip is left too early -/

/-- Every trip behind the first one is boarded before it is left. -/
def Linked (last : Nat) : List Join → Prop
  | [] => True
  | join :: chain => join.board < alightBefore last chain ∧ Linked last chain

theorem inOrder_iff {last board : Nat} {chain : List Join} :
    InOrder last board chain ↔ board < alightBefore last chain ∧ Linked last chain := by
  induction chain generalizing board with
  | nil => simp [InOrder, alightBefore, Linked]
  | cons join chain ih => rw [InOrder, ih, alightBefore, Linked]

/-- The chains that are made backwards are those of the product that are in
order. -/
theorem filter_chains_eq (last board : Nat) (lists : List (List Join)) :
    (chains last lists).filter (board < alightBefore last ·) =
      (product lists).filter (InOrder last board ·) := by
  induction lists generalizing board with
  | nil => rfl
  | cons joins others ih =>
    rw [chains, List.filter_flatMap, filter_product_cons]
    -- A chain that is not in order behind any join makes nothing on the right.
    have hnil : ∀ chain ∈ product others, decide (InOrder last 0 chain) = false →
        (joins.filter fun join =>
          board < join.alight ∧ InOrder last join.board chain).map (· :: chain) = [] := by
      intro chain _ hout
      rw [List.map_eq_nil_iff, List.filter_eq_nil_iff]
      intro join _ hin
      have hin := (of_decide_eq_true hin).2
      exact of_decide_eq_false hout (hin.mono (Nat.zero_le _))
    -- On the left such a chain is left at position zero, where nothing is boarded before.
    have hnil' : ∀ chain ∈ chains last others, decide (0 < alightBefore last chain) = false →
        ((joins.filter (·.board < alightBefore last chain)).map (· :: chain)).filter
          (board < alightBefore last ·) = [] := by
      intro chain _ hout
      have hzero := of_decide_eq_false hout
      have hnone : joins.filter (·.board < alightBefore last chain) = [] := by
        rw [List.filter_eq_nil_iff]
        intro join _ hlt
        have hlt := of_decide_eq_true hlt
        omega
      rw [hnone]
      rfl
    rw [← flatMap_filter_of_nil hnil, ← flatMap_filter_of_nil hnil', ih]
    refine List.flatMap_congr fun chain hchain => ?_
    have hlinked := (inOrder_iff.mp (of_decide_eq_true (List.mem_filter.mp hchain).2)).2
    rw [List.filter_map, List.filter_filter]
    congr 1
    refine List.filter_congr fun join _ => ?_
    show (decide (board < join.alight) && decide (join.board < alightBefore last chain)) = _
    rw [← Bool.decide_and, decide_eq_decide, inOrder_iff]
    constructor
    · intro h
      exact ⟨h.1, h.2, hlinked⟩
    · intro h
      exact ⟨h.1, h.2.1⟩

/-! ## Searching behind later positions only -/

/-- Of every list only the joins are kept that leave a trip behind the
position where its search starts, and the next search starts before any
position where a join that is kept boards. -/
inductive Pruned : Nat → List (List Join) → List (List Join) → Prop where
  | nil {start : Nat} : Pruned start [] []
  /-- The first list is searched behind `start`, and the next one behind `next`. -/
  | cons {start next : Nat} {all : List Join} {free kept : List (List Join)}
      (hnext : ∀ join ∈ all.filter (start < ·.alight), next ≤ join.board)
      (hrest : Pruned next free kept) :
      Pruned start (all :: free) (all.filter (start < ·.alight) :: kept)

/-- No chain in order is lost, if no trip is boarded before its search
starts. -/
theorem Pruned.filter_product {start : Nat} {free kept : List (List Join)}
    (h : Pruned start free kept) (last : Nat) {board : Nat} (hstart : start ≤ board) :
    (product kept).filter (InOrder last board ·) =
      (product free).filter (InOrder last board ·) := by
  induction h generalizing board with
  | nil => rfl
  | @cons start next all free kept hnext hrest ih =>
    rw [filter_product_cons, filter_product_cons]
    -- Both lists of first joins agree where a chain is in order at all.
    have hsame : ∀ chain, (all.filter (start < ·.alight)).filter (fun join =>
          board < join.alight ∧ InOrder last join.board chain) =
        all.filter fun join => board < join.alight ∧ InOrder last join.board chain := by
      intro chain
      rw [List.filter_filter]
      refine List.filter_congr fun join _ => ?_
      rw [← Bool.decide_and, decide_eq_decide]
      constructor
      · intro hboth
        exact hboth.1
      · intro hin
        have halight := hin.1
        exact ⟨hin, by omega⟩
    have hnil : ∀ (lists : List (List Join)), ∀ chain ∈ product lists,
        decide (InOrder last next chain) = false →
          (all.filter fun join =>
            board < join.alight ∧ InOrder last join.board chain).map (· :: chain) = [] := by
      intro lists chain _ hout
      rw [List.map_eq_nil_iff, List.filter_eq_nil_iff]
      intro join hjoin hin
      have hin := of_decide_eq_true hin
      have hkept : join ∈ all.filter (start < ·.alight) :=
        List.mem_filter.mpr ⟨hjoin, decide_eq_true (by omega)⟩
      exact of_decide_eq_false hout (hin.2.mono (hnext join hkept))
    simp only [hsame]
    rw [← flatMap_filter_of_nil (hnil kept), ← flatMap_filter_of_nil (hnil free),
      ih (Nat.le_refl next)]

/-! ## The chains of offers -/

/-- A planner takes the chains in order of the product of its offers. -/
theorem chainsOf_eq_product (itinerary : Itinerary) (offers : List Offer) :
    Planner.chainsOf itinerary offers =
      .ok ((product (offers.map Offer.joins)).filter
        (InOrder itinerary.lastRide.alight itinerary.first.board ·)) := by
  rw [chainsOf_eq, filter_chains_eq]

end TransitTransfers
