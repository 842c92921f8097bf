import Mathlib.Data.List.Forall2
import TransitTransfers.Fault

/-!
# Computations that may stop

A chain of computations in `Except` succeeds exactly if every link of it does.
`bind_eq_ok_iff` and `mapM_eq_ok_iff` take such a chain apart, and later
proofs read what a computation did from these two lemmas.

`Yields x P` is the other direction, for computations that may stop with a
`Fault`.  It says that `x` has a value with the property `P`, or stops because
a sum does not fit its word.  So a computation that yields something never
looks past the end of a list and never subtracts too much.  The rules for
`Yields` follow the shape of a `do` block: one for each step
(`Yields.bind`), one for a traversal (`Yields.mapM`), and
`Yields.ok_of_ne` at the end, when the sums are known to fit.

`StopsOnly x P` says what may stop `x` and nothing about its value, and its
rules have the same shape.  `OnlyOverflows x` is the case that whatever stops
`x` is a number that does not fit its word.

`Agrees R x y` compares two computations.  Their values are related by `R`, or
they stop for the same reason; nothing is claimed where a number does not fit
its word in one of them.  The rules have the same shape again, so two runs of
one `do` block agree step by step.

`Refuses x objections` says exactly when `x` stops and with what: it stops for
the first of some objections, and has a value if there are none.  The rules
write down the objections in the order of the `do` block.
-/

namespace TransitTransfers

/-! ## Computations that succeed -/

theorem bind_eq_ok_iff {ε α β : Type} {x : Except ε α} {f : α → Except ε β} {b : β} :
    x >>= f = .ok b ↔ ∃ a, x = .ok a ∧ f a = .ok b := by
  cases x <;> simp [bind, Except.bind]

theorem exists_ok_of_toBool {ε α : Type} {x : Except ε α} (h : x.toBool = true) :
    ∃ a, x = .ok a := by
  cases x with
  | error e => cases h
  | ok a => exact ⟨a, rfl⟩

theorem pure_eq_ok_iff {ε α : Type} {a b : α} : (pure a : Except ε α) = .ok b ↔ a = b := by
  simp [pure, Except.pure]

theorem map_eq_ok_iff {ε α β : Type} {x : Except ε α} {f : α → β} {b : β} :
    x.map f = .ok b ↔ ∃ a, x = .ok a ∧ f a = b := by
  cases x <;> simp [Except.map]

/-- A traversal succeeds exactly if it succeeds at every entry. -/
theorem mapM_eq_ok_iff {ε α β : Type} {f : α → Except ε β} {xs : List α} {ys : List β} :
    xs.mapM f = .ok ys ↔ List.Forall₂ (fun x y => f x = .ok y) xs ys := by
  induction xs generalizing ys with
  | nil => rw [List.mapM_nil, pure_eq_ok_iff, List.forall₂_nil_left_iff, eq_comm]
  | cons x xs ih =>
    rw [List.mapM_cons, bind_eq_ok_iff, List.forall₂_cons_left_iff]
    constructor
    · intro h
      rcases h with ⟨y, hy, h⟩
      obtain ⟨zs, hzs, h⟩ := bind_eq_ok_iff.mp h
      exact ⟨y, zs, hy, ih.mp hzs, (pure_eq_ok_iff.mp h).symm⟩
    · intro h
      rcases h with ⟨y, zs, hy, hzs, rfl⟩
      exact ⟨y, hy, bind_eq_ok_iff.mpr ⟨zs, ih.mpr hzs, rfl⟩⟩

/-- Traversals agree if they agree entry by entry. -/
theorem mapM_congr {ε α β γ : Type} {f : α → Except ε γ} {g : β → Except ε γ} {xs : List α}
    {ys : List β} (h : List.Forall₂ (fun x y => f x = g y) xs ys) : xs.mapM f = ys.mapM g := by
  induction h with
  | nil => rfl
  | cons hhead _ ih => rw [List.mapM_cons, List.mapM_cons, hhead, ih]

/-- A fold that first works something out of each entry is a fold over what was
worked out. -/
theorem foldlM_of_mapM {ε α β γ : Type} {f : α → Except ε γ} {g : β → γ → Except ε β}
    {xs : List α} {ys : List γ} (h : xs.mapM f = .ok ys) (b : β) :
    xs.foldlM (fun total x => f x >>= g total) b = ys.foldlM g b := by
  rw [mapM_eq_ok_iff] at h
  induction h generalizing b with
  | nil => rfl
  | cons hhead _ ih =>
    rw [List.foldlM_cons, List.foldlM_cons, hhead]
    exact congrArg (bind (g b _)) (funext ih)

theorem exists_mapM {ε α β : Type} {f : α → Except ε β} {xs : List α}
    (hf : ∀ x ∈ xs, ∃ y, f x = .ok y) : ∃ ys, xs.mapM f = .ok ys := by
  induction xs with
  | nil => exact ⟨[], rfl⟩
  | cons x xs ih =>
    obtain ⟨y, hy⟩ := hf x List.mem_cons_self
    obtain ⟨ys, hys⟩ := ih fun other hother => hf other (List.mem_cons_of_mem x hother)
    exact ⟨y :: ys, mapM_eq_ok_iff.mpr (.cons hy (mapM_eq_ok_iff.mp hys))⟩

/-- Whatever a traversal yields comes from one of the entries. -/
theorem exists_mem_of_forall₂ {α β : Type*} {R : α → β → Prop} {xs : List α} {ys : List β}
    (h : List.Forall₂ R xs ys) {y : β} (hy : y ∈ ys) : ∃ x ∈ xs, R x y := by
  induction h with
  | nil => cases hy
  | cons hhead _ ih =>
    rcases List.mem_cons.mp hy with rfl | htail
    · exact ⟨_, List.mem_cons_self, hhead⟩
    · obtain ⟨x, hx, hxy⟩ := ih htail
      exact ⟨x, List.mem_cons_of_mem _ hx, hxy⟩

/-- Whatever is somewhere in a list of partners has its partner at the same
place. -/
theorem exists_getElem?_of_forall₂ {α β : Type} {R : α → β → Prop} {xs : List α} {ys : List β}
    (h : List.Forall₂ R xs ys) {k : Nat} {y : β} (hy : ys[k]? = some y) :
    ∃ x, xs[k]? = some x ∧ R x y := by
  induction h generalizing k with
  | nil => cases hy
  | @cons x _ _ _ hhead _ ih =>
    cases k with
    | zero =>
      obtain rfl := Option.some.inj hy
      exact ⟨x, rfl, hhead⟩
    | succ k => exact ih hy

/-- Of two lists in pairs both are empty, or neither is. -/
theorem forall₂_nil_iff {α β : Type} {R : α → β → Prop} {xs : List α} {ys : List β}
    (h : List.Forall₂ R xs ys) : xs = [] ↔ ys = [] := by
  cases h <;> simp

/-- What holds pair by pair may use that the first entry is one of the list. -/
theorem forall₂_imp_of_mem {α β : Type} {R S : α → β → Prop} {xs : List α} {ys : List β}
    (h : List.Forall₂ R xs ys) (hRS : ∀ x ∈ xs, ∀ y, R x y → S x y) : List.Forall₂ S xs ys := by
  induction h with
  | nil => exact .nil
  | cons hhead _ ih =>
    exact .cons (hRS _ List.mem_cons_self _ hhead)
      (ih fun x hx => hRS x (List.mem_cons_of_mem _ hx))

/-- Pairs with a common partner are paired themselves. -/
theorem forall₂_comp {α β γ : Type} {R : α → β → Prop} {S : β → γ → Prop} {T : α → γ → Prop}
    {xs : List α} {ys : List β} {zs : List γ} (hR : List.Forall₂ R xs ys)
    (hS : List.Forall₂ S ys zs) (hT : ∀ x y z, R x y → S y z → T x z) :
    List.Forall₂ T xs zs := by
  induction hR generalizing zs with
  | nil =>
    cases hS
    exact .nil
  | cons hxy _ ih =>
    cases hS with
    | cons hyz hS => exact .cons (hT _ _ _ hxy hyz) (ih hS)

/-- Partners that are made from something are made from a list of it. -/
theorem forall₂_exists_map {α β γ : Type} {R : α → γ → Prop} {f : γ → β} {xs : List α}
    {ys : List β} (h : List.Forall₂ (fun x y => ∃ z, R x z ∧ y = f z) xs ys) :
    ∃ zs, List.Forall₂ R xs zs ∧ ys = zs.map f := by
  induction h with
  | nil => exact ⟨[], .nil, rfl⟩
  | cons hhead _ ih =>
    obtain ⟨z, hz, rfl⟩ := hhead
    obtain ⟨zs, hzs, rfl⟩ := ih
    exact ⟨z :: zs, .cons hz hzs, rfl⟩

/-- What holds from each entry to the later ones holds for their partners. -/
theorem pairwise_of_forall₂ {α β : Type} {R : α → β → Prop} {P : α → α → Prop}
    {Q : β → β → Prop} (hPQ : ∀ {x x' y y'}, R x y → R x' y' → P x x' → Q y y') {xs : List α}
    {ys : List β} (h : List.Forall₂ R xs ys) (hP : xs.Pairwise P) : ys.Pairwise Q := by
  induction h with
  | nil => exact .nil
  | cons hhead hrest ih =>
    obtain ⟨hlater, hP⟩ := List.pairwise_cons.mp hP
    refine .cons (fun y' hy' => ?_) (ih hP)
    obtain ⟨x', hx', hpartner⟩ := exists_mem_of_forall₂ hrest hy'
    exact hPQ hhead hpartner (hlater x' hx')

/-- Fewer entries have fewer partners, in the same order, where an entry has
but one. -/
theorem sublist_of_forall₂ {α β : Type} {R : α → β → Prop}
    (hunique : ∀ (x : α) (y z : β), R x y → R x z → y = z) {few all : List α}
    (hsub : few.Sublist all) {ys zs : List β} (hfew : List.Forall₂ R few ys)
    (hall : List.Forall₂ R all zs) : ys.Sublist zs := by
  induction hsub generalizing ys zs with
  | slnil =>
    cases hfew
    exact List.nil_sublist zs
  | cons x _ ih =>
    cases hall with
    | cons _ hall => exact (ih hfew hall).cons _
  | cons_cons x _ ih =>
    cases hfew with
    | cons hy hfew =>
      cases hall with
      | cons hz hall =>
        obtain rfl := hunique _ _ _ hy hz
        exact (ih hfew hall).cons_cons _

/-- A traversal of lists yields less for fewer entries, if the entries that
are left out are told from what they yield. -/
theorem mapM_filter {ε α β : Type} {f : α → Except ε (List β)} {p : α → Bool} {q : β → Bool}
    (hpq : ∀ {x : α} {ys : List β}, f x = .ok ys → ∀ y ∈ ys, q y = p x) {xs : List α}
    {yss : List (List β)} (h : xs.mapM f = .ok yss) :
    ∃ zss, (xs.filter p).mapM f = .ok zss ∧ zss.flatten = yss.flatten.filter q := by
  rw [mapM_eq_ok_iff] at h
  induction h with
  | nil => exact ⟨[], rfl, rfl⟩
  | @cons x ys xs yss hx _ ih =>
    rcases ih with ⟨zss, hzss, hflat⟩
    rw [List.flatten_cons, List.filter_append]
    by_cases hp : p x = true
    · have hys : ys.filter q = ys := List.filter_eq_self.mpr fun y hy => (hpq hx y hy).trans hp
      refine ⟨ys :: zss, ?_, by rw [hys, List.flatten_cons, hflat]⟩
      rw [List.filter_cons_of_pos hp, mapM_eq_ok_iff]
      exact .cons hx (mapM_eq_ok_iff.mp hzss)
    · have hys : ys.filter q = [] :=
        List.filter_eq_nil_iff.mpr fun y hy hqy => hp ((hpq hx y hy).symm.trans hqy)
      exact ⟨zss, by rw [List.filter_cons_of_neg hp, hzss], by rw [hys, hflat, List.nil_append]⟩

/-! ## Computations that can stop at a sum only -/

/-- `x` has a value with the property `P`, unless a sum does not fit its
word. -/
def Yields {α : Type} (x : Except Fault α) (P : α → Prop) : Prop :=
  match x with
  | .ok a => P a
  | .error fault => fault = .addition

/-- `x` has a value, unless a sum does not fit its word. -/
abbrev Succeeds {α : Type} (x : Except Fault α) : Prop := Yields x fun _ => True

section Rules

variable {α β : Type} {x : Except Fault α} {P Q : α → Prop}

theorem Yields.of_eq_ok {a : α} (hx : x = .ok a) (ha : P a) : Yields x P := by
  rw [hx]
  exact ha

theorem Succeeds.of_eq_ok {a : α} (hx : x = .ok a) : Succeeds x :=
  Yields.of_eq_ok hx trivial

theorem Yields.mono (hx : Yields x P) (hPQ : ∀ a, P a → Q a) : Yields x Q := by
  cases x with
  | ok a => exact hPQ a hx
  | error fault => exact hx

theorem Yields.succeeds (hx : Yields x P) : Succeeds x := hx.mono fun _ _ => trivial

/-- The property may speak about how the value came about. -/
theorem Yields.with_eq (hx : Yields x P) : Yields x fun a => x = .ok a ∧ P a := by
  cases x with
  | ok a => exact ⟨rfl, hx⟩
  | error fault => exact hx

theorem Yields.bind {f : α → Except Fault β} {R : β → Prop} (hx : Yields x P)
    (hf : ∀ a, P a → Yields (f a) R) : Yields (x >>= f) R := by
  cases x with
  | ok a => exact hf a hx
  | error fault => exact hx

theorem Yields.ok_of_ne (hx : Yields x P) (hne : x ≠ .error .addition) :
    ∃ a, x = .ok a ∧ P a := by
  cases x with
  | ok a => exact ⟨a, rfl, hx⟩
  | error fault =>
    have hfault : fault = .addition := hx
    exact absurd (congrArg Except.error hfault) hne

theorem Yields.mapM {f : α → Except Fault β} {R : α → β → Prop} {xs : List α}
    (hf : ∀ a ∈ xs, Yields (f a) (R a)) :
    Yields (xs.mapM f) fun ys => List.Forall₂ R xs ys := by
  induction xs with
  | nil => exact List.Forall₂.nil
  | cons a xs ih =>
    rw [List.mapM_cons]
    refine (hf a List.mem_cons_self).bind fun b hb => ?_
    refine (ih fun c hc => hf c (List.mem_cons_of_mem a hc)).bind fun bs hbs => ?_
    exact List.Forall₂.cons hb hbs

theorem Succeeds.mapM {f : α → Except Fault β} {xs : List α}
    (hf : ∀ a ∈ xs, Succeeds (f a)) : Succeeds (xs.mapM f) :=
  (Yields.mapM hf).succeeds

end Rules

/-! ## What stops a computation -/

/-- Whatever stops `x` has the property `P`. -/
def StopsOnly {α : Type} (x : Except Fault α) (P : Fault → Prop) : Prop :=
  ∀ fault, x = .error fault → P fault

section Stops

variable {α β : Type} {x : Except Fault α} {P Q : Fault → Prop}

theorem StopsOnly.of_eq_ok {a : α} (hx : x = .ok a) : StopsOnly x P := by
  intro fault hfault
  rw [hx] at hfault
  cases hfault

theorem StopsOnly.pure (a : α) : StopsOnly (pure a : Except Fault α) P := .of_eq_ok rfl

theorem StopsOnly.mono (hx : StopsOnly x P) (hPQ : ∀ fault, P fault → Q fault) :
    StopsOnly x Q :=
  fun fault hfault => hPQ fault (hx fault hfault)

/-- The rest may use how the value came about. -/
theorem StopsOnly.bind {f : α → Except Fault β} (hx : StopsOnly x P)
    (hf : ∀ a, x = .ok a → StopsOnly (f a) P) : StopsOnly (x >>= f) P := by
  cases x with
  | ok a => exact hf a rfl
  | error fault =>
    intro other hother
    cases hother
    exact hx _ rfl

theorem StopsOnly.map (hx : StopsOnly x P) (f : α → β) : StopsOnly (x.map f) P := by
  cases x with
  | ok a => exact .pure (f a)
  | error fault =>
    intro other hother
    cases hother
    exact hx _ rfl

theorem StopsOnly.mapM {f : α → Except Fault β} {xs : List α}
    (hf : ∀ a ∈ xs, StopsOnly (f a) P) : StopsOnly (xs.mapM f) P := by
  induction xs with
  | nil => exact .pure []
  | cons a xs ih =>
    rw [List.mapM_cons]
    refine (hf a List.mem_cons_self).bind fun b _ => ?_
    exact (ih fun c hc => hf c (List.mem_cons_of_mem a hc)).bind fun bs _ => .pure (b :: bs)

theorem StopsOnly.foldlM {f : β → α → Except Fault β} {xs : List α}
    (hf : ∀ b, ∀ a ∈ xs, StopsOnly (f b a) P) (b : β) : StopsOnly (xs.foldlM f b) P := by
  induction xs generalizing b with
  | nil => exact .pure b
  | cons a xs ih =>
    rw [List.foldlM_cons]
    exact (hf b a List.mem_cons_self).bind
      fun c _ => ih (fun d e he => hf d e (List.mem_cons_of_mem a he)) c

theorem Yields.stopsOnly {R : α → Prop} (hx : Yields x R) : StopsOnly x (· = .addition) := by
  intro fault hfault
  rw [hfault] at hx
  exact hx

end Stops

/-! ## Computations that can only overflow -/

/-- A number does not fit its word. -/
def Fault.IsOverflow : Fault → Prop
  | .index _ _ => False
  | _ => True

/-- `x` has a value, unless a number does not fit its word. -/
def OnlyOverflows {α : Type} (x : Except Fault α) : Prop := StopsOnly x Fault.IsOverflow

/-! ## Computations that check -/

/-- `x` has a value if there are no objections, and stops for the first one
otherwise. -/
def Refuses {ε α : Type} (x : Except ε α) (objections : List ε) : Prop :=
  match x with
  | .ok _ => objections = []
  | .error e => objections.head? = some e

section Checks

variable {ε α β : Type} {x : Except ε α} {objections others : List ε}

theorem Refuses.pure (a : α) : Refuses (pure a : Except ε α) [] := rfl

/-- Objections to the rest only count if there are none so far. -/
theorem Refuses.bind {f : α → Except ε β} (hx : Refuses x objections)
    (hf : ∀ a, x = .ok a → Refuses (f a) others) : Refuses (x >>= f) (objections ++ others) := by
  cases x with
  | ok a =>
    have hnone : objections = [] := hx
    rw [hnone, List.nil_append]
    exact hf a rfl
  | error e =>
    have hfirst : objections.head? = some e := hx
    show (objections ++ others).head? = some e
    rw [List.head?_append, hfirst, Option.some_or]

/-- Nothing is objected to the rest. -/
theorem Refuses.bind_nil {f : α → Except ε β} (hx : Refuses x objections)
    (hf : ∀ a, x = .ok a → Refuses (f a) []) : Refuses (x >>= f) objections := by
  have hbind := hx.bind hf
  rw [List.append_nil] at hbind
  exact hbind

theorem Refuses.check {p : Prop} [Decidable p] (e : ε) (hx : ¬p → Refuses x objections) :
    Refuses (if p then .error e else x) ((if p then [e] else []) ++ objections) := by
  by_cases hp : p
  · rw [if_pos hp, if_pos hp]
    exact rfl
  · rw [if_neg hp, if_neg hp, List.nil_append]
    exact hx hp

theorem Refuses.eq_error_iff (h : Refuses x objections) {e : ε} :
    x = .error e ↔ objections.head? = some e := by
  cases x with
  | ok a =>
    have hnone : objections = [] := h
    simp [hnone]
  | error other =>
    have hfirst : objections.head? = some other := h
    simp [hfirst]

theorem Refuses.exists_ok_iff (h : Refuses x objections) :
    (∃ a, x = .ok a) ↔ objections = [] := by
  cases x with
  | ok a =>
    have hnone : objections = [] := h
    simp [hnone]
  | error e =>
    have hfirst : objections.head? = some e := h
    have hsome : objections ≠ [] := by
      rintro rfl
      cases hfirst
    simp [hsome]

end Checks

/-! ## Two computations side by side -/

/-- Two computations have values that are related by `R`, or stop for the same
reason, unless a number does not fit its word in one of them. -/
def Agrees {α β : Type} (R : α → β → Prop) : Except Fault α → Except Fault β → Prop
  | .ok a, .ok b => R a b
  | .ok _, .error fault => fault.IsOverflow
  | .error fault, .ok _ => fault.IsOverflow
  | .error fault, .error other => fault = other ∨ fault.IsOverflow ∨ other.IsOverflow

section SideBySide

variable {α β γ δ : Type} {R : α → β → Prop} {S : γ → δ → Prop} {x : Except Fault α}
  {y : Except Fault β}

theorem Agrees.refl (x : Except Fault α) : Agrees Eq x x := by
  cases x with
  | ok a => exact rfl
  | error fault => exact Or.inl rfl

theorem Agrees.mono {R' : α → β → Prop} (h : Agrees R x y) (hR : ∀ a b, R a b → R' a b) :
    Agrees R' x y := by
  cases x with
  | ok a =>
    cases y with
    | ok b => exact hR a b h
    | error other => exact h
  | error fault => cases y <;> exact h

/-- The values may be used together with how they came about. -/
theorem Agrees.with_eq (h : Agrees R x y) :
    Agrees (fun a b => x = .ok a ∧ y = .ok b ∧ R a b) x y := by
  cases x with
  | ok a =>
    cases y with
    | ok b => exact ⟨rfl, rfl, h⟩
    | error other => exact h
  | error fault => cases y <;> exact h

theorem Agrees.bind {f : α → Except Fault γ} {g : β → Except Fault δ} (h : Agrees R x y)
    (hf : ∀ a b, R a b → Agrees S (f a) (g b)) : Agrees S (x >>= f) (y >>= g) := by
  cases x with
  | ok a =>
    cases y with
    | ok b => exact hf a b h
    | error other =>
      show Agrees S (f a) (.error other)
      cases f a with
      | ok c => exact h
      | error fault => exact Or.inr (Or.inr h)
  | error fault =>
    cases y with
    | ok b =>
      show Agrees S (.error fault) (g b)
      cases g b with
      | ok c => exact h
      | error other => exact Or.inr (Or.inl h)
    | error other => exact h

/-- Both go on from the same value. -/
theorem Agrees.bind_same (x : Except Fault α) {f : α → Except Fault γ} {g : α → Except Fault δ}
    (hf : ∀ a, Agrees S (f a) (g a)) : Agrees S (x >>= f) (x >>= g) := by
  refine (Agrees.refl x).bind fun a b hsame => ?_
  subst hsame
  exact hf a

theorem Agrees.mapM {f : α → Except Fault γ} {g : β → Except Fault δ} {xs : List α} {ys : List β}
    (h : List.Forall₂ R xs ys) (hf : ∀ a b, R a b → Agrees S (f a) (g b)) :
    Agrees (List.Forall₂ S) (xs.mapM f) (ys.mapM g) := by
  induction h with
  | nil => exact List.Forall₂.nil
  | cons hhead _ ih =>
    rw [List.mapM_cons, List.mapM_cons]
    refine (hf _ _ hhead).bind fun c d hcd => ?_
    exact ih.bind fun cs ds hcds => List.Forall₂.cons hcd hcds

/-- Where one computation has a value, the other one has one that is related
to it, or a number does not fit there. -/
theorem Agrees.exists_ok {a : α} (h : Agrees R x y) (hx : x = .ok a)
    (hy : ∀ fault, fault.IsOverflow → y ≠ .error fault) : ∃ b, y = .ok b ∧ R a b := by
  rw [hx] at h
  cases y with
  | ok b => exact ⟨b, rfl, h⟩
  | error fault => exact absurd rfl (hy fault h)

/-- Computations that have a value each are equal, if they agree that the
values are. -/
theorem Agrees.eq_of_exists {z : Except Fault α} (h : Agrees Eq x z) (hx : ∃ a, x = .ok a)
    (hz : ∃ a, z = .ok a) : x = z := by
  obtain ⟨a, rfl⟩ := hx
  obtain ⟨b, rfl⟩ := hz
  rw [show a = b from h]

end SideBySide

end TransitTransfers
