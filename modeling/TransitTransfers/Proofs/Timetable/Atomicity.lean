import TransitTransfers.Timetable.Builder

/-!
# Refused steps leave no trace

A builder is changed in place, write by write, and no write is ever taken back.
Yet a step that is refused leaves everything as it was, because every program
for a step first reads and checks, and then writes without checking any more.

* `Reads p` says that `p` changes nothing, `Total p` that `p` is never refused,
  and `Atomic p` that `p` leaves no trace when it is refused.
* Reading before an atomic program is atomic (`Reads.bind_atomic`), and so is a
  program behind which nothing is refused (`Atomic.bind_total`).
* `run_atomic` follows the programs for all steps, and `ofSteps_succeeding` a
  whole run: the refused steps of a run may as well be left out.
-/

namespace TransitTransfers

/-! ## Programs that change a state in place -/

section Programs

variable {ε σ α β : Type} {p : EStateM ε σ α} {f : α → EStateM ε σ β}

/-- Whatever the program does, the state stays as it is. -/
def Reads (p : EStateM ε σ α) : Prop :=
  ∀ s, (∃ a, p s = .ok a s) ∨ ∃ e, p s = .error e s

/-- The program never stops with an error. -/
def Total (p : EStateM ε σ α) : Prop := ∀ s, ∃ a later, p s = .ok a later

/-- When the program stops with an error, the state is as it was before. -/
def Atomic (p : EStateM ε σ α) : Prop := ∀ s e later, p s = .error e later → later = s

theorem bind_of_ok {s later : σ} {a : α} (h : p s = .ok a later) : (p >>= f) s = f a later := by
  show EStateM.bind p f s = f a later
  rw [EStateM.bind, h]

theorem bind_of_error {s later : σ} {e : ε} (h : p s = .error e later) :
    (p >>= f) s = .error e later := by
  show EStateM.bind p f s = .error e later
  rw [EStateM.bind, h]

theorem Reads.pure (a : α) : Reads (pure a : EStateM ε σ α) := fun _ => Or.inl ⟨a, rfl⟩

theorem Reads.throw (e : ε) : Reads (throw e : EStateM ε σ α) := fun _ => Or.inr ⟨e, rfl⟩

theorem Reads.get : Reads (get : EStateM ε σ σ) := fun s => Or.inl ⟨s, rfl⟩

theorem Reads.bind (hp : Reads p) (hf : ∀ a, Reads (f a)) : Reads (p >>= f) := by
  intro s
  rcases hp s with ⟨a, ha⟩ | ⟨e, he⟩
  · rw [bind_of_ok ha]
    exact hf a s
  · exact Or.inr ⟨e, bind_of_error he⟩

theorem Reads.foldlM {g : β → α → EStateM ε σ β} (hg : ∀ b a, Reads (g b a)) (b : β)
    (xs : List α) : Reads (xs.foldlM g b) := by
  induction xs generalizing b with
  | nil => exact .pure b
  | cons x xs ih =>
    rw [List.foldlM_cons]
    exact (hg b x).bind ih

theorem Total.pure (a : α) : Total (pure a : EStateM ε σ α) := fun s => ⟨a, s, rfl⟩

theorem Total.get : Total (get : EStateM ε σ σ) := fun s => ⟨s, s, rfl⟩

theorem Total.modify (g : σ → σ) : Total (modify g : EStateM ε σ PUnit) :=
  fun s => ⟨⟨⟩, g s, rfl⟩

theorem Total.bind (hp : Total p) (hf : ∀ a, Total (f a)) : Total (p >>= f) := by
  intro s
  obtain ⟨a, later, ha⟩ := hp s
  rw [bind_of_ok ha]
  exact hf a later

theorem Reads.atomic (hp : Reads p) : Atomic p := by
  intro s e later h
  rcases hp s with ⟨a, ha⟩ | ⟨e', he⟩
  · rw [ha] at h
    cases h
  · rw [he] at h
    cases h
    rfl

theorem Total.atomic (hp : Total p) : Atomic p := by
  intro s e later h
  obtain ⟨a, later', ha⟩ := hp s
  rw [ha] at h
  cases h

/-- Nothing has happened yet when the second program begins. -/
theorem Reads.bind_atomic (hp : Reads p) (hf : ∀ a, Atomic (f a)) : Atomic (p >>= f) := by
  intro s e later h
  rcases hp s with ⟨a, ha⟩ | ⟨e', he⟩
  · rw [bind_of_ok ha] at h
    exact hf a s e later h
  · rw [bind_of_error he] at h
    cases h
    rfl

/-- Nothing can be refused any more when the second program begins. -/
theorem Atomic.bind_total (hp : Atomic p) (hf : ∀ a, Total (f a)) : Atomic (p >>= f) := by
  intro s e later h
  cases hrun : p s with
  | ok a middle =>
    rw [bind_of_ok hrun] at h
    obtain ⟨b, later', hb⟩ := hf a middle
    rw [hb] at h
    cases h
  | error e' middle =>
    rw [bind_of_error hrun] at h
    cases h
    exact hp s _ _ hrun

end Programs

namespace Builder

/-! ## The programs of the steps -/

theorem standing_reads (place : Builder → Option Nat) (missing : Error) :
    Reads (standing place missing) := by
  refine Reads.get.bind fun builder => ?_
  cases place builder with
  | none => exact .throw missing
  | some index => exact .pure index

theorem refuseUsed_reads (place : Builder → Option Nat) (id : String) :
    Reads (refuseUsed place id) := by
  refine Reads.get.bind fun builder => ?_
  split
  · exact .throw _
  · exact .pure _

theorem call_reads (trip : String) (draft : Draft) (entered : PlannedCall) :
    Reads (call trip draft entered) := by
  refine (standing_reads _ _).bind fun stop => ?_
  dsimp only
  split
  · exact .throw _
  · split
    · exact .throw _
    · exact .pure _

theorem append_total (length : Builder → Nat) (note put : Nat → Builder → Builder) :
    Total (append length note put) :=
  Total.get.bind fun _ => (Total.modify _).bind fun _ => (Total.modify _).bind fun _ => .pure _

theorem stop_atomic (id name : String) : Atomic (stop id name) :=
  (refuseUsed_reads _ id).bind_atomic fun _ => (append_total _ _ _).atomic

theorem route_atomic (id : String) (shortName : Option String) : Atomic (route id shortName) :=
  (refuseUsed_reads _ id).bind_atomic fun _ => (append_total _ _ _).atomic

/-- Looking a pattern up may fail, and entering one writes twice, but not
both. -/
theorem pattern_atomic (route : Nat) (stops : List Nat) : Atomic (pattern route stops) := by
  refine Reads.get.bind_atomic fun builder => ?_
  split
  · refine Reads.get.bind_atomic fun builder => Reads.atomic ?_
    split
    · exact .pure _
    · exact .throw _
  · exact ((append_total _ _ _).bind fun index => .pure _).atomic

theorem trip_atomic (id route : String) (calls : List PlannedCall) :
    Atomic (trip id route calls) := by
  refine (refuseUsed_reads _ id).bind_atomic fun _ => ?_
  refine (standing_reads _ _).bind_atomic fun route => ?_
  dsimp only
  split
  · exact (Reads.throw _).atomic
  · refine (Reads.foldlM (call_reads id) .empty calls).bind_atomic fun draft => ?_
    exact (pattern_atomic route draft.stops).bind_total fun entered => append_total _ _ _

theorem footpath_atomic (origin destination : String) (duration : Duration) :
    Atomic (footpath origin destination duration) := by
  refine (standing_reads _ _).bind_atomic fun start => ?_
  exact (standing_reads _ _).bind_atomic fun finish => (Total.modify _).atomic

/-- A step that is refused leaves the builder as it was, whatever its state. -/
theorem run_atomic (step : Timetable.Step) : Atomic (run step) := by
  cases step with
  | stop id name => exact (stop_atomic id name).bind_total fun index => .pure (some index)
  | route id shortName =>
    exact (route_atomic id shortName).bind_total fun index => .pure (some index)
  | trip id route calls =>
    exact (trip_atomic id route calls).bind_total fun index => .pure (some index)
  | footpath origin destination duration =>
    exact (footpath_atomic origin destination duration).bind_total fun _ => .pure none
  | rule entered => exact ((Total.modify _).bind fun _ => .pure none).atomic

/-! ## Runs -/

/-- The steps that succeed make the same builder by themselves. -/
theorem foldl_succeeding (builder : Builder) (steps : List Timetable.Step) :
    (builder.succeeding steps).foldl after builder = steps.foldl after builder := by
  induction steps generalizing builder with
  | nil => rfl
  | cons step steps ih =>
    rw [List.foldl_cons, succeeding]
    cases hrun : run step builder with
    | ok index later =>
      have hafter : builder.after step = later := by
        rw [after, hrun]
      rw [List.foldl_cons, hafter]
      exact ih later
    | error e later =>
      have hafter : builder.after step = later := by
        rw [after, hrun]
      obtain rfl := run_atomic step builder e later hrun
      rw [hafter]
      exact ih later

theorem ofSteps_succeeding (steps : List Timetable.Step) :
    ofSteps (empty.succeeding steps) = ofSteps steps :=
  foldl_succeeding empty steps

end Builder

end TransitTransfers
