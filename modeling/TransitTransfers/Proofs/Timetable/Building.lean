import TransitTransfers.Proofs.Timetable.Atomicity
import TransitTransfers.Proofs.Timetable.Consistency
import TransitTransfers.Proofs.Timetable.Schedules

/-!
# Building in place

A builder that changes in place takes in the same entries as steps that make new
entries of the old ones.

* `Indexes` ties an index to a list: a look-up in the one is a search in the
  other.  `Indexes.push` is the one argument for all four indices, and `Indexed`
  is the invariant of a builder.
* `Mirrors` compares a program with a computation: they end in results that are
  related, or are refused for the same reason.  A look-up `Shows` what a search
  finds, and the program of a step `Follows` the step of the entries.
* `run_follows` is the step lemma, and `run_cases` says what it comes to.  The loop
  over the calls of a trip has its own (`calls_follow`): the draft holds what the
  loop has seen.
* `ofSteps_indexed` is the run, and `refusals_leave_no_trace` says what that means
  for refused steps, and for trips.
-/

namespace TransitTransfers

/-! ## Indices -/

/-- An index gives the number of the first entry that has a key. -/
def Indexes {α κ : Type} [DecidableEq κ] [BEq κ] (indices : List (κ × Nat)) (index : α → Nat)
    (key : α → κ) (entries : List α) : Prop :=
  ∀ k, indices.lookup k = (entries.find? (key · = k)).map index

theorem Indexes.empty {α κ : Type} [DecidableEq κ] [BEq κ] {index : α → Nat} {key : α → κ} :
    Indexes [] index key [] := fun _ => rfl

/-- An entry with a new key is put behind the list and into the index. -/
theorem Indexes.push {α κ : Type} [DecidableEq κ] [BEq κ] [LawfulBEq κ]
    {indices : List (κ × Nat)} {index : α → Nat} {key : α → κ} {entries : List α}
    (h : Indexes indices index key entries) (entry : α)
    (hnew : entries.find? (key · = key entry) = none) :
    Indexes ((key entry, index entry) :: indices) index key (entries ++ [entry]) := by
  intro k
  rw [List.lookup_cons, List.find?_append]
  by_cases hk : k = key entry
  · subst hk
    simp [hnew]
  · have hother : ¬key entry = k := fun hsame => hk hsame.symm
    rw [beq_eq_false_iff_ne.mpr hk]
    simp [hother, h k]

namespace Builder

variable {builder : Builder}

/-- All look-ups in a builder are searches in its lists. -/
structure Indexed (builder : Builder) : Prop where
  stops : Indexes builder.stopIndices Stop.index Stop.id builder.stops
  routes : Indexes builder.routeIndices Route.index Route.id builder.routes
  trips : Indexes builder.tripIndices Trip.index Trip.id builder.trips
  patterns : Indexes builder.patternIndices Pattern.index (fun p => (p.route, p.stops))
    builder.patterns

theorem indexed_empty : empty.Indexed := ⟨.empty, .empty, .empty, .empty⟩

/-! ## Programs and computations -/

/-- A program gives what a computation gives, and changes nothing. -/
def Shows {α : Type} (builder : Builder) (p : Program α) (x : Except Error α) : Prop :=
  p builder = match x with
    | .ok a => .ok a builder
    | .error e => .error e builder

/-- A program comes to an end when a computation does, and then some relation holds
between what the program gives, the builder that it leaves behind and what the
computation gives.  Otherwise both are refused for the same reason, and nothing
has changed. -/
def Mirrors {α β : Type} (builder : Builder) (p : Program α) (x : Except Error β)
    (related : α → Builder → β → Prop) : Prop :=
  match x with
  | .ok b => ∃ a later, p builder = .ok a later ∧ related a later b
  | .error e => p builder = .error e builder

/-- A program gives a result and enters what a step enters, or is refused for the
same reason and changes nothing. -/
def Follows {α : Type} (builder : Builder) (p : Program α) (result : α)
    (x : Except Error Entries) : Prop :=
  builder.Mirrors p x fun a later grown => a = result ∧ later.toEntries = grown ∧ later.Indexed

section Mirroring

variable {α β γ δ : Type} {p : Program α} {f : α → Program γ} {x : Except Error β}
  {related : γ → Builder → δ → Prop}

/-- A program that changes nothing has come to an end. -/
theorem Mirrors.of_ok {a : α} {y : Except Error δ} (hp : p builder = .ok a builder)
    (h : builder.Mirrors (f a) y related) : builder.Mirrors (p >>= f) y related := by
  have hrun : (p >>= f) builder = f a builder := bind_of_ok hp
  unfold Mirrors at h ⊢
  rw [hrun]
  exact h

/-- A program that changes nothing comes first. -/
theorem Mirrors.bind {g : β → Except Error δ} {found : α → β → Prop}
    (hp : builder.Mirrors p x fun a later b => later = builder ∧ found a b)
    (hf : ∀ a b, found a b → builder.Mirrors (f a) (g b) related) :
    builder.Mirrors (p >>= f) (x >>= g) related := by
  cases x with
  | ok b =>
    obtain ⟨a, later, hrun, rfl, hfound⟩ := hp
    exact .of_ok hrun (hf a b hfound)
  | error e => exact bind_of_error hp

theorem Mirrors.check {c : Prop} [Decidable c] (e : Error) {q : Program γ} {y : Except Error δ}
    (h : ¬c → builder.Mirrors q y related) :
    builder.Mirrors (if c then throw e else q) (if c then .error e else y) related := by
  by_cases hc : c
  · rw [if_pos hc, if_pos hc]
    exact rfl
  · rw [if_neg hc, if_neg hc]
    exact h hc

/-- The computation goes on without being refused any more. -/
theorem Mirrors.pure_right {q : Program γ} {g : β → δ} {relatedBefore : γ → Builder → β → Prop}
    (h : builder.Mirrors q x relatedBefore)
    (hg : ∀ c later b, relatedBefore c later b → related c later (g b)) :
    builder.Mirrors q (x >>= fun b => pure (g b)) related := by
  cases x with
  | ok b =>
    obtain ⟨c, later, hrun, hrelated⟩ := h
    exact ⟨c, later, hrun, hg c later b hrelated⟩
  | error e => exact h

/-- The result may be made into another one. -/
theorem Follows.map {a : α} {y : Except Error Entries} (h : builder.Follows p a y) (g : α → γ) :
    builder.Follows (g <$> p) (g a) y := by
  cases y with
  | ok grown =>
    obtain ⟨_, later, hrun, rfl, hentries, hindexed⟩ := h
    exact ⟨_, later, bind_of_ok hrun, rfl, hentries, hindexed⟩
  | error e => exact bind_of_error h

theorem Shows.mirrors {y : Except Error α} (h : builder.Shows p y) :
    builder.Mirrors p y fun a later b => later = builder ∧ a = b := by
  cases y with
  | ok a => exact ⟨a, builder, h, rfl, rfl⟩
  | error e => exact h

/-- A look-up comes first. -/
theorem Shows.bind {y : Except Error α} {g : α → Except Error δ} (hp : builder.Shows p y)
    (hf : ∀ a, builder.Mirrors (f a) (g a) related) :
    builder.Mirrors (p >>= f) (y >>= g) related :=
  hp.mirrors.bind fun a _ hfound => hfound ▸ hf a

/-- One look-up after another. -/
theorem Shows.andThen {y : Except Error α} {g : α → Except Error γ} (hp : builder.Shows p y)
    (hf : ∀ a, builder.Shows (f a) (g a)) : builder.Shows (p >>= f) (y >>= g) := by
  cases y with
  | ok a => exact (bind_of_ok hp).trans (hf a)
  | error e => exact bind_of_error hp

/-- A program behind a check is only run if the check is passed. -/
theorem check_bind {c : Prop} [Decidable c] (e : Error) :
    (if c then throw e else p) >>= f = if c then throw e else p >>= f := by
  split <;> rfl

end Mirroring

/-! ## Look-ups -/

theorem get_eq (builder : Builder) : (get : Program Builder) builder = .ok builder builder := rfl

theorem refuseUsed_of_some {place : Builder → Option Nat} {index : Nat}
    (h : place builder = some index) (id : String) :
    refuseUsed place id builder = .error (.duplicateId id) builder := by
  refine (bind_of_ok (get_eq builder)).trans ?_
  rw [h]
  rfl

theorem refuseUsed_of_none {place : Builder → Option Nat} (h : place builder = none)
    (id : String) : refuseUsed place id builder = .ok ⟨⟩ builder := by
  refine (bind_of_ok (get_eq builder)).trans ?_
  rw [h]
  rfl

theorem standing_shows (builder : Builder) (place : Builder → Option Nat) (missing : Error) :
    builder.Shows (standing place missing) ((place builder).elim (.error missing) .ok) := by
  refine (bind_of_ok (get_eq builder)).trans ?_
  cases place builder <;> rfl

theorem stopIndex_shows (h : builder.Indexed) (id : String) :
    builder.Shows (stopIndex id) (builder.toEntries.stopIndex id) := by
  have hshows := standing_shows builder (·.stopIndices.lookup id) (.unknownStop id)
  rw [h.stops id] at hshows
  unfold Entries.stopIndex Entries.stopById?
  cases hfind : builder.stops.find? (·.id = id) <;> rw [hfind] at hshows <;> exact hshows

theorem routeIndex_shows (h : builder.Indexed) (id : String) :
    builder.Shows (routeIndex id) (builder.toEntries.routeIndex id) := by
  have hshows := standing_shows builder (·.routeIndices.lookup id) (.unknownRoute id)
  rw [h.routes id] at hshows
  unfold Entries.routeIndex Entries.routeById?
  cases hfind : builder.routes.find? (·.id = id) <;> rw [hfind] at hshows <;> exact hshows

theorem tripIndex_shows (h : builder.Indexed) (id : String) :
    builder.Shows (tripIndex id) (builder.toEntries.tripIndex id) := by
  have hshows := standing_shows builder (·.tripIndices.lookup id) (.unknownTrip id)
  rw [h.trips id] at hshows
  unfold Entries.tripIndex Entries.tripById?
  cases hfind : builder.trips.find? (·.id = id) <;> rw [hfind] at hshows <;> exact hshows

/-- An endpoint is found where a search finds it, or is refused for the same
reason. -/
theorem endpoint_shows (h : builder.Indexed) (named : NamedEndpoint) :
    builder.Shows (endpoint named) (builder.toEntries.endpoint named) := by
  cases named with
  | stop stop => exact (stopIndex_shows h stop).andThen fun place => rfl
  | route stop route =>
    refine (stopIndex_shows h stop).andThen fun place => ?_
    exact (routeIndex_shows h route).andThen fun _ => rfl
  | trip stop trip =>
    refine (stopIndex_shows h stop).andThen fun place => ?_
    exact (tripIndex_shows h trip).andThen fun _ => rfl

/-! ## The steps one by one -/

theorem stop_follows (h : builder.Indexed) (id name : String) :
    builder.Follows (stop id name) builder.stops.length
      (builder.toEntries.addStop id name) := by
  have hplace := h.stops id
  unfold Entries.addStop Entries.stopById?
  cases hfind : builder.stops.find? (·.id = id) with
  | some found =>
    rw [hfind] at hplace
    exact bind_of_error (refuseUsed_of_some hplace id)
  | none =>
    rw [hfind] at hplace
    refine ⟨_, _, bind_of_ok (refuseUsed_of_none hplace id), rfl, rfl, ?_⟩
    exact { h with stops := h.stops.push ⟨builder.stops.length, id, name⟩ hfind }

theorem route_follows (h : builder.Indexed) (id : String) (shortName : Option String) :
    builder.Follows (route id shortName) builder.routes.length
      (builder.toEntries.addRoute id shortName) := by
  have hplace := h.routes id
  unfold Entries.addRoute Entries.routeById?
  cases hfind : builder.routes.find? (·.id = id) with
  | some found =>
    rw [hfind] at hplace
    exact bind_of_error (refuseUsed_of_some hplace id)
  | none =>
    rw [hfind] at hplace
    refine ⟨_, _, bind_of_ok (refuseUsed_of_none hplace id), rfl, rfl, ?_⟩
    exact { h with
      routes := h.routes.push ⟨builder.routes.length, id, shortName⟩ hfind }

/-- A draft that has taken in the calls behind another one, which visit some
stops. -/
structure Draft.Takes (draft : Draft) (calls : List PlannedCall) (stops : List Nat)
    (final : Draft) : Prop where
  stops : final.stops = draft.stops ++ stops
  arrivals : final.arrivals = draft.arrivals ++ calls.map (·.arrival)
  departures : final.departures = draft.departures ++ calls.map (·.departure)

theorem Draft.Takes.cons {draft final : Draft} {entered : PlannedCall} {calls : List PlannedCall}
    {stop : Nat} {stops : List Nat} (h : (draft.add stop entered).Takes calls stops final) :
    draft.Takes (entered :: calls) (stop :: stops) final where
  stops := by
    rw [h.stops, add, List.append_assoc, List.singleton_append]
  arrivals := by
    rw [h.arrivals, add, List.append_assoc, List.singleton_append, List.map_cons]
  departures := by
    rw [h.departures, add, List.append_assoc, List.singleton_append, List.map_cons]

/-- The loop over the calls of a trip finds their stops, or is refused where the
search is. -/
theorem calls_follow (h : builder.Indexed) (id : String) (calls : List PlannedCall)
    (draft : Draft) :
    builder.Mirrors (calls.foldlM (call id) draft)
      (builder.toEntries.stopsOfCalls id draft.position draft.left calls)
      fun final later stops => later = builder ∧ draft.Takes calls stops final := by
  -- The rest of the loop starts from another draft, but from the same builder.
  induction calls generalizing draft with
  | nil => exact ⟨draft, builder, rfl, rfl, by simp, by simp, by simp⟩
  | cons entered calls ih =>
    have hcall : call id draft entered = stopIndex entered.stop >>= fun stop =>
        if entered.departure < entered.arrival then
          throw (.badCalls id (.departsEarly draft.position))
        else if draft.left.any (entered.arrival < ·) then
          throw (.badCalls id (.arrivesEarly draft.position))
        else pure (draft.add stop entered) := rfl
    rw [List.foldlM_cons, hcall, bind_assoc, Entries.stopsOfCalls]
    refine (stopIndex_shows h entered.stop).bind fun stop => ?_
    rw [check_bind, check_bind, pure_bind]
    refine .check _ fun _ => .check _ fun _ => ?_
    refine (ih (draft.add stop entered)).pure_right fun final later stops hrelated => ?_
    exact ⟨hrelated.1, hrelated.2.cons⟩

/-- The index of patterns finds what a search finds, and a new pattern goes into
both. -/
theorem pattern_follows (h : builder.Indexed)
    (hpatterns : Register Pattern.index (fun p => (p.route, p.stops)) builder.patterns)
    (route : Nat) (stops : List Nat) :
    ∃ later, pattern route stops builder =
        .ok (builder.toEntries.withPattern route stops).1 later ∧
      later.toEntries = { builder.toEntries with
        patterns := (builder.toEntries.withPattern route stops).2 } ∧ later.Indexed := by
  have hplace := h.patterns (route, stops)
  have hkeys : builder.patterns.find? (fun p => p.route = route && p.stops = stops) =
      builder.patterns.find? (fun p => (p.route, p.stops) = (route, stops)) := by
    simp [Prod.mk.injEq]
  unfold Entries.withPattern
  rw [hkeys]
  cases hfind : builder.patterns.find? (fun p => (p.route, p.stops) = (route, stops)) with
  | some found =>
    rw [hfind] at hplace
    have hentry := entryAt_eq_ok_iff.mpr
      (hpatterns.getElem?_index (List.mem_of_find?_eq_some hfind))
    refine ⟨builder, ?_, rfl, h⟩
    refine (bind_of_ok (get_eq builder)).trans ?_
    rw [hplace]
    refine (bind_of_ok (get_eq builder)).trans ?_
    dsimp only
    rw [hentry]
    rfl
  | none =>
    rw [hfind] at hplace
    let entered : Pattern := ⟨builder.patterns.length, route, stops⟩
    let later : Builder := { builder with
      patternIndices := ((route, stops), entered.index) :: builder.patternIndices
      patterns := builder.patterns ++ [entered] }
    refine ⟨later, ?_, rfl, { h with patterns := h.patterns.push entered hfind }⟩
    refine (bind_of_ok (get_eq builder)).trans ?_
    rw [hplace]
    rfl

/-- Behind the checks, a trip is entered with its pattern. -/
theorem enter_follows (hconsistent : builder.toEntries.Consistent) (h : builder.Indexed)
    {id : String} (hfree : builder.trips.find? (·.id = id) = none) (route : Nat) (draft : Draft) :
    builder.Follows
      (pattern route draft.stops >>= fun entered => enter id route entered draft)
      builder.trips.length
      (.ok { builder.toEntries with
        patterns := (builder.toEntries.withPattern route draft.stops).2
        trips := builder.trips ++ [⟨builder.trips.length, id, route,
          (builder.toEntries.withPattern route draft.stops).1, draft.arrivals,
          draft.departures⟩] }) := by
  obtain ⟨later, hpattern, hentries, hlater⟩ :=
    pattern_follows h hconsistent.patterns route draft.stops
  have htrips : later.trips = builder.trips := by
    rw [hentries]
  let entered : Trip := ⟨later.trips.length, id, route,
    (builder.toEntries.withPattern route draft.stops).1, draft.arrivals, draft.departures⟩
  refine ⟨entered.index, _, bind_of_ok hpattern, congrArg List.length htrips, ?_, ?_⟩
  · show { later.toEntries with trips := later.trips ++ [entered] } = _
    simp only [entered, hentries]
  · rw [← htrips] at hfree
    exact { hlater with trips := hlater.trips.push entered hfree }

theorem trip_follows (hconsistent : builder.toEntries.Consistent) (h : builder.Indexed)
    (id route : String) (calls : List PlannedCall) :
    builder.Follows (trip id route calls) builder.trips.length
      (builder.toEntries.addTrip id route calls) := by
  have hplace := h.trips id
  unfold Entries.addTrip Entries.tripById?
  cases hfind : builder.trips.find? (·.id = id) with
  | some found =>
    rw [hfind] at hplace
    exact bind_of_error (refuseUsed_of_some hplace id)
  | none =>
    rw [hfind] at hplace
    refine .of_ok (refuseUsed_of_none hplace id) ?_
    refine (routeIndex_shows h route).bind fun index => ?_
    refine .check _ fun _ => ?_
    refine (calls_follow h id calls .empty).bind fun draft stops htakes => ?_
    have hvisits : draft.stops = stops := htakes.stops
    have harrivals : draft.arrivals = calls.map (·.arrival) := htakes.arrivals
    have hdepartures : draft.departures = calls.map (·.departure) := htakes.departures
    rw [← hvisits, ← harrivals, ← hdepartures]
    exact enter_follows hconsistent h hfind index draft

theorem footpath_follows (h : builder.Indexed) (origin destination : String)
    (duration : Duration) :
    builder.Follows (footpath origin destination duration) ⟨⟩
      (builder.toEntries.addFootpath origin destination duration) := by
  refine (stopIndex_shows h origin).bind fun start => ?_
  refine (stopIndex_shows h destination).bind fun finish => ?_
  exact ⟨⟨⟩, _, rfl, rfl, rfl, { h with }⟩

/-- The number that a step hands out, if it does. -/
def nextNumber (builder : Builder) : Timetable.Step → Option Nat
  | .stop _ _ => some builder.stops.length
  | .route _ _ => some builder.routes.length
  | .trip _ _ _ => some builder.trips.length
  | .footpath _ _ _ => none
  | .rule _ => none

/-- Every step enters what it is to enter and hands out the next number, or is
refused for the same reason. -/
theorem run_follows (hconsistent : builder.toEntries.Consistent) (h : builder.Indexed)
    (step : Timetable.Step) :
    builder.Follows (run step) (builder.nextNumber step) (builder.toEntries.apply step) := by
  cases step with
  | stop id name => exact (stop_follows h id name).map some
  | route id shortName => exact (route_follows h id shortName).map some
  | trip id route calls => exact (trip_follows hconsistent h id route calls).map some
  | footpath origin destination duration =>
    exact (footpath_follows h origin destination duration).map fun _ => none
  | rule entered => exact ⟨none, _, rfl, rfl, rfl, { h with }⟩

/-! ## Runs -/

/-- What a step comes to, as long as all data fit together. -/
theorem run_cases (hconsistent : builder.toEntries.Consistent) (h : builder.Indexed)
    (step : Timetable.Step) :
    (∃ later, run step builder = .ok (builder.nextNumber step) later ∧
        builder.toEntries.apply step = .ok later.toEntries ∧
          later.Indexed ∧ later.toEntries.Consistent) ∨
      ∃ e, run step builder = .error e builder ∧ builder.toEntries.apply step = .error e := by
  have hfollows := run_follows hconsistent h step
  cases happly : builder.toEntries.apply step with
  | ok grown =>
    rw [happly] at hfollows
    obtain ⟨number, later, hrun, rfl, rfl, hindexed⟩ := hfollows
    exact Or.inl ⟨later, hrun, rfl, hindexed, hconsistent.apply happly⟩
  | error e =>
    rw [happly] at hfollows
    exact Or.inr ⟨e, hfollows, rfl⟩

theorem ofSteps_append (steps more : List Timetable.Step) :
    ofSteps (steps ++ more) = more.foldl after (ofSteps steps) := by
  rw [ofSteps, List.foldl_append]
  rfl

/-- Building in place enters the same, and the indices always fit. -/
theorem ofSteps_indexed (steps : List Timetable.Step) :
    (ofSteps steps).Indexed ∧ (ofSteps steps).toEntries = Entries.ofSteps steps := by
  induction steps using List.reverseRecOn with
  | nil => exact ⟨indexed_empty, rfl⟩
  | append_singleton steps step ih =>
    obtain ⟨hindexed, hentries⟩ := ih
    have hgrown : Entries.ofSteps (steps ++ [step]) = (Entries.ofSteps steps).advance step := by
      rw [Entries.ofSteps, List.foldl_append]
      rfl
    have hconsistent := (Entries.consistent_and_records steps).1
    rw [← hentries] at hconsistent
    rw [ofSteps_append, hgrown, ← hentries, List.foldl_cons, List.foldl_nil, after,
      Entries.advance]
    rcases run_cases hconsistent hindexed step with ⟨later, hrun, happly, hindexed', -⟩ |
      ⟨e, hrun, happly⟩
    · rw [hrun, happly]
      exact ⟨hindexed', rfl⟩
    · rw [hrun, happly]
      exact ⟨hindexed, rfl⟩

theorem ofSteps_consistent (steps : List Timetable.Step) :
    (ofSteps steps).toEntries.Consistent := by
  rw [(ofSteps_indexed steps).2]
  exact (Entries.consistent_and_records steps).1

/-- The same steps succeed. -/
theorem succeeding_eq_accepted (hconsistent : builder.toEntries.Consistent)
    (h : builder.Indexed) (steps : List Timetable.Step) :
    builder.succeeding steps = builder.toEntries.accepted steps := by
  induction steps generalizing builder with
  | nil => rfl
  | cons step steps ih =>
    rw [succeeding, Entries.accepted]
    rcases run_cases hconsistent h step with ⟨later, hrun, happly, hindexed, hconsistent'⟩ |
      ⟨e, hrun, happly⟩
    · rw [hrun, happly]
      exact congrArg (step :: ·) (ih hconsistent' hindexed)
    · rw [hrun, happly]
      exact ih hconsistent h

/-- Whatever steps a builder has taken, a step that is refused leaves all of it
as it was, looking up an endpoint changes nothing at all, and the steps that
succeed build the same by themselves.  A trip is accepted exactly if it is legal,
and otherwise it is refused for the first objection to it. -/
theorem refusals_leave_no_trace (steps : List Timetable.Step) :
    (∀ step e later, run step (ofSteps steps) = .error e later → later = ofSteps steps) ∧
      (∀ named, (ofSteps steps).Shows (endpoint named) ((ofSteps steps).toEntries.endpoint named)) ∧
      ofSteps (empty.succeeding steps) = ofSteps steps ∧
      (ofSteps steps).toEntries = Entries.ofSteps steps ∧
      ∀ id route calls,
        ((∃ number later, trip id route calls (ofSteps steps) = .ok number later) ↔
          (ofSteps steps).toEntries.Legal id route calls) ∧
        ∀ e, (∃ later, trip id route calls (ofSteps steps) = .error e later) ↔
          ((ofSteps steps).toEntries.objections id route calls).head? = some e := by
  obtain ⟨hindexed, hentries⟩ := ofSteps_indexed steps
  have hconsistent := ofSteps_consistent steps
  refine ⟨fun step => run_atomic step _, endpoint_shows hindexed, ofSteps_succeeding steps,
    hentries, fun id route calls => ?_⟩
  have hrefuses := (ofSteps steps).toEntries.addTrip_refuses id route calls
  have hfollows := trip_follows hconsistent hindexed id route calls
  rw [← Entries.objections_eq_nil_iff, ← hrefuses.exists_ok_iff]
  simp only [← hrefuses.eq_error_iff]
  cases hadd : (ofSteps steps).toEntries.addTrip id route calls with
  | ok grown =>
    rw [hadd] at hfollows
    obtain ⟨number, later, hrun, -⟩ := hfollows
    simp [hrun]
  | error e =>
    rw [hadd] at hfollows
    have hrun : trip id route calls (ofSteps steps) = .error e (ofSteps steps) := hfollows
    simp [hrun]

end Builder

end TransitTransfers
