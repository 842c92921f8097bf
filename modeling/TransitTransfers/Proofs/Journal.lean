import TransitTransfers.Journal
import TransitTransfers.Proofs.Computation

/-!
# The outcome of a run, and what a listener gets

Messages are no part of the outcome.  So the outcome of a run is worked out as
if nothing was said: step by step (`Run.outcome_bind_eq_ok_iff`), in a
traversal (`Run.outcome_mapM`), and where a run only speaks
(`Run.outcome_forM`).

A listener also gets the texts of messages, and a text may fault.  A run is
`Run.Audible` to a listener if none does that reaches the listener.  Then what
is observed is the outcome (`Run.observe_of_audible`), and otherwise it is the
fault of a text (`Run.observe_of_not_audible`).  Whether a run is audible is
worked out from its parts, too (`Run.audible_bind_iff` and the lemmas behind
it).

What a listener gets of a run that ends well is the outcome with a log, and
the log of a run is made of the logs of its parts, in their order
(`Run.observe_bind_eq_ok_iff`, `Run.observe_mapM_eq_ok_iff`).

What may end a run for some listener is worked out in the same way:
`Run.FaultsOnly` bounds the faults of the outcome and of all texts, and has a
rule for each way to put runs together.
-/

namespace TransitTransfers

/-! ## Faults as refusals, step by step -/

theorem liftFault_pure {α : Type} (a : α) : liftFault (pure a) = pure a := rfl

theorem liftFault_bind {α β : Type} (x : Except Fault α) (f : α → Except Fault β) :
    liftFault (x >>= f) = liftFault x >>= fun a => liftFault (f a) := by
  cases x <;> rfl

theorem liftFault_mapM {α β : Type} (f : α → Except Fault β) (xs : List α) :
    xs.mapM (fun x => liftFault (f x)) = liftFault (xs.mapM f) := by
  induction xs with
  | nil => rfl
  | cons x xs ih =>
    rw [List.mapM_cons, List.mapM_cons, ih]
    simp only [liftFault_bind, liftFault_pure]

namespace Run

/-! ## The outcome -/

instance : LawfulMonad Run := LawfulMonad.mk' Run
  (by
    intro α run
    rcases run with ⟨messages, outcome⟩
    cases outcome with
    | ok a =>
      show (⟨messages ++ [], .ok a⟩ : Run α) = _
      rw [List.append_nil]
    | error e => rfl)
  (by intro α β a next; rfl)
  (by
    intro α β γ run next after
    rcases run with ⟨messages, outcome⟩
    cases outcome with
    | ok a =>
      show Run.bind ⟨messages ++ (next a).messages, (next a).outcome⟩ after =
        ⟨messages ++ (Run.bind (next a) after).messages, (Run.bind (next a) after).outcome⟩
      unfold Run.bind
      cases (next a).outcome with
      | ok b =>
        dsimp only
        rw [List.append_assoc]
      | error e => rfl
    | error e => rfl)

/-- A run succeeds exactly if both of its parts do. -/
theorem outcome_bind_eq_ok_iff {α β : Type} {run : Run α} {next : α → Run β} {b : β} :
    (run >>= next).outcome = .ok b ↔ ∃ a, run.outcome = .ok a ∧ (next a).outcome = .ok b := by
  rw [outcome_bind]
  exact bind_eq_ok_iff

theorem outcome_mapM {α β : Type} (f : α → Run β) (xs : List α) :
    (xs.mapM f).outcome = xs.mapM fun x => (f x).outcome := by
  induction xs with
  | nil => rfl
  | cons x xs ih =>
    rw [List.mapM_cons, List.mapM_cons, outcome_bind]
    show (f x).outcome.bind _ = (f x).outcome.bind _
    congr 1
    funext y
    rw [outcome_bind, ih]
    rfl

/-- A run that only speaks has no outcome of its own. -/
theorem outcome_forM {α : Type} {f : α → Run PUnit} {xs : List α}
    (hf : ∀ x ∈ xs, (f x).outcome = .ok ()) : (xs.forM f).outcome = .ok () := by
  induction xs with
  | nil => rfl
  | cons x xs ih =>
    show (f x >>= fun _ => xs.forM f).outcome = _
    rw [outcome_bind, hf x List.mem_cons_self]
    exact ih fun y hy => hf y (List.mem_cons_of_mem x hy)

/-! ## Listening -/

/-- Every message that reaches a listener has a text. -/
def Audible {α : Type} (listener : Option Level) (run : Run α) : Prop :=
  ∀ message ∈ run.messages, message.level.reaches listener = true →
    ∃ text, message.text () = .ok text

section Listening

variable {α β : Type} {listener : Option Level} {run : Run α}

/-- A listener who gets all texts gets the outcome with them. -/
theorem observe_of_audible (h : run.Audible listener) :
    ∃ texts, run.observe listener = run.outcome.map fun a => (a, texts) := by
  have htexts : ∃ texts, (run.messages.filter (·.level.reaches listener)).mapM
      (fun message => do
        let text ← liftFault (message.text ())
        return (message.level, text)) = .ok texts := by
    refine exists_mapM fun message hmessage => ?_
    obtain ⟨hmem, hreaches⟩ := List.mem_filter.mp hmessage
    obtain ⟨text, htext⟩ := h message hmem hreaches
    rw [htext]
    exact ⟨_, rfl⟩
  obtain ⟨texts, htexts⟩ := htexts
  refine ⟨texts, ?_⟩
  rw [observe, htexts]
  cases run.outcome <;> rfl

/-- A listener who does not get all texts gets the fault of one of them instead
of the outcome. -/
theorem observe_of_not_audible (h : ¬run.Audible listener) :
    ∃ message ∈ run.messages, ∃ fault, message.text () = .error fault ∧
      run.observe listener = .error (.fault fault) := by
  let heard := run.messages.filter (·.level.reaches listener)
  let entry := fun message : Message => do
    let text ← message.text ()
    return (message.level, text)
  have htexts : heard.mapM (fun message => do
        let text ← liftFault (message.text ())
        return (message.level, text)) = liftFault (heard.mapM entry) := by
    rw [← liftFault_mapM]
    simp only [entry, liftFault_bind, liftFault_pure]
  rw [observe, htexts]
  cases hheard : heard.mapM entry with
  | error fault =>
    have hstops : StopsOnly (heard.mapM entry) fun fault =>
        ∃ message ∈ run.messages, message.text () = .error fault := by
      refine .mapM fun message hmessage => StopsOnly.bind (fun fault htext => ?_) fun _ _ => .pure _
      exact ⟨message, (List.mem_filter.mp hmessage).1, htext⟩
    obtain ⟨message, hmessage, htext⟩ := hstops fault hheard
    exact ⟨message, hmessage, fault, htext, rfl⟩
  | ok texts =>
    refine absurd (fun message hmem hreaches => ?_) h
    obtain ⟨line, -, hline⟩ := exists_mem_of_forall₂ (mapM_eq_ok_iff.mp hheard).flip
      (List.mem_filter.mpr ⟨hmem, hreaches⟩)
    obtain ⟨text, htext, -⟩ := bind_eq_ok_iff.mp hline
    exact ⟨text, htext⟩

/-- Who does not listen gets the outcome and no messages. -/
theorem observe_none (run : Run α) : run.observe none = run.outcome.map fun a => (a, []) := by
  have hheard : run.messages.filter (·.level.reaches none) = [] :=
    List.filter_eq_nil_iff.mpr fun _ _ => Bool.false_ne_true
  rw [observe, hheard]
  rfl

theorem audible_pure (a : α) : (pure a : Run α).Audible listener := by
  rintro message ⟨⟩

theorem audible_ofExcept (outcome : Except Error α) : (ofExcept outcome).Audible listener := by
  rintro message ⟨⟩

theorem audible_ofFaulty (outcome : Except Fault α) : (ofFaulty outcome).Audible listener := by
  rintro message ⟨⟩

theorem audible_say_iff {level : Level} {text : Unit → Except Fault String} :
    (say level text).Audible listener ↔
      (level.reaches listener = true → ∃ words, text () = .ok words) := by
  unfold Audible say
  simp

/-- Of two runs the second one is only heard if the first one succeeds. -/
theorem audible_bind_iff {next : α → Run β} :
    (run >>= next).Audible listener ↔
      run.Audible listener ∧ ∀ a, run.outcome = .ok a → (next a).Audible listener := by
  rcases run with ⟨messages, outcome⟩
  cases outcome with
  | error e =>
    constructor
    · intro h
      exact ⟨h, fun a ha => by cases ha⟩
    · intro h
      exact h.1
  | ok a =>
    have hsplit : ((⟨messages, .ok a⟩ : Run α) >>= next).messages =
        messages ++ (next a).messages := rfl
    unfold Audible
    simp only [hsplit, List.forall_mem_append, Except.ok.injEq, forall_eq']

/-- A traversal that succeeds is heard at every entry. -/
theorem audible_mapM_iff {f : α → Run β} {xs : List α} {ys : List β}
    (h : (xs.mapM f).outcome = .ok ys) :
    (xs.mapM f).Audible listener ↔ ∀ x ∈ xs, (f x).Audible listener := by
  induction xs generalizing ys with
  | nil =>
    constructor
    · rintro - x ⟨⟩
    · intro _
      exact audible_pure []
  | cons x xs ih =>
    rw [List.mapM_cons] at h ⊢
    obtain ⟨y, hy, h⟩ := outcome_bind_eq_ok_iff.mp h
    obtain ⟨rest, hrest, -⟩ := outcome_bind_eq_ok_iff.mp h
    rw [audible_bind_iff, List.forall_mem_cons, ← ih hrest]
    refine and_congr_right fun _ => ?_
    constructor
    · intro hall
      exact (audible_bind_iff.mp (hall y hy)).1
    · intro hall z _
      exact audible_bind_iff.mpr ⟨hall, fun zs _ => audible_pure _⟩

/-- A run that only speaks is audible if it is at every entry. -/
theorem audible_forM {f : α → Run PUnit} {xs : List α}
    (hf : ∀ x ∈ xs, (f x).Audible listener) : (xs.forM f).Audible listener := by
  induction xs with
  | nil => exact audible_pure PUnit.unit
  | cons x xs ih =>
    rw [List.forall_mem_cons] at hf
    exact audible_bind_iff.mpr ⟨hf.1, fun _ _ => ih hf.2⟩

theorem audible_forM_say {level : Level} {text : α → Unit → Except Fault String} {xs : List α}
    (htext : ∀ x ∈ xs, ∃ words, text x () = .ok words) :
    (xs.forM fun x => say level (text x)).Audible listener :=
  audible_forM fun x hx => audible_say_iff.mpr fun _ => htext x hx

end Listening

/-! ## Logs -/

section Logs

variable {α β : Type} {listener : Option Level} {run : Run α} {log : List (Level × String)}

/-- The texts of messages that reach a listener, each under its level. -/
def texts (listener : Option Level) (messages : List Message) :
    Except Error (List (Level × String)) :=
  (messages.filter (·.level.reaches listener)).mapM fun message => do
    let text ← liftFault (message.text ())
    return (message.level, text)

theorem texts_append_eq_ok_iff {messages others : List Message} :
    texts listener (messages ++ others) = .ok log ↔ ∃ before after,
      texts listener messages = .ok before ∧ texts listener others = .ok after ∧
        log = before ++ after := by
  rw [texts, List.filter_append, List.mapM_append]
  show (texts listener messages >>= fun before => texts listener others >>= fun after =>
    pure (before ++ after)) = .ok log ↔ _
  simp only [bind_eq_ok_iff, pure_eq_ok_iff]
  constructor
  · rintro ⟨before, hbefore, after, hafter, hlog⟩
    exact ⟨before, after, hbefore, hafter, hlog.symm⟩
  · rintro ⟨before, after, hbefore, hafter, hlog⟩
    exact ⟨before, hbefore, after, hafter, hlog.symm⟩

/-- A listener gets an outcome with a log exactly if the run has this outcome
and its messages have these texts. -/
theorem observe_eq_ok_iff {a : α} :
    run.observe listener = .ok (a, log) ↔
      texts listener run.messages = .ok log ∧ run.outcome = .ok a := by
  show (texts listener run.messages >>= fun texts => run.outcome >>= fun outcome =>
    pure (outcome, texts)) = .ok (a, log) ↔ _
  simp only [bind_eq_ok_iff, pure_eq_ok_iff, Prod.mk.injEq]
  constructor
  · rintro ⟨texts, htexts, outcome, houtcome, rfl, rfl⟩
    exact ⟨htexts, houtcome⟩
  · intro h
    exact ⟨log, h.1, a, h.2, rfl, rfl⟩

theorem observe_pure_eq_ok_iff {a b : α} :
    (pure a : Run α).observe listener = .ok (b, log) ↔ b = a ∧ log = [] := by
  rw [observe_eq_ok_iff]
  show (.ok [] : Except Error _) = .ok log ∧ (.ok a : Except Error _) = .ok b ↔ _
  simp only [Except.ok.injEq, eq_comm, and_comm]

theorem observe_ofExcept_eq_ok_iff {x : Except Error α} {a : α} :
    (ofExcept x).observe listener = .ok (a, log) ↔ x = .ok a ∧ log = [] := by
  rw [observe_eq_ok_iff]
  show (.ok [] : Except Error _) = .ok log ∧ x = .ok a ↔ _
  simp only [Except.ok.injEq, eq_comm, and_comm]

/-- A message that reaches the listener is the whole log. -/
theorem observe_say_eq_ok_iff {level : Level} {text : Unit → Except Fault String} {u : Unit}
    (hreaches : level.reaches listener = true) :
    (say level text).observe listener = .ok (u, log) ↔
      ∃ words, text () = .ok words ∧ log = [(level, words)] := by
  have hheard :
      [(⟨level, text⟩ : Message)].filter (·.level.reaches listener) = [⟨level, text⟩] := by
    simp [hreaches]
  rw [observe_eq_ok_iff, texts, say, hheard]
  simp only [List.mapM_cons, List.mapM_nil, bind_eq_ok_iff, pure_eq_ok_iff, liftFault_eq_ok_iff,
    and_true]
  constructor
  · rintro ⟨entry, ⟨words, hwords, rfl⟩, _, rfl, rfl⟩
    exact ⟨words, hwords, rfl⟩
  · rintro ⟨words, hwords, rfl⟩
    exact ⟨_, ⟨words, hwords, rfl⟩, [], rfl, rfl⟩

/-- The others are not in the log. -/
theorem observe_say_of_not_reaches {level : Level} {text : Unit → Except Fault String} {u : Unit}
    (hsilent : level.reaches listener = false) :
    (say level text).observe listener = .ok (u, log) ↔ log = [] := by
  have hheard : [(⟨level, text⟩ : Message)].filter (·.level.reaches listener) = [] := by
    simp [hsilent]
  rw [observe_eq_ok_iff, texts, say, hheard, List.mapM_nil, pure_eq_ok_iff, eq_comm]
  exact and_iff_left rfl

/-- The log of two runs is the log of one after that of the other. -/
theorem observe_bind_eq_ok_iff {next : α → Run β} {b : β} :
    (run >>= next).observe listener = .ok (b, log) ↔ ∃ a before after,
      run.observe listener = .ok (a, before) ∧
        (next a).observe listener = .ok (b, after) ∧ log = before ++ after := by
  simp only [observe_eq_ok_iff]
  rcases run with ⟨messages, outcome⟩
  cases outcome with
  | error e =>
    constructor
    · intro h
      cases h.2
    · rintro ⟨a, before, after, ⟨-, h⟩, -⟩
      cases h
  | ok a =>
    show texts listener (messages ++ (next a).messages) = .ok log ∧ (next a).outcome = .ok b ↔ _
    rw [texts_append_eq_ok_iff]
    constructor
    · rintro ⟨⟨before, after, hbefore, hafter, hlog⟩, hb⟩
      exact ⟨a, before, after, ⟨hbefore, rfl⟩, ⟨hafter, hb⟩, hlog⟩
    · rintro ⟨found, before, after, ⟨hbefore, hfound⟩, ⟨hafter, hb⟩, hlog⟩
      cases hfound
      exact ⟨⟨before, after, hbefore, hafter, hlog⟩, hb⟩

/-- What says nothing leaves nothing in the log of what follows. -/
theorem observe_ofExcept_bind_eq_ok_iff {x : Except Error α} {next : α → Run β} {b : β} :
    (ofExcept x >>= next).observe listener = .ok (b, log) ↔
      ∃ a, x = .ok a ∧ (next a).observe listener = .ok (b, log) := by
  simp only [observe_bind_eq_ok_iff, observe_ofExcept_eq_ok_iff]
  constructor
  · rintro ⟨a, _, _, ⟨ha, rfl⟩, hnext, rfl⟩
    exact ⟨a, ha, hnext⟩
  · rintro ⟨a, ha, hnext⟩
    exact ⟨a, [], log, ⟨ha, rfl⟩, hnext, rfl⟩

theorem observe_ofFaulty_bind_eq_ok_iff {x : Except Fault α} {next : α → Run β} {b : β} :
    (ofFaulty x >>= next).observe listener = .ok (b, log) ↔
      ∃ a, x = .ok a ∧ (next a).observe listener = .ok (b, log) := by
  simp only [← liftFault_eq_ok_iff]
  exact observe_ofExcept_bind_eq_ok_iff

/-- The log of a traversal is made of the logs of the entries, in order. -/
theorem observe_mapM_eq_ok_iff {f : α → Run β} {xs : List α} {ys : List β} :
    (xs.mapM f).observe listener = .ok (ys, log) ↔ ∃ parts,
      List.Forall₂ (fun x part => (f x).observe listener = .ok part) xs parts ∧
        ys = parts.map Prod.fst ∧ log = (parts.map Prod.snd).flatten := by
  induction xs generalizing ys log with
  | nil =>
    rw [List.mapM_nil, observe_pure_eq_ok_iff]
    constructor
    · rintro ⟨rfl, rfl⟩
      exact ⟨[], .nil, rfl, rfl⟩
    · rintro ⟨parts, hparts, rfl, rfl⟩
      cases hparts
      exact ⟨rfl, rfl⟩
  | cons x xs ih =>
    simp only [List.mapM_cons, observe_bind_eq_ok_iff, observe_pure_eq_ok_iff, ih]
    constructor
    · rintro ⟨y, before, _, hy, ⟨_, _, _, ⟨parts, hparts, rfl, rfl⟩, ⟨rfl, rfl⟩, rfl⟩, rfl⟩
      exact ⟨(y, before) :: parts, .cons hy hparts, rfl, by simp⟩
    · rintro ⟨parts, hparts, rfl, rfl⟩
      cases hparts with
      | cons hy hparts =>
        exact ⟨_, _, _, hy, ⟨_, _, [], ⟨_, hparts, rfl, rfl⟩, ⟨rfl, rfl⟩, rfl⟩, by simp⟩

/-- Messages that reach the listener are the log, one by one. -/
theorem observe_forM_say_eq_ok_iff {level : Level} {text : α → Unit → Except Fault String}
    {xs : List α} {u : Unit} (hreaches : level.reaches listener = true) :
    (xs.forM fun x => say level (text x)).observe listener = .ok (u, log) ↔
      ∃ lines, xs.mapM (fun x => text x ()) = .ok lines ∧ log = lines.map (level, ·) := by
  induction xs generalizing log with
  | nil =>
    show (pure PUnit.unit : Run PUnit).observe listener = _ ↔ _
    rw [observe_pure_eq_ok_iff, List.mapM_nil]
    constructor
    · rintro ⟨-, rfl⟩
      exact ⟨[], rfl, rfl⟩
    · rintro ⟨lines, hlines, rfl⟩
      cases hlines
      exact ⟨rfl, rfl⟩
  | cons x xs ih =>
    show (say level (text x) >>= fun _ => xs.forM fun x => say level (text x)).observe listener =
      _ ↔ _
    simp only [observe_bind_eq_ok_iff, ih, observe_say_eq_ok_iff hreaches, List.mapM_cons,
      bind_eq_ok_iff, pure_eq_ok_iff]
    constructor
    · rintro ⟨_, _, _, ⟨words, hwords, rfl⟩, ⟨lines, hlines, rfl⟩, rfl⟩
      exact ⟨words :: lines, ⟨words, hwords, lines, hlines, rfl⟩, rfl⟩
    · rintro ⟨_, ⟨words, hwords, lines, hlines, rfl⟩, rfl⟩
      exact ⟨(), _, _, ⟨words, hwords, rfl⟩, ⟨lines, hlines, rfl⟩, rfl⟩

/-- Messages that do not reach the listener are not in the log. -/
theorem observe_forM_say_bind_of_not_reaches {level : Level}
    {text : α → Unit → Except Fault String} {xs : List α} {next : Unit → Run β} {b : β}
    (hsilent : level.reaches listener = false) :
    ((xs.forM fun x => say level (text x)) >>= next).observe listener = .ok (b, log) ↔
      (next ()).observe listener = .ok (b, log) := by
  induction xs with
  | nil => rfl
  | cons x xs ih =>
    show ((say level (text x) >>= fun _ => xs.forM fun x => say level (text x)) >>=
      next).observe listener = _ ↔ _
    rw [bind_assoc, observe_bind_eq_ok_iff]
    simp only [observe_say_of_not_reaches hsilent]
    constructor
    · rintro ⟨_, _, _, rfl, hrest, rfl⟩
      exact ih.mp hrest
    · intro hnext
      exact ⟨(), [], log, rfl, ih.mpr hnext, rfl⟩

end Logs

/-! ## What ends a run -/

/-- Whatever ends a run is a fault with the property `P`, in its outcome or in
one of its texts. -/
structure FaultsOnly {α : Type} (run : Run α) (P : Fault → Prop) : Prop where
  texts : ∀ message ∈ run.messages, StopsOnly (message.text ()) P
  outcome : ∀ e, run.outcome = .error e → ∃ fault, e = .fault fault ∧ P fault

section Faults

variable {α β : Type} {run : Run α} {P : Fault → Prop}

/-- A listener of any level gets the outcome or one of these faults. -/
theorem FaultsOnly.observe (h : run.FaultsOnly P) {listener : Option Level} {e : Error}
    (hstop : run.observe listener = .error e) : ∃ fault, e = .fault fault ∧ P fault := by
  by_cases haudible : run.Audible listener
  · obtain ⟨texts, htexts⟩ := observe_of_audible haudible
    refine h.outcome e ?_
    rw [htexts] at hstop
    cases hrun : run.outcome with
    | ok a =>
      rw [hrun] at hstop
      cases hstop
    | error refusal =>
      rw [hrun] at hstop
      exact congrArg Except.error (Except.error.inj hstop)
  · obtain ⟨message, hmessage, fault, htext, hfault⟩ := observe_of_not_audible haudible
    rw [hfault] at hstop
    exact ⟨fault, (Except.error.inj hstop).symm, h.texts message hmessage fault htext⟩

/-- Where everybody gets all texts, only the outcome counts. -/
theorem FaultsOnly.of_audible (htexts : ∀ listener, run.Audible listener)
    (houtcome : ∀ e, run.outcome = .error e → ∃ fault, e = .fault fault ∧ P fault) :
    run.FaultsOnly P := by
  refine ⟨fun message hmessage => ?_, houtcome⟩
  obtain ⟨text, htext⟩ := htexts (some message.level) message hmessage
    (decide_eq_true (Nat.le_refl message.level.rank))
  exact .of_eq_ok htext

theorem FaultsOnly.pure (a : α) : (pure a : Run α).FaultsOnly P := by
  constructor
  · rintro message ⟨⟩
  · rintro e ⟨⟩

theorem FaultsOnly.ofFaulty {x : Except Fault α} (hx : StopsOnly x P) :
    (Run.ofFaulty x).FaultsOnly P := by
  constructor
  · rintro message ⟨⟩
  · intro e he
    cases x with
    | ok a => cases he
    | error fault => exact ⟨fault, (Except.error.inj he).symm, hx fault rfl⟩

theorem FaultsOnly.say {level : Level} {text : Unit → Except Fault String}
    (htext : StopsOnly (text ()) P) : (Run.say level text).FaultsOnly P := by
  constructor
  · intro message hmessage
    obtain rfl := List.mem_singleton.mp hmessage
    exact htext
  · rintro e ⟨⟩

theorem FaultsOnly.bind {next : α → Run β} (hrun : run.FaultsOnly P)
    (hnext : ∀ a, run.outcome = .ok a → (next a).FaultsOnly P) :
    (run >>= next).FaultsOnly P := by
  rcases run with ⟨messages, outcome⟩
  cases outcome with
  | error e =>
    refine ⟨hrun.texts, fun other hother => ?_⟩
    exact hrun.outcome other (congrArg Except.error (Except.error.inj hother))
  | ok a =>
    refine ⟨fun message hmessage => ?_, fun e he => (hnext a rfl).outcome e he⟩
    rcases List.mem_append.mp hmessage with hbefore | hbehind
    · exact hrun.texts message hbefore
    · exact (hnext a rfl).texts message hbehind

theorem FaultsOnly.mapM {f : α → Run β} {xs : List α} (hf : ∀ x ∈ xs, (f x).FaultsOnly P) :
    (xs.mapM f).FaultsOnly P := by
  induction xs with
  | nil => exact .pure []
  | cons x xs ih =>
    rw [List.mapM_cons]
    refine (hf x List.mem_cons_self).bind fun y _ => ?_
    exact (ih fun z hz => hf z (List.mem_cons_of_mem x hz)).bind fun ys _ => .pure (y :: ys)

theorem FaultsOnly.forM {f : α → Run PUnit} {xs : List α} (hf : ∀ x ∈ xs, (f x).FaultsOnly P) :
    (xs.forM f).FaultsOnly P := by
  induction xs with
  | nil => exact .pure PUnit.unit
  | cons x xs ih =>
    exact (hf x List.mem_cons_self).bind
      fun _ _ => ih fun y hy => hf y (List.mem_cons_of_mem x hy)

end Faults

/-! ## Verdicts -/

/-- Two outcomes agree: they are the same, or either is a fault. -/
def SameVerdict {α : Type} (x y : Except Error α) : Prop :=
  x = y ∨ (∃ fault, x = .error (.fault fault)) ∧ ∃ fault, y = .error (.fault fault)

/-- A listener gets the verdict of a run exactly if the run is audible, or a
fault is the verdict. -/
theorem sameVerdict_observe_iff {α : Type} {listener : Option Level} {run : Run α} :
    SameVerdict ((run.observe listener).map Prod.fst) run.outcome ↔
      run.Audible listener ∨ ∃ fault, run.outcome = .error (.fault fault) := by
  by_cases haudible : run.Audible listener
  · obtain ⟨texts, htexts⟩ := observe_of_audible haudible
    have hsame : (run.observe listener).map Prod.fst = run.outcome := by
      rw [htexts]
      cases run.outcome <;> rfl
    exact iff_of_true (Or.inl hsame) (Or.inl haudible)
  · obtain ⟨-, -, fault, -, hfault⟩ := observe_of_not_audible haudible
    rw [hfault]
    constructor
    · intro h
      rcases h with hsame | ⟨-, hother⟩
      · exact Or.inr ⟨fault, hsame.symm⟩
      · exact Or.inr hother
    · intro h
      rcases h with haudible' | hother
      · exact absurd haudible' haudible
      · exact Or.inr ⟨⟨fault, rfl⟩, hother⟩

end Run

end TransitTransfers
