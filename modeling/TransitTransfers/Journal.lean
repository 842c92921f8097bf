import TransitTransfers.Error

/-!
# Runs that keep a journal

A `Run` is a computation together with the messages that it leaves behind.
The messages are no part of the outcome: a run is what it is whether anybody
listens or not.  `Run.observe` plays a run to a listener of a given level and
yields the outcome with the messages that the listener gets.

The text of a message is worked out only if it is listened to, and working it
out may fault.  `observe` therefore takes the messages one by one in their
order, and a text that faults ends the run at that place.
-/

namespace TransitTransfers

/-- How important a message is. -/
inductive Level where
  | error
  /-- Something is likely to be wrong. -/
  | warn
  | info
  /-- How a result came about. -/
  | debug
  /-- Every step on the way. -/
  | trace
deriving DecidableEq, Repr

namespace Level

/-- The place of a level, from the most important one on. -/
def rank : Level → Nat
  | .error => 0
  | .warn => 1
  | .info => 2
  | .debug => 3
  | .trace => 4

/-- The name of a level. -/
def name : Level → String
  | .error => "ERROR"
  | .warn => "WARN"
  | .info => "INFO"
  | .debug => "DEBUG"
  | .trace => "TRACE"

/-- Whether a listener of level `listener` gets messages of a level. -/
def reaches (level : Level) (listener : Option Level) : Bool :=
  match listener with
  | some least => level.rank ≤ least.rank
  | none => false

end Level

/-- A message, whose text is worked out when somebody listens. -/
structure Message where
  level : Level
  text : Unit → Except Fault String

/-- A computation with the messages that it leaves behind. -/
structure Run (α : Type) where
  messages : List Message
  outcome : Except Error α

namespace Run

/-- The run that yields a value and says nothing. -/
protected def pure {α : Type} (a : α) : Run α := ⟨[], .ok a⟩

/-- One run after the other; a run that fails ends both. -/
protected def bind {α β : Type} (run : Run α) (next : α → Run β) : Run β :=
  match run.outcome with
  | .error e => ⟨run.messages, .error e⟩
  | .ok a =>
    let rest := next a
    ⟨run.messages ++ rest.messages, rest.outcome⟩

instance : Monad Run where
  pure := Run.pure
  bind := Run.bind

/-- A computation that says nothing. -/
def ofExcept {α : Type} (outcome : Except Error α) : Run α := ⟨[], outcome⟩

/-- A computation that may only fault and says nothing. -/
def ofFaulty {α : Type} (outcome : Except Fault α) : Run α := ⟨[], liftFault outcome⟩

/-- Leaves a message behind. -/
def say (level : Level) (text : Unit → Except Fault String) : Run Unit :=
  ⟨[⟨level, text⟩], .ok ()⟩

/-- What a listener gets of a run: the outcome, and the texts of the messages
that reach it, each under its level. -/
def observe {α : Type} (listener : Option Level) (run : Run α) :
    Except Error (α × List (Level × String)) := do
  let heard := run.messages.filter (·.level.reaches listener)
  let texts ← heard.mapM fun message => do
    let text ← liftFault (message.text ())
    return (message.level, text)
  let outcome ← run.outcome
  return (outcome, texts)

@[simp] theorem outcome_pure {α : Type} (a : α) : (pure a : Run α).outcome = .ok a := rfl

@[simp] theorem outcome_bind {α β : Type} (run : Run α) (next : α → Run β) :
    (run >>= next).outcome = run.outcome.bind fun a => (next a).outcome := by
  cases h : run.outcome <;> simp [Bind.bind, Run.bind, Except.bind, h]

@[simp] theorem outcome_ofExcept {α : Type} (x : Except Error α) :
    (ofExcept x).outcome = x := rfl

@[simp] theorem outcome_ofFaulty {α : Type} (x : Except Fault α) :
    (ofFaulty x).outcome = liftFault x := rfl

@[simp] theorem outcome_say (level : Level) (text : Unit → Except Fault String) :
    (say level text).outcome = .ok () := rfl

end Run

end TransitTransfers
