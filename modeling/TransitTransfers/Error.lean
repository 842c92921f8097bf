import TransitTransfers.Time.Text
import TransitTransfers.Decimal.Style

/-!
# Refusals

The reasons why data is refused, and their wording.  A refusal is an ordinary
answer about the data: a name that refers to nothing, a trip whose times run
backwards, legs that do not fit together, settings out of range.  An
arithmetic `Fault` met on the way is carried along as one more reason, so that
whatever comes first is what is reported.
-/

namespace TransitTransfers

/-! ## What can be wrong -/

/-- What is wrong with the calls of a trip. -/
inductive CallDefect where
  | tooFew
  | departsEarly (position : Nat)
  /-- The trip arrives before it has left the previous stop. -/
  | arrivesEarly (position : Nat)
deriving DecidableEq, Repr

/-- What is wrong with a ride or with the legs of an itinerary. -/
inductive ItineraryDefect where
  /-- A ride does not go forward between two positions of its trip. -/
  | notRidable (trip : String) (board alight : Nat)
  | noAccess
  | noEgress
  /-- An access or egress leg stands between the ends. -/
  | strayEnd
  | walkFirst
  | twoWalks
  | noRide
  | walkLast
  /-- A leg arrives before it departs. -/
  | backwards (leg : Nat) (arrival departure : Time)
  /-- A leg departs before the previous one arrives. -/
  | tooEarly (leg : Nat) (departure previous : Time)
  /-- A leg starts elsewhere than the previous one ends. -/
  | elsewhere (leg : Nat) (start previous : Nat)
deriving DecidableEq, Repr

/-- The weights that have to be finite and not negative. -/
inductive Weight where
  | wait
  | costWalk
  | costWait
  | costTransit
deriving DecidableEq, Repr

/-- What is wrong with settings. -/
inductive SettingsDefect where
  /-- The factor of a wait without margin is below one. -/
  | factorBelowOne (value : Float)
  /-- A weight is negative or not finite. -/
  | badWeight (weight : Weight) (value : Float)
deriving DecidableEq

/-- Why data is refused. -/
inductive Error where
  | fault (fault : Fault)
  | unknownStop (id : String)
  | unknownRoute (id : String)
  | unknownTrip (id : String)
  | duplicateId (id : String)
  /-- The calls of a trip make no schedule. -/
  | badCalls (trip : String) (defect : CallDefect)
  | noSuchCall (trip : String) (stop : Nat) (time : Time)
  | badItinerary (defect : ItineraryDefect)
  | noItineraries
  | badSettings (defect : SettingsDefect)
deriving DecidableEq

/-! ## Wording -/

/-- What is wrong with the calls of a trip, in words. -/
def CallDefect.message : CallDefect → String
  | .tooFew => "a trip calls at two stops at least"
  | .departsEarly position => s!"departs before arriving at position {position}"
  | .arrivesEarly position =>
      s!"arrives at position {position} before leaving the previous stop"

/-- What is wrong with legs, in words. -/
def ItineraryDefect.message : ItineraryDefect → String
  | .notRidable trip board alight =>
      s!"trip {trip} cannot be ridden from position {board} to {alight}"
  | .noAccess => "an itinerary must start with an access leg"
  | .noEgress => "an itinerary must end with an egress leg"
  | .strayEnd => "access and egress legs must be at the ends of an itinerary"
  | .walkFirst => "the first ride must follow the access leg directly"
  | .twoWalks => "two transfer legs in a row"
  | .noRide => "no transit leg"
  | .walkLast => "the last ride must be followed by the egress leg directly"
  | .backwards leg arrival departure =>
      s!"leg {leg} arrives at {arrival.text} before departing at {departure.text}"
  | .tooEarly leg departure previous =>
      s!"leg {leg} departs at {departure.text} before the previous leg arrives at " ++
        previous.text
  | .elsewhere leg start previous =>
      s!"leg {leg} starts at stop {start} but the previous leg ends at stop {previous}"

/-- The name of a weight in a settings document. -/
def Weight.name : Weight → String
  | .wait => "wait_reluctance"
  | .costWalk => "cost.walk_reluctance"
  | .costWait => "cost.wait_reluctance"
  | .costTransit => "cost.transit_reluctance"

/-- What is wrong with settings, in words. -/
def SettingsDefect.message : SettingsDefect → String
  | .factorBelowOne value =>
      "min_safe_wait_time_factor must be at least 1, got " ++
        NumberStyle.message.write (Binary64.ofFloat value)
  | .badWeight weight value =>
      weight.name ++ " must be a finite non-negative number, got " ++
        NumberStyle.message.write (Binary64.ofFloat value)

/-- A refusal in words. -/
def Error.message : Error → String
  | .fault f => f.message
  | .unknownStop id => s!"Stop id `{id}` does not match any entry"
  | .unknownRoute id => s!"Route id `{id}` does not match any entry"
  | .unknownTrip id => s!"Trip id `{id}` does not match any entry"
  | .duplicateId id => s!"Id `{id}` is already in use"
  | .badCalls trip defect => s!"Invalid stop times for trip {trip}: {defect.message}"
  | .noSuchCall trip stop time => s!"Trip {trip} does not call at stop {stop} at {time.text}"
  | .badItinerary defect => s!"Invalid itinerary: {defect.message}"
  | .noItineraries => "A minimum safe transfer time needs at least one itinerary"
  | .badSettings defect => s!"Invalid configuration: {defect.message}"

/-! ## Faults as refusals -/

/-- A computation that may fault, among those that may refuse. -/
def liftFault {α : Type} : Except Fault α → Except Error α
  | .ok a => .ok a
  | .error f => .error (.fault f)

instance : MonadLift (Except Fault) (Except Error) := ⟨liftFault⟩

@[simp] theorem liftFault_ok {α : Type} (a : α) : liftFault (.ok a) = .ok a := rfl

@[simp] theorem liftFault_error {α : Type} (f : Fault) :
    liftFault (.error f : Except Fault α) = .error (.fault f) := rfl

theorem liftFault_eq_ok_iff {α : Type} {x : Except Fault α} {a : α} :
    liftFault x = .ok a ↔ x = .ok a := by
  cases x <;> simp

end TransitTransfers
