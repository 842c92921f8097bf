import TransitTransfers.Schedule

/-!
# Slack

Slack is the time that a change takes besides the walk: for alighting, for the
change itself and for boarding.  A policy has slack times for every trip, and
routes may have alighting and boarding times of their own.
-/

namespace TransitTransfers

/-- The slack of every trip whose route has none of its own. -/
structure SlackTimes where
  boarding : Duration
  alighting : Duration
  /-- For the change itself. -/
  changing : Duration
deriving DecidableEq, Repr

/-- Two minutes for the change, and nothing else. -/
def SlackTimes.default : SlackTimes := ⟨.zero, .zero, ⟨120, by decide⟩⟩

instance : Inhabited SlackTimes := ⟨SlackTimes.default⟩

/-- The slack of a route of its own. -/
structure RouteSlack where
  route : Nat
  boarding : Duration
  alighting : Duration
deriving DecidableEq, Repr

/-- Slack for all trips. -/
structure SlackPolicy where
  /-- The slack of routes that have none of their own. -/
  general : SlackTimes
  /-- The slack of single routes; the first entry of a route counts. -/
  routes : List RouteSlack
deriving DecidableEq, Repr

namespace SlackPolicy

/-- The same slack for every route. -/
def uniform (general : SlackTimes) : SlackPolicy := ⟨general, []⟩

/-- Gives a route slack of its own, in place of what it had. -/
def withRoute (policy : SlackPolicy) (route : RouteSlack) : SlackPolicy :=
  { policy with routes := route :: policy.routes }

/-- The slack of the route of a pattern, if it has its own. -/
def routeSlack? (policy : SlackPolicy) (pattern : Pattern) : Option RouteSlack :=
  policy.routes.find? (·.route = pattern.route)

/-- How long boarding takes. -/
def boarding (policy : SlackPolicy) (pattern : Pattern) : Duration :=
  ((policy.routeSlack? pattern).map (·.boarding)).getD policy.general.boarding

/-- How long alighting takes. -/
def alighting (policy : SlackPolicy) (pattern : Pattern) : Duration :=
  ((policy.routeSlack? pattern).map (·.alighting)).getD policy.general.alighting

/-- How long a change takes. -/
def changing (policy : SlackPolicy) : Duration := policy.general.changing

/-- The time between arriving on a pattern and departing with the next one,
walks excluded. -/
def total (policy : SlackPolicy) (pattern : Pattern) : Except Fault Duration := do
  let left ← (policy.alighting pattern).add policy.changing
  left.add (policy.boarding pattern)

end SlackPolicy

end TransitTransfers
