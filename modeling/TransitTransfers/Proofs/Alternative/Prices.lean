import TransitTransfers.Proofs.Alternative.Course
import TransitTransfers.Proofs.Itinerary.Waits

/-!
# What an alternative costs

The legs of an alternative are priced one by one while a chain is ridden.  Put
together, they cost what the time between access and egress is spent on.

* `Spending` lists how long the rider waits, rides and walks, and
  `Itinerary.Spends` reads it off an itinerary.
* `CostWeights.price` is what this costs with the boardings.
  `Retimes.spends` carries it along a chain: the wait that is priced before a
  ride is the wait at the junction (`Junction.wait_of_ready`).
* `Planner.Prices` says it of a whole alternative, and `Planner.charges` is the
  part of it that all alternatives have in common.  `Prices.cost_units` is what
  the alternative costs, and `Prices.riskCost_units` what it costs when its
  waits count by their risk.
-/

namespace TransitTransfers

/-! ## Sums of costs -/

/-- The units of some costs, added up. -/
def units : List Cost → Int
  | [] => 0
  | cost :: costs => cost.units + units costs

@[simp] theorem units_nil : units [] = 0 := rfl

@[simp] theorem units_cons (cost : Cost) (costs : List Cost) :
    units (cost :: costs) = cost.units + units costs := rfl

theorem units_append (costs others : List Cost) :
    units (costs ++ others) = units costs + units others := by
  induction costs with
  | nil => simp
  | cons cost costs ih =>
    rw [List.cons_append, units_cons, units_cons, ih]
    omega

theorem foldlM_add_units {costs : List Cost} {before total : Cost}
    (h : costs.foldlM Cost.add before = .ok total) :
    total.units = before.units + units costs := by
  induction costs generalizing before with
  | nil =>
    cases h
    simp
  | cons cost costs ih =>
    obtain ⟨next, hnext, h⟩ := bind_eq_ok_iff.mp h
    rw [ih h, ← Cost.add_eq_ok_iff.mp hnext, units_cons]
    omega

theorem Itinerary.cost_units {itinerary : Itinerary} {cost : Cost}
    (h : itinerary.cost = .ok cost) :
    cost.units = itinerary.access.cost.units + itinerary.egress.cost.units +
      units (itinerary.innerLegs.map Leg.cost) := by
  obtain ⟨inner, hinner, h⟩ := bind_eq_ok_iff.mp h
  obtain ⟨start, hstart, h⟩ := bind_eq_ok_iff.mp h
  have htotal : inner.units = Cost.zero.units + units (itinerary.innerLegs.map Leg.cost) :=
    foldlM_add_units hinner
  rw [Cost.add_eq_ok_iff] at hstart h
  have hzero : Cost.zero.units = 0 := rfl
  omega

/-- Replacing the plain prices of waits by their risks. -/
theorem RiskPricing.foldlM_exchangeWait_units {pricing : RiskPricing} {waits : List Duration}
    {before total : Cost} (h : waits.foldlM pricing.exchangeWait before = .ok total) :
    total.units = before.units - units (waits.map pricing.weights.waitCost) +
      units (waits.map pricing.riskCost) := by
  induction waits generalizing before with
  | nil =>
    cases h
    simp
  | cons wait waits ih =>
    obtain ⟨next, hnext, h⟩ := bind_eq_ok_iff.mp h
    obtain ⟨rest, hrest, hnext⟩ := bind_eq_ok_iff.mp hnext
    rw [Cost.sub_eq_ok_iff] at hrest
    rw [Cost.add_eq_ok_iff] at hnext
    rw [ih h, List.map_cons, List.map_cons, units_cons, units_cons]
    omega

/-! ## How the time is spent -/

/-- How long a rider waits for a ride who is ready at a given time. -/
def Ride.waitFrom (ride : Ride) (ready : Time) : Except Fault Duration := do
  let boarded ← ride.boardTime
  boarded.since ready

/-- How long a rider waits for the first ride of an itinerary. -/
def Itinerary.firstWait (itinerary : Itinerary) : Duration :=
  (itinerary.first.waitFrom itinerary.access.arrival).toOption.getD .zero

/-- How long a rider waits, rides and walks between access and egress. -/
structure Spending where
  /-- Before the first ride. -/
  first : Duration
  /-- At the junctions. -/
  waits : List Duration
  rides : List Duration
  walks : List Duration

/-- A rider who is ready at a given time takes a first ride and the changes
behind it. -/
structure SpendsFrom (ready : Time) (ride : Ride) (changes : List Change) (spending : Spending) :
    Prop where
  first : ride.waitFrom ready = .ok spending.first
  waits : (Itinerary.junctionsFrom ride changes).mapM Junction.wait = .ok spending.waits
  rides : (ride :: changes.map (·.ride)).mapM Ride.duration = .ok spending.rides
  walks : (changes.flatMap (·.walk.toList)).mapM Walk.duration = .ok spending.walks

/-- How the time of an itinerary is spent between access and egress. -/
def Itinerary.Spends (itinerary : Itinerary) (spending : Spending) : Prop :=
  SpendsFrom itinerary.access.arrival itinerary.first itinerary.changes spending

/-- Time is spent in one way only. -/
theorem SpendsFrom.unique {ready : Time} {ride : Ride} {changes : List Change}
    {spending other : Spending} (h : SpendsFrom ready ride changes spending)
    (h' : SpendsFrom ready ride changes other) : spending = other := by
  rcases spending with ⟨first, waits, rides, walks⟩
  rcases other with ⟨first', waits', rides', walks'⟩
  obtain rfl : first = first' := Except.ok.inj (h.first.symm.trans h'.first)
  obtain rfl : waits = waits' := Except.ok.inj (h.waits.symm.trans h'.waits)
  obtain rfl : rides = rides' := Except.ok.inj (h.rides.symm.trans h'.rides)
  obtain rfl : walks = walks' := Except.ok.inj (h.walks.symm.trans h'.walks)
  rfl

namespace CostWeights

/-- The price of some boardings, the first of them perhaps the very first. -/
def boardings (weights : CostWeights) (isFirst : Bool) (rides : Nat) : Int :=
  rides * weights.boarding.units + (rides - if isFirst then 1 else 0) * weights.changing.units

/-- The price of riding and walking. -/
def motion (weights : CostWeights) (spending : Spending) : Int :=
  units (spending.rides.map weights.rideCost) + units (spending.walks.map weights.walkCost)

/-- The price of the boardings and of the time that is spent. -/
def price (weights : CostWeights) (isFirst : Bool) (spending : Spending) : Int :=
  weights.boardings isFirst spending.rides.length + (weights.waitCost spending.first).units +
    units (spending.waits.map weights.waitCost) + weights.motion spending

theorem waitCost_congr {a b : CostWeights} (h : a.waiting = b.waiting) :
    a.waitCost = b.waitCost := by
  funext wait
  rw [waitCost, waitCost, h]

theorem motion_congr {a b : CostWeights} (hwalking : a.walking = b.walking)
    (hriding : a.riding = b.riding) (spending : Spending) :
    a.motion spending = b.motion spending := by
  have hrides : a.rideCost = b.rideCost := by
    funext duration
    rw [rideCost, rideCost, hriding]
  have hwalks : a.walkCost = b.walkCost := by
    funext duration
    rw [walkCost, walkCost, hwalking]
  rw [motion, motion, hrides, hwalks]

theorem transitCost_units {weights : CostWeights} {isFirst : Bool} {wait ride : Duration}
    {cost : Cost} (h : weights.transitCost isFirst wait ride = .ok cost) :
    cost.units = weights.boardings isFirst 1 + (weights.waitCost wait).units +
      (weights.rideCost ride).units := by
  obtain ⟨boarding, hboarding, h⟩ := bind_eq_ok_iff.mp h
  obtain ⟨boarded, hboarded, h⟩ := bind_eq_ok_iff.mp h
  rw [Cost.add_eq_ok_iff] at hboarded h
  have hprice : boarding.units = weights.boardings isFirst 1 := by
    unfold boardingCost at hboarding
    cases isFirst with
    | true =>
      cases hboarding
      simp [boardings]
    | false =>
      have hsum := Cost.add_eq_ok_iff.mp hboarding
      simp [boardings, hsum]
  omega

/-- One boarding more. -/
theorem boardings_succ (weights : CostWeights) (isFirst : Bool) (rides : Nat) :
    weights.boardings isFirst (rides + 1) =
      weights.boardings isFirst 1 + weights.boardings false rides := by
  simp only [boardings, Int.natCast_succ, Bool.false_eq_true, if_false, Int.sub_zero,
    Int.add_mul, Int.sub_mul]
  omega

end CostWeights

/-! ## Along a chain -/

/-- The wait before a ride is the wait at the junction, if the rider is ready
when the walk is over. -/
theorem Junction.wait_of_ready {junction : Junction} {alighted ready : Time}
    {walk wait : Duration} (halighted : junction.arriving.alightTime = .ok alighted)
    (hwalk : junction.walkDuration = .ok walk)
    (hready : ready.seconds = alighted.seconds + walk.seconds)
    (hwaits : junction.departing.waitFrom ready = .ok wait) : junction.wait = .ok wait := by
  obtain ⟨boarded, hboarded, hwait⟩ := bind_eq_ok_iff.mp hwaits
  have hadd : alighted.add walk = .ok ready := Time.add_eq_ok_iff.mpr hready.symm
  have hsince : boarded.since? ready = some wait := by
    rw [Time.since_eq_ok_iff] at hwait
    exact Time.since?_eq_some_iff.mpr hwait
  refine bind_eq_ok_iff.mpr ⟨boarded, hboarded, bind_eq_ok_iff.mpr ⟨alighted, halighted, ?_⟩⟩
  refine bind_eq_ok_iff.mpr ⟨walk, hwalk, bind_eq_ok_iff.mpr ⟨ready, hadd, ?_⟩⟩
  rw [hsince]
  rfl

namespace Planner

variable {planner : Planner}

/-- A ride that was made costs its boarding, the wait before it and its
duration. -/
theorem cost_of_rideFrom {isFirst : Bool} {ready : Time} {trip : Trip} {board alight : Nat}
    {taken : Ride} (h : planner.rideFrom isFirst ready trip board alight = .ok (some taken)) :
    ∃ wait duration, taken.waitFrom ready = .ok wait ∧ taken.duration = .ok duration ∧
      taken.cost.units = planner.weights.boardings isFirst 1 +
        (planner.weights.waitCost wait).units + (planner.weights.rideCost duration).units := by
  obtain ⟨departure, wait, arrival, duration, hdeparture, hwait, harrival, hduration, hcost, rfl,
    rfl, rfl⟩ := rideFrom_eq_some_iff.mp h
  rw [Time.since?_eq_some_iff] at hwait hduration
  refine ⟨wait, duration, ?_, ?_, CostWeights.transitCost_units hcost⟩
  · exact bind_eq_ok_iff.mpr ⟨departure, hdeparture, Time.since_eq_ok_iff.mpr hwait⟩
  refine bind_eq_ok_iff.mpr ⟨arrival, harrival, bind_eq_ok_iff.mpr ⟨departure, hdeparture, ?_⟩⟩
  exact Time.since_eq_ok_iff.mpr hduration

/-- The walk over a footpath costs its duration. -/
theorem Walks.cost {join : Join} {alighted boarded : Time} {walk : Option Walk} {ready : Time}
    (h : planner.Walks join alighted boarded walk ready) :
    ∃ walked, walk.toList.mapM Walk.duration = .ok walked ∧
      walk.toList.map (·.cost) = walked.map planner.weights.walkCost := by
  unfold Walks at h
  split at h
  · obtain ⟨rfl, -⟩ := h
    exact ⟨[], rfl, rfl⟩
  · rename_i path _
    rcases h with ⟨-, preferred, arrival, -, harrival, rfl⟩
    have hduration : Walk.duration ⟨path.origin, path.destination,
        walkStart alighted preferred boarded path.duration, arrival,
        planner.weights.walkCost path.duration⟩ = .ok path.duration :=
      Time.since_eq_ok_iff.mpr harrival
    exact ⟨[path.duration], mapM_eq_ok_iff.mpr (.cons hduration .nil), rfl⟩

/-- The run over a chain: the legs cost what the time is spent on. -/
theorem Retimes.spends {isFirst : Bool} {ride : Ride} {board : Nat} {ready : Time}
    {steps : List (Join × Ride)} {taken : Ride} {changes : List Change}
    (h : planner.Retimes isFirst ride board ready steps taken changes)
    (hrideable : Rideable ride board steps) :
    ∃ spending, SpendsFrom ready taken changes spending ∧
      units ((Leg.ride taken :: changes.flatMap Change.legs).map Leg.cost) =
        planner.weights.price isFirst spending := by
  induction h with
  | last htaken =>
    obtain ⟨wait, duration, hwait, hduration, hcost⟩ := cost_of_rideFrom htaken
    refine ⟨⟨wait, [], [duration], []⟩, ⟨hwait, rfl, ?_, rfl⟩, ?_⟩
    · exact mapM_eq_ok_iff.mpr (.cons hduration .nil)
    · simp [CostWeights.price, CostWeights.motion, Leg.cost, hcost]
  | @next isFirst ride board ready later taken join following rest walk nextTaken changes htaken
      hwalk hrest ih =>
    rcases hrideable with ⟨-, -, hsource, htarget, hfeasible, hfollowing⟩
    obtain ⟨wait, duration, hwait, hduration, hcost⟩ := cost_of_rideFrom htaken
    obtain ⟨inner, hinner, hprice⟩ := ih hfollowing
    obtain ⟨htrip, -, halight⟩ := parts_of_rideFrom htaken
    obtain ⟨hnext, hboard, -⟩ := hrest.boards
    obtain ⟨alighted, nextBoarded, halighted, -, hwalks, hpath, -⟩ :=
      between_of_feasible hfeasible hwalk (htrip.trans hsource.symm) halight
        (hnext.trans htarget.symm) hboard
    obtain ⟨walked, hwalked, hwalkCost⟩ := hwalks.cost
    obtain ⟨-, hwalkDuration⟩ := hwalks.walksOver hpath
    have hjunction : (Junction.mk taken walk nextTaken).wait = .ok inner.first :=
      Junction.wait_of_ready halighted hwalkDuration hwalks.ready_eq hinner.first
    refine ⟨⟨wait, inner.first :: inner.waits, duration :: inner.rides, walked ++ inner.walks⟩,
      ⟨hwait, ?_, ?_, ?_⟩, ?_⟩
    · exact mapM_eq_ok_iff.mpr (.cons hjunction (mapM_eq_ok_iff.mp hinner.waits))
    · exact mapM_eq_ok_iff.mpr (.cons hduration (mapM_eq_ok_iff.mp hinner.rides))
    · exact mapM_eq_ok_iff.mpr
        (List.rel_append (mapM_eq_ok_iff.mp hwalked) (mapM_eq_ok_iff.mp hinner.walks))
    · have hlegs : units ((Leg.ride taken ::
            (Change.mk walk nextTaken :: changes).flatMap Change.legs).map Leg.cost) =
          taken.cost.units + units (walk.toList.map (·.cost)) +
            units ((Leg.ride nextTaken :: changes.flatMap Change.legs).map Leg.cost) := by
        cases walk with
        | none => simp [Change.legs, Leg.cost]
        | some walk =>
          simp [Change.legs, Leg.cost]
          omega
      have hboardings := planner.weights.boardings_succ isFirst inner.rides.length
      rw [hlegs, hcost, hwalkCost, hprice]
      simp only [CostWeights.price, CostWeights.motion, List.length_cons, List.map_cons,
        List.map_append, units_cons, units_append]
      omega

/-! ## A whole alternative -/

/-- What every alternative of an itinerary pays: for access and egress, for the
boardings and for the wait before the first ride. -/
def charges (planner : Planner) (given : Itinerary) : Int :=
  given.access.cost.units + given.egress.cost.units +
    planner.weights.boardings true given.rides.length +
      (planner.weights.waitCost given.firstWait).units

/-- An alternative costs what its time is spent on.  Its ends are those of the
given itinerary, and so are its first wait and the number of its rides. -/
structure Prices (planner : Planner) (given made : Itinerary) (spending : Spending) : Prop where
  spends : made.Spends spending
  inner : units (made.innerLegs.map Leg.cost) = planner.weights.price true spending
  access : made.access = given.access
  egress : made.egress = given.egress
  first : spending.first = given.firstWait
  /-- There is a duration for every ride. -/
  rides : spending.rides.length = given.rides.length

theorem Makes.exists_prices {given : Itinerary} (hbuilt : planner.table.Built)
    (hrides : given.RidesOn planner.table) {chain : List Join}
    (hconnects : List.Forall₂ planner.Connects given.junctions chain)
    (horder : InOrder given.lastRide.alight given.first.board chain)
    {alternative : Alternative} (h : planner.Makes given chain alternative) :
    ∃ spending, planner.Prices given alternative.itinerary spending := by
  obtain ⟨hretimes, haccess, hegress⟩ := retime_eq_some_iff.mp h.2
  obtain ⟨spending, hspends, hprice⟩ :=
    hretimes.spends (rideable_of_chain hbuilt hrides hconnects horder)
  obtain ⟨htrip, hboard, -⟩ := hretimes.boards
  have hwait : spending.first = given.firstWait := by
    have hfirst := hspends.first
    rw [Ride.waitFrom, Ride.boardTime_of_same htrip hboard, ← Ride.waitFrom] at hfirst
    rw [Itinerary.firstWait, hfirst]
    rfl
  have htrips := congrArg List.length (h.alters hconnects).trips
  have hlength : spending.rides.length = given.rides.length := by
    rw [List.length_map, List.length_map] at htrips
    rw [← (mapM_eq_ok_iff.mp hspends.rides).length_eq, ← htrips]
    rfl
  rw [← haccess] at hspends
  exact ⟨spending, hspends, hprice, haccess, hegress, hwait, hlength⟩

/-- The alternatives of an itinerary are made with their prices. -/
theorem exists_makes_prices {given : Itinerary} (hbuilt : planner.table.Built)
    (hrides : given.RidesOn planner.table) (hchanges : given.changes ≠ [])
    {alternatives : List Alternative} (hlist : planner.alternatives given = .ok alternatives) :
    ∃ offers chains, planner.offers given = .ok offers ∧ chainsOf given offers = .ok chains ∧
      List.Forall₂ (fun chain alternative => planner.Makes given chain alternative ∧
        ∃ spending, planner.Prices given alternative.itinerary spending) chains alternatives := by
  obtain ⟨offers, chains, hoffers, hchains, -, hmakes⟩ :=
    alternatives_spec hbuilt hrides hchanges hlist
  refine ⟨offers, chains, hoffers, hchains, forall₂_imp_of_mem hmakes ?_⟩
  intro chain hchain alternative hmake
  exact ⟨hmake, hmake.exists_prices hbuilt hrides
    (connects_of_mem_chainsOf hbuilt hrides hoffers hchains hchain)
    ((mem_chainsOf hchains).mp hchain).2⟩

variable {given made : Itinerary} {spending : Spending}

theorem Prices.cost_units (h : planner.Prices given made spending) {cost : Cost}
    (hcost : made.cost = .ok cost) :
    cost.units = planner.charges given +
      units (spending.waits.map planner.weights.waitCost) + planner.weights.motion spending := by
  rw [Itinerary.cost_units hcost, h.inner, h.access, h.egress, CostWeights.price, h.rides, h.first,
    charges]
  omega

/-- Where waits count by their risk, their price is exchanged for it. -/
theorem Prices.riskCost_units (h : planner.Prices given made spending) {pricing : RiskPricing}
    (hweights : pricing.weights = planner.weights) {cost : Cost}
    (hcost : pricing.cost made = .ok cost) :
    cost.units = planner.charges given +
      units (spending.waits.map pricing.riskCost) + planner.weights.motion spending := by
  have hwaits : made.junctions.mapM Junction.wait = .ok spending.waits := h.spends.waits
  rw [RiskPricing.cost_of_waits pricing hwaits] at hcost
  obtain ⟨plain, hplain, hcost⟩ := bind_eq_ok_iff.mp hcost
  rw [RiskPricing.foldlM_exchangeWait_units hcost, h.cost_units hplain, hweights]
  omega

end Planner

end TransitTransfers
