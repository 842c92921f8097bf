import TransitTransfers.Fault

/-!
# Clock times and durations

A `Time` is a number of seconds since the midnight that starts the day of
service; a vehicle may run past 24:00:00, so hours are not cut off.  A
`Duration` is a length of time in seconds.  Both fit an unsigned 32-bit word,
and every operation either keeps that bound or faults.

The view of both types is the natural number `seconds`: two times are equal,
or in order, exactly when their seconds are.
-/

namespace TransitTransfers

/-- Seconds since midnight of the service day. -/
@[ext] structure Time where
  seconds : Nat
  fits : seconds < wordSize
deriving DecidableEq, Repr

/-- A length of time in seconds. -/
@[ext] structure Duration where
  seconds : Nat
  fits : seconds < wordSize
deriving DecidableEq, Repr

/-! ## Order -/

instance : LE Time := ⟨fun a b => a.seconds ≤ b.seconds⟩
instance : LT Time := ⟨fun a b => a.seconds < b.seconds⟩
instance : LE Duration := ⟨fun a b => a.seconds ≤ b.seconds⟩
instance : LT Duration := ⟨fun a b => a.seconds < b.seconds⟩

instance (a b : Time) : Decidable (a ≤ b) := Nat.decLe _ _
instance (a b : Time) : Decidable (a < b) := Nat.decLt _ _
instance (a b : Duration) : Decidable (a ≤ b) := Nat.decLe _ _
instance (a b : Duration) : Decidable (a < b) := Nat.decLt _ _

instance : Ord Time := ⟨fun a b => compare a.seconds b.seconds⟩
instance : Min Time := minOfLe
instance : Max Time := maxOfLe
instance : Min Duration := minOfLe
instance : Max Duration := maxOfLe

theorem Time.le_iff {a b : Time} : a ≤ b ↔ a.seconds ≤ b.seconds := Iff.rfl
theorem Time.lt_iff {a b : Time} : a < b ↔ a.seconds < b.seconds := Iff.rfl
theorem Duration.le_iff {a b : Duration} : a ≤ b ↔ a.seconds ≤ b.seconds := Iff.rfl
theorem Duration.lt_iff {a b : Duration} : a < b ↔ a.seconds < b.seconds := Iff.rfl

/-! ## Durations -/

namespace Duration

/-- No time at all. -/
def zero : Duration := ⟨0, by decide⟩

instance : Inhabited Duration := ⟨zero⟩

/-- The duration of `n` seconds, if they fit a word. -/
def ofSeconds? (n : Nat) : Option Duration :=
  if h : n < wordSize then some ⟨n, h⟩ else none

/-- The duration of `n` periods of `period` seconds each. -/
def periods (period n : Nat) : Except Fault Duration :=
  if h : n * period < wordSize then .ok ⟨n * period, h⟩ else .error .multiplication

/-- The duration of `n` minutes. -/
def ofMinutes (n : Nat) : Except Fault Duration := periods 60 n

/-- The duration of `n` hours. -/
def ofHours (n : Nat) : Except Fault Duration := periods 3600 n

/-- The duration of `n` days. -/
def ofDays (n : Nat) : Except Fault Duration := periods 86400 n

/-- One duration after the other. -/
def add (a b : Duration) : Except Fault Duration :=
  if h : a.seconds + b.seconds < wordSize then .ok ⟨a.seconds + b.seconds, h⟩
  else .error .addition

/-- What is left of `a` once `b` has passed. -/
def sub (a b : Duration) : Except Fault Duration :=
  if b.seconds ≤ a.seconds then
    .ok ⟨a.seconds - b.seconds, Nat.lt_of_le_of_lt (Nat.sub_le ..) a.fits⟩
  else .error .subtraction

/-- The total of a list of durations, added from the left. -/
def total (ds : List Duration) : Except Fault Duration := ds.foldlM add zero

/-- The number of seconds as a floating-point number; a word is exact there. -/
def toFloat (d : Duration) : Float := (UInt32.ofNat d.seconds).toFloat

end Duration

/-! ## Times -/

namespace Time

/-- The time `n` seconds after midnight, if they fit a word. -/
def ofSeconds? (n : Nat) : Option Time :=
  if h : n < wordSize then some ⟨n, h⟩ else none

/-- The time reached when `d` has passed. -/
def add (t : Time) (d : Duration) : Except Fault Time :=
  if h : t.seconds + d.seconds < wordSize then .ok ⟨t.seconds + d.seconds, h⟩
  else .error .addition

/-- The time from which `d` leads to `t`. -/
def sub (t : Time) (d : Duration) : Except Fault Time :=
  if d.seconds ≤ t.seconds then
    .ok ⟨t.seconds - d.seconds, Nat.lt_of_le_of_lt (Nat.sub_le ..) t.fits⟩
  else .error .subtraction

/-- The time from which `d` leads to `t`, or midnight if that lies before it. -/
def monus (t : Time) (d : Duration) : Time :=
  ⟨t.seconds - d.seconds, Nat.lt_of_le_of_lt (Nat.sub_le ..) t.fits⟩

/-- The duration from `earlier` to `t`, if `earlier` is not after `t`. -/
def since? (t earlier : Time) : Option Duration :=
  if earlier.seconds ≤ t.seconds then
    some ⟨t.seconds - earlier.seconds, Nat.lt_of_le_of_lt (Nat.sub_le ..) t.fits⟩
  else none

/-- The duration from `earlier` to `t`. -/
def since (t earlier : Time) : Except Fault Duration :=
  match t.since? earlier with
  | some d => .ok d
  | none => .error .subtraction

end Time

/-! ## What the operations do to the seconds -/

theorem Duration.ofSeconds?_eq_some_iff {n : Nat} {d : Duration} :
    ofSeconds? n = some d ↔ n = d.seconds := by
  have hd := d.fits
  unfold ofSeconds?
  split
  · simp [Duration.ext_iff]
  · simp only [reduceCtorEq, false_iff]; omega

theorem Duration.add_eq_ok_iff {a b c : Duration} :
    a.add b = .ok c ↔ a.seconds + b.seconds = c.seconds := by
  have hc := c.fits
  unfold Duration.add
  split
  · simp [Duration.ext_iff]
  · simp only [reduceCtorEq, false_iff]; omega

theorem Duration.sub_eq_ok_iff {a b c : Duration} :
    a.sub b = .ok c ↔ a.seconds = c.seconds + b.seconds := by
  unfold Duration.sub
  split
  · simp only [Except.ok.injEq, Duration.ext_iff]; omega
  · simp only [reduceCtorEq, false_iff]; omega

theorem Time.add_eq_ok_iff {t u : Time} {d : Duration} :
    t.add d = .ok u ↔ t.seconds + d.seconds = u.seconds := by
  have hu := u.fits
  unfold Time.add
  split
  · simp [Time.ext_iff]
  · simp only [reduceCtorEq, false_iff]; omega

theorem Time.since?_eq_some_iff {t u : Time} {d : Duration} :
    t.since? u = some d ↔ t.seconds = u.seconds + d.seconds := by
  unfold Time.since?
  split
  · simp only [Option.some.injEq, Duration.ext_iff]; omega
  · simp only [reduceCtorEq, false_iff]; omega

end TransitTransfers
