import Mathlib.Data.List.Basic
import TransitTransfers.Json.Standard
import TransitTransfers.Proofs.Decimal.Digits

/-!
# Reading what is written

The pieces of the reader take a value from the front of a text and leave the
rest.  So whatever is written piece by piece is read piece by piece, as long
as a piece ends where it is meant to end.  Only a number could be read on: it
needs a text behind it that `Stops` it.

* `number_eq_some_iff` says what a number is made of, and `number_append` that
  what follows it is left where it is.
* `appends` says the same of all values.  It goes by the depth of the recursion,
  one case for each function of the reader.  `value_of_read` draws from it that
  a text which is read by itself is also read as a part of another one.
* Whole texts are the words (`read_bool`, `read_null`), the integers (`read_nat`,
  `read_int`), and the objects of texts that are read (`read_object`).
-/

namespace TransitTransfers.Json

namespace Reader

/-! ## Numbers -/

/-- A text that cannot go on a number in front of it. -/
def Stops (rest : List Char) : Prop :=
  ∀ c ∈ rest.head?, Digits.isDigit c = false ∧ c ≠ '.' ∧ c ≠ 'e' ∧ c ≠ 'E'

theorem digits_eq_some_iff {chars run rest : List Char} :
    digits chars = some (run, rest) ↔ run ≠ [] ∧ chars = run ++ rest ∧
      (∀ c ∈ run, Digits.isDigit c = true) ∧ ∀ c ∈ rest.head?, Digits.isDigit c = false := by
  have hsplit : digits chars = some (run, rest) ↔
      run ≠ [] ∧ chars.takeWhile Digits.isDigit = run ∧ chars.dropWhile Digits.isDigit = rest := by
    unfold digits
    cases chars.takeWhile Digits.isDigit with
    | nil =>
      constructor
      · rintro ⟨⟩
      · rintro ⟨hsome, rfl, -⟩
        exact absurd rfl hsome
    | cons c front =>
      constructor
      · rintro ⟨⟩
        exact ⟨List.cons_ne_nil c front, rfl, rfl⟩
      · rintro ⟨-, rfl, rfl⟩
        rfl
  rw [hsplit]
  refine and_congr_right fun _ => ?_
  constructor
  · rintro ⟨rfl, rfl⟩
    refine ⟨List.takeWhile_append_dropWhile.symm, List.all_eq_true.mp List.all_takeWhile, ?_⟩
    intro c hc
    have hstop := List.head?_dropWhile_not Digits.isDigit chars
    rw [Option.mem_def.mp hc] at hstop
    exact hstop
  · rintro ⟨rfl, hrun, hrest⟩
    rw [List.takeWhile_append_of_pos hrun, List.dropWhile_append_of_pos hrun]
    cases rest with
    | nil => exact ⟨List.append_nil run, rfl⟩
    | cons c rest =>
      have hc := hrest c rfl
      rw [List.takeWhile_cons, List.dropWhile_cons, hc]
      exact ⟨List.append_nil run, rfl⟩

/-- More text behind digits is left where it is, if it does not go on with
digits. -/
theorem digits_append {chars run rest more : List Char} (h : digits chars = some (run, rest))
    (hmore : rest = [] → Stops more) : digits (chars ++ more) = some (run, rest ++ more) := by
  rw [digits_eq_some_iff] at h ⊢
  obtain ⟨hsome, rfl, hrun, hrest⟩ := h
  refine ⟨hsome, List.append_assoc .., hrun, ?_⟩
  cases rest with
  | nil =>
    intro c hc
    exact (hmore rfl c hc).1
  | cons c rest => exact hrest

theorem fraction_cons (c : Char) (rest : List Char) :
    fraction (c :: rest) = if c = '.' then digits rest else some ([], c :: rest) := by
  by_cases hpoint : c = '.'
  · rw [if_pos hpoint, hpoint]
    rfl
  · rw [if_neg hpoint]
    unfold fraction
    split
    · next hcons => exact absurd (List.cons.inj hcons).1 hpoint
    · rfl

theorem fraction_of_stops {rest : List Char} (h : Stops rest) :
    fraction rest = some ([], rest) := by
  cases rest with
  | nil => rfl
  | cons c rest => rw [fraction_cons, if_neg (h c rfl).2.1]

theorem fraction_append {chars places rest more : List Char}
    (h : fraction chars = some (places, rest)) (hmore : rest = [] → Stops more) :
    fraction (chars ++ more) = some (places, rest ++ more) := by
  cases chars with
  | nil =>
    cases h
    exact fraction_of_stops (hmore rfl)
  | cons c chars =>
    rw [List.cons_append, fraction_cons] at *
    by_cases hpoint : c = '.'
    · rw [if_pos hpoint] at h ⊢
      exact digits_append h hmore
    · rw [if_neg hpoint] at h ⊢
      cases h
      rfl

/-- The sign of an exponent, and its digits behind it. -/
def sign : List Char → Bool × List Char
  | '-' :: rest => (true, rest)
  | '+' :: rest => (false, rest)
  | rest => (false, rest)

theorem sign_cons (c : Char) (rest : List Char) :
    sign (c :: rest) =
      if c = '-' then (true, rest) else if c = '+' then (false, rest) else (false, c :: rest) := by
  by_cases hminus : c = '-'
  · rw [if_pos hminus, hminus]
    rfl
  · by_cases hplus : c = '+'
    · rw [if_neg hminus, if_pos hplus, hplus]
      rfl
    · rw [if_neg hminus, if_neg hplus]
      unfold sign
      split
      · next hcons => exact absurd (List.cons.inj hcons).1 hminus
      · next hcons => exact absurd (List.cons.inj hcons).1 hplus
      · rfl

theorem exponent_cons (e : Char) (rest : List Char) :
    exponent (e :: rest) =
      if e = 'e' ∨ e = 'E' then do
        let (run, after) ← digits (sign rest).2
        let value : Int := (← Digits.value? run)
        return (some (if (sign rest).1 then -value else value), after)
      else some (none, e :: rest) := by
  by_cases he : e = 'e' ∨ e = 'E'
  · rw [if_pos he]
    cases rest with
    | nil =>
      simp only [exponent, if_pos he, sign]
      rfl
    | cons c rest =>
      rw [sign_cons]
      simp only [exponent, if_pos he]
      by_cases hminus : c = '-'
      · subst hminus
        rfl
      · by_cases hplus : c = '+'
        · subst hplus
          rfl
        · rw [if_neg hminus, if_neg hplus]
          split
          · next hcons => exact absurd (List.cons.inj hcons).1 hminus
          · next hcons => exact absurd (List.cons.inj hcons).1 hplus
          · rfl
  · simp only [exponent, if_neg he]

theorem exponent_of_stops {rest : List Char} (h : Stops rest) :
    exponent rest = some (none, rest) := by
  cases rest with
  | nil => rfl
  | cons c rest =>
    obtain ⟨-, -, he, hE⟩ := h c rfl
    rw [exponent_cons, if_neg (by simp [he, hE])]

theorem sign_append {chars : List Char} (h : chars ≠ []) (more : List Char) :
    sign (chars ++ more) = ((sign chars).1, (sign chars).2 ++ more) := by
  cases chars with
  | nil => exact absurd rfl h
  | cons c chars =>
    rw [List.cons_append, sign_cons, sign_cons]
    split
    · rfl
    · split <;> rfl

theorem exponent_append {chars rest more : List Char} {power : Option Int}
    (h : exponent chars = some (power, rest)) (hmore : rest = [] → Stops more) :
    exponent (chars ++ more) = some (power, rest ++ more) := by
  cases chars with
  | nil =>
    cases h
    exact exponent_of_stops (hmore rfl)
  | cons e chars =>
    rw [List.cons_append, exponent_cons] at *
    by_cases he : e = 'e' ∨ e = 'E'
    · rw [if_pos he] at h ⊢
      obtain ⟨⟨run, after⟩, hrun, h⟩ := Option.bind_eq_some_iff.mp h
      obtain ⟨value, hvalue, h⟩ := Option.bind_eq_some_iff.mp h
      cases h
      have hsome : chars ≠ [] := by
        rintro rfl
        cases hrun
      rw [sign_append hsome, digits_append hrun hmore]
      simp only [Option.bind_eq_bind, Option.bind_some, hvalue]
      rfl
    · rw [if_neg he] at h ⊢
      cases h
      rfl

/-- A minus sign in front of a number, and the number without it. -/
def minus : List Char → Bool × List Char
  | '-' :: rest => (true, rest)
  | rest => (false, rest)

theorem minus_cons (c : Char) (rest : List Char) :
    minus (c :: rest) = if c = '-' then (true, rest) else (false, c :: rest) := by
  by_cases hminus : c = '-'
  · rw [if_pos hminus, hminus]
    rfl
  · rw [if_neg hminus]
    unfold minus
    split
    · next hcons => exact absurd (List.cons.inj hcons).1 hminus
    · rfl

/-- A number is made of its sign, its whole part, its fraction and its
exponent. -/
theorem number_eq_some_iff {chars rest : List Char} {n : Numeral} :
    number chars = some (n, rest) ↔ ∃ whole afterWhole places afterPlaces power mantissa,
      digits (minus chars).2 = some (whole, afterWhole) ∧
        ¬(whole.head? = some '0' ∧ whole.length ≠ 1) ∧
          fraction afterWhole = some (places, afterPlaces) ∧
            exponent afterPlaces = some (power, rest) ∧
              Digits.value? (whole ++ trimZeros places) = some mantissa ∧
                n = ⟨(minus chars).1, mantissa, power.getD 0 - (trimZeros places).length,
                  places.isEmpty && power.isNone⟩ := by
  have hnumber : number chars = (digits (minus chars).2).bind fun split =>
      if split.1.head? = some '0' ∧ split.1.length ≠ 1 then none
      else (fraction split.2).bind fun placed => (exponent placed.2).bind fun powered =>
        (Digits.value? (split.1 ++ trimZeros placed.1)).bind fun mantissa =>
          some (⟨(minus chars).1, mantissa, powered.1.getD 0 - (trimZeros placed.1).length,
            placed.1.isEmpty && powered.1.isNone⟩, powered.2) := by
    cases chars with
    | nil => rfl
    | cons c chars =>
      by_cases hminus : c = '-'
      · subst hminus
        rfl
      · rw [minus_cons, if_neg hminus, number]
        · rfl
        · intro rest hcons
          exact hminus (List.cons.inj hcons).1
  rw [hnumber]
  simp only [Option.bind_eq_some_iff, Prod.exists]
  constructor
  · rintro ⟨whole, afterWhole, hwhole, h⟩
    split at h
    · cases h
    · next hzero =>
      simp only [Option.bind_eq_some_iff, Prod.exists] at h
      obtain ⟨places, afterPlaces, hplaces, power, _, hpower, mantissa, hmantissa, h⟩ := h
      cases h
      exact ⟨whole, afterWhole, places, afterPlaces, power, mantissa, hwhole, hzero, hplaces,
        hpower, hmantissa, rfl⟩
  · rintro ⟨whole, afterWhole, places, afterPlaces, power, mantissa, hwhole, hzero, hplaces,
      hpower, hmantissa, rfl⟩
    refine ⟨whole, afterWhole, hwhole, ?_⟩
    rw [if_neg hzero]
    simp only [Option.bind_eq_some_iff, Prod.exists]
    exact ⟨places, afterPlaces, hplaces, power, rest, hpower, mantissa, hmantissa, rfl⟩

theorem minus_append {chars : List Char} (h : chars ≠ []) (more : List Char) :
    minus (chars ++ more) = ((minus chars).1, (minus chars).2 ++ more) := by
  cases chars with
  | nil => exact absurd rfl h
  | cons c chars =>
    rw [List.cons_append, minus_cons, minus_cons]
    split <;> rfl

/-- What follows a number is left where it is, if it cannot go on the number. -/
theorem number_append {chars rest more : List Char} {n : Numeral}
    (h : number chars = some (n, rest)) (hmore : rest = [] → Stops more) :
    number (chars ++ more) = some (n, rest ++ more) := by
  rw [number_eq_some_iff] at h ⊢
  obtain ⟨whole, afterWhole, places, afterPlaces, power, mantissa, hwhole, hzero, hplaces,
    hpower, hmantissa, rfl⟩ := h
  have hsome : chars ≠ [] := by
    rintro rfl
    cases hwhole
  -- A part that takes the text to its end leaves none for the parts behind it.
  have hafterPlaces : afterPlaces = [] → Stops more := by
    rintro rfl
    cases hpower
    exact hmore rfl
  have hafterWhole : afterWhole = [] → Stops more := by
    rintro rfl
    cases hplaces
    exact hafterPlaces rfl
  rw [minus_append hsome]
  exact ⟨whole, afterWhole ++ more, places, afterPlaces ++ more, power, mantissa,
    digits_append hwhole hafterWhole, hzero, fraction_append hplaces hafterPlaces,
    exponent_append hpower hmore, hmantissa, rfl⟩

/-! ## Values -/

theorem skipBlanks_append {chars : List Char} (h : skipBlanks chars ≠ []) (more : List Char) :
    skipBlanks (chars ++ more) = skipBlanks chars ++ more := by
  rw [skipBlanks, List.dropWhile_append, if_neg]
  · rfl
  · simpa [skipBlanks] using h

theorem skipBlanks_append_of_cons {c : Char} {chars rest : List Char}
    (h : skipBlanks chars = c :: rest) (more : List Char) :
    skipBlanks (chars ++ more) = c :: (rest ++ more) := by
  rw [skipBlanks_append (by rw [h]; exact List.cons_ne_nil c rest), h, List.cons_append]

theorem skipBlanks_append_of_nil {chars : List Char} (h : skipBlanks chars = [])
    (more : List Char) : skipBlanks (chars ++ more) = skipBlanks more := by
  rw [skipBlanks, List.dropWhile_append, if_pos]
  · rfl
  · simpa [skipBlanks] using h

/-- A number starts with a minus sign or a digit. -/
theorem number_head {chars rest : List Char} {n : Numeral} (h : number chars = some (n, rest)) :
    ∃ c chars', chars = c :: chars' ∧ (c = '-' ∨ Digits.isDigit c = true) := by
  obtain ⟨whole, afterWhole, _, _, _, _, hwhole, -⟩ := number_eq_some_iff.mp h
  cases chars with
  | nil => cases hwhole
  | cons c chars =>
    refine ⟨c, chars, rfl, ?_⟩
    by_cases hminus : c = '-'
    · exact Or.inl hminus
    · rw [minus_cons, if_neg hminus] at hwhole
      obtain ⟨hsome, hsplit, hdigits, -⟩ := digits_eq_some_iff.mp hwhole
      cases whole with
      | nil => exact absurd rfl hsome
      | cons d whole =>
        obtain ⟨rfl, -⟩ := List.cons.inj hsplit
        exact Or.inr (hdigits c List.mem_cons_self)

/-- A number is read as a value. -/
theorem value_of_number {depth : Nat} {chars rest : List Char} {n : Numeral}
    (h : number (skipBlanks chars) = some (n, rest)) :
    value (depth + 1) chars = some (.number n, rest) := by
  obtain ⟨c, chars', hchars, hc⟩ := number_head h
  rw [value, hchars]
  -- No other value starts like a number.
  split <;> try
    next hcons =>
      obtain ⟨rfl, -⟩ := List.cons.inj hcons
      exact absurd hc (by decide)
  rw [← hchars, h]
  rfl

/-! ## What follows a value -/

/-- What follows the closing quote of a string is left where it is. -/
theorem stringUnits_append {chars : List Char} {units : List StringUnit} {rest : List Char}
    (h : stringUnits chars = some (units, rest)) (more : List Char) :
    stringUnits (chars ++ more) = some (units, rest ++ more) := by
  fun_induction stringUnits chars generalizing units rest with
  | case1 => cases h
  | case2 rest' =>
    cases h
    rfl
  | case3 a b c d rest' ih =>
    obtain ⟨code, hcode, h⟩ := Option.bind_eq_some_iff.mp h
    obtain ⟨⟨units', after⟩, hunits, h⟩ := Option.bind_eq_some_iff.mp h
    cases h
    simp only [List.cons_append, stringUnits, hcode, ih hunits]
    rfl
  | case4 e rest' hne ih =>
    obtain ⟨escaped, hescaped, h⟩ := Option.bind_eq_some_iff.mp h
    obtain ⟨⟨units', after⟩, hunits, h⟩ := Option.bind_eq_some_iff.mp h
    cases h
    have hcode : e ≠ 'u' := by
      rintro rfl
      cases hescaped
    rw [List.cons_append, List.cons_append, stringUnits, hescaped, ih hunits]
    · rfl
    · intro a b c d rest he
      exact absurd he hcode
  | case5 c rest' hquote hcode hescape hrefused => cases h
  | case6 c rest' hquote hcode hescape hallowed ih =>
    obtain ⟨⟨units', after⟩, hunits, h⟩ := Option.bind_eq_some_iff.mp h
    cases h
    rw [not_or] at hallowed
    rw [List.cons_append, stringUnits, if_neg (not_or.mpr hallowed), ih hunits]
    · rfl
    · exact hquote
    · intro a b c d rest hc
      exact absurd hc hallowed.2
    · intro e rest hc
      exact absurd hc hallowed.2

theorem string_append {chars : List Char} {text : Option String} {rest : List Char}
    (h : string chars = some (text, rest)) (more : List Char) :
    string (chars ++ more) = some (text, rest ++ more) := by
  obtain ⟨⟨units, after⟩, hunits, h⟩ := Option.map_eq_some_iff.mp h
  cases h
  rw [string, stringUnits_append hunits]
  rfl

/-- A function of the reader leaves what follows where it is, if that cannot go on a
number, and may go deeper than it has to. -/
def Appends {α : Type} (depth : Nat) (read : Nat → List Char → Option (α × List Char)) : Prop :=
  ∀ {chars found rest}, read depth chars = some (found, rest) →
    ∀ {deeper more}, depth ≤ deeper → (rest = [] → Stops more) →
      read deeper (chars ++ more) = some (found, rest ++ more)

section Values

variable {depth : Nat} {chars rest after : List Char}

theorem value_array_nil (h : skipBlanks chars = '[' :: rest)
    (hrest : skipBlanks rest = ']' :: after) :
    value (depth + 1) chars = some (.array [], after) := by
  simp only [value, h, hrest]

theorem value_array (h : skipBlanks chars = '[' :: rest)
    (hrest : ∀ after, skipBlanks rest ≠ ']' :: after) :
    value (depth + 1) chars =
      (items depth rest).map fun (found, rest) => (.array found, rest) := by
  simp only [value, h]

theorem value_object_nil (h : skipBlanks chars = '\x7b' :: rest)
    (hrest : skipBlanks rest = '\x7d' :: after) :
    value (depth + 1) chars = some (.object [], after) := by
  simp only [value, h, hrest]

theorem value_object (h : skipBlanks chars = '\x7b' :: rest)
    (hrest : ∀ after, skipBlanks rest ≠ '\x7d' :: after) :
    value (depth + 1) chars =
      (members depth rest).map fun (found, rest) => (.object found, rest) := by
  simp only [value, h]

theorem value_string (h : skipBlanks chars = '"' :: rest) :
    value (depth + 1) chars = (string rest).map fun (text, rest) => (.string text, rest) := by
  rw [value, h]
  rfl

theorem value_eq_none (h : skipBlanks chars = []) : value depth chars = none := by
  cases depth with
  | zero => rw [value]
  | succ depth =>
    rw [value, h]
    rfl

theorem items_eq_none (h : skipBlanks chars = []) : items depth chars = none := by
  cases depth with
  | zero => rw [items]
  | succ depth =>
    rw [items, value_eq_none h]
    rfl

theorem members_eq_none (h : skipBlanks chars = []) : members depth chars = none := by
  cases depth with
  | zero => rw [members]
  | succ depth => rw [members, h]

theorem skipBlanks_append_ne {c : Char} (hsome : skipBlanks chars ≠ [])
    (h : ∀ rest, skipBlanks chars ≠ c :: rest) (more : List Char) :
    ∀ rest, skipBlanks (chars ++ more) ≠ c :: rest := by
  intro rest hcons
  rw [skipBlanks_append hsome] at hcons
  cases hchars : skipBlanks chars with
  | nil => exact hsome hchars
  | cons first behind =>
    rw [hchars] at hcons
    exact h behind ((List.cons.inj hcons).1 ▸ hchars)

theorem value_appends (hitems : Appends depth items) (hmembers : Appends depth members) :
    Appends (depth + 1) value := by
  intro chars found rest h deeper more hdeeper hmore
  obtain ⟨deeper, rfl⟩ := Nat.exists_eq_add_one_of_ne_zero (show deeper ≠ 0 by omega)
  have hsome : skipBlanks chars ≠ [] := by
    intro hnone
    rw [value_eq_none hnone] at h
    cases h
  -- The first character that is no blank tells the kinds of values apart.
  rw [value] at h
  split at h
  · next behind hbracket =>
    have hfirst := skipBlanks_append_of_cons hbracket more
    split at h
    · next after hclosed =>
      cases h
      exact value_array_nil hfirst (skipBlanks_append_of_cons hclosed more)
    · next hopen =>
      obtain ⟨⟨found, after⟩, hfound, h⟩ := Option.map_eq_some_iff.mp h
      cases h
      have hinner : skipBlanks behind ≠ [] := by
        intro hnone
        rw [items_eq_none hnone] at hfound
        cases hfound
      rw [value_array hfirst (skipBlanks_append_ne hinner hopen more),
        hitems hfound (by omega) hmore]
      rfl
  · next behind hbrace =>
    have hfirst := skipBlanks_append_of_cons hbrace more
    split at h
    · next after hclosed =>
      cases h
      exact value_object_nil hfirst (skipBlanks_append_of_cons hclosed more)
    · next hopen =>
      obtain ⟨⟨found, after⟩, hfound, h⟩ := Option.map_eq_some_iff.mp h
      cases h
      have hinner : skipBlanks behind ≠ [] := by
        intro hnone
        rw [members_eq_none hnone] at hfound
        cases hfound
      rw [value_object hfirst (skipBlanks_append_ne hinner hopen more),
        hmembers hfound (by omega) hmore]
      rfl
  · next behind hquote =>
    obtain ⟨⟨text, after⟩, hstring, h⟩ := Option.map_eq_some_iff.mp h
    cases h
    rw [value_string (skipBlanks_append_of_cons hquote more), string_append hstring]
    rfl
  · next behind hword =>
    cases h
    rw [value, skipBlanks_append_of_cons hword]
    rfl
  · next behind hword =>
    cases h
    rw [value, skipBlanks_append_of_cons hword]
    rfl
  · next behind hword =>
    cases h
    rw [value, skipBlanks_append_of_cons hword]
    rfl
  · obtain ⟨⟨n, after⟩, hnumber, h⟩ := Option.map_eq_some_iff.mp h
    cases h
    refine value_of_number ?_
    rw [skipBlanks_append hsome]
    exact number_append hnumber hmore

theorem items_appends (hvalue : Appends depth value) (hitems : Appends depth items) :
    Appends (depth + 1) items := by
  intro chars found rest h deeper more hdeeper hmore
  obtain ⟨deeper, rfl⟩ := Nat.exists_eq_add_one_of_ne_zero (show deeper ≠ 0 by omega)
  rw [items] at h
  obtain ⟨⟨first, behind⟩, hfirst, h⟩ := Option.bind_eq_some_iff.mp h
  have hbehind : skipBlanks behind ≠ [] := by
    intro hnone
    simp only [hnone] at h
    cases h
  have hvalue : value deeper (chars ++ more) = some (first, behind ++ more) := by
    refine hvalue hfirst (by omega) ?_
    rintro rfl
    exact absurd rfl hbehind
  rw [items, hvalue]
  simp only [Option.bind_eq_bind, Option.bind_some] at h ⊢
  split at h
  · next after hclosed =>
    cases h
    rw [skipBlanks_append_of_cons hclosed]
    rfl
  · next after hcomma =>
    obtain ⟨⟨others, after⟩, hothers, h⟩ := Option.bind_eq_some_iff.mp h
    cases h
    rw [skipBlanks_append_of_cons hcomma]
    show (items deeper (_ ++ more)).bind _ = _
    rw [hitems hothers (by omega) hmore]
    rfl
  · cases h

theorem members_appends (hvalue : Appends depth value) (hmembers : Appends depth members) :
    Appends (depth + 1) members := by
  intro chars found rest h deeper more hdeeper hmore
  obtain ⟨deeper, rfl⟩ := Nat.exists_eq_add_one_of_ne_zero (show deeper ≠ 0 by omega)
  rw [members] at h
  split at h
  · next named hquote =>
    obtain ⟨⟨key, afterKey⟩, hkey, h⟩ := Option.bind_eq_some_iff.mp h
    dsimp only at h
    split at h
    · next valued hcolon =>
      obtain ⟨⟨first, behind⟩, hfirst, h⟩ := Option.bind_eq_some_iff.mp h
      have hbehind : skipBlanks behind ≠ [] := by
        intro hnone
        simp only [hnone] at h
        cases h
      have hvalue : value deeper (valued ++ more) = some (first, behind ++ more) := by
        refine hvalue hfirst (by omega) ?_
        rintro rfl
        exact absurd rfl hbehind
      rw [members, skipBlanks_append_of_cons hquote]
      show (string (named ++ more)).bind _ = _
      rw [string_append hkey, Option.bind_some]
      dsimp only
      rw [skipBlanks_append_of_cons hcolon]
      show (value deeper (valued ++ more)).bind _ = _
      rw [hvalue, Option.bind_some]
      dsimp only at h ⊢
      split at h
      · next after hclosed =>
        cases h
        rw [skipBlanks_append_of_cons hclosed]
        rfl
      · next after hcomma =>
        obtain ⟨⟨others, after⟩, hothers, h⟩ := Option.bind_eq_some_iff.mp h
        cases h
        rw [skipBlanks_append_of_cons hcomma]
        show (members deeper (_ ++ more)).bind _ = _
        rw [hmembers hothers (by omega) hmore]
        rfl
      · cases h
    · cases h
  · cases h

/-- Whatever is read leaves what follows where it is. -/
theorem appends (depth : Nat) :
    Appends depth value ∧ Appends depth items ∧ Appends depth members := by
  induction depth with
  | zero =>
    refine ⟨fun h => ?_, fun h => ?_, fun h => ?_⟩
    · rw [value] at h
      cases h
    · rw [items] at h
      cases h
    · rw [members] at h
      cases h
  | succ depth ih =>
    obtain ⟨hvalue, hitems, hmembers⟩ := ih
    exact ⟨value_appends hitems hmembers, items_appends hvalue hitems,
      members_appends hvalue hmembers⟩

end Values

/-! ## Whole texts -/

/-- What is read on its own is read in front of other text. -/
theorem value_of_read {text : String} {json : Json} (h : read text = some json) :
    ∃ behind, skipBlanks behind = [] ∧ ∀ {depth more}, 2 * text.toList.length + 1 ≤ depth →
      Stops more → value depth (text.toList ++ more) = some (json, behind ++ more) := by
  obtain ⟨⟨found, behind⟩, hvalue, h⟩ := Option.bind_eq_some_iff.mp h
  dsimp only at h
  split at h
  · next hblank =>
    cases h
    exact ⟨behind, List.isEmpty_iff.mp hblank,
      fun hdepth hmore => (appends _).1 hvalue hdepth fun _ => hmore⟩
  · cases h

theorem read_of_value {text : String} {json : Json} {rest : List Char}
    (h : value (2 * text.toList.length + 1) text.toList = some (json, rest))
    (hrest : skipBlanks rest = []) : read text = some json := by
  refine Option.bind_eq_some_iff.mpr ⟨(json, rest), h, ?_⟩
  simp only [hrest]
  rfl

theorem read_of_number {text : String} {n : Numeral} (h : number text.toList = some (n, [])) :
    read text = some (.number n) := by
  obtain ⟨c, rest, hchars, hc⟩ := number_head h
  have hblank : isBlank c = false := by
    rcases hc with rfl | hdigit
    · rfl
    · cases hblank : isBlank c with
      | false => rfl
      | true =>
        simp only [isBlank, Bool.or_eq_true, decide_eq_true_eq] at hblank
        rcases hblank with ((rfl | rfl) | rfl) | rfl <;> exact absurd hdigit (by decide)
  have hskip : skipBlanks text.toList = text.toList := by
    rw [hchars, skipBlanks, List.dropWhile_cons, hblank]
    rfl
  exact read_of_value (value_of_number (hskip.symm ▸ h)) rfl

theorem read_bool (x : Bool) : read (if x then "true" else "false") = some (.bool x) := by
  cases x <;> rfl

theorem read_null : read "null" = some .null := rfl

/-! ## Integers -/

theorem isDigit_eq (c : Char) : Digits.isDigit c = c.isDigit := by
  rw [Digits.isDigit, Digits.digit?_eq]
  cases c.isDigit <;> rfl

theorem denotes_ofNat (n : Nat) : Digits.Denotes (Digits.ofNat n) n := by
  have h := Digits.denotes_padded 0 n
  rwa [Digits.padded, Nat.zero_sub, List.replicate_zero, List.nil_append] at h

/-- The digits of a number start with a zero only if it is the number zero. -/
theorem eq_zero_of_head {n : Nat} (h : (Digits.ofNat n).head? = some '0') : n = 0 := by
  induction n using Nat.strongRecOn with
  | ind n ih =>
    rw [Digits.ofNat] at h
    by_cases hn : n < 10
    · rw [Nat.toDigits_of_lt_base hn] at h
      have hsmall : ∀ digit < 10, digit.digitChar = '0' → digit = 0 := by decide
      exact hsmall n hn (Option.some.inj h)
    · rw [Nat.toDigits_of_base_le (by decide) (by omega),
        List.head?_append_of_ne_nil _ Nat.toDigits_ne_nil] at h
      have hless := ih (n / 10) (by omega) h
      omega

/-- The digits of a number, behind its sign, are read as this number. -/
theorem number_ofNat (negative : Bool) (n : Nat) :
    number ((if negative then ['-'] else []) ++ Digits.ofNat n) =
      some (⟨negative, n, 0, true⟩, []) := by
  have hdenotes := denotes_ofNat n
  have hdigits : digits (Digits.ofNat n) = some (Digits.ofNat n, []) := by
    refine digits_eq_some_iff.mpr ⟨hdenotes.ne_nil, (List.append_nil _).symm, ?_, ?_⟩
    · intro c hc
      rw [isDigit_eq]
      exact hdenotes.isDigit c hc
    · rintro c ⟨⟩
  have hzero : ¬((Digits.ofNat n).head? = some '0' ∧ (Digits.ofNat n).length ≠ 1) := by
    rintro ⟨hhead, hlength⟩
    rw [eq_zero_of_head hhead] at hlength
    exact hlength rfl
  have hminus : minus ((if negative then ['-'] else []) ++ Digits.ofNat n) =
      (negative, Digits.ofNat n) := by
    cases negative with
    | true => rfl
    | false =>
      rw [if_neg Bool.false_ne_true, List.nil_append]
      have hhead : ∀ c ∈ (Digits.ofNat n), c ≠ '-' := by
        rintro c hc rfl
        exact hdenotes.not_mem (by decide) hc
      cases hchars : Digits.ofNat n with
      | nil => exact absurd hchars hdenotes.ne_nil
      | cons c rest =>
        rw [hchars] at hhead
        rw [minus_cons, if_neg (hhead c List.mem_cons_self)]
  rw [number_eq_some_iff, hminus]
  refine ⟨Digits.ofNat n, [], [], [], none, n, hdigits, hzero, rfl, rfl, ?_, rfl⟩
  show Digits.value? (Digits.ofNat n ++ []) = some n
  rw [List.append_nil, Digits.value?_eq_some_iff]
  exact hdenotes

theorem read_nat (n : Nat) : read (toString n) = some (.number ⟨false, n, 0, true⟩) := by
  refine read_of_number ?_
  rw [Nat.toString_eq_repr, Nat.toList_repr]
  exact number_ofNat false n

/-- An integer is read as a numeral that stands for it. -/
theorem read_int (x : Int) :
    ∃ n : Numeral, read (toString x) = some (.number n) ∧ n.toInt? = some x := by
  rw [Int.toString_eq_repr, Int.repr_eq_if]
  by_cases hx : 0 ≤ x
  · rw [if_pos hx]
    refine ⟨⟨false, x.toNat, 0, true⟩, read_of_number ?_, ?_⟩
    · rw [Nat.toList_repr]
      exact number_ofNat false x.toNat
    · simp [Numeral.toInt?, Int.toNat_of_nonneg hx]
  · rw [if_neg hx]
    refine ⟨⟨true, (-x).toNat, 0, true⟩, read_of_number ?_, ?_⟩
    · rw [String.toList_append, Nat.toList_repr]
      exact number_ofNat true (-x).toNat
    · have hsome : (-x).toNat ≠ 0 := by omega
      simp [Numeral.toInt?, hsome]
      omega

/-! ## Objects -/

theorem stringUnits_plain {chars : List Char} (hplain : ∀ c ∈ chars, isPlain c = true)
    (rest : List Char) :
    stringUnits (chars ++ '"' :: rest) = some (chars.map .char, rest) := by
  induction chars with
  | nil => rfl
  | cons c chars ih =>
    rw [List.forall_mem_cons] at hplain
    have hc := hplain.1
    simp only [isPlain, Bool.and_eq_true, decide_eq_true_eq] at hc
    obtain ⟨⟨hcontrol, hquote⟩, hescape⟩ := hc
    rw [List.cons_append, stringUnits]
    · rw [if_neg (by simp [hescape]; omega), ih hplain.2]
      rfl
    · exact hquote
    · intro _ _ _ _ _ hc
      exact absurd hc hescape
    · intro _ _ hc
      exact absurd hc hescape

theorem unitsText_chars (chars : List Char) : unitsText (chars.map .char) = some chars := by
  induction chars with
  | nil => rfl
  | cons c chars ih => rw [List.map_cons, unitsText, ih, Option.map_some]

theorem string_plain {name : String} (hplain : ∀ c ∈ name.toList, isPlain c = true)
    (rest : List Char) : string (name.toList ++ '"' :: rest) = some (some name, rest) := by
  rw [string, stringUnits_plain hplain]
  simp only [Option.map_some, unitsText_chars, String.ofList_toList]

theorem stops_comma (rest : List Char) : Stops (',' :: rest) := by
  intro c hc
  obtain rfl := Option.some.inj hc
  decide

theorem stops_brace (rest : List Char) : Stops ('\x7d' :: rest) := by
  intro c hc
  obtain rfl := Option.some.inj hc
  decide

/-- A member that is written without blanks is read, and then what follows it. -/
theorem members_cons {depth : Nat} {name text : String} {stop : List Char} {json : Json}
    (hplain : ∀ c ∈ name.toList, isPlain c = true) (hread : read text = some json)
    (hdepth : 2 * text.toList.length + 1 ≤ depth) (hstop : Stops stop) :
    members (depth + 1) ('"' :: (name.toList ++ '"' :: ':' :: (text.toList ++ stop))) =
      match skipBlanks stop with
      | '\x7d' :: rest => some ([(some name, json)], rest)
      | ',' :: rest => do
        let (others, rest) ← members depth rest
        return ((some name, json) :: others, rest)
      | _ => none := by
  obtain ⟨behind, hbehind, hvalue⟩ := value_of_read hread
  have hquote : ∀ rest, skipBlanks ('"' :: rest) = '"' :: rest := fun _ => rfl
  have hcolon : ∀ rest, skipBlanks (':' :: rest) = ':' :: rest := fun _ => rfl
  rw [members, hquote]
  simp only [string_plain hplain, hcolon, hvalue hdepth hstop,
    skipBlanks_append_of_nil hbehind, Option.bind_eq_bind, Option.bind_some]
  rfl

/-- A member of an object, with the text of its value. -/
structure Entry where
  name : String
  text : String
  json : Json

namespace Entry

/-- The text of a member. -/
def write (entry : Entry) : String := "\"" ++ entry.name ++ "\":" ++ entry.text

/-- The name of a member stands for itself, and its text is read. -/
structure Sound (entry : Entry) : Prop where
  plain : ∀ c ∈ entry.name.toList, isPlain c = true
  read : read entry.text = some entry.json

def member (entry : Entry) : Option String × Json := (some entry.name, entry.json)

theorem toList_write (entry : Entry) (more : List Char) :
    entry.write.toList ++ more =
      '"' :: (entry.name.toList ++ '"' :: ':' :: (entry.text.toList ++ more)) := by
  simp [write]

theorem length_write (entry : Entry) :
    entry.write.toList.length = entry.name.toList.length + entry.text.toList.length + 3 := by
  have h := congrArg List.length (entry.toList_write [])
  simp only [List.append_nil, List.length_cons, List.length_append] at h
  omega

end Entry

/-- Members with commas between them are read one after the other. -/
theorem members_of_entries {entries : List Entry} (hsome : entries ≠ [])
    (hsound : ∀ entry ∈ entries, entry.Sound) {depth : Nat}
    (hdepth : 2 * (",".intercalate (entries.map Entry.write)).toList.length ≤ depth)
    (rest : List Char) :
    members depth ((",".intercalate (entries.map Entry.write)).toList ++ '\x7d' :: rest) =
      some (entries.map Entry.member, rest) := by
  induction entries generalizing depth with
  | nil => exact absurd rfl hsome
  | cons entry entries ih =>
    rw [List.forall_mem_cons] at hsound
    obtain ⟨⟨hplain, hread⟩, hsound⟩ := hsound
    cases entries with
    | nil =>
      rw [List.map_singleton, String.intercalate_singleton] at hdepth ⊢
      have hlength := entry.length_write
      obtain ⟨depth, rfl⟩ := Nat.exists_eq_add_one_of_ne_zero (show depth ≠ 0 by omega)
      rw [Entry.toList_write, members_cons hplain hread (by omega) (stops_brace rest)]
      rfl
    | cons other entries =>
      have hwritten : (",".intercalate ((entry :: other :: entries).map Entry.write)).toList =
          entry.write.toList ++
            ',' :: (",".intercalate ((other :: entries).map Entry.write)).toList := by
        rw [List.map_cons, List.map_cons, String.intercalate_cons_cons]
        simp
      have hlength := entry.length_write
      rw [hwritten, List.length_append, List.length_cons] at hdepth
      obtain ⟨depth, rfl⟩ := Nat.exists_eq_add_one_of_ne_zero (show depth ≠ 0 by omega)
      rw [hwritten, List.append_assoc, Entry.toList_write, List.cons_append,
        members_cons hplain hread (by omega) (stops_comma _)]
      show (do
        let (others, rest) ← members depth (_ ++ '\x7d' :: rest)
        return ((some entry.name, entry.json) :: others, rest)) = _
      rw [ih (List.cons_ne_nil other entries) hsound (by omega)]
      rfl

theorem exists_quote_of_entries {entries : List Entry} (hsome : entries ≠ []) :
    ∃ rest, (",".intercalate (entries.map Entry.write)).toList = '"' :: rest := by
  cases entries with
  | nil => exact absurd rfl hsome
  | cons entry entries =>
    cases entries with
    | nil => exact ⟨_, by simp [Entry.write]; rfl⟩
    | cons other entries => exact ⟨_, by simp [Entry.write, String.intercalate_cons_cons]; rfl⟩

/-- An object of members that are read is read. -/
theorem read_object {entries : List Entry} (hsome : entries ≠ [])
    (hsound : ∀ entry ∈ entries, entry.Sound) :
    read ("\x7b" ++ ",".intercalate (entries.map Entry.write) ++ "\x7d") =
      some (.object (entries.map Entry.member)) := by
  have htext : ("\x7b" ++ ",".intercalate (entries.map Entry.write) ++ "\x7d").toList =
      '\x7b' :: ((",".intercalate (entries.map Entry.write)).toList ++ ['\x7d']) := by
    simp
  obtain ⟨behind, hquote⟩ := exists_quote_of_entries hsome
  have hopen : ∀ after, skipBlanks
      ((",".intercalate (entries.map Entry.write)).toList ++ ['\x7d']) ≠ '\x7d' :: after := by
    rw [hquote]
    rintro after ⟨⟩
  have hblank : skipBlanks [] = [] := rfl
  refine read_of_value ?_ hblank
  rw [htext, value_object rfl hopen, members_of_entries hsome hsound]
  · rfl
  · rw [List.length_cons, List.length_append]
    omega

end Reader

end TransitTransfers.Json
