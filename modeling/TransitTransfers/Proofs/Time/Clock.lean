import Mathlib.Data.Set.Operations
import TransitTransfers.Proofs.Computation
import TransitTransfers.Proofs.Decimal.Digits
import TransitTransfers.Time.Text

/-!
# Reading and writing clock times

The parts of a clock text are what stands between its colons.  A part is read
as a number if it `IsField` of a word, and a text of three such parts spells
hours, minutes and seconds (`Spells`).

* `read_eq_some_iff` says which texts are read as which time: those that spell
  it.
* `read_eq_error_iff` says where reading stops: where the hours, the minutes or
  the sum do not fit a word (`Overruns`).  Hours alone can do that, so a text
  does not have to spell anything to be stopped at.  `read_outcomes` is the
  account of all texts.
* Every time is written as a text that spells it (`spells_text`), so it is read
  back (`text_reads_back`).  `text_round_trip` adds what such a text looks like.
-/

namespace TransitTransfers

/-! ## The parts of a text -/

theorem colonFields_eq_splitOn (chars : List Char) : colonFields chars = chars.splitOn ':' := by
  induction chars with
  | nil => rfl
  | cons c rest ih =>
    rw [colonFields, ih, List.splitOn_cons_eq_if_modifyHead]
    simp only [beq_iff_eq]
    split
    · rfl
    · cases hrest : rest.splitOn ':' with
      | nil => exact absurd hrest (List.splitOn_ne_nil ':' rest)
      | cons field fields => rfl

/-- A part of a clock text stands for a number that fits a word: by its digits,
which a plus sign may stand in front of. -/
inductive IsField : List Char → Nat → Prop
  | plain {digits : List Char} {n : Nat} (hdigits : Digits.Denotes digits n)
      (hfits : n < wordSize) : IsField digits n
  | signed {digits : List Char} {n : Nat} (hdigits : Digits.Denotes digits n)
      (hfits : n < wordSize) : IsField ('+' :: digits) n

theorem value?_bind_eq_some_iff {digits : List Char} {d : Duration} :
    (Digits.value? digits).bind Duration.ofSeconds? = some d ↔ Digits.Denotes digits d.seconds := by
  rw [Option.bind_eq_some_iff, ← Digits.value?_eq_some_iff]
  constructor
  · rintro ⟨n, hn, hd⟩
    rw [hn, Duration.ofSeconds?_eq_some_iff.mp hd]
  · intro h
    exact ⟨d.seconds, h, Duration.ofSeconds?_eq_some_iff.mpr rfl⟩

/-- A part of a text is read as the number that it stands for. -/
theorem readField_eq_some_iff {field : List Char} {d : Duration} :
    readField field = some d ↔ IsField field d.seconds := by
  unfold readField
  split
  · next digits =>
    rw [value?_bind_eq_some_iff]
    constructor
    · intro h
      exact .signed h d.fits
    · intro h
      cases h with
      | plain h _ => exact absurd List.mem_cons_self (h.not_mem (by decide))
      | signed h _ => exact h
  · next hplain =>
    rw [value?_bind_eq_some_iff]
    constructor
    · intro h
      exact .plain h d.fits
    · intro h
      cases h with
      | plain h _ => exact h
      | signed h _ => exact absurd rfl (hplain _)

theorem exists_readField {field : List Char} {n : Nat} (h : IsField field n) :
    ∃ d, readField field = some d ∧ d.seconds = n := by
  have hfits : n < wordSize := by
    cases h <;> assumption
  exact ⟨⟨n, hfits⟩, readField_eq_some_iff.mpr h, rfl⟩

namespace Time

/-! ## What a text spells -/

/-- Three parts spell a number of seconds in hours, minutes and seconds. -/
inductive Spells : List (List Char) → Nat → Prop
  | intro {h m s : List Char} {hours minutes seconds total : Nat} (hhours : IsField h hours)
      (hminutes : IsField m minutes) (hseconds : IsField s seconds)
      (htotal : hours * 3600 + minutes * 60 + seconds = total) : Spells [h, m, s] total

/-- The parts of a text stand for more seconds than fit a word: in hours, in
minutes, or all three together. -/
inductive Overruns : List (List Char) → Fault → Prop
  /-- Whatever stands behind the hours. -/
  | hours {h : List Char} {others : List (List Char)} {hours : Nat} (hhours : IsField h hours)
      (hover : wordSize ≤ hours * 3600) : Overruns (h :: others) .multiplication
  /-- Whatever stands behind the minutes. -/
  | minutes {h m : List Char} {others : List (List Char)} {hours minutes : Nat}
      (hhours : IsField h hours) (hfits : hours * 3600 < wordSize)
      (hminutes : IsField m minutes) (hover : wordSize ≤ minutes * 60) :
      Overruns (h :: m :: others) .multiplication
  | total {h m s : List Char} {hours minutes seconds : Nat} (hhours : IsField h hours)
      (hfits : hours * 3600 < wordSize) (hminutes : IsField m minutes)
      (hfits' : minutes * 60 < wordSize) (hseconds : IsField s seconds)
      (hover : wordSize ≤ hours * 3600 + minutes * 60 + seconds) :
      Overruns [h, m, s] .addition

/-! ## Reading -/

/-- The sum of three durations fits if it fits in the end. -/
theorem ofParts_eq (hours minutes seconds : Duration) :
    ofParts hours minutes seconds =
      if hfits : hours.seconds + minutes.seconds + seconds.seconds < wordSize then
        .ok ⟨hours.seconds + minutes.seconds + seconds.seconds, hfits⟩
      else .error .addition := by
  unfold ofParts Duration.add
  by_cases hwhole : hours.seconds + minutes.seconds < wordSize
  · rw [dif_pos hwhole]
    by_cases htotal : hours.seconds + minutes.seconds + seconds.seconds < wordSize
    · simp only [bind, Except.bind, dif_pos htotal]
      rfl
    · simp only [bind, Except.bind, dif_neg htotal]
  · have hover : ¬hours.seconds + minutes.seconds + seconds.seconds < wordSize := by omega
    rw [dif_neg hwhole, dif_neg hover]
    rfl

/-- What comes of reading, if there is a reason for it in the parts of the
text. -/
def Answers (fields : List (List Char)) : Except Fault (Option Time) → Prop
  | .ok (some t) => Spells fields t.seconds
  | .ok none => True
  | .error fault => Overruns fields fault

/-- No time is read and nothing stops without a reason.  The parts are looked
at from the left, and each is turned into seconds before the next one. -/
theorem ofChars_answers (chars : List Char) : Answers (chars.splitOn ':') (ofChars chars) := by
  unfold ofChars
  rw [colonFields_eq_splitOn]
  simp only [bind, Except.bind]
  generalize chars.splitOn ':' = fields
  -- The hours.
  rcases fields with _ | ⟨h, fields⟩
  · trivial
  cases hh : readField h with
  | none => simp only [hh]; trivial
  | some hours =>
  simp only [hh, Duration.ofHours, Duration.periods]
  rw [readField_eq_some_iff] at hh
  by_cases hfits : hours.seconds * 3600 < wordSize
  swap
  · rw [dif_neg hfits]
    exact Overruns.hours hh (Nat.not_lt.mp hfits)
  rw [dif_pos hfits]
  -- The minutes.
  rcases fields with _ | ⟨m, fields⟩
  · trivial
  cases hm : readField m with
  | none => simp only [hm]; trivial
  | some minutes =>
  simp only [hm, Duration.ofMinutes, Duration.periods]
  rw [readField_eq_some_iff] at hm
  by_cases hfits' : minutes.seconds * 60 < wordSize
  swap
  · rw [dif_neg hfits']
    exact Overruns.minutes hh hfits hm (Nat.not_lt.mp hfits')
  rw [dif_pos hfits']
  -- The seconds, and the sum.
  rcases fields with _ | ⟨s, fields⟩
  · trivial
  cases hs : readField s with
  | none => simp only [hs]; trivial
  | some seconds =>
  simp only [hs]
  rw [readField_eq_some_iff] at hs
  rcases fields with _ | ⟨other, fields⟩
  swap
  · trivial
  rw [ofParts_eq]
  by_cases htotal : hours.seconds * 3600 + minutes.seconds * 60 + seconds.seconds < wordSize
  · rw [dif_pos htotal]
    exact Spells.intro hh hm hs rfl
  · rw [dif_neg htotal]
    exact Overruns.total hh hfits hm hfits' hs (Nat.not_lt.mp htotal)

/-- A text is read as the time that it spells. -/
theorem ofChars_of_spells {chars : List Char} {t : Time}
    (h : Spells (chars.splitOn ':') t.seconds) : ofChars chars = .ok (some t) := by
  unfold ofChars
  rw [colonFields_eq_splitOn]
  generalize chars.splitOn ':' = fields at h ⊢
  obtain ⟨seconds, fits⟩ := t
  cases h with
  | intro hhours hminutes hseconds htotal =>
    obtain ⟨h, hh, rfl⟩ := exists_readField hhours
    obtain ⟨m, hm, rfl⟩ := exists_readField hminutes
    obtain ⟨s, hs, rfl⟩ := exists_readField hseconds
    subst htotal
    have hhours' : h.seconds * 3600 < wordSize :=
      Nat.lt_of_le_of_lt (Nat.le_trans (Nat.le_add_right ..) (Nat.le_add_right ..)) fits
    have hminutes' : m.seconds * 60 < wordSize :=
      Nat.lt_of_le_of_lt (Nat.le_trans (Nat.le_add_left ..) (Nat.le_add_right ..)) fits
    simp only [bind, Except.bind, hh, hm, hs, Duration.ofHours, Duration.ofMinutes,
      Duration.periods, dif_pos hhours', dif_pos hminutes', ofParts_eq]
    rw [dif_pos fits]
    rfl

/-- Reading stops at parts that stand for too many seconds. -/
theorem ofChars_of_overruns {chars : List Char} {fault : Fault}
    (h : Overruns (chars.splitOn ':') fault) : ofChars chars = .error fault := by
  unfold ofChars
  rw [colonFields_eq_splitOn]
  generalize chars.splitOn ':' = fields at h ⊢
  cases h with
  | hours hhours hover =>
    obtain ⟨h, hh, rfl⟩ := exists_readField hhours
    simp only [bind, Except.bind, hh, Duration.ofHours, Duration.periods,
      dif_neg (Nat.not_lt.mpr hover)]
  | minutes hhours hfits hminutes hover =>
    obtain ⟨h, hh, rfl⟩ := exists_readField hhours
    obtain ⟨m, hm, rfl⟩ := exists_readField hminutes
    simp only [bind, Except.bind, hh, hm, Duration.ofHours, Duration.ofMinutes,
      Duration.periods, dif_pos hfits, dif_neg (Nat.not_lt.mpr hover)]
  | total hhours hfits hminutes hfits' hseconds hover =>
    obtain ⟨h, hh, rfl⟩ := exists_readField hhours
    obtain ⟨m, hm, rfl⟩ := exists_readField hminutes
    obtain ⟨s, hs, rfl⟩ := exists_readField hseconds
    simp only [bind, Except.bind, hh, hm, hs, Duration.ofHours, Duration.ofMinutes,
      Duration.periods, dif_pos hfits, dif_pos hfits', ofParts_eq]
    rw [dif_neg (Nat.not_lt.mpr hover)]

/-- A text is read as a time exactly if it spells it. -/
theorem read_eq_some_iff {text : String} {t : Time} :
    read text = .ok (some t) ↔ Spells (text.toList.splitOn ':') t.seconds := by
  constructor
  · intro h
    have hanswers := ofChars_answers text.toList
    rw [show ofChars text.toList = .ok (some t) from h] at hanswers
    exact hanswers
  · exact ofChars_of_spells

/-- Reading a text stops exactly if its parts overrun a word. -/
theorem read_eq_error_iff {text : String} {fault : Fault} :
    read text = .error fault ↔ Overruns (text.toList.splitOn ':') fault := by
  constructor
  · intro h
    have hanswers := ofChars_answers text.toList
    rw [show ofChars text.toList = .error fault from h] at hanswers
    exact hanswers
  · exact ofChars_of_overruns

/-- What comes of reading a text: a time if it is spelled, a fault if the parts
overrun a word, and otherwise no time. -/
theorem read_outcomes (text : String) :
    (∀ t, read text = .ok (some t) ↔ Spells (text.toList.splitOn ':') t.seconds) ∧
    (∀ fault, read text = .error fault ↔ Overruns (text.toList.splitOn ':') fault) ∧
    (read text = .ok none ↔
      (∀ t : Time, ¬Spells (text.toList.splitOn ':') t.seconds) ∧
        ∀ fault, ¬Overruns (text.toList.splitOn ':') fault) := by
  refine ⟨fun t => read_eq_some_iff, fun fault => read_eq_error_iff, ?_, ?_⟩
  · intro hnone
    constructor
    · intro t ht
      rw [← read_eq_some_iff, hnone] at ht
      cases ht
    · intro fault hfault
      rw [← read_eq_error_iff, hnone] at hfault
      cases hfault
  · rintro ⟨hspells, hoverruns⟩
    rcases hread : read text with fault | _ | t
    · exact absurd (read_eq_error_iff.mp hread) (hoverruns fault)
    · rfl
    · exact absurd (read_eq_some_iff.mp hread) (hspells t)

/-- Three numbers between colons spell more seconds than fit a word, and reading
them does not come to an end: it stops at the hours. -/
theorem read_stops_at_long_hours :
    Spells ("1193047:0:0".toList.splitOn ':') 4294969200 ∧ wordSize ≤ 4294969200 ∧
      read "1193047:0:0" = .error .multiplication ∧
      ¬∀ text, ∃ outcome, read text = .ok outcome := by
  have hread : read "1193047:0:0" = .error .multiplication := by decide +kernel
  refine ⟨?_, by decide, hread, ?_⟩
  · have hzero : IsField "0".toList 0 := .plain (Digits.value?_eq_some_iff.mp rfl) (by decide)
    exact Spells.intro (.plain (Digits.value?_eq_some_iff.mp rfl) (by decide)) hzero hzero rfl
  · intro hends
    obtain ⟨outcome, houtcome⟩ := hends "1193047:0:0"
    rw [hread] at houtcome
    cases houtcome

/-! ## Writing -/

/-- Colons stand between the fields of a written time, and nowhere else. -/
theorem chars_splitOn (t : Time) :
    t.chars.splitOn ':' =
      [Digits.padded 2 (t.seconds / 3600), Digits.padded 2 (t.seconds % 3600 / 60),
        Digits.padded 2 (t.seconds % 60)] := by
  have hcolon (n : Nat) : ':' ∉ Digits.padded 2 n :=
    (Digits.denotes_padded 2 n).not_mem (by decide)
  rw [chars, List.splitOn_append_cons_self_of_not_mem (hcolon _),
    List.splitOn_append_cons_self_of_not_mem (hcolon _), List.splitOn_eq_singleton (hcolon _)]

theorem isField_padded {n : Nat} (hfits : n < wordSize) : IsField (Digits.padded 2 n) n :=
  .plain (Digits.denotes_padded 2 n) hfits

/-- A time is written as a text that spells it. -/
theorem spells_text (t : Time) : Spells (t.text.toList.splitOn ':') t.seconds := by
  have hfits := t.fits
  rw [text, String.toList_ofList, chars_splitOn]
  exact .intro (isField_padded (by omega)) (isField_padded (by omega))
    (isField_padded (by omega)) (by omega)

/-- A time that is written is read back. -/
theorem text_reads_back (t : Time) : read t.text = .ok (some t) :=
  read_eq_some_iff.mpr (spells_text t)

/-- A time is written in fields of two places, only the hours in more of them if
need be, with minutes and seconds that do not make up the next unit. -/
theorem text_fields (t : Time) :
    ∃ h m s hours minutes seconds,
      t.text.toList = h ++ ':' :: (m ++ ':' :: s) ∧
      Digits.Denotes h hours ∧ Digits.Denotes m minutes ∧ Digits.Denotes s seconds ∧
      2 ≤ h.length ∧ m.length = 2 ∧ s.length = 2 ∧ minutes < 60 ∧ seconds < 60 ∧
      hours * 3600 + minutes * 60 + seconds = t.seconds := by
  have hminutes : t.seconds % 3600 / 60 < 60 := by omega
  have hseconds : t.seconds % 60 < 60 := by omega
  refine ⟨_, _, _, _, _, _, ?_, Digits.denotes_padded 2 (t.seconds / 3600),
    Digits.denotes_padded 2 (t.seconds % 3600 / 60), Digits.denotes_padded 2 (t.seconds % 60),
    ?_, Digits.length_padded_two (by omega), Digits.length_padded_two (by omega), hminutes,
    hseconds, by omega⟩
  · rw [text, String.toList_ofList, chars]
  · rw [Digits.length_padded]
    exact Nat.le_max_left _ _

/-- Every time is read back from what is written for it, and is written in
fields of two places, with minutes and seconds below sixty.  So different times
are written differently, and a text that is written for a time is written again
for what is read from it. -/
theorem text_round_trip :
    (∀ t : Time, read t.text = .ok (some t)) ∧
    (∀ t : Time, ∃ h m s hours minutes seconds,
      t.text.toList = h ++ ':' :: (m ++ ':' :: s) ∧
      Digits.Denotes h hours ∧ Digits.Denotes m minutes ∧ Digits.Denotes s seconds ∧
      2 ≤ h.length ∧ m.length = 2 ∧ s.length = 2 ∧ minutes < 60 ∧ seconds < 60 ∧
      hours * 3600 + minutes * 60 + seconds = t.seconds) ∧
    Function.Injective text ∧
    ∀ written ∈ Set.range text, (read written).map (Option.map text) = .ok (some written) := by
  refine ⟨text_reads_back, text_fields, ?_, ?_⟩
  · intro a b hab
    have ha := text_reads_back a
    rw [hab, text_reads_back b] at ha
    cases ha
    rfl
  · rintro _ ⟨t, rfl⟩
    rw [text_reads_back]
    rfl

end Time

end TransitTransfers
