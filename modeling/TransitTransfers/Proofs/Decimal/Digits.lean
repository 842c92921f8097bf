import TransitTransfers.Decimal.Digits

/-!
# Reading and writing digits

`Denotes digits n` says that a non-empty run of decimal digits stands for the
number `n`, with any number of zeros in front.  Digits are read as what they
denote (`value?_eq_some_iff`), and what is written for a number denotes it,
however many places it gets (`denotes_padded`).
-/

namespace TransitTransfers.Digits

/-- Some digits, one at least, stand for a number. -/
structure Denotes (digits : List Char) (n : Nat) : Prop where
  ne_nil : digits ≠ []
  /-- There is nothing but digits. -/
  isDigit : ∀ c ∈ digits, c.isDigit = true
  value : Nat.ofDigitChars 10 digits 0 = n

theorem Denotes.unique {digits : List Char} {m n : Nat} (hm : Denotes digits m)
    (hn : Denotes digits n) : m = n :=
  hm.value.symm.trans hn.value

/-- A character that is no digit does not stand among digits. -/
theorem Denotes.not_mem {digits : List Char} {n : Nat} (h : Denotes digits n) {c : Char}
    (hc : c.isDigit = false) : c ∉ digits := by
  intro hmem
  rw [h.isDigit c hmem] at hc
  cases hc

/-! ## Reading -/

theorem digit?_eq (c : Char) :
    digit? c = if c.isDigit then some (c.toNat - '0'.toNat) else none := by
  have hdigit : ('0' ≤ c ∧ c ≤ '9') ↔ c.isDigit = true := by
    simp [Char.isDigit, Char.le_def]
  rw [digit?]
  simp only [hdigit]

theorem valueFrom?_eq_some_iff {value n : Nat} {digits : List Char} :
    valueFrom? value digits = some n ↔
      (∀ c ∈ digits, c.isDigit = true) ∧ Nat.ofDigitChars 10 digits value = n := by
  induction digits generalizing value with
  | nil => simp [valueFrom?]
  | cons c rest ih =>
    rw [valueFrom?, digit?_eq, List.forall_mem_cons, Nat.ofDigitChars_cons]
    cases c.isDigit with
    | true => simpa using ih
    | false => simp

/-- Digits are read as the number that they denote. -/
theorem value?_eq_some_iff {digits : List Char} {n : Nat} :
    value? digits = some n ↔ Denotes digits n := by
  cases digits with
  | nil =>
    constructor
    · intro h
      cases h
    · intro h
      exact absurd rfl h.ne_nil
  | cons c rest =>
    rw [value?, valueFrom?_eq_some_iff]
    · constructor
      · intro h
        exact ⟨List.cons_ne_nil c rest, h.1, h.2⟩
      · intro h
        exact ⟨h.isDigit, h.value⟩
    · exact List.cons_ne_nil c rest

/-! ## Writing -/

/-- What is written for a number denotes it. -/
theorem denotes_padded (width n : Nat) : Denotes (padded width n) n := by
  refine ⟨?_, ?_, ?_⟩
  · exact List.append_ne_nil_of_right_ne_nil _ Nat.toDigits_ne_nil
  · intro c hc
    rcases List.mem_append.mp hc with hzero | hdigit
    · rw [(List.mem_replicate.mp hzero).2]
      rfl
    · exact Nat.isDigit_of_mem_toDigits (by decide) (by decide) hdigit
  · rw [padded, Nat.ofDigitChars_append, Nat.ofDigitChars_replicate_zero, Nat.mul_zero]
    exact Nat.ofDigitChars_ten_toDigits

theorem length_padded (width n : Nat) :
    (padded width n).length = max width (ofNat n).length := by
  rw [padded, List.length_append, List.length_replicate]
  omega

/-- A number below a hundred has no more than two places. -/
theorem length_padded_two {n : Nat} (h : n < 100) : (padded 2 n).length = 2 := by
  have hlength : (ofNat n).length ≤ 2 :=
    (Nat.length_toDigits_le_iff (by decide) (by decide)).mpr h
  rw [length_padded]
  omega

end TransitTransfers.Digits
