import TransitTransfers.Proofs.Binary64.Unpacking

/-!
# Rounding of products

A product of two floating-point numbers is computed exactly and then rounded to
53 bits: the last bits are dropped, and the mantissa may be increased by one.

* Dropping bits.  A mantissa of `excess` bits too many is divided by a power of
  two, and what is left has 53 bits.
* Rounding.  `round_near` says how far the rounded value is from the exact one
  at most, and `round_normal` that nothing happens to 53 bits.
* Products.  `mul_near` carries this over to `x * y`.
* Words.  Those of 32 bits are exact (`ofFloat_word`).
* The nearest natural number.  `nearestNat` rounds a value to the nearest
  natural number, and so keeps the order of values (`nearestNat_mono`).
-/

namespace TransitTransfers.Binary64

open Float.Model (Format UnpackedFloat totalExponent)
open Float.Model.UnpackedFloat

/-! ## Values -/

/-- The number `m * 2 ^ e`. -/
def value (m : Nat) (e : Int) : ℚ := m * 2 ^ e

theorem value_nonneg (m : Nat) (e : Int) : 0 ≤ value m e := by
  unfold value
  positivity

theorem value_mul (m m' : Nat) (e e' : Int) :
    value m e * value m' e' = value (m * m') (e + e') := by
  simp only [value, Nat.cast_mul, zpow_add₀ (two_ne_zero' ℚ)]
  ring

theorem value_mul_two_pow (m k : Nat) (e : Int) : value (m * 2 ^ k) e = value m (e + k) := by
  simp only [value, Nat.cast_mul, Nat.cast_pow, zpow_add₀ (two_ne_zero' ℚ), zpow_natCast]
  push_cast
  ring

/-- Two mantissas that differ by a small part of the first one stand for values
that differ by as small a part of the first one. -/
theorem abs_value_sub_le {m n d : Nat} (e : Int) (hle : n ≤ m + d) (hge : m ≤ n + d)
    (hsmall : d * 2 ^ 52 ≤ m) : |value n e - value m e| ≤ value m e / 2 ^ 52 := by
  have hpos : (0 : ℚ) < 2 ^ e := by positivity
  have hle' : (n : ℚ) ≤ m + d := by exact_mod_cast hle
  have hge' : (m : ℚ) ≤ n + d := by exact_mod_cast hge
  have hsmall' : (d : ℚ) * 2 ^ 52 ≤ m := by exact_mod_cast hsmall
  have hd : (d : ℚ) ≤ m / 2 ^ 52 := by rwa [le_div_iff₀ (by positivity)]
  have hdiff : |(n : ℚ) - m| ≤ m / 2 ^ 52 := by
    rw [abs_le]
    constructor <;> linarith
  calc |value n e - value m e| = |(n : ℚ) - m| * 2 ^ e := by
        rw [value, value, ← sub_mul, abs_mul, abs_of_pos hpos]
    _ ≤ m / 2 ^ 52 * 2 ^ e := by gcongr
    _ = value m e / 2 ^ 52 := by rw [value, div_mul_eq_mul_div]

/-! ## Dropping bits -/

/-- How many bits a mantissa has beyond 53. -/
def excess (m : Nat) : Nat := m.log2 - 52

theorem excess_eq_zero {m : Nat} (hle : 2 ^ 52 ≤ m) (hlt : m < 2 ^ 53) : excess m = 0 := by
  rw [excess, log2_eq hle hlt]

theorem log2_eq_add_excess {m : Nat} (hm : 2 ^ 52 ≤ m) : m.log2 = 52 + excess m := by
  have hlog : 52 ≤ m.log2 := (Nat.le_log2 (by omega)).mpr hm
  rw [excess]
  omega

theorem mul_two_pow_excess_le {m : Nat} (hm : 2 ^ 52 ≤ m) : 2 ^ 52 * 2 ^ excess m ≤ m := by
  rw [← Nat.pow_add, ← log2_eq_add_excess hm]
  exact Nat.log2_self_le (by omega)

theorem lt_mul_two_pow_excess {m : Nat} (hm : 2 ^ 52 ≤ m) : m < 2 ^ 53 * 2 ^ excess m := by
  have hlog : 53 + excess m = m.log2 + 1 := by
    rw [log2_eq_add_excess hm]
    omega
  rw [← Nat.pow_add, hlog]
  exact Nat.lt_log2_self

/-- What is left of a mantissa has 53 bits. -/
theorem div_two_pow_excess {m : Nat} (hm : 2 ^ 52 ≤ m) :
    2 ^ 52 ≤ m / 2 ^ excess m ∧ m / 2 ^ excess m < 2 ^ 53 :=
  ⟨(Nat.le_div_iff_mul_le (Nat.two_pow_pos _)).mpr (mul_two_pow_excess_le hm),
    (Nat.div_lt_iff_lt_mul (Nat.two_pow_pos _)).mpr (lt_mul_two_pow_excess hm)⟩

theorem shiftRight_mantissa (em : ExtendedMantissa) (k : Nat) :
    (em >>> k).mantissa = em.mantissa / 2 ^ k := by
  induction k with
  | zero => exact (Nat.div_one _).symm
  | succ k ih =>
    show (em >>> k).mantissa / 2 = _
    rw [ih, Nat.div_div_eq_div_mul, Nat.pow_succ]

/-- The exponent of a rounded value: as for a mantissa of 53 bits, or the least one
that there is. -/
theorem targetExponent_eq (m : Nat) (e : Int) :
    Format.binary64.targetExponent (totalExponent m e) = max (m.log2 + 1 + e - 53) (-1074) := rfl

/-- A mantissa with more than 53 bits loses those that it has too many. -/
theorem shiftToTargetExponent_eq {m : Nat} {e : Int} (hm : 2 ^ 52 ≤ m) (he : -1074 ≤ e) :
    shiftToTargetExponent .binary64 m e .exact =
      ((⟨m, false, false⟩ : ExtendedMantissa) >>> excess m, e + excess m) := by
  have htarget : (Format.binary64.targetExponent (totalExponent m e) - e).toNat = excess m := by
    rw [targetExponent_eq, log2_eq_add_excess hm]
    omega
  simp only [shiftToTargetExponent, shiftToExponent, htarget]
  rfl

/-! ## Rounding -/

/-- Rounding increases a mantissa by one at most. -/
theorem roundedMantissa_bounds (em : ExtendedMantissa) :
    em.mantissa ≤ em.roundedMantissa ∧ em.roundedMantissa ≤ em.mantissa + 1 := by
  have hparity := Nat.mod_lt em.mantissa Nat.two_pos
  unfold ExtendedMantissa.roundedMantissa Accuracy.roundToNearestEven
  split <;> omega

/-- The mantissa that is left after bits are dropped and the rest is rounded. -/
def rounded (m : Nat) : Nat :=
  ((⟨m, false, false⟩ : ExtendedMantissa) >>> excess m).roundedMantissa

theorem rounded_bounds (m : Nat) :
    m / 2 ^ excess m ≤ rounded m ∧ rounded m ≤ m / 2 ^ excess m + 1 := by
  rw [← shiftRight_mantissa ⟨m, false, false⟩]
  exact roundedMantissa_bounds _

theorem two_pow_le_rounded {m : Nat} (hm : 2 ^ 52 ≤ m) : 2 ^ 52 ≤ rounded m :=
  Nat.le_trans (div_two_pow_excess hm).1 (rounded_bounds m).1

theorem rounded_le_two_pow {m : Nat} (hm : 2 ^ 52 ≤ m) : rounded m ≤ 2 ^ 53 :=
  Nat.le_trans (rounded_bounds m).2 (div_two_pow_excess hm).2

/-- What is rounded has 53 bits, unless it is the next power of two.  Then it
loses a zero. -/
theorem rounded_div_mul {m : Nat} (hm : 2 ^ 52 ≤ m) :
    rounded m / 2 ^ excess (rounded m) * 2 ^ excess (rounded m) = rounded m ∧
      excess (rounded m) ≤ 1 := by
  have hle := two_pow_le_rounded hm
  rcases Nat.lt_or_eq_of_le (rounded_le_two_pow hm) with hlt | heq
  · rw [excess_eq_zero hle hlt]
    omega
  · rw [heq]
    decide +kernel

/-- The rounded mantissa is no further from the exact one than the lowest bit that
is left. -/
theorem rounded_near (m : Nat) :
    rounded m * 2 ^ excess m ≤ m + 2 ^ excess m ∧ m ≤ rounded m * 2 ^ excess m + 2 ^ excess m := by
  have hbounds := rounded_bounds m
  have hfloor : m / 2 ^ excess m * 2 ^ excess m ≤ m := Nat.div_mul_le_self _ _
  have hceil : m < m / 2 ^ excess m * 2 ^ excess m + 2 ^ excess m :=
    Nat.lt_div_mul_add (Nat.two_pow_pos _)
  constructor
  · calc rounded m * 2 ^ excess m ≤ (m / 2 ^ excess m + 1) * 2 ^ excess m :=
          Nat.mul_le_mul_right _ hbounds.2
      _ = m / 2 ^ excess m * 2 ^ excess m + 2 ^ excess m := Nat.succ_mul _ _
      _ ≤ m + 2 ^ excess m := Nat.add_le_add_right hfloor _
  · calc m ≤ m / 2 ^ excess m * 2 ^ excess m + 2 ^ excess m := Nat.le_of_lt hceil
      _ ≤ rounded m * 2 ^ excess m + 2 ^ excess m :=
        Nat.add_le_add_right (Nat.mul_le_mul_right _ hbounds.1) _

/-- Rounding, in two steps: after the mantissa is rounded it may be too long
again. -/
theorem roundWithAccuracy_eq (s : Sign) {m : Nat} {e : Int} (hm : 2 ^ 52 ≤ m) (he : -1074 ≤ e) :
    ∃ h, roundWithAccuracy .binary64 s m e .exact =
      .finite s (rounded m / 2 ^ excess (rounded m)) (e + excess m + excess (rounded m)) h := by
  have hbits := (div_two_pow_excess (two_pow_le_rounded hm)).1
  have hpos : 0 < rounded m / 2 ^ excess (rounded m) := Nat.lt_of_lt_of_le (by decide) hbits
  have he' : -1074 ≤ e + excess m := by omega
  refine ⟨hpos, ?_⟩
  have hsecond := shiftToTargetExponent_eq (two_pow_le_rounded hm) he'
  simp only [roundWithAccuracy, shiftToTargetExponent_eq hm he]
  rw [rounded] at hsecond
  simp only [hsecond, shiftRight_mantissa]
  exact dif_neg (Nat.ne_of_gt hpos)

/-- A value that is rounded to 53 bits changes by a small part of it at most. -/
theorem round_near (s : Sign) {m : Nat} {e : Int} (hm : 2 ^ 52 ≤ m) (he : -1074 ≤ e) :
    ∃ m' e' h, roundWithAccuracy .binary64 s m e .exact = .finite s m' e' h ∧
      2 ^ 52 ≤ m' ∧ m' < 2 ^ 53 ∧ e ≤ e' ∧ e' ≤ e + excess m + 1 ∧
      |value m' e' - value m e| ≤ value m e / 2 ^ 52 := by
  obtain ⟨h, hround⟩ := roundWithAccuracy_eq s hm he
  obtain ⟨hdiv, hexcess⟩ := rounded_div_mul hm
  -- The second shift does not change the value, so all of the error is that of `rounded`.
  have hbits := div_two_pow_excess (two_pow_le_rounded hm)
  have hvalue : value (rounded m / 2 ^ excess (rounded m)) (e + excess m + excess (rounded m)) =
      value (rounded m * 2 ^ excess m) e := by
    rw [← value_mul_two_pow, hdiv, value_mul_two_pow]
  refine ⟨_, _, h, hround, hbits.1, hbits.2, by omega, by omega, ?_⟩
  rw [hvalue]
  exact abs_value_sub_le e (rounded_near m).1 (rounded_near m).2
    (Nat.mul_comm _ _ ▸ mul_two_pow_excess_le hm)

/-- Rounding does not change 53 bits. -/
theorem round_normal (s : Sign) {m : Nat} {e : Int} (h : Normal m e) :
    roundWithAccuracy .binary64 s m e .exact = .finite s m e h.pos := by
  have hexcess := excess_eq_zero h.two_pow_le h.lt_two_pow
  have hrounded : rounded m = m := by
    rw [rounded, hexcess]
    rfl
  obtain ⟨hpos, hround⟩ := roundWithAccuracy_eq s h.two_pow_le h.le_exponent
  rw [hround]
  simp [hrounded, hexcess]

/-! ## Products -/

theorem two_pow_le_mul {m m' : Nat} {e e' : Int} (hm : Normal m e) (hm' : Normal m' e') :
    2 ^ 52 ≤ m * m' := by
  calc 2 ^ 52 = 2 ^ 52 * 1 := (Nat.mul_one _).symm
    _ ≤ m * m' := Nat.mul_le_mul hm.two_pow_le hm'.pos

/-- A product of positive values is as near to the exact product as rounding
leaves it. -/
theorem mul_near {x y : Float} {m m' : Nat} {e e' : Int} (hx : ofFloat x = .finite false m e)
    (hy : ofFloat y = .finite false m' e') (hm : Normal m e) (hm' : Normal m' e')
    (hlow : -1074 ≤ e + e') (hhigh : e + e' ≤ 900) :
    ∃ p q, ofFloat (x * y) = .finite false p q ∧
      |value p q - value m e * value m' e'| ≤ value m e * value m' e' / 2 ^ 52 := by
  have hproduct := two_pow_le_mul hm hm'
  have hexcess : excess (m * m') ≤ 53 := by
    have hlt : m * m' < 2 ^ 53 * 2 ^ 53 := Nat.mul_lt_mul'' hm.lt_two_pow hm'.lt_two_pow
    have hlog : (m * m').log2 < 106 := (Nat.log2_lt (by omega)).mpr hlt
    rw [excess]
    omega
  obtain ⟨p, q, hp, hround, hle, hlt, hq, hq', hnear⟩ := round_near .positive hproduct hlow
  have hnormal : Normal p q := ⟨hle, hlt, by omega, by omega⟩
  refine ⟨p, q, ?_, ?_⟩
  · show ofFloat (.ofModel (.pack
      (UnpackedFloat.mul .binary64 x.toModel.unpack y.toModel.unpack))) = _
    rw [unpack_of_ofFloat hx hm.pos, unpack_of_ofFloat hy hm'.pos]
    show ofFloat (.ofModel (.pack (roundWithAccuracy .binary64 .positive (m * m') (e + e')
      .exact))) = _
    rw [hround]
    exact ofFloat_pack .positive hnormal
  · rwa [value_mul]

/-! ## Words -/

/-- A natural number with fewer bits is filled up to 53 of them. -/
theorem normal_filled {n k : Nat} (hn : 0 < n) (hk : n.log2 + k = 52) :
    Normal (n * 2 ^ k) (-k) := by
  refine ⟨?_, ?_, by omega, by omega⟩
  · rw [← hk, Nat.pow_add]
    exact Nat.mul_le_mul_right _ (Nat.log2_self_le (Nat.ne_of_gt hn))
  · rw [show 53 = n.log2 + 1 + k by omega, Nat.pow_add _ _ k]
    exact Nat.mul_lt_mul_of_pos_right Nat.lt_log2_self (Nat.two_pow_pos k)

theorem round_filled {n k : Nat} (hn : 0 < n) (hk : n.log2 + k = 52) :
    UnpackedFloat.round .binary64 .positive n 0 =
      .finite .positive (n * 2 ^ k) (-k) (normal_filled hn hk).pos := by
  have htarget : Format.binary64.targetExponent (totalExponent n 0) = -k := by
    rw [targetExponent_eq]
    omega
  have hdecrease : decreaseExponent n 0 (-k) = (n * 2 ^ k, -(k : Int)) := by
    simp [decreaseExponent, Nat.shiftLeft_eq]
  simp only [UnpackedFloat.round, htarget, hdecrease]
  exact round_normal .positive (normal_filled hn hk)

theorem normalize_natCast {n : Nat} (hn : 0 < n) (e : Int) (s : Sign) :
    UnpackedFloat.normalize .binary64 n e s = UnpackedFloat.round .binary64 .positive n e := by
  unfold UnpackedFloat.normalize
  split
  · next hsign =>
    have hlt : (n : Int) < 0 := Int.compare_eq_lt.mp hsign
    omega
  · next hsign =>
    have heq : (n : Int) = 0 := Int.compare_eq_eq.mp hsign
    omega
  · rfl

theorem ofNat_eq_round {n : Nat} (hn : 0 < n) :
    UnpackedFloat.ofNat .binary64 n = UnpackedFloat.round .binary64 .positive n 0 :=
  normalize_natCast hn 0 .positive

/-- A word other than zero stands for itself. -/
theorem ofFloat_word {n : UInt32} (hn : 0 < n.toNat) :
    ∃ m e, ofFloat n.toFloat = .finite false m e ∧ Normal m e ∧ -52 ≤ e ∧ e ≤ -21 ∧
      value m e = n.toNat := by
  have hlog : n.toNat.log2 < 32 := (Nat.log2_lt (Nat.ne_of_gt hn)).mpr n.toNat_lt
  obtain ⟨k, hk⟩ : ∃ k, n.toNat.log2 + k = 52 := ⟨52 - n.toNat.log2, by omega⟩
  refine ⟨_, _, ?_, normal_filled hn hk, by omega, by omega, ?_⟩
  · show ofFloat (.ofModel (.pack (UnpackedFloat.ofNat .binary64 n.toNat))) = _
    rw [ofNat_eq_round hn, round_filled hn hk]
    exact ofFloat_pack .positive (normal_filled hn hk)
  · rw [value_mul_two_pow, neg_add_cancel]
    simp [value]

/-! ## The nearest natural number -/

theorem nearestNat_eq_floor (m : Nat) (e : Int) : nearestNat m e = ⌊value m e + 1 / 2⌋₊ := by
  cases e with
  | ofNat e =>
    have hvalue : value m (.ofNat e) = (m * 2 ^ e : Nat) := by
      rw [value, Int.ofNat_eq_natCast, zpow_natCast]
      push_cast
      rfl
    rw [hvalue, add_comm, Nat.floor_add_natCast (by norm_num)]
    norm_num [nearestNat]
  | negSucc e =>
    have hvalue : value m (.negSucc e) + 1 / 2 = ((m + 2 ^ e : Nat) : ℚ) / (2 ^ (e + 1) : Nat) := by
      rw [value, zpow_negSucc]
      push_cast
      field_simp
      ring
    rw [hvalue, Nat.floor_div_eq_div]
    rfl

/-- Rounding to the nearest natural number keeps the order. -/
theorem nearestNat_mono {m m' : Nat} {e e' : Int} (h : value m e ≤ value m' e') :
    nearestNat m e ≤ nearestNat m' e' := by
  rw [nearestNat_eq_floor, nearestNat_eq_floor]
  gcongr

end TransitTransfers.Binary64
