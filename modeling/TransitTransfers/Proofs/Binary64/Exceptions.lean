import TransitTransfers.Proofs.Binary64.Rounding

/-!
# Where arithmetic leaves the numbers

An operation on floating-point numbers may yield an infinity, because the exact
result is too large, or something that is not a number.

* Packing.  `repack` is what becomes of an unpacked value when it is packed into
  bits: it is kept, or it is too large and becomes an infinity.
* Not a number.  `isNaN_mul_iff`, `isNaN_div_iff` and `isNaN_add_iff` say which
  operands have no product, no quotient and no sum.  Rounding plays no part in it.
* Infinities.  What an infinity is added to, or multiplied with, becomes an infinity
  or is not a number.
* Too large.  `round_in_range` says that a value below the greatest number is
  rounded to a number.  So taking one away from a number leaves a number, which is
  a zero only for one itself (`sub_one_spec`).
-/

namespace TransitTransfers.Binary64

open Float.Model (Format UnpackedFloat totalExponent)
open Float.Model.UnpackedFloat

/-! ## Packing -/

/-- What an unpacked value is once it has been packed. -/
def repack (u : UnpackedFloat) : UnpackedFloat := (Float.Model.pack u).unpack

theorem repack_infinity (s : Sign) : repack (.infinity s) = .infinity s := by
  cases s <;> rfl

theorem repack_zero (s : Sign) : repack (.zero s) = .zero s := by
  cases s <;> rfl

/-- A value with an exponent beyond the range becomes an infinity. -/
theorem repack_of_range {s : Sign} {m : Nat} {e : Int} (h : 0 < m)
    (hrange : 2 ^ 11 ≤ (e + 1023 + 52).toNat + 1) : repack (.finite s m e h) = .infinity s := by
  show unpack .binary64 (pack .binary64 (.finite s m e h)) = .infinity s
  rw [pack]
  exact (congrArg _ (if_pos hrange)).trans (repack_infinity s)

/-- Components stand for a number unless their exponent is the last one. -/
theorem isFinite_unpack_packComponents {s : Sign} {exponent : BitVec 11} {fraction : BitVec 52}
    (h : exponent ≠ -1#11) :
    (unpack .binary64 (packComponents .binary64 s exponent fraction)).isFinite = true := by
  rw [unpack]
  simp only [unpackMantissa_packComponents, unpackExponent_packComponents,
    unpackSign_packComponents, Sign.ofBitVec_toBitVec]
  rw [if_neg h]
  split_ifs <;> rfl

/-- A number stays a number, or it is too large. -/
theorem repack_finite (s : Sign) {m : Nat} {e : Int} (h : 0 < m) :
    repack (.finite s m e h) = .infinity s ∨ (repack (.finite s m e h)).isFinite = true := by
  by_cases hrange : 2 ^ 11 ≤ (e + 1023 + 52).toNat + 1
  · exact Or.inl (repack_of_range h hrange)
  · right
    have hexponent : BitVec.ofNat 11 (e + 1023 + 52).toNat ≠ -1#11 := by
      intro heq
      have hlast : (e + 1023 + 52).toNat % 2 ^ 11 = 2047 :=
        (BitVec.toNat_ofNat _ _).symm.trans (congrArg BitVec.toNat heq)
      omega
    show (unpack .binary64 (pack .binary64 (.finite s m e h))).isFinite = true
    rw [pack]
    simp only []
    split_ifs with hover hbits
    · exact absurd hover hrange
    · exact isFinite_unpack_packComponents hexponent
    · exact isFinite_unpack_packComponents (by decide)

/-- A mantissa of 53 bits is kept, or the value is too large. -/
theorem repack_of_bits (s : Sign) {m : Nat} {e : Int} (h : 0 < m) (hle : 2 ^ 52 ≤ m)
    (hlt : m < 2 ^ 53) (he : -1074 ≤ e) :
    repack (.finite s m e h) = .infinity s ∨ repack (.finite s m e h) = .finite s m e h := by
  rcases Int.lt_or_le 971 e with hlarge | hsmall
  · exact Or.inl (repack_of_range h (by omega))
  · exact Or.inr (unpack_pack s ⟨hle, hlt, he, hsmall⟩)

/-- The mantissa of what is unpacked has 53 bits, or fewer if the exponent is the
least one. -/
theorem normal_of_unpack {x : Float} {s : Sign} {m : Nat} {e : Int} {h : 0 < m}
    (hx : x.toModel.unpack = .finite s m e h) : Normal m e ∨ m < 2 ^ 52 ∧ e = -1074 := by
  let bits : BitVec Format.binary64.numBits := x.toModel.toBits.toBitVec
  change unpack .binary64 bits = _ at hx
  rw [unpack] at hx
  simp only [] at hx
  split_ifs at hx with hlast hempty hfirst hzero
  · injection hx with _ hm he
    rw [← hm, ← he, hfirst]
    exact Or.inr ⟨(unpackMantissa bits).isLt, rfl⟩
  · injection hx with _ hm he
    have hmantissa : (unpackMantissa bits).toNat < 2 ^ 52 := (unpackMantissa bits).isLt
    have hexponent : (unpackExponent bits).toNat < 2 ^ 11 := (unpackExponent bits).isLt
    have hbelow : (unpackExponent bits).toNat ≠ 2047 := fun h => hlast (BitVec.toNat_inj.mp h)
    have habove : (unpackExponent bits).toNat ≠ 0 := fun h => hfirst (BitVec.toNat_inj.mp h)
    have hbiased : ((unpackExponent bits).toNat : Int) - (1023 + 52) = e := he
    rw [toNat_one_append] at hm
    left
    constructor <;> omega

/-! ## Not a number -/

/-- A value is one of the two zeros. -/
def IsZero (x : Float) : Prop := ∃ s, x.toModel.unpack = .zero s

section Unpacked

variable (s : Sign) (m : Nat) (e : Int)

theorem isNaN_notANumber : UnpackedFloat.notANumber.isNaN = true := rfl

theorem isNaN_infinity : (UnpackedFloat.infinity s).isNaN = false := rfl

theorem isNaN_zero : (UnpackedFloat.zero s).isNaN = false := rfl

theorem isNaN_finite (h : 0 < m) : (UnpackedFloat.finite s m e h).isNaN = false := rfl

theorem isNaN_roundWithAccuracy (a : Accuracy) :
    (roundWithAccuracy .binary64 s m e a).isNaN = false := by
  unfold roundWithAccuracy
  simp only []
  split_ifs <;> rfl

theorem isNaN_normalize (m : Int) :
    (UnpackedFloat.normalize .binary64 m e s).isNaN = false := by
  unfold UnpackedFloat.normalize
  split
  · exact isNaN_roundWithAccuracy ..
  · rfl
  · exact isNaN_roundWithAccuracy ..

theorem isNaN_repack (u : UnpackedFloat) : (repack u).isNaN = u.isNaN := by
  rcases u with s | _ | s | ⟨s, m, e, h⟩
  · rw [repack_infinity]
  · rfl
  · rw [repack_zero]
  · rcases repack_finite s h with hinf | hfin
    · rw [hinf]
      rfl
    · -- A number is no infinity and not NaN either.
      cases hu : repack (.finite s m e h) with
      | notANumber =>
        rw [hu] at hfin
        cases hfin
      | infinity | zero | finite => rfl

end Unpacked

section Operations

variable {x y : Float}

/-- There is no product with what is not a number, and none of an infinity and a
zero. -/
theorem isNaN_mul_iff :
    (x * y).isNaN = true ↔ x.isNaN = true ∨ y.isNaN = true ∨
      x.isInf = true ∧ IsZero y ∨ IsZero x ∧ y.isInf = true := by
  have hrepack : (x * y).isNaN =
      (UnpackedFloat.mul .binary64 x.toModel.unpack y.toModel.unpack).isNaN := isNaN_repack _
  rw [hrepack]
  show _ ↔ x.toModel.unpack.isNaN = true ∨ y.toModel.unpack.isNaN = true ∨
    x.toModel.unpack.isInf = true ∧ (∃ s, y.toModel.unpack = .zero s) ∨
      (∃ s, x.toModel.unpack = .zero s) ∧ y.toModel.unpack.isInf = true
  cases x.toModel.unpack <;> cases y.toModel.unpack <;>
    simp [UnpackedFloat.mul, UnpackedFloat.isInf, isNaN_notANumber, isNaN_infinity, isNaN_zero,
      isNaN_finite, isNaN_roundWithAccuracy]

/-- There is no quotient with what is not a number, and none of two infinities or two
zeros. -/
theorem isNaN_div_iff :
    (x / y).isNaN = true ↔ x.isNaN = true ∨ y.isNaN = true ∨
      x.isInf = true ∧ y.isInf = true ∨ IsZero x ∧ IsZero y := by
  have hrepack : (x / y).isNaN =
      (UnpackedFloat.div .binary64 x.toModel.unpack y.toModel.unpack).isNaN := isNaN_repack _
  rw [hrepack]
  show _ ↔ x.toModel.unpack.isNaN = true ∨ y.toModel.unpack.isNaN = true ∨
    x.toModel.unpack.isInf = true ∧ y.toModel.unpack.isInf = true ∨
      (∃ s, x.toModel.unpack = .zero s) ∧ ∃ s, y.toModel.unpack = .zero s
  cases x.toModel.unpack <;> cases y.toModel.unpack <;>
    simp [UnpackedFloat.div, UnpackedFloat.isInf, isNaN_notANumber, isNaN_infinity, isNaN_zero,
      isNaN_finite, isNaN_roundWithAccuracy]

/-- There is a sum of a number with everything but what is not a number. -/
theorem isNaN_add_iff (hx : x.isFinite = true) : (x + y).isNaN = true ↔ y.isNaN = true := by
  have hrepack : (x + y).isNaN =
      (UnpackedFloat.add .binary64 x.toModel.unpack y.toModel.unpack).isNaN := isNaN_repack _
  rw [hrepack]
  change x.toModel.unpack.isFinite = true at hx
  show _ ↔ y.toModel.unpack.isNaN = true
  revert hx
  cases x.toModel.unpack <;> cases y.toModel.unpack <;>
    simp [UnpackedFloat.add, UnpackedFloat.isFinite, apply_ite UnpackedFloat.isNaN,
      isNaN_notANumber, isNaN_infinity, isNaN_zero, isNaN_finite, isNaN_normalize]

/-! ## Infinities -/

theorem isFinite_of_unpack {s : Sign} {m : Nat} {e : Int} {h : 0 < m}
    (hx : x.toModel.unpack = .finite s m e h) : x.isFinite = true := by
  show x.toModel.unpack.isFinite = true
  rw [hx]
  rfl

theorem isFinite_of_ofFloat {negative : Bool} {m : Nat} {e : Int}
    (hx : ofFloat x = .finite negative m e) : x.isFinite = true := by
  rw [ofFloat_eq] at hx
  show x.toModel.unpack.isFinite = true
  cases hu : x.toModel.unpack with
  | notANumber | infinity =>
    rw [hu] at hx
    cases hx
  | zero | finite => rfl

theorem isNaN_of_isFinite (hx : x.isFinite = true) : x.isNaN = false := by
  change x.toModel.unpack.isFinite = true at hx
  show x.toModel.unpack.isNaN = false
  revert hx
  cases x.toModel.unpack <;> simp [UnpackedFloat.isNaN, UnpackedFloat.isFinite]

theorem isInf_of_isFinite (hx : x.isFinite = true) : x.isInf = false := by
  change x.toModel.unpack.isFinite = true at hx
  show x.toModel.unpack.isInf = false
  revert hx
  cases x.toModel.unpack <;> simp [UnpackedFloat.isInf, UnpackedFloat.isFinite]

theorem isInf_sub (hx : x.isInf = true) (hy : y.isFinite = true) : (x - y).isInf = true := by
  change x.toModel.unpack.isInf = true at hx
  change y.toModel.unpack.isFinite = true at hy
  show (repack (UnpackedFloat.sub .binary64 x.toModel.unpack y.toModel.unpack)).isInf = true
  revert hx hy
  cases x.toModel.unpack <;> cases y.toModel.unpack <;>
    simp [UnpackedFloat.sub, UnpackedFloat.isInf, UnpackedFloat.isFinite, repack_infinity]

theorem isInf_add (hx : x.isFinite = true) (hy : y.isInf = true) : (x + y).isInf = true := by
  change x.toModel.unpack.isFinite = true at hx
  change y.toModel.unpack.isInf = true at hy
  show (repack (UnpackedFloat.add .binary64 x.toModel.unpack y.toModel.unpack)).isInf = true
  revert hx hy
  cases x.toModel.unpack <;> cases y.toModel.unpack <;>
    simp [UnpackedFloat.add, UnpackedFloat.isInf, UnpackedFloat.isFinite, repack_infinity]

/-- An infinity times anything but a number is an infinity, or no number at all. -/
theorem isNaN_or_isInf_mul (hx : x.isInf = true) : (x * y).isNaN = true ∨ (x * y).isInf = true := by
  change x.toModel.unpack.isInf = true at hx
  show (repack (UnpackedFloat.mul .binary64 x.toModel.unpack y.toModel.unpack)).isNaN = true ∨
    (repack (UnpackedFloat.mul .binary64 x.toModel.unpack y.toModel.unpack)).isInf = true
  revert hx
  cases x.toModel.unpack <;> cases y.toModel.unpack <;>
    simp [UnpackedFloat.mul, UnpackedFloat.isInf, isNaN_repack, isNaN_notANumber, repack_infinity]

end Operations

/-! ## Too large -/

theorem value_lt_iff {m n : Nat} {e : Int} : value m e < value n e ↔ m < n := by
  have hpos : (0 : ℚ) < 2 ^ e := by positivity
  rw [value, value, mul_lt_mul_iff_left₀ hpos, Nat.cast_lt]

theorem value_le_value {m n : Nat} {e : Int} (h : m ≤ n) : value m e ≤ value n e :=
  le_of_not_gt fun hlt => Nat.not_lt.mpr h (value_lt_iff.mp hlt)

/-- No number is greater than the one with the greatest mantissa and exponent. -/
theorem Normal.value_le {m : Nat} {e : Int} (h : Normal m e) :
    value m e ≤ value (2 ^ 53 - 1) 971 := by
  have hpow : (2 : ℚ) ^ e ≤ 2 ^ (971 : Int) := zpow_le_zpow_right₀ (by norm_num) h.exponent_le
  calc value m e ≤ value (2 ^ 53 - 1) e := value_le_value (Nat.le_sub_one_of_lt h.lt_two_pow)
    _ ≤ value (2 ^ 53 - 1) 971 := by
      unfold value
      gcongr

/-- A value below the greatest number is rounded to a number. -/
theorem round_in_range (s : Sign) {m : Nat} {e : Int} (hm : 2 ^ 52 ≤ m) (he : -1074 ≤ e)
    (hlt : value m e < value (2 ^ 53 - 1) 971) :
    ∃ m' e' h, roundWithAccuracy .binary64 s m e .exact = .finite s m' e' h ∧ Normal m' e' := by
  obtain ⟨h, hround⟩ := roundWithAccuracy_eq s hm he
  have hbits := div_two_pow_excess (two_pow_le_rounded hm)
  have hexcess := (rounded_div_mul hm).2
  -- The exponent that 53 bits of the exact value go with.
  have htop : e + excess m ≤ 971 := by
    have hleast : value (2 ^ 52) (e + excess m) ≤ value m e := by
      rw [← value_mul_two_pow]
      exact value_le_value (mul_two_pow_excess_le hm)
    have hgreatest : value (2 ^ 53 - 1) 971 < value (2 ^ 52) (971 + (1 : Nat)) := by
      rw [← value_mul_two_pow]
      exact value_lt_iff.mpr (by decide)
    have hpow : (2 : ℚ) ^ (e + excess m) < 2 ^ (971 + (1 : Nat) : Int) := by
      have hboth := hleast.trans_lt (hlt.trans hgreatest)
      unfold value at hboth
      exact lt_of_mul_lt_mul_left hboth (by positivity)
    have hexponent := (zpow_lt_zpow_iff_right₀ (by norm_num : (1 : ℚ) < 2)).mp hpow
    omega
  refine ⟨_, _, h, hround, hbits.1, hbits.2, by omega, ?_⟩
  rcases Int.lt_or_eq_of_le htop with hbelow | hlast
  · omega
  · -- At the last exponent the mantissa leaves room for a carry.
    have hroom : m / 2 ^ excess m < 2 ^ 53 - 1 := by
      rw [← hlast, ← value_mul_two_pow, value_lt_iff] at hlt
      exact (Nat.div_lt_iff_lt_mul (Nat.two_pow_pos _)).mpr hlt
    have hcarry := (rounded_bounds m).2
    have hfits := excess_eq_zero (two_pow_le_rounded hm) (by omega : rounded m < 2 ^ 53)
    omega

/-- A positive number with a large enough exponent is filled up to 53 bits before it is
rounded. -/
theorem round_eq_filled (s : Sign) {n : Nat} {e : Int} (hn : 0 < n) (he : -1022 ≤ e) :
    ∃ k : Nat, 2 ^ 52 ≤ n * 2 ^ k ∧ -1074 ≤ e - k ∧
      UnpackedFloat.round .binary64 s n e =
        roundWithAccuracy .binary64 s (n * 2 ^ k) (e - k) .exact := by
  have hround : UnpackedFloat.round .binary64 s n e =
      roundWithAccuracy .binary64 s (n * 2 ^ (52 - n.log2)) (e - (52 - n.log2 : Nat)) .exact := by
    have hshift : (e - Format.binary64.targetExponent (totalExponent n e)).toNat =
        52 - n.log2 := by
      rw [targetExponent_eq]
      omega
    simp only [UnpackedFloat.round, decreaseExponent, hshift, Nat.shiftLeft_eq]
  refine ⟨52 - n.log2, ?_, by omega, hround⟩
  have hlow : 2 ^ n.log2 ≤ n := Nat.log2_self_le (Nat.ne_of_gt hn)
  rcases Nat.le_total n.log2 52 with hshort | hlong
  · calc 2 ^ 52 = 2 ^ n.log2 * 2 ^ (52 - n.log2) := by
          rw [← Nat.pow_add]
          congr 1
          omega
      _ ≤ n * 2 ^ (52 - n.log2) := Nat.mul_le_mul_right _ hlow
  · calc 2 ^ 52 ≤ 2 ^ n.log2 := Nat.pow_le_pow_right (by decide) hlong
      _ ≤ n := hlow
      _ ≤ n * 2 ^ (52 - n.log2) := Nat.le_mul_of_pos_right _ (Nat.two_pow_pos _)

/-- A product is no zero if its exponent is in range. -/
theorem not_isZero_mul {x y : Float} {m m' : Nat} {e e' : Int} (hm : Normal m e)
    (hm' : Normal m' e') (hx : x.toModel.unpack = .finite .positive m e hm.pos)
    (hy : y.toModel.unpack = .finite .positive m' e' hm'.pos) (he : -1074 ≤ e + e') :
    ¬IsZero (x * y) := by
  obtain ⟨p, q, h, hround, hle, hlt, hq, -, -⟩ := round_near .positive (two_pow_le_mul hm hm') he
  have hunpack : (x * y).toModel.unpack = repack (.finite .positive p q h) := by
    show repack (UnpackedFloat.mul .binary64 x.toModel.unpack y.toModel.unpack) = _
    rw [hx, hy]
    exact congrArg repack hround
  intro hzero
  obtain ⟨s, hs⟩ := hzero
  rw [hunpack] at hs
  rcases repack_of_bits .positive h hle hlt (by omega : -1074 ≤ q) with hinf | hkept
  · rw [hinf] at hs
    cases hs
  · rw [hkept] at hs
    cases hs

/-! ## One less -/

/-- Values are the same if the same is unpacked from them. -/
theorem eq_of_unpack_eq {x y : Float} (h : x.toModel.unpack = y.toModel.unpack) : x = y := by
  rcases x with ⟨⟨⟨xbits⟩, hx⟩⟩
  rcases y with ⟨⟨⟨ybits⟩, hy⟩⟩
  obtain rfl : xbits = ybits := (unpack_inj_of_valid hx hy).mp h
  rfl

theorem unpack_one :
    (1.0 : Float).toModel.unpack = .finite .positive (2 ^ 52) (-52) (by decide) :=
  unpack_of_ofFloat (by decide +kernel) (by decide)

/-- What is left of a number of one at least is computed exactly and then rounded. -/
theorem unpack_sub_one {x : Float} {m : Nat} {e : Int} (hm : 0 < m) (he : -52 ≤ e)
    (hx : x.toModel.unpack = .finite .positive m e hm) :
    (x - 1.0).toModel.unpack = repack (UnpackedFloat.normalize .binary64
      ((m * 2 ^ (e + 52).toNat : Nat) - (2 ^ 52 : Nat)) (-52) .positive) := by
  have hleast : min e (-52) = -52 := by omega
  show repack (UnpackedFloat.sub .binary64 x.toModel.unpack (1.0 : Float).toModel.unpack) = _
  rw [hx, unpack_one]
  simp only [UnpackedFloat.sub, hleast, decreaseExponent, Nat.shiftLeft_eq]
  rfl

/-- What is left of one is a zero, and of a greater number a number that is none. -/
theorem sub_one_spec {x : Float} {m : Nat} {e : Int} (hm : Normal m e) (he : -52 ≤ e)
    (hx : x.toModel.unpack = .finite .positive m e hm.pos) :
    (x - 1.0).isFinite = true ∧ (IsZero (x - 1.0) ↔ x = 1.0) := by
  have hone : 2 ^ 52 ≤ m * 2 ^ (e + 52).toNat :=
    Nat.le_trans hm.two_pow_le (Nat.le_mul_of_pos_right m (Nat.two_pow_pos _))
  have hrest := unpack_sub_one hm.pos he hx
  show (x - 1.0).toModel.unpack.isFinite = true ∧ ((∃ s, (x - 1.0).toModel.unpack = .zero s) ↔ _)
  rw [hrest]
  rcases Nat.eq_or_lt_of_le hone with heq | hlt
  · have hshift : (e + 52).toNat = 0 := by
      by_contra hne
      have htwo : 2 ≤ 2 ^ (e + 52).toNat := Nat.le_self_pow hne 2
      have hdouble : m * 2 ≤ m * 2 ^ (e + 52).toNat := Nat.mul_le_mul_left m htwo
      have hle := hm.two_pow_le
      omega
    rw [hshift, Nat.pow_zero, Nat.mul_one] at heq
    obtain rfl : e = -52 := by omega
    subst heq
    have hsame : x = 1.0 := eq_of_unpack_eq (hx.trans unpack_one.symm)
    exact ⟨rfl, iff_of_true ⟨.positive, rfl⟩ hsame⟩
  · have hne : x ≠ 1.0 := by
      rintro rfl
      rw [unpack_one] at hx
      injection hx with _ hm he
      subst hm he
      exact absurd hlt (by decide)
    obtain ⟨n, hn⟩ : ∃ n, m * 2 ^ (e + 52).toNat = n + 2 ^ 52 :=
      ⟨_, (Nat.sub_add_cancel hone).symm⟩
    obtain ⟨k, hk, hk', hround⟩ :=
      round_eq_filled .positive (by omega : 0 < n) (by decide : (-1022 : Int) ≤ -52)
    have hbelow : value (n * 2 ^ k) (-52 - k) < value (2 ^ 53 - 1) 971 := by
      calc value (n * 2 ^ k) (-52 - k) = value n (-52) := by
            rw [value_mul_two_pow, sub_add_cancel]
        _ < value (m * 2 ^ (e + 52).toNat) (-52) := value_lt_iff.mpr (by omega)
        _ = value m e := by
            rw [value_mul_two_pow]
            congr 1
            omega
        _ ≤ value (2 ^ 53 - 1) 971 := hm.value_le
    obtain ⟨m', e', h, hresult, hnormal⟩ := round_in_range .positive hk hk' hbelow
    have hnormalize : UnpackedFloat.normalize .binary64
        ((m * 2 ^ (e + 52).toNat : Nat) - (2 ^ 52 : Nat)) (-52) .positive =
          .finite .positive m' e' h := by
      have hdifference : ((m * 2 ^ (e + 52).toNat : Nat) : Int) - (2 ^ 52 : Nat) = n := by omega
      rw [hdifference, normalize_natCast (by omega), hround, hresult]
    rw [hnormalize]
    show (Float.Model.pack (.finite .positive m' e' h)).unpack.isFinite = true ∧
      ((∃ s, (Float.Model.pack (.finite .positive m' e' h)).unpack = .zero s) ↔ _)
    rw [unpack_pack .positive hnormal]
    exact ⟨rfl, iff_of_false (by rintro ⟨s, ⟨⟩⟩) hne⟩

end TransitTransfers.Binary64
