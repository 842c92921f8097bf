import TransitTransfers.Proofs.Binary64.Exceptions
import TransitTransfers.Settings
import TransitTransfers.WaitRisk

/-!
# When a wait has no price

The price of a wait is a quotient of two numbers that grow with the factor.  If
both grow beyond the range, the quotient is not a number, and such a price is
rounded to zero.

* `isFactor_cases` says what is a factor: an infinity, or a number of one at least.
* `isNaN_cost_of_isInf` is about the infinite factor.  It passes the check, and
  no wait has a price with it.  `no_price_at_infinity` is such a wait.
* `isNaN_cost_iff_of_finite` is about the other factors.
* `isNaN_cost_iff` puts both together.  Nothing is assumed of the logarithm.
-/

namespace TransitTransfers

open Binary64
open Float.Model (UnpackedFloat)

/-! ## Factors -/

theorem lt_iff_unpack {x y : Float} : x < y ↔ x.toModel.unpack.lt y.toModel.unpack = true :=
  decide_eq_true_iff

theorem le_iff_unpack {x y : Float} : x ≤ y ↔ x.toModel.unpack.le y.toModel.unpack = true :=
  decide_eq_true_iff

/-- A factor is infinite, or it is a normal number of one at least. -/
theorem Settings.isFactor_cases {x : Float} (h : isFactor x = true) :
    x.toModel.unpack = .infinity .positive ∨
      ∃ m e, ∃ hm : Normal m e, -52 ≤ e ∧ x.toModel.unpack = .finite .positive m e hm.pos := by
  rw [isFactor, Bool.not_eq_true', Bool.or_eq_false_iff, decide_eq_false_iff_not,
    lt_iff_unpack, unpack_one] at h
  rcases h with ⟨hnan, hlt⟩
  change x.toModel.unpack.isNaN = false at hnan
  cases hx : x.toModel.unpack with
  | notANumber =>
    rw [hx] at hnan
    cases hnan
  | zero s =>
    rw [hx] at hlt
    exact absurd rfl hlt
  | infinity s =>
    cases s with
    | negative =>
      rw [hx] at hlt
      exact absurd rfl hlt
    | positive => exact Or.inl rfl
  | finite s m e hm =>
    rw [hx] at hlt
    cases s with
    | negative => exact absurd rfl hlt
    | positive =>
      -- A smaller exponent would make a smaller number than one.
      have he : -52 ≤ e := by
        by_contra hsmall
        have hcompare : compare e (-52) = .lt := compare_lt_iff_lt.mpr (by omega)
        apply hlt
        show (some ((compare e (-52)).then (compare m (2 ^ 52))) == some Ordering.lt) = true
        rw [hcompare]
        rfl
      rcases normal_of_unpack hx with hnormal | ⟨-, hleast⟩
      · exact Or.inr ⟨m, e, hnormal, he, rfl⟩
      · omega

/-! ## The parts of the price -/

namespace WaitCurve

/-- The logarithm that the price of a wait of some seconds is made with. -/
def log (curve : WaitCurve) (seconds : Float) : Float :=
  (1.0 + (base - 1.0) * seconds / curve.safe).log

theorem decay_eq (curve : WaitCurve) (seconds : Float) :
    curve.decay seconds = 1.0 + (curve.factor - 1.0) * curve.log seconds := rfl

theorem isFinite_one : (1.0 : Float).isFinite = true := isFinite_of_unpack unpack_one

/-- The safe transfer time is a normal number, and no large one. -/
theorem exists_safe (safe : Duration) (factor : Float) :
    ∃ m e, ∃ hm : Normal m e, -52 ≤ e ∧ e ≤ -21 ∧
      (WaitCurve.of safe factor).safe.toModel.unpack = .finite .positive m e hm.pos := by
  by_cases hzero : safe.seconds = 0
  · have hone : (WaitCurve.of safe factor).safe = 1.0 := if_pos hzero
    rw [hone]
    exact ⟨2 ^ 52, -52, ⟨by decide, by decide, by decide, by decide⟩, by decide, by decide,
      unpack_one⟩
  · have hsafe : (WaitCurve.of safe factor).safe = safe.toFloat := if_neg hzero
    have hword : (UInt32.ofNat safe.seconds).toNat = safe.seconds :=
      UInt32.toNat_ofNat_of_lt safe.fits
    obtain ⟨m, e, hx, hm, hle, hge, -⟩ := ofFloat_word (n := .ofNat safe.seconds) (by omega)
    rw [hsafe]
    exact ⟨m, e, hm, hle, hge, unpack_of_ofFloat hx hm.pos⟩

section Prices

variable {curve : WaitCurve} {seconds : Float}

/-- The price is a quotient, and there is none of two infinities. -/
theorem isNaN_costOfSeconds_iff (hnumber : (curve.factor * curve.safe).isNaN = false)
    (hzero : ¬IsZero (curve.factor * curve.safe)) :
    (curve.costOfSeconds seconds).isNaN = true ↔ (curve.decay seconds).isNaN = true ∨
      (curve.factor * curve.safe).isInf = true ∧ (curve.decay seconds).isInf = true := by
  rw [costOfSeconds, isNaN_div_iff, hnumber]
  simp [hzero]

/-- No wait has a price with an infinite factor. -/
theorem isNaN_cost_of_isInf (hfactor : curve.factor.isInf = true) :
    (curve.costOfSeconds seconds).isNaN = true := by
  have hnumerator : (curve.factor * curve.safe).isNaN = true ∨
      (curve.factor * curve.safe).isInf = true := isNaN_or_isInf_mul hfactor
  -- What the price is divided by is infinite too, unless it is no number itself.
  have hdecay : (curve.decay seconds).isNaN = true ∨ (curve.decay seconds).isInf = true := by
    rw [decay_eq]
    rcases isNaN_or_isInf_mul (isInf_sub hfactor isFinite_one) with hnan | hinf
    · exact Or.inl ((isNaN_add_iff isFinite_one).mpr hnan)
    · exact Or.inr (isInf_add isFinite_one hinf)
  rw [costOfSeconds, isNaN_div_iff]
  rcases hnumerator with hnan | hlarge
  · exact Or.inl hnan
  · rcases hdecay with hnan | hinf
    · exact Or.inr (Or.inl hnan)
    · exact Or.inr (Or.inr (Or.inl ⟨hlarge, hinf⟩))

/-- With a finite factor a wait has no price if both parts of it grow beyond the range,
or if there is something wrong with the logarithm. -/
theorem isNaN_cost_iff_of_finite {m m' : Nat} {e e' : Int} (hm : Normal m e) (he : -52 ≤ e)
    (hfactor : curve.factor.toModel.unpack = .finite .positive m e hm.pos) (hm' : Normal m' e')
    (he' : -52 ≤ e') (hsafe : curve.safe.toModel.unpack = .finite .positive m' e' hm'.pos) :
    (curve.costOfSeconds seconds).isNaN = true ↔
      ((curve.log seconds).isNaN = true ∨
          curve.factor = 1.0 ∧ (curve.log seconds).isInf = true) ∨
        (curve.factor * curve.safe).isInf = true ∧ (curve.decay seconds).isInf = true := by
  have hfinite := isFinite_of_unpack hfactor
  have hfinite' := isFinite_of_unpack hsafe
  have hnumber : (curve.factor * curve.safe).isNaN = false := by
    rw [Bool.eq_false_iff, Ne, isNaN_mul_iff, isNaN_of_isFinite hfinite,
      isNaN_of_isFinite hfinite', isInf_of_isFinite hfinite, isInf_of_isFinite hfinite']
    simp
  have hzero := not_isZero_mul hm hm' hfactor hsafe (by omega)
  obtain ⟨hrest, hone⟩ := sub_one_spec hm he hfactor
  rw [isNaN_costOfSeconds_iff hnumber hzero, decay_eq, isNaN_add_iff isFinite_one, isNaN_mul_iff,
    hone, isNaN_of_isFinite hrest, isInf_of_isFinite hrest]
  simp

end Prices

/-! ## All accepted settings -/

theorem unpack_large :
    (1e290 : Float).toModel.unpack = .finite .positive 5776622002767455 911 (by decide) :=
  unpack_of_ofFloat (by decide +kernel) (by decide)

/-- The price of no wait is in range if the factor is not huge. -/
theorem isInf_mul_safe {factor : Float} {m : Nat} {e : Int} (hm : Normal m e) (he : -52 ≤ e)
    (hfactor : factor.toModel.unpack = .finite .positive m e hm.pos) (hle : factor ≤ 1e290)
    (safe : Duration) : (factor * (WaitCurve.of safe factor).safe).isInf = false := by
  have hbound : e ≤ 911 := by
    rw [le_iff_unpack, hfactor, unpack_large] at hle
    by_contra hlarge
    have hcompare : compare e 911 = .gt := compare_gt_iff_gt.mpr (by omega)
    change ((compare e 911).then (compare m 5776622002767455)).isLE = true at hle
    rw [hcompare] at hle
    cases hle
  obtain ⟨m', e', hm', hlow, hhigh, hsafe⟩ := exists_safe safe factor
  have hx : ofFloat factor = .finite false m e := by
    rw [ofFloat_eq, hfactor]
    rfl
  have hy : ofFloat (WaitCurve.of safe factor).safe = .finite false m' e' := by
    rw [ofFloat_eq, hsafe]
    rfl
  obtain ⟨p, q, hproduct, -⟩ := mul_near hx hy hm hm' (by omega) (by omega)
  exact isInf_of_isFinite (isFinite_of_ofFloat hproduct)

/-- A price that is not a number is rounded to zero. -/
theorem riskCost_of_isNaN {pricing : RiskPricing} {wait : Duration}
    (h : (pricing.curve.cost wait).isNaN = true) : pricing.riskCost wait = .zero := by
  have hnan : (pricing.weight * pricing.curve.cost wait).toModel.unpack = .notANumber :=
    UnpackedFloat.isNaN_iff.mp (isNaN_mul_iff.mpr (Or.inr (Or.inl h)))
  rw [RiskPricing.riskCost, Cost.nearest, ofFloat_eq, hnan]
  rfl

end WaitCurve

namespace Settings

theorem isFactor_of_check {settings : Settings} (h : settings.check = .ok ()) :
    isFactor settings.riskFactor = true := by
  by_contra hfactor
  have hdefect : settings.defect? = some (.factorBelowOne settings.riskFactor) := by
    rw [defect?, if_pos]
    simpa using hfactor
  rw [check, hdefect] at h
  cases h

/-- With accepted settings a wait has no price exactly if the factor is infinite, or the
factor times the safe transfer time and what it is divided by both grow beyond the range.
The logarithm may be whatever it is; a price is also missing if it is not a number, or
infinite at a factor of one.  Factors up to `1e290` are not infinite, and their product
with the safe transfer time is in range.  A wait that has no price costs nothing. -/
theorem isNaN_cost_iff {settings : Settings} (hcheck : settings.check = .ok ())
    (safe wait : Duration) :
    let curve := WaitCurve.of safe settings.riskFactor
    ((curve.cost wait).isNaN = true ↔
        settings.riskFactor.isInf = true ∨
          ((curve.log wait.toFloat).isNaN = true ∨
            settings.riskFactor = 1.0 ∧ (curve.log wait.toFloat).isInf = true) ∨
          (settings.riskFactor * curve.safe).isInf = true ∧
            (curve.decay wait.toFloat).isInf = true) ∧
      (settings.riskFactor ≤ 1e290 →
        settings.riskFactor.isInf = false ∧ (settings.riskFactor * curve.safe).isInf = false) ∧
      ((curve.cost wait).isNaN = true → ∀ weight weights,
        RiskPricing.riskCost ⟨curve, weight, weights⟩ wait = .zero) := by
  intro curve
  have hsilent : (curve.cost wait).isNaN = true → ∀ weight weights,
      RiskPricing.riskCost ⟨curve, weight, weights⟩ wait = .zero :=
    fun hnan _ _ => WaitCurve.riskCost_of_isNaN hnan
  rcases isFactor_cases (isFactor_of_check hcheck) with hfactor | ⟨m, e, hm, he, hfactor⟩
  · have hinf : settings.riskFactor.isInf = true := by
      show settings.riskFactor.toModel.unpack.isInf = true
      rw [hfactor]
      rfl
    have hnan : (curve.cost wait).isNaN = true := WaitCurve.isNaN_cost_of_isInf hinf
    refine ⟨iff_of_true hnan (Or.inl hinf), fun hle => ?_, hsilent⟩
    -- An infinity is not bounded.
    rw [le_iff_unpack, hfactor, WaitCurve.unpack_large] at hle
    cases hle
  · obtain ⟨m', e', hm', he', -, hsafe⟩ := WaitCurve.exists_safe safe settings.riskFactor
    have hfinite := isInf_of_isFinite (isFinite_of_unpack hfactor)
    have hcurve : curve.factor.toModel.unpack = .finite .positive m e hm.pos := hfactor
    refine ⟨?_, fun hle => ⟨hfinite, WaitCurve.isInf_mul_safe hm he hfactor hle safe⟩, hsilent⟩
    have hprice : (curve.cost wait).isNaN = true ↔ _ :=
      WaitCurve.isNaN_cost_iff_of_finite hm he hcurve hm' he' hsafe
    rw [hprice, hfinite]
    simp [curve, WaitCurve.of]

/-- With the default settings, and ten minutes that are safe, a wait of one minute has a
price if it has a logarithm. -/
theorem isNaN_cost_iff_default :
    let curve := WaitCurve.of ⟨600, by decide⟩ default.riskFactor
    default.check = .ok () ∧ ((curve.cost ⟨60, by decide⟩).isNaN = true ↔
      (curve.log (Duration.toFloat ⟨60, by decide⟩)).isNaN = true) := by
  have hcheck : default.check = .ok () := by decide +kernel
  obtain ⟨hprice, hrange, -⟩ := isNaN_cost_iff hcheck ⟨600, by decide⟩ ⟨60, by decide⟩
  obtain ⟨hfinite, hlarge⟩ := hrange (by decide +kernel)
  have hfactor : default.riskFactor ≠ 1.0 := by decide +kernel
  rw [hfinite, hlarge] at hprice
  refine ⟨hcheck, hprice.trans ?_⟩
  simp [hfactor]

/-- An infinite factor is accepted.  A wait without margin, which should be the dearest, has
no price with it and costs nothing. -/
theorem no_price_at_infinity :
    ({ default with riskFactor := 1.0 / 0.0 } : Settings).check = .ok () ∧
      ((WaitCurve.of ⟨60, by decide⟩ (1.0 / 0.0)).cost .zero).isNaN = true ∧
        RiskPricing.riskCost ⟨.of ⟨60, by decide⟩ (1.0 / 0.0), 1.0, .default⟩ .zero = .zero := by
  have hinf : (WaitCurve.of ⟨60, by decide⟩ (1.0 / 0.0)).factor.isInf = true := by decide +kernel
  have hnan : ((WaitCurve.of ⟨60, by decide⟩ (1.0 / 0.0)).cost .zero).isNaN = true :=
    WaitCurve.isNaN_cost_of_isInf hinf
  exact ⟨by decide +kernel, hnan, WaitCurve.riskCost_of_isNaN hnan⟩

end Settings

end TransitTransfers
