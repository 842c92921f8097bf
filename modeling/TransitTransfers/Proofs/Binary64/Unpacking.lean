import Mathlib
import TransitTransfers.Binary64

/-!
# Exact values and the arithmetic of floating-point numbers

The operations on floating-point numbers are defined on unpacked values: an
operand is unpacked from its bits, and the result is rounded and packed into
bits again.  `Binary64.ofFloat` reads the same bits on its own.

* `ofFloat_eq` says that it reads what is unpacked.
* `unpack_pack` says that nothing is lost in between by a value with a mantissa
  of 53 bits and an exponent in range (`Normal`).
* `ofFloat_pack` puts both together, and `unpack_of_ofFloat` is the way back for
  positive values.
-/

namespace TransitTransfers.Binary64

open Float.Model (Format UnpackedFloat)
open Float.Model.UnpackedFloat

/-! ## Unpacked values -/

/-- Whether a sign is a minus. -/
def isNegative : Sign → Bool
  | .negative => true
  | .positive => false

/-- What an unpacked value stands for. -/
def ofUnpacked : UnpackedFloat → Binary64
  | .notANumber => .nan
  | .infinity sign => .infinite (isNegative sign)
  | .zero sign => .finite (isNegative sign) 0 (-1074)
  | .finite sign mantissa exponent _ => .finite (isNegative sign) mantissa exponent

/-! ## The fields of the bits -/

section Fields

variable (bits : BitVec Format.binary64.numBits)

theorem toNat_unpackExponent :
    (unpackExponent bits).toNat = bits.toNat / 2 ^ 52 % 2 ^ 11 := by
  rw [unpackExponent_def, BitVec.extractLsb'_toNat, Nat.shiftRight_eq_div_pow]

theorem toNat_unpackMantissa : (unpackMantissa bits).toNat = bits.toNat % 2 ^ 52 := by
  rw [unpackMantissa_def, BitVec.extractLsb'_toNat, Nat.shiftRight_zero]

theorem toNat_unpackSign : (unpackSign bits).toNat = bits.toNat / 2 ^ 63 := by
  have hbits : bits.toNat < 2 ^ 64 := bits.isLt
  have hbit : bits.toNat / 2 ^ 63 < 2 := by omega
  rw [unpackSign_def, BitVec.extractLsb'_toNat, Nat.shiftRight_eq_div_pow]
  exact Nat.mod_eq_of_lt hbit

end Fields

theorem isNegative_ofBitVec (sign : BitVec 1) :
    isNegative (.ofBitVec sign) = decide (sign.toNat = 1) := by
  revert sign
  decide

/-- The first bit of a mantissa is not stored. -/
theorem toNat_one_append (fraction : BitVec 52) :
    (1#1 ++ fraction).toNat = 2 ^ 52 + fraction.toNat := by
  rw [BitVec.toNat_append, ← Nat.shiftLeft_add_eq_or_of_lt fraction.isLt, Nat.shiftLeft_eq]
  rfl

/-- The fields of the bits stand for what is unpacked from them. -/
theorem ofFields_eq_ofUnpacked (bits : BitVec Format.binary64.numBits) :
    ofFields (decide (bits.toNat / 2 ^ 63 = 1)) (bits.toNat / 2 ^ 52 % 2 ^ 11)
      (bits.toNat % 2 ^ 52) = ofUnpacked (unpack .binary64 bits) := by
  rw [← toNat_unpackExponent, ← toNat_unpackMantissa, ← toNat_unpackSign, ← isNegative_ofBitVec]
  have hlast : unpackExponent bits = -1#11 ↔ (unpackExponent bits).toNat = 2047 :=
    BitVec.toNat_inj.symm
  have hfirst : unpackExponent bits = 0#11 ↔ (unpackExponent bits).toNat = 0 :=
    BitVec.toNat_inj.symm
  have hempty : unpackMantissa bits = 0#52 ↔ (unpackMantissa bits).toNat = 0 :=
    BitVec.toNat_inj.symm
  unfold unpack ofFields
  by_cases h : unpackExponent bits = -1#11
  · rw [if_pos (hlast.mp h)]
    simp only [if_pos h]
    by_cases hm : unpackMantissa bits = 0#52
    · rw [if_pos (hempty.mp hm), if_pos hm]
      rfl
    · rw [if_neg (mt hempty.mpr hm), if_neg hm]
      rfl
  rw [if_neg (mt hlast.mpr h)]
  simp only [if_neg h]
  by_cases h : unpackExponent bits = 0#11
  · rw [if_pos (hfirst.mp h), if_pos h]
    by_cases hm : unpackMantissa bits = 0#52
    · rw [dif_pos hm, hempty.mp hm]
      rfl
    · rw [dif_neg hm, hfirst.mp h]
      rfl
  · rw [if_neg (mt hfirst.mpr h), if_neg h]
    simp only [toNat_one_append]
    rfl

/-- A value stands for what is unpacked from its bits. -/
theorem ofFloat_eq (x : Float) : ofFloat x = ofUnpacked x.toModel.unpack :=
  ofFields_eq_ofUnpacked x.toModel.toBits.toBitVec

/-- What is unpacked from the bits of a positive value. -/
theorem unpack_of_ofFloat {x : Float} {m : Nat} {e : Int} (h : ofFloat x = .finite false m e)
    (hm : 0 < m) : x.toModel.unpack = .finite .positive m e hm := by
  rw [ofFloat_eq] at h
  rcases hx : x.toModel.unpack with _ | _ | sign | ⟨sign, m', e', hm'⟩ <;> rw [hx] at h
  · cases h
  · cases h
  · injection h with _ hzero _
    omega
  · injection h with hsign hm he
    subst hm he
    cases sign
    · cases hsign
    · rfl

/-! ## Packing and unpacking -/

/-- A mantissa of 53 bits, with an exponent in range. -/
structure Normal (m : Nat) (e : Int) : Prop where
  two_pow_le : 2 ^ 52 ≤ m
  lt_two_pow : m < 2 ^ 53
  le_exponent : -1074 ≤ e
  exponent_le : e ≤ 971

theorem Normal.pos {m : Nat} {e : Int} (h : Normal m e) : 0 < m :=
  Nat.lt_of_lt_of_le (by decide) h.two_pow_le

theorem log2_eq {m : Nat} (hle : 2 ^ 52 ≤ m) (hlt : m < 2 ^ 53) : m.log2 = 52 :=
  (Nat.log2_eq_iff (by omega)).mpr ⟨hle, hlt⟩

/-- The fields that a normal value is packed into. -/
theorem pack_normal (s : Sign) {m : Nat} {e : Int} (h : Normal m e) :
    pack .binary64 (.finite s m e h.pos) =
      packComponents .binary64 s (.ofNat 11 (e + 1075).toNat) (.ofNat 52 m) := by
  have hle := h.le_exponent
  have hge := h.exponent_le
  have hbiased : e + (Format.binary64.exponentBias : Int) +
      (Format.binary64.mantissaBitsWithoutImplicit : Int) = e + 1075 := by
    show e + (1023 : Int) + 52 = _
    omega
  have hrange : ¬2 ^ 11 ≤ (e + 1075).toNat + 1 := by omega
  simp only [pack, hbiased, log2_eq h.two_pow_le h.lt_two_pow]
  rw [if_neg hrange]
  rfl

/-- A normal value is unpacked as it was packed. -/
theorem unpack_pack (s : Sign) {m : Nat} {e : Int} (h : Normal m e) :
    (Float.Model.pack (.finite s m e h.pos)).unpack = .finite s m e h.pos := by
  have hle := h.le_exponent
  have hge := h.exponent_le
  have hm := h.two_pow_le
  have hm' := h.lt_two_pow
  have hexponent : (BitVec.ofNat 11 (e + 1075).toNat).toNat = (e + 1075).toNat := by
    rw [BitVec.toNat_ofNat]
    omega
  have hmantissa : (1#1 ++ BitVec.ofNat 52 m).toNat = m := by
    rw [toNat_one_append, BitVec.toNat_ofNat]
    omega
  have hlast : BitVec.ofNat 11 (e + 1075).toNat ≠ -1#11 := by
    intro heq
    have htop : (e + 1075).toNat = 2047 := hexponent.symm.trans (congrArg BitVec.toNat heq)
    omega
  have hfirst : BitVec.ofNat 11 (e + 1075).toNat ≠ 0#11 := by
    intro heq
    have hzero : (e + 1075).toNat = 0 := hexponent.symm.trans (congrArg BitVec.toNat heq)
    omega
  have he : ((e + 1075).toNat : Int) - (1023 + 52) = e := by omega
  show unpack .binary64 (pack .binary64 (.finite s m e h.pos)) = _
  rw [pack_normal s h, unpack]
  simp only [unpackMantissa_packComponents, unpackExponent_packComponents,
    unpackSign_packComponents, Sign.ofBitVec_toBitVec]
  rw [if_neg hlast, if_neg hfirst]
  simp only [hmantissa, hexponent]
  congr 1

/-- What the bits of a normal value stand for. -/
theorem ofFloat_pack (s : Sign) {m : Nat} {e : Int} (h : Normal m e) :
    ofFloat (.ofModel (.pack (.finite s m e h.pos))) = .finite (isNegative s) m e := by
  rw [ofFloat_eq]
  show ofUnpacked (Float.Model.pack _).unpack = _
  rw [unpack_pack s h]
  rfl

end TransitTransfers.Binary64
