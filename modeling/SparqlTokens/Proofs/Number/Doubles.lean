import Mathlib
import SparqlTokens.Number.Binary64

/-! The double of a decimal is a number, or infinite, but never the bits for no number. Doubles are
followed through their unpacked form, where rounding a product or a quotient of finite ones leads to
zero or a finite one again. -/
namespace SparqlTokens.Number

open Float.Model

section Bits

variable {bits : UInt64}

theorem magnitude_toNat (bits : UInt64) : (bits &&& ~~~signBit).toNat = bits.toNat % 2 ^ 63 := by
  have hmask : (~~~signBit).toNat = 2 ^ 63 - 1 := by decide
  rw [UInt64.toNat_and, hmask, Nat.and_two_pow_sub_one_eq_mod]

theorem magnitude_signed (bits : UInt64) :
    (bits ||| signBit) &&& ~~~signBit = bits &&& ~~~signBit := by
  apply UInt64.eq_of_toBitVec_eq
  ext i hi
  simp only [UInt64.toBitVec_and, UInt64.toBitVec_or, UInt64.toBitVec_not, BitVec.getElem_and,
    BitVec.getElem_or, BitVec.getElem_not]
  grind

theorem isNaN_signed (bits : UInt64) : isNaN (bits ||| signBit) = isNaN bits := by
  rw [isNaN, isNaN, magnitude_signed]

theorem exponent_toNat (x : BitVec 64) :
    (@UnpackedFloat.unpackExponent Format.binary64 x).toNat =
      x.toNat / 2 ^ 52 % 2 ^ 11 := by
  simp [UnpackedFloat.unpackExponent, Nat.shiftRight_eq_div_pow]

theorem mantissa_toNat (x : BitVec 64) :
    (@UnpackedFloat.unpackMantissa Format.binary64 x).toNat = x.toNat % 2 ^ 52 := by
  simp [UnpackedFloat.unpackMantissa]

theorem unpack_of_isNaN (h : isNaN bits = true) :
    UnpackedFloat.unpack Format.binary64 bits.toBitVec = .notANumber := by
  have hlt : infinityBits.toNat < bits.toNat % 2 ^ 63 := by
    rw [← magnitude_toNat]
    exact UInt64.lt_iff_toNat_lt.mp (of_decide_eq_true h)
  have hinfinity : infinityBits.toNat = 2047 * 2 ^ 52 := by decide
  have hvec : bits.toBitVec.toNat = bits.toNat := rfl
  have hexponent : @UnpackedFloat.unpackExponent Format.binary64 bits.toBitVec = -1#_ := by
    apply BitVec.eq_of_toNat_eq
    have hones : (-1#11).toNat = 2047 := by decide
    rw [exponent_toNat, hvec, hones]
    omega
  have hmantissa :
      @UnpackedFloat.unpackMantissa Format.binary64 bits.toBitVec ≠ 0#_ := by
    intro hzero
    have hnat := congrArg BitVec.toNat hzero
    have hnone : (0#52).toNat = 0 := rfl
    rw [mantissa_toNat, hvec, hnone] at hnat
    omega
  simp only [UnpackedFloat.unpack, hexponent, if_true, hmantissa, if_false]

end Bits

section Unpacked

variable {f g : UnpackedFloat}

/-- A number is packed with the greatest exponent only if it is infinite. -/
theorem packComponents_number {sign : UnpackedFloat.Sign} {exponent : BitVec 11}
    {mantissa : BitVec 52} (h : exponent ≠ -1#_) :
    UnpackedFloat.unpack Format.binary64
      (UnpackedFloat.packComponents Format.binary64 sign exponent mantissa) ≠ .notANumber := by
  simp only [UnpackedFloat.unpack, UnpackedFloat.unpackExponent_packComponents, h, if_false]
  split
  · split
    · nofun
    · nofun
  · nofun

theorem unpack_pack (h : f ≠ .notANumber) :
    UnpackedFloat.unpack Format.binary64 (UnpackedFloat.pack Format.binary64 f) ≠ .notANumber := by
  fun_cases UnpackedFloat.pack Format.binary64 f with
  | case1 => exact absurd rfl h
  | case2 => simp [UnpackedFloat.unpack, UnpackedFloat.packedInfinity]
  | case3 => simp [UnpackedFloat.unpack, UnpackedFloat.packedZero]
  | case4 => simp [UnpackedFloat.unpack, UnpackedFloat.packedInfinity]
  | case5 s m e hm bits biased hbiased _ =>
    apply packComponents_number
    intro hones
    have hnat := congrArg BitVec.toNat hones
    have hgreatest : (-1#11).toNat = 2047 := by decide
    have hlt : ¬ 2 ^ 11 ≤ biased + 1 := hbiased
    rw [BitVec.toNat_ofNat, hgreatest, Nat.mod_eq_of_lt (by omega)] at hnat
    omega
  | case6 =>
    apply packComponents_number
    decide

theorem isNaN_pack (h : f ≠ .notANumber) :
    isNaN (Float.Model.pack f).toBits = false := by
  apply Bool.eq_false_iff.mpr
  intro hnan
  exact unpack_pack h (unpack_of_isNaN hnan)

def isProper : UnpackedFloat → Bool
  | .finite .. => true
  | _ => false

theorem round_number (spec : Format) (sign : UnpackedFloat.Sign) (mantissa : ℕ) (exponent : ℤ)
    (accuracy : UnpackedFloat.Accuracy) :
    UnpackedFloat.roundWithAccuracy spec sign mantissa exponent accuracy ≠ .notANumber := by
  simp only [UnpackedFloat.roundWithAccuracy]
  split
  · nofun
  · nofun

theorem mul_number (spec : Format) (hf : f ≠ .notANumber) (hg : isProper g = true) :
    UnpackedFloat.mul spec f g ≠ .notANumber := by
  cases g with
  | infinity | notANumber | zero => cases hg
  | finite =>
    cases f with
    | notANumber => exact absurd rfl hf
    | infinity | zero => nofun
    | finite => exact round_number _ _ _ _ _

theorem div_number (spec : Format) (hf : f ≠ .notANumber) (hg : isProper g = true) :
    UnpackedFloat.div spec f g ≠ .notANumber := by
  cases g with
  | infinity | notANumber | zero => cases hg
  | finite =>
    cases f with
    | notANumber => exact absurd rfl hf
    | infinity | zero => nofun
    | finite => exact round_number _ _ _ _ _

theorem ofScientific_number (spec : Format) (m : ℕ) (e : ℤ) :
    UnpackedFloat.ofScientific spec m e ≠ .notANumber := by
  unfold UnpackedFloat.ofScientific
  split
  · nofun
  split
  · nofun
  split
  · nofun
  split
  · exact mul_number spec (by nofun) rfl
  · exact div_number spec (by nofun) rfl

theorem ofUInt64_number (spec : Format) (n : UInt64) :
    UnpackedFloat.ofUInt64 spec n ≠ .notANumber := by
  have round : ∀ sign mantissa exponent,
      UnpackedFloat.round spec sign mantissa exponent ≠ .notANumber :=
    fun _ _ _ => round_number _ _ _ _ _
  simp only [UnpackedFloat.ofUInt64, UnpackedFloat.ofNat, UnpackedFloat.ofInt,
    UnpackedFloat.normalize]
  split
  · exact round _ _ _
  · nofun
  · exact round _ _ _

end Unpacked

theorem powers_proper : (Float.exactlyRepresentablePowersOfTen.all fun p =>
    isProper p.toModel.unpack) = true := by
  decide +kernel

/-- A decimal reads as a number, be it by a power of ten from the table or by unpacked doubles. -/
theorem isNaN_ofScientific (m : ℕ) (s : Bool) (e : ℕ) :
    isNaN (Float.ofScientific m s e).toBits = false := by
  unfold Float.ofScientific
  split
  · next h =>
    have hsize : e < Float.exactlyRepresentablePowersOfTen.size := by
      simp [Float.exactlyRepresentablePowersOfTen]
      omega
    have hpower : isProper Float.exactlyRepresentablePowersOfTen[e].toModel.unpack = true :=
      Array.all_eq_true.mp powers_proper e _
    have hwhole : m.toUInt64.toFloat.toModel.unpack ≠ .notANumber :=
      unpack_pack (ofUInt64_number _ _)
    cases s with
    | true => exact isNaN_pack (div_number _ hwhole hpower)
    | false => exact isNaN_pack (mul_number _ hwhole hpower)
  · exact isNaN_pack (ofScientific_number _ _ _)

theorem Decimal.isNaN_bits (d : Decimal) : isNaN d.bits = false := by
  have hsize : ∀ size : UInt64, isNaN size = false →
      isNaN (if d.negative then size ||| signBit else size) = false := by
    intro size h
    split
    · rw [isNaN_signed, h]
    · exact h
  apply hsize
  split
  · decide
  · split
    · decide
    · exact isNaN_ofScientific _ _ _

end SparqlTokens.Number
