import Mathlib
import Abacus.Decimal

/-!
The sign of a double is its first bit. A finite double is the one that its magnitude is the bits of,
or the negative of that; negation turns the first bit and leaves the others, so that done twice it is
undone.
-/

namespace Abacus.Decimal

open Float.Model
open Float.Model.UnpackedFloat (Sign unpackMantissa unpackExponent unpackSign)

abbrev word (bits : UInt64) : BitVec Format.binary64.numBits :=
  bits.toBitVec

theorem toNat_unpackMantissa (b : BitVec Format.binary64.numBits) :
    (unpackMantissa b).toNat = b.toNat % 2 ^ 52 := by
  rw [UnpackedFloat.unpackMantissa_def, BitVec.extractLsb'_toNat, Nat.shiftRight_zero]

theorem toNat_unpackExponent (b : BitVec Format.binary64.numBits) :
    (unpackExponent b).toNat = b.toNat / 2 ^ 52 % 2 ^ 11 := by
  rw [UnpackedFloat.unpackExponent_def, BitVec.extractLsb'_toNat, Nat.shiftRight_eq_div_pow]

theorem toNat_unpackSign (b : BitVec Format.binary64.numBits) :
    (unpackSign b).toNat = b.toNat / 2 ^ 63 % 2 ^ 1 := by
  rw [UnpackedFloat.unpackSign_def, BitVec.extractLsb'_toNat, Nat.shiftRight_eq_div_pow]
  rfl

theorem unpackSign_of_lt {b : BitVec Format.binary64.numBits} (h : b.toNat < 2 ^ 63) :
    unpackSign b = 0#1 := by
  refine BitVec.eq_of_toNat_eq ?_
  rw [toNat_unpackSign]
  change b.toNat / 2 ^ 63 % 2 ^ 1 = 0
  omega

theorem unpackSign_of_le {b : BitVec Format.binary64.numBits} (h : 2 ^ 63 ≤ b.toNat) :
    unpackSign b = 1#1 := by
  have size : b.toNat < 2 ^ 64 := b.isLt
  refine BitVec.eq_of_toNat_eq ?_
  rw [toNat_unpackSign]
  change b.toNat / 2 ^ 63 % 2 ^ 1 = 1
  omega

theorem infinityBits_eq : infinityBits = 2047 * 2 ^ 52 := rfl

theorem magnitude_eq (x : Float) : magnitude x = x.toBits.toNat % 2 ^ 63 := rfl

theorem toNat_word_ofNat {bits : Nat} (finite : bits < infinityBits) :
    (word (UInt64.ofNat bits)).toNat = bits := by
  rw [infinityBits_eq] at finite
  rw [UInt64.toNat_toBitVec, UInt64.toNat_ofNat', Nat.mod_eq_of_lt (by omega)]

theorem toBits_ofBits {bits : Nat} (finite : bits < infinityBits) :
    (Float.ofBits (UInt64.ofNat bits)).toBits = UInt64.ofNat bits := by
  have number : UnpackedFloat.isNaNBits (word (UInt64.ofNat bits)) = false := by
    simp only [UnpackedFloat.isNaNBits, decide_eq_false_iff_not, not_and]
    intro allOnes
    have exponent := congrArg BitVec.toNat allOnes
    have ones : (-1#11).toNat = 2047 := rfl
    rw [toNat_unpackExponent, toNat_word_ofNat finite, ones] at exponent
    rw [infinityBits_eq] at finite
    omega
  refine UInt64.toBitVec_inj.mp ?_
  exact (UnpackedFloat.pack_unpack _).trans (by rw [number]; rfl)

theorem unpack_of_flipped {spec : Format} {b b' : BitVec spec.numBits}
    (mantissa : unpackMantissa b = unpackMantissa b')
    (exponent : unpackExponent b = unpackExponent b')
    (sign : Sign.ofBitVec (unpackSign b) = -Sign.ofBitVec (unpackSign b')) :
    UnpackedFloat.unpack spec b = (UnpackedFloat.unpack spec b').neg := by
  unfold UnpackedFloat.unpack
  simp only [mantissa, exponent, sign]
  split_ifs <;> rfl

theorem isNegative_iff {x : Float} : isNegative x = true ↔ 2 ^ 63 ≤ x.toBits.toNat :=
  decide_eq_true_iff

theorem eq_ofBits_of_isNegative_eq_false {x : Float} (h : isNegative x = false) :
    x = Float.ofBits (UInt64.ofNat (magnitude x)) := by
  have small : x.toBits.toNat < 2 ^ 63 := by
    rw [← Nat.not_le, ← isNegative_iff, h]
    exact Bool.false_ne_true
  rw [magnitude_eq, Nat.mod_eq_of_lt small, UInt64.ofNat_toNat, Float.ofBits_toBits]

theorem eq_neg_of_flipped {x y : Float}
    (mantissa : unpackMantissa (word x.toBits) = unpackMantissa (word y.toBits))
    (exponent : unpackExponent (word x.toBits) = unpackExponent (word y.toBits))
    (sign : Sign.ofBitVec (unpackSign (word x.toBits)) =
      -Sign.ofBitVec (unpackSign (word y.toBits))) : x = -y := by
  calc
    x = Float.ofBits x.toBits := (Float.ofBits_toBits x).symm
    _ = -y := congrArg (fun u => Float.ofModel (pack u)) (unpack_of_flipped mantissa exponent sign)

theorem eq_neg_ofBits_of_isNegative {x : Float} (finite : isFinite x = true)
    (h : isNegative x = true) : x = -Float.ofBits (UInt64.ofNat (magnitude x)) := by
  have finite : magnitude x < infinityBits := by simpa [isFinite] using finite
  have rest : (word (UInt64.ofNat (magnitude x))).toNat = magnitude x :=
    toNat_word_ofNat finite
  have bits : (word x.toBits).toNat = 2 ^ 63 + magnitude x := by
    have high := isNegative_iff.mp h
    have size := x.toBits.toNat_lt
    rw [UInt64.toNat_toBitVec, magnitude_eq]
    omega
  refine eq_neg_of_flipped ?_ ?_ ?_
  all_goals rw [toBits_ofBits finite]
  · refine BitVec.eq_of_toNat_eq ?_
    rw [toNat_unpackMantissa, toNat_unpackMantissa, rest, bits]
    omega
  · refine BitVec.eq_of_toNat_eq ?_
    rw [toNat_unpackExponent, toNat_unpackExponent, rest, bits]
    omega
  · rw [infinityBits_eq] at finite
    rw [unpackSign_of_le (by omega), unpackSign_of_lt (by omega)]
    rfl

theorem eq_signed {x : Float} (finite : isFinite x = true) :
    x = if isNegative x = true then -Float.ofBits (UInt64.ofNat (magnitude x))
      else Float.ofBits (UInt64.ofNat (magnitude x)) := by
  by_cases negative : isNegative x = true
  · rw [if_pos negative]
    exact eq_neg_ofBits_of_isNegative finite negative
  · rw [if_neg negative]
    exact eq_ofBits_of_isNegative_eq_false (Bool.eq_false_iff.mpr negative)

theorem exists_components {spec : Format} {u : UnpackedFloat} (number : u ≠ .notANumber) :
    ∃ s e m, u.pack spec = UnpackedFloat.packComponents spec s e m ∧
      u.neg.pack spec = UnpackedFloat.packComponents spec (-s) e m := by
  cases u with
  | notANumber => exact absurd rfl number
  | infinity s => exact ⟨s, _, _, rfl, rfl⟩
  | zero s => exact ⟨s, _, _, rfl, rfl⟩
  | finite s m e positive =>
    simp only [UnpackedFloat.neg, UnpackedFloat.pack]
    split_ifs
    · exact ⟨s, _, _, rfl, rfl⟩
    · exact ⟨s, _, _, rfl, rfl⟩
    · exact ⟨s, _, _, rfl, rfl⟩

theorem word_toBits_neg (x : Float) : word (-x).toBits =
    (UnpackedFloat.unpack Format.binary64 (word x.toBits)).neg.pack Format.binary64 :=
  rfl

theorem sign_neg_neg (s : Sign) : - -s = s := by
  cases s <;> rfl

/-- Of every double: of both zeros, of both infinities, and of NaN, which has no sign. -/
theorem neg_twice (x : Float) : - -x = x := by
  have packed : (UnpackedFloat.unpack Format.binary64 (word x.toBits)).pack Format.binary64 =
      word x.toBits := UnpackedFloat.pack_unpack_of_valid x.toModel.valid
  by_cases number : UnpackedFloat.unpack Format.binary64 (word x.toBits) = .notANumber
  · have same : -x = x := by
      rw [number] at packed
      rw [← Float.toBits_inj, ← UInt64.toBitVec_inj]
      exact (word_toBits_neg x).trans (by rw [number]; exact packed)
    rw [same, same]
  · obtain ⟨s, e, m, here, negated⟩ := @exists_components .binary64 _ number
    rw [packed] at here
    rw [← word_toBits_neg] at negated
    refine (eq_neg_of_flipped ?_ ?_ ?_).symm
    · rw [here, negated, UnpackedFloat.unpackMantissa_packComponents,
        UnpackedFloat.unpackMantissa_packComponents]
    · rw [here, negated, UnpackedFloat.unpackExponent_packComponents,
        UnpackedFloat.unpackExponent_packComponents]
    · rw [here, negated, UnpackedFloat.unpackSign_packComponents,
        UnpackedFloat.unpackSign_packComponents, Sign.ofBitVec_toBitVec, Sign.ofBitVec_toBitVec,
        sign_neg_neg]

end Abacus.Decimal
