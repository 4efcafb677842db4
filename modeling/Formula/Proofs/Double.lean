import Formula.Native.Codegen
import Mathlib

/-!
# Doubles and their bit patterns

Inverting the sign bit of a bit pattern negates its value (`ofBits_xor_signBit`). A value is kept in
the packed format, whose fields are the sign, the exponent and the mantissa: the sign bit reaches
only the first (`unpack_xor_signBit`), and packing changes no value, even if it replaces the pattern
of a NaN (`unpack_pack_unpack`).
-/

namespace Formula.Double

open Float.Model Float.Model.UnpackedFloat

/-- The format of a double. -/
abbrev format : Float.Model.Format := .binary64

@[simp]
theorem toFloat_ofFloat (x : Float) : (ofFloat x).toFloat = x :=
  Float.ofBits_toBits x

theorem unpack_pack_unpack (b : BitVec format.numBits) :
    UnpackedFloat.unpack format (UnpackedFloat.pack format (UnpackedFloat.unpack format b)) =
      UnpackedFloat.unpack format b := by
  rw [pack_unpack b]
  split_ifs with hNaN
  · simp only [isNaNBits, decide_eq_true_eq] at hNaN
    rw [unpack_packedNaN, UnpackedFloat.unpack]
    simp only [hNaN.1, hNaN.2, if_true, if_false]
  · rfl

/-! ## The sign bit -/

theorem signOfBitVec_flip (s : BitVec 1) : Sign.ofBitVec (s ^^^ 1#1) = -Sign.ofBitVec s := by
  obtain rfl | rfl : s = 0#1 ∨ s = 1#1 := by revert s; decide
  · rfl
  · rfl

/-- The sign bit lies outside the exponent and the mantissa. -/
theorem extractLsb_xor_signBit (w : UInt64) (high low : Nat)
    (h : BitVec.extractLsb high low Native.signBit.toBitVec = 0) :
    BitVec.extractLsb high low (w ^^^ Native.signBit).toBitVec =
      BitVec.extractLsb high low w.toBitVec := by
  rw [UInt64.toBitVec_xor, BitVec.extractLsb_xor, h]
  exact BitVec.xor_zero

theorem unpack_xor_signBit (w : UInt64) :
    UnpackedFloat.unpack format (w ^^^ Native.signBit).toBitVec =
      (UnpackedFloat.unpack format w.toBitVec).neg := by
  have hExponent : @unpackExponent format (w ^^^ Native.signBit).toBitVec =
      @unpackExponent format w.toBitVec :=
    congrArg (BitVec.cast rfl) (extractLsb_xor_signBit w 62 52 (by decide))
  have hMantissa : @unpackMantissa format (w ^^^ Native.signBit).toBitVec =
      @unpackMantissa format w.toBitVec :=
    congrArg (BitVec.cast rfl) (extractLsb_xor_signBit w 51 0 (by decide))
  have hSign : @unpackSign format (w ^^^ Native.signBit).toBitVec =
      @unpackSign format w.toBitVec ^^^ 1#1 := by
    simp only [unpackSign, UInt64.toBitVec_xor]
    rw [BitVec.extractLsb_xor]
    rfl
  simp only [UnpackedFloat.unpack, hExponent, hMantissa, hSign, signOfBitVec_flip]
  split_ifs <;> rfl

/-- To negate a value, invert the sign bit. -/
theorem ofBits_xor_signBit (w : UInt64) :
    Float.ofBits (w ^^^ Native.signBit) = -Float.ofBits w := by
  have hUnpack : (Float.Model.ofBits w).unpack = UnpackedFloat.unpack format w.toBitVec :=
    unpack_pack_unpack w.toBitVec
  show Float.ofModel (.pack _) = Float.ofModel (.pack (Float.Model.ofBits w).unpack.neg)
  rw [hUnpack, ← unpack_xor_signBit]

end Formula.Double
