import Formula.Text.LittleEndian

/-!
# Doubles as bit patterns

A `Double` is a number as it is stored in code and on stacks, every bit of it. `Float`, the type in
which values are computed, has one NaN only, so a value loses the sign and the payload of a NaN when
it is taken out of its `Double`, and nothing else.
-/

namespace Formula

/-- The bit pattern of a double. -/
structure Double where
  bits : UInt64
deriving DecidableEq, Inhabited

namespace Double

/-- The bit pattern of a value. -/
def ofFloat (x : Float) : Double :=
  ⟨x.toBits⟩

/-- The value. -/
def toFloat (d : Double) : Float :=
  Float.ofBits d.bits

end Double

instance : Packed Double := ⟨8, fun d => d.bits.toNat, fun n => ⟨UInt64.ofNat n⟩⟩

end Formula
