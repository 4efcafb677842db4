/-!
# Little-endian fields

Numbers as fixed-width byte fields, low byte first. `Packed` names the width of the field of a type
and its conversion to a number; `pack` and `unpack?` write and read such a field.
-/

namespace Formula

namespace LittleEndian

/-- The low `width` bytes of a number, low byte first. -/
def bytes : Nat → Nat → List UInt8
  | 0, _ => []
  | width + 1, n => UInt8.ofNat n :: bytes width (n / 256)

/-- The number that a field holds. -/
def number : List UInt8 → Nat
  | [] => 0
  | byte :: field => byte.toNat + 256 * number field

@[simp]
theorem length_bytes (width n : Nat) : (bytes width n).length = width := by
  induction width generalizing n with
  | zero => rfl
  | succ width ih => simp [bytes, ih]

theorem number_bytes (width n : Nat) : number (bytes width n) = n % Nat.pow 256 width := by
  induction width generalizing n with
  | zero => simp [bytes, number, Nat.mod_one]
  | succ width ih =>
    simp only [bytes, number, ih, UInt8.toNat_ofNat']
    rw [Nat.pow_eq, Nat.pow_eq, show (2 : Nat) ^ 8 = 256 from rfl, Nat.pow_succ', Nat.mod_mul]

end LittleEndian

/-- A type whose values fill a field of `width` bytes. -/
class Packed (α : Type) where
  width : Nat
  toNat : α → Nat
  ofNat : Nat → α

namespace Packed

instance : Packed UInt16 := ⟨2, UInt16.toNat, UInt16.ofNat⟩
instance : Packed UInt32 := ⟨4, UInt32.toNat, UInt32.ofNat⟩
instance : Packed UInt64 := ⟨8, UInt64.toNat, UInt64.ofNat⟩

/-- Two words, one after the other. -/
instance : Packed (UInt64 × UInt64) :=
  ⟨16, fun w => w.1.toNat + UInt64.size * w.2.toNat,
    fun n => (UInt64.ofNat n, UInt64.ofNat (n / UInt64.size))⟩

/-- The field of a value. -/
def pack {α : Type} [Packed α] (value : α) : List UInt8 :=
  LittleEndian.bytes (width α) (toNat value)

/-- The value of a field. -/
def unpack {α : Type} [Packed α] (field : List UInt8) : α :=
  ofNat (LittleEndian.number field)

/-- The value of the field at the front of some bytes, and the bytes after it. -/
def unpack? {α : Type} [Packed α] (bytes : List UInt8) : Option (α × List UInt8) :=
  let field := bytes.take (width α)
  if field.length = width α then some (unpack field, bytes.drop (width α)) else none

@[simp]
theorem length_pack {α : Type} [Packed α] (value : α) : (pack value).length = width α := by
  simp [pack]

end Packed

end Formula
