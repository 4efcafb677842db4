/-!
# Hexadecimal text

Numbers in lower-case hexadecimal digits, and listings of bytes with sixteen bytes a line.
-/

namespace Formula.Hex

/-- A number in hexadecimal digits. -/
def digits (n : Nat) : String :=
  String.ofList (Nat.toDigits 16 n)

/-- A number in at least `width` hexadecimal digits. -/
def padded (width n : Nat) : String :=
  let text := Nat.toDigits 16 n
  String.ofList (List.replicate (width - text.length) '0' ++ text)

/-- One line of a listing: the offset of its first byte, then its bytes. -/
def line (offset : Nat) (bytes : List UInt8) : String :=
  padded 4 offset ++ " " ++ String.join (bytes.map fun byte => " " ++ padded 2 byte.toNat) ++ "\n"

/-- The lines of a listing whose first byte is at `offset`; at most `fuel` of them. -/
def lines : Nat → Nat → List UInt8 → List String
  | 0, _, _ => []
  | _ + 1, _, [] => []
  | fuel + 1, offset, byte :: bytes =>
    line offset (byte :: bytes.take 15) :: lines fuel (offset + 16) (bytes.drop 15)

/-- A listing of bytes, sixteen a line. -/
def dump (bytes : List UInt8) : String :=
  String.join (lines bytes.length 0 bytes)

end Formula.Hex
