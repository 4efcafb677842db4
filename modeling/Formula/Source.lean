import Formula.Source.Span
import Formula.Text.Bytes

/-!
# Source texts

The text of an expression ends at its first NUL character. Offsets are byte offsets; whatever lies
past the end reads as a terminating NUL. `Source.excerpt` renders the line of a span with carets
under it.
-/

namespace Formula

/-- The characters of an expression. -/
structure Source where
  chars : List Char
deriving DecidableEq

namespace Source

/-- Everything before the first NUL. -/
def ofString (text : String) : Source :=
  ⟨text.toList.takeWhile (· ≠ '\x00')⟩

/-- The source as a string. -/
def text (source : Source) : String :=
  String.ofList source.chars

/-- The bytes of the source, without the terminator. -/
def bytes (source : Source) : List UInt8 :=
  Text.bytes source.chars

/-- Number of bytes. -/
def length (source : Source) : Nat :=
  Text.byteLength source.chars

/-- The byte at an offset and the offset itself; past the end, the terminator and its offset. -/
def byteAt (source : Source) (offset : Nat) : UInt8 × Nat :=
  match source.bytes[offset]? with
  | some byte => (byte, offset)
  | none => (0, source.length)

/-- The character that starts at an offset; where none starts, the byte there read as a code
point. -/
def charAt (source : Source) (offset : Nat) : Char :=
  match Text.dropBytes offset source.chars with
  | some (c :: _) => c
  | _ => Char.ofNat (source.byteAt offset).1.toNat

/-- The characters of a span that are inside the source; nothing where the span cuts a
character. -/
def slice (source : Source) (span : Span) : String :=
  let stop := min span.stop source.length
  let start := min span.start stop
  String.ofList ((Text.slice? start stop source.chars).getD [])

/-- Offset of the first byte of the line that holds the byte at `offset`. -/
def lineStart (source : Source) (offset : Nat) : Nat :=
  offset - ((source.bytes.take offset).reverse.takeWhile (· ≠ 10)).length

/-- Offset of the line break, or of the end, that closes the line holding the byte at `offset`. -/
def lineStop (source : Source) (offset : Nat) : Nat :=
  offset + ((source.bytes.drop offset).takeWhile (· ≠ 10)).length

/-- What is written under a byte that stands left of the carets. -/
def underByte (byte : UInt8) : Char :=
  if byte = 9 then '\t' else ' '

/-- The line that holds the start of `span`, and below it one caret per byte of the span, at least
one. Tabs before the span are kept, so that the carets stay aligned. -/
def excerpt (source : Source) (span : Span) : String :=
  let start := min span.start source.length
  let first := source.lineStart start
  let line := (Text.slice? first (source.lineStop start) source.chars).getD []
  let indent := ((source.bytes.drop first).take (start - first)).map underByte
  String.ofList (line ++ '\n' :: indent ++ List.replicate (max (span.stop - start) 1) '^')

end Source

end Formula
