import Formula.Number.Decimal
import Formula.Text.Bytes

/-!
# Signatures

All values are doubles, so a function is known by its name and its number of parameters. Its linker
symbol is `_Z`, the length of the name in bytes, the name, and one `d` per parameter;
`Signature.ofSymbol?` reads such a symbol back.
-/

namespace Formula

/-- A function name and its number of parameters. -/
structure Signature where
  name : String
  arity : Nat
deriving DecidableEq, Hashable, Inhabited

namespace Signature

/-- The characters of the linker symbol. -/
def symbolChars (s : Signature) : List Char :=
  '_' :: 'Z' :: (Nat.toDigits 10 (Text.byteLength s.name.toList) ++
    (s.name.toList ++ List.replicate s.arity 'd'))

/-- The linker symbol, such as `_Z3sind` for `sin` of one parameter. -/
def symbol (s : Signature) : String :=
  String.ofList s.symbolChars

/-- Lengths in a symbol are machine words. -/
def maxLength : Nat := UInt64.size - 1

/-- The signature whose linker symbol has these characters. -/
def ofSymbolChars? : List Char → Option Signature
  | '_' :: 'Z' :: text =>
    let digits := text.takeWhile Char.isDigit
    let rest := text.dropWhile Char.isDigit
    let length := Decimal.ofDigits digits
    if digits.isEmpty ∨ maxLength < length then none
    else
      match Text.takeBytes length rest, Text.dropBytes length rest with
      | some name, some params =>
        if params.all (· = 'd') then some ⟨String.ofList name, params.length⟩ else none
      | _, _ => none
  | _ => none

/-- The signature with a given linker symbol. -/
def ofSymbol? (symbol : String) : Option Signature :=
  ofSymbolChars? symbol.toList

/-- The signature as a declaration, such as `double pow(double, double)`. -/
def declaration (s : Signature) : String :=
  "double " ++ s.name ++ "(" ++ String.intercalate ", " (List.replicate s.arity "double") ++ ")"

/-- The declaration a symbol stands for; the symbol itself if it stands for none. -/
def describe (symbol : String) : String :=
  match ofSymbol? symbol with
  | some s => s.declaration
  | none => symbol

end Signature

end Formula
