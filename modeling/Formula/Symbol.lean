import Formula.Signature
import Formula.Text.Hex

/-!
# Symbols and relocations

Code refers to names by symbol number. A variable's symbol is its name, a function's the linker
symbol of its signature. A relocation is a place in the code where a symbol number has to be
replaced by an address.
-/

namespace Formula

/-- What a symbol names. -/
inductive SymbolKind where
  | var
  | function (arity : Nat)
deriving DecidableEq, Hashable, Inhabited

/-- A name as code refers to it. -/
structure Symbol where
  name : String
  kind : SymbolKind
deriving DecidableEq, Hashable, Inhabited

namespace Symbol

/-- The symbol of a variable. -/
def ofVar (name : String) : Symbol :=
  ⟨name, .var⟩

/-- The symbol of a function. -/
def ofSignature (s : Signature) : Symbol :=
  ⟨s.symbol, .function s.arity⟩

end Symbol

/-- Symbol numbers. -/
abbrev SymbolId := UInt16

/-- What a relocated place receives: an address, or the environment passed to a function. -/
inductive RelocationKind where
  | address
  | environment
deriving DecidableEq, Inhabited

namespace RelocationKind

/-- The word for a kind. -/
def text : RelocationKind → String
  | address => "Address"
  | environment => "Environment"

end RelocationKind

/-- A byte offset in the code, and what belongs there. -/
structure Relocation where
  symbol : SymbolId
  offset : Nat
  kind : RelocationKind
deriving DecidableEq, Inhabited

namespace Relocation

/-- Written form, such as `0x0002: #7 (Address)`. -/
def text (r : Relocation) : String :=
  "0x" ++ Hex.padded 4 r.offset ++ ": #" ++ toString r.symbol.toNat ++ " (" ++ r.kind.text ++ ")"

end Relocation

end Formula
