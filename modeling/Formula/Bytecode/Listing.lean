import Formula.Bytecode.Instr
import Formula.Number.Layout
import Formula.Symbol.Table

/-!
# Bytecode listings

One line for each instruction of unlinked bytecode: its offset, its mnemonic and its operand, with
the name of a symbol after its number. The listing stops at the first byte that is no opcode, or
inside an operand that is cut off.
-/

namespace Formula.Bytecode

/-- What stands before the instruction at an offset. -/
def listingOffset (offset : Nat) : String :=
  Hex.padded 4 offset ++ "  "

/-- A symbol by number and name. -/
def symbolText (symbols : SymbolTable) (id : SymbolId) : String :=
  "#" ++ toString id.toNat ++ " " ++ ((symbols.get? id).map Symbol.name).getD "?"

/-- An instruction as text. -/
def Instr.text (symbols : SymbolTable) (i : Instr SymbolId SymbolId) : String :=
  match i with
  | .pushConst value => i.opcode.mnemonic ++ " " ++ plain value.toFloat
  | .loadVar id => i.opcode.mnemonic ++ " " ++ symbolText symbols id
  | .invoke id => i.opcode.mnemonic ++ " " ++ symbolText symbols id
  | _ => i.opcode.mnemonic

/-- The last line of a listing that stops early. -/
def brokenLine (offset : Nat) : RuntimeError → String
  | .invalidOpcode opcode _ =>
    listingOffset offset ++ "??? 0x" ++ Hex.padded 2 opcode.toNat ++ "\n"
  | _ => listingOffset offset

/-- The listing of unlinked bytecode. -/
def listing (symbols : SymbolTable) (bytes : List UInt8) : String :=
  let (instrs, broken) := Instr.decodeAll bytes
  String.join (instrs.map fun (offset, i) => listingOffset offset ++ i.text symbols ++ "\n") ++
    match broken with
    | some (offset, error) => brokenLine offset error
    | none => ""

end Formula.Bytecode
