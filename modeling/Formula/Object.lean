import Formula.Bytecode.Codegen
import Formula.Bytecode.Listing
import Formula.Config
import Formula.Expr.Parser
import Formula.Native.Codegen
import Formula.Native.Encoding
import Formula.Native.Peephole

/-!
# Compiled expressions

An `Object` is the code of an expression for one of the two machines, with the table of the symbols
that it refers to. It can be linked any number of times.
-/

namespace Formula

/-- Unlinked code. -/
inductive Code where
  | bytecode (code : Bytecode.Code)
  | native (code : List Native.Inst)
deriving Inhabited

namespace Code

/-- The machine that the code is for. -/
def backend : Code → Backend
  | bytecode _ => .interpreted
  | native _ => .jit

/-- The code as bytes. -/
def bytes : Code → List UInt8
  | bytecode code => code.bytes
  | native code => Native.encode code

/-- The places of symbols in the bytes. -/
def relocations : Code → List Relocation
  | bytecode code => code.relocations
  | native code => Native.relocations code

/-- How many machine instructions native code has. -/
def instructionCount? : Code → Option Nat
  | bytecode _ => none
  | native code => some code.length

end Code

/-- Code with the symbols that it refers to. -/
structure Object where
  code : Code
  symbols : SymbolTable
deriving Inhabited

namespace Object

/-- Compiles an expression to bytecode. -/
def bytecodeOfExpr? (e : Expr) : Except CompileError Object := do
  let emitted ← Bytecode.ofExpr? e
  return ⟨.bytecode emitted.code, emitted.symbols⟩

/-- Compiles an expression to native code, with or without the peephole pass. -/
def nativeOfExpr? (optimize : Bool) (e : Expr) : Except CompileError Object := do
  let emitted ← Native.ofExpr? e
  let code := if optimize then Native.optimize emitted.code else emitted.code
  return ⟨.native code, emitted.symbols⟩

/-- Compiles an expression for a machine. -/
def ofExpr? (backend : Backend) (optimize : Bool) (e : Expr) : Except CompileError Object :=
  match backend with
  | .interpreted => bytecodeOfExpr? e
  | .jit => nativeOfExpr? optimize e

/-- Compiles a text for a machine. -/
def ofString? (backend : Backend) (optimize : Bool) (text : String) :
    Except CompileError Object := do
  ofExpr? backend optimize (← Expr.ofString? text)

/-- The code as bytes. -/
def bytes (object : Object) : List UInt8 :=
  object.code.bytes

/-- Number of bytes of the code. -/
def size (object : Object) : Nat :=
  object.bytes.length

/-- The code as text: a listing, and for native code also its bytes. -/
def disassemble (object : Object) : String :=
  match object.code with
  | .bytecode code => Bytecode.listing object.symbols code.bytes
  | .native code => Native.listing code ++ "\n" ++ Hex.dump (Native.encode code)

end Object

end Formula
