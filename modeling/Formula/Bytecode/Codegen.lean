import Formula.Bytecode.Instr
import Formula.Symbol.Table

/-!
# Bytecode of expressions

`Bytecode.ofExpr?` lowers a tree to stack machine instructions in postfix order: operands from left
to right, then the operation. A symbol is numbered when the instruction that refers to it is
emitted, so the arguments of a call come before the function. A sequence discards the value of its
first expression, and a plus sign leaves no instruction.
-/

namespace Formula.Bytecode

/-- The instructions emitted so far and the symbols they refer to. -/
structure Generator where
  symbols : SymbolTable
  code : Array (Instr SymbolId SymbolId)

namespace Generator

/-- Nothing emitted yet. -/
def empty : Generator :=
  ⟨.empty, #[]⟩

/-- Emits an instruction. -/
def push (g : Generator) (i : Instr SymbolId SymbolId) : Generator :=
  { g with code := g.code.push i }

/-- Emits an instruction that refers to a symbol. -/
def pushSymbol (g : Generator) (span : Span) (symbol : Symbol)
    (make : SymbolId → Instr SymbolId SymbolId) : Except CompileError Generator :=
  match g.symbols.intern symbol with
  | (none, _) => .error (.ofLimit span .tooManySymbols)
  | (some id, symbols) => .ok ⟨symbols, g.code.push (make id)⟩

mutual

/-- Emits the instructions of an expression. -/
def emit (g : Generator) : Expr → Except CompileError Generator
  | .number _ value => .ok (g.push (.pushConst value))
  | .var span name => g.pushSymbol span (.ofVar name) .loadVar
  | .call span name args => do
    let g ← g.emitAll args
    g.pushSymbol span (.ofSignature ⟨name, args.length⟩) .invoke
  | .unary _ .neg operand => do
    let g ← g.emit operand
    return g.push .neg
  | .unary _ .plus operand => g.emit operand
  | .binary _ op left right => do
    let g ← g.emit left
    let g ← g.emit right
    return g.push (.binary op)
  | .sequence _ first second => do
    let g ← g.emit first
    (g.push .discard).emit second

/-- Emits the instructions of several expressions. -/
def emitAll (g : Generator) : List Expr → Except CompileError Generator
  | [] => .ok g
  | e :: es =>
    match g.emit e with
    | .error error => .error error
    | .ok g => g.emitAll es

end

end Generator

/-- Instructions with the symbols they refer to. -/
structure Emitted where
  code : Code
  symbols : SymbolTable

/-- The instructions of an expression. -/
def ofExpr? (e : Expr) : Except CompileError Emitted := do
  let g ← Generator.empty.emit e
  return ⟨g.code.toList, g.symbols⟩

end Formula.Bytecode
