import Formula.CompileError
import Formula.Expr
import Formula.Native.Inst
import Formula.Symbol.Table

/-!
# Native code of expressions

`Native.ofExpr?` lowers a tree to machine instructions. The code of an expression pushes its value
on the hardware stack. The generator counts the words pushed, because a call needs an aligned stack:
on entry the stack is half a step off, so a call at an even depth reserves one word more.
-/

namespace Formula.Native

/-- The instructions emitted so far, the symbols they refer to, and the number of words that they
have pushed. -/
structure Generator where
  symbols : SymbolTable
  code : Array Inst
  depth : Nat

/-- The bit of a double that holds its sign. -/
def signBit : UInt64 := 0x8000000000000000

/-- The instruction of an operation. -/
def Inst.ofBinary : BinaryOp → Inst
  | .add => .addSd
  | .sub => .subSd
  | .mul => .mulSd
  | .div => .divSd

namespace Generator

/-- Nothing emitted yet. -/
def empty : Generator :=
  ⟨.empty, #[], 0⟩

/-- Emits an instruction that does not move the stack. -/
def put (g : Generator) (i : Inst) : Generator :=
  { g with code := g.code.push i }

/-- Emits instructions that do not move the stack. -/
def putAll (g : Generator) (is : List Inst) : Generator :=
  is.foldl put g

/-- Emits a push of `rax`. -/
def pushRax : Generator → Generator
  | ⟨symbols, code, depth⟩ => ⟨symbols, code.push .pushRax, depth + 1⟩

/-- Emits a pop into `rax`. -/
def popRax : Generator → Generator
  | ⟨symbols, code, depth⟩ => ⟨symbols, code.push .popRax, depth - 1⟩

/-- Emits a pop into an `xmm` register. -/
def popXmm (g : Generator) (register : Nat) : Generator :=
  g.popRax.put (.raxToXmm (UInt8.ofNat register))

/-- Emits a push of `xmm0`. -/
def pushXmm0 (g : Generator) : Generator :=
  (g.put (.xmmToRax 0)).pushRax

/-- Emits pops of the arguments of a call, the last of `count` first. -/
def popArguments (g : Generator) : Nat → Generator
  | 0 => g
  | count + 1 => (g.popXmm count).popArguments count

/-- Numbers a symbol. -/
def number (g : Generator) (span : Span) (symbol : Symbol) :
    Except CompileError (SymbolId × Generator) :=
  match g.symbols.intern symbol with
  | (none, _) => .error (.ofLimit span .tooManySymbols)
  | (some id, symbols) => .ok (id, { g with symbols := symbols })

/-- Emits the call of a function whose arguments have been pushed. -/
def callFunction (g : Generator) (id : SymbolId) (count : Nat) : Generator :=
  let g := g.popArguments count
  let call := [.movAbsRdi (.symbol id), .movAbsRax (.symbol id), .callRax]
  let g :=
    if g.depth % 2 = 0 then g.putAll (.alignStack :: (call ++ [.restoreStack]))
    else g.putAll call
  g.pushXmm0

mutual

/-- Emits the instructions of an expression. -/
def emit (g : Generator) : Expr → Except CompileError Generator
  | .number _ value => .ok (g.put (.movAbsRax (.value value.bits))).pushRax
  | .var span name => do
    let (id, g) ← g.number span (.ofVar name)
    let g := g.putAll [.movAbsRax (.symbol id), .pushMemRax]
    return { g with depth := g.depth + 1 }
  | .call span name args =>
    if maxArity < args.length then .error (.ofLimit span (.tooManyArguments name args.length))
    else do
      let g ← g.emitAll args
      let (id, g) ← g.number span (.ofSignature ⟨name, args.length⟩)
      return g.callFunction id args.length
  | .unary _ .neg operand => do
    let g ← g.emit operand
    let g := (g.popXmm 0).putAll [.movAbsRax (.value signBit), .raxToXmm 1, .xorPd]
    return g.pushXmm0
  | .unary _ .plus operand => g.emit operand
  | .binary _ op left right => do
    let g ← g.emit left
    let g ← g.emit right
    return (((g.popXmm 1).popXmm 0).put (.ofBinary op)).pushXmm0
  | .sequence _ first second => do
    let g ← g.emit first
    g.popRax.emit second

/-- Emits the instructions of several expressions. -/
def emitAll (g : Generator) : List Expr → Except CompileError Generator
  | [] => .ok g
  | e :: es =>
    match g.emit e with
    | .error error => .error error
    | .ok g => g.emitAll es

end

end Generator

/-- Instructions with the symbols they refer to. -/
structure Emitted where
  code : List Inst
  symbols : SymbolTable

/-- The instructions of an expression, which leave its value in `xmm0` and return. -/
def ofExpr? (e : Expr) : Except CompileError Emitted := do
  let g ← Generator.empty.emit e
  let g := (g.popXmm 0).put .ret
  return ⟨g.code.toList, g.symbols⟩

end Formula.Native
