import Formula.CompileError
import Formula.Signature
import Formula.Text.Hex

/-!
# Errors after compilation

Each phase has its own type of error: executable memory, linking, evaluation, and registration in a
context. `text` gives the wording of an error, and `Error` is any of them.
-/

namespace Formula

/-- A failure to allocate, write or protect executable memory. -/
inductive MemoryError where
  | allocationFailed
  | protectionFailed
  | invalidSize
deriving DecidableEq

namespace MemoryError

/-- Wording. -/
def text : MemoryError → String
  | allocationFailed => "memory allocation failed"
  | protectionFailed => "memory protection change failed"
  | invalidSize => "invalid memory size"

end MemoryError

/-- Why the symbols of a program could not be bound. -/
inductive LinkError where
  /-- Nothing is registered for a symbol. -/
  | unresolvedSymbol (symbol : String)
  /-- A sub-program calls itself, perhaps through others. -/
  | recursiveDefinition (name : String)
  /-- A sub-program that is not linked itself is called. -/
  | dependencyNotLinked (name : String)
  /-- Native code cannot run here. -/
  | unsupportedTarget
  | memory (error : MemoryError)
deriving DecidableEq

namespace LinkError

/-- Wording. A symbol is shown as what it stands for. -/
def text : LinkError → String
  | unresolvedSymbol symbol => "Error: Undefined symbol: '" ++ Signature.describe symbol ++ "'"
  | recursiveDefinition name => "Error: recursive definition of '" ++ name ++ "'"
  | dependencyNotLinked name =>
    "Error: '" ++ name ++ "' is used before it was successfully linked"
  | unsupportedTarget => "Error: native code cannot run on this target"
  | memory error => "Error: " ++ error.text

end LinkError

/-- Why an evaluation gave no value. -/
inductive RuntimeError where
  | notLinked
  | linkFailed (error : LinkError)
  | stackOverflow
  | stackUnderflow
  | callDepthExceeded (limit : Nat)
  | invalidOpcode (opcode : UInt8) (offset : Nat)
  | truncatedCode (offset : Nat)
  | unbalancedStack (bytes : Nat)
  | programBusy (name : String)
deriving DecidableEq

namespace RuntimeError

/-- Wording. -/
def text : RuntimeError → String
  | notLinked => "program has not been linked"
  | linkFailed error => "program failed to link: " ++ error.text
  | stackOverflow => "evaluation stack overflow"
  | stackUnderflow => "evaluation stack underflow"
  | callDepthExceeded limit => "call depth limit of " ++ toString limit ++ " exceeded"
  | invalidOpcode opcode offset =>
    "invalid opcode 0x" ++ Hex.padded 2 opcode.toNat ++ " at offset " ++ toString offset
  | truncatedCode offset => "bytecode truncated at offset " ++ toString offset
  | unbalancedStack bytes => "evaluation left " ++ toString bytes ++ " bytes on the stack"
  | programBusy name => "program '" ++ name ++ "' is already borrowed"

end RuntimeError

/-- Why something could not be registered in a context. -/
inductive ContextError where
  | alreadyDefined (name : String)
  | tooManyArguments (name : String) (arity max : Nat)
  | compile (name : String) (error : CompileError)
  | nullVariable (name : String)
  | jitUnavailable
deriving DecidableEq

namespace ContextError

/-- Wording. -/
def text : ContextError → String
  | alreadyDefined name => "'" ++ name ++ "' is already defined"
  | tooManyArguments name arity max =>
    "'" ++ name ++ "' takes " ++ toString arity ++ " arguments, at most " ++ toString max ++
      " are supported"
  | compile name error => "in definition of '" ++ name ++ "':\n" ++ error.text
  | nullVariable name => "variable '" ++ name ++ "' points at null"
  | jitUnavailable => "JIT backend is not available on this build"

end ContextError

/-- An error of any phase. -/
inductive Error where
  | compile (error : CompileError)
  | link (error : LinkError)
  | runtime (error : RuntimeError)
  | context (error : ContextError)
deriving DecidableEq

namespace Error

/-- Wording. -/
def text : Error → String
  | compile error => error.text
  | link error => error.text
  | runtime error => error.text
  | context error => error.text

end Error

end Formula
