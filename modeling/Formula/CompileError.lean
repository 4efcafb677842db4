import Formula.Source

/-!
# Errors of compilation

A `Fault` is a reason why a text is not an expression, a `Limit` a reason why an expression has no
code. `CompileError` is what the user sees of either: a message, a span and, for a fault, the line
it occurs on.
-/

namespace Formula

/-- What the parser would have needed at the token it stopped at. -/
inductive Wanted where
  | expression
  | term
  | endOfInput
  | operandOfMinus
  | operandOfPlus
deriving DecidableEq

namespace Wanted

/-- The words of the message. -/
def text : Wanted → String
  | expression => "expected expression"
  | term => "expected term"
  | endOfInput => "expected end of string"
  | operandOfMinus => "wrong unary minus operator, expected factor"
  | operandOfPlus => "wrong unary plus operator, expected factor"

end Wanted

/-- Why a text is not an expression. -/
inductive Fault where
  /-- A character that starts no token. -/
  | unknownSymbol (symbol : Char)
  /-- A token that cannot stand where it does. -/
  | unexpected (wanted : Wanted) (found : String)
  /-- The input ended inside a parenthesis. -/
  | unclosed
  /-- A token stands where a closing parenthesis was needed. -/
  | notClosed (found : String)
  /-- Too many parentheses, signs and calls inside one another. -/
  | tooDeep
  /-- A number token that is no number. -/
  | invalidNumber (text : String)
deriving DecidableEq

namespace Fault

/-- The message for a fault at byte offset `position`. -/
def message (position : Nat) : Fault → String
  | unknownSymbol symbol =>
    "Error, unknown symbol \"" ++ symbol.toString ++ "\" at position " ++ toString position ++ "."
  | unexpected wanted found =>
    "Error, " ++ wanted.text ++ ", but \"" ++ found ++ "\" was found at position " ++
      toString position ++ "."
  | unclosed => "Error: Unexpected end of input"
  | notClosed found =>
    "Error: Unexpected token. Expected ')', but '" ++ found ++ "' was found at position: " ++
      toString position ++ "."
  | tooDeep =>
    "Error, expression is nested too deeply at position " ++ toString position ++ "."
  | invalidNumber text =>
    "Error, invalid number \"" ++ text ++ "\" at position " ++ toString position ++ "."

end Fault

/-- The most arguments that a function may take and that native code can pass. -/
def maxArity : Nat := 8

/-- Why an expression cannot be turned into code. -/
inductive Limit where
  /-- More names are used than there are symbol numbers. -/
  | tooManySymbols
  /-- Native code passes at most `maxArity` arguments. -/
  | tooManyArguments (name : String) (count : Nat)
deriving DecidableEq

namespace Limit

/-- The message for a limit exceeded at byte offset `position`. -/
def message (position : Nat) : Limit → String
  | tooManySymbols => "Error, too many distinct symbols at position " ++ toString position ++ "."
  | tooManyArguments name count =>
    "Error, function \"" ++ name ++ "\" is called with " ++ toString count ++
      " arguments, at most " ++ toString maxArity ++ " are supported, at position " ++
      toString position ++ "."

end Limit

/-- What is reported when a text cannot be compiled. -/
structure CompileError where
  message : String
  span : Span
  excerpt : String
deriving DecidableEq, Inhabited

namespace CompileError

/-- A fault at `span` of `source`, shown on its line. -/
def ofFault (source : Source) (span : Span) (fault : Fault) : CompileError :=
  ⟨fault.message span.start, span, source.excerpt span⟩

/-- A limit exceeded by the node at `span`. -/
def ofLimit (span : Span) (limit : Limit) : CompileError :=
  ⟨limit.message span.start, span, ""⟩

/-- Byte offset of the error. -/
def position (error : CompileError) : Nat :=
  error.span.start

/-- Message and excerpt on lines of their own. -/
def text (error : CompileError) : String :=
  error.message ++ "\n" ++ error.excerpt

end CompileError

end Formula
