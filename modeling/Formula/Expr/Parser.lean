import Formula.Expr
import Formula.Number.Reading
import Formula.Token.Lexer

/-!
# Parsing

The grammar is

* `Block := Expr (';' Expr)*`, up to the end of the input,
* `Expr := Term (('+' | '-') Term)*`,
* `Term := Factor (('*' | '/') Factor)*`,
* `Factor := FLOAT | INT | IDENTIFIER ('(' (Expr (',' Expr)*)? ')')? | '-' Factor | '+' Factor
  | '(' Expr ')'`.

`Expr.ofSource?` is the tree of a source or the first error. Parentheses, signs and calls may be
nested at most `Parser.maxNesting` deep in one another; `Parser.factor` recurses on what is left of
that budget, and every loop over operators is bounded by the number of tokens.
-/

namespace Formula

namespace Parser

/-- How deep parentheses, signs and calls may be nested in one another. -/
def maxNesting : Nat := 256

/-- Why the parser stopped, where, and the tokens it had not yet read then. -/
structure Failure where
  span : Span
  fault : Fault
  rest : List Token
deriving DecidableEq

/-- An expression and the tokens after it. -/
abbrev Result := Except Failure (Expr × List Token)

/-- A rule of the grammar. If no token that can start it comes first, the failure says what was
wanted. -/
abbrev Rule := Wanted → List Token → Result

/-- The additive operators. -/
def additive? : TokenKind → Option BinaryOp
  | .plus => some .add
  | .minus => some .sub
  | _ => none

/-- The multiplicative operators. -/
def multiplicative? : TokenKind → Option BinaryOp
  | .star => some .mul
  | .slash => some .div
  | _ => none

/-- Whether a token can start an expression. -/
def startsFactor : TokenKind → Bool
  | .float | .int | .identifier | .minus | .plus | .openParen => true
  | _ => false

/-- Operators and their right operands, applied to `left` from left to right. -/
def chain (op? : TokenKind → Option BinaryOp) (operand : List Token → Result) :
    Nat → Expr → List Token → Result
  | 0, left, tokens => .ok (left, tokens)
  | _ + 1, left, [] => .ok (left, [])
  | limit + 1, left, token :: rest =>
    match op? token.kind with
    | none => .ok (left, token :: rest)
    | some op =>
      match operand rest with
      | .error failure => .error failure
      | .ok (right, rest) =>
        chain op? operand limit (.binary (left.span.merge right.span) op left right) rest

section Rules

variable (stop : Token) (limit : Nat)

/-- The failure at the first of the remaining tokens, or at the end of the input. -/
def unexpected (wanted : Wanted) (tokens : List Token) : Failure :=
  let token := tokens.headD stop
  ⟨token.span, .unexpected wanted token.text, tokens⟩

/-- The rule `Factor (('*' | '/') Factor)*`. -/
def term (factor : Rule) : Rule := fun wanted tokens =>
  match factor wanted tokens with
  | .error failure => .error failure
  | .ok (left, rest) => chain multiplicative? (factor .term) limit left rest

/-- The rule `Term (('+' | '-') Term)*`. -/
def expr (factor : Rule) : Rule := fun wanted tokens =>
  match term limit factor wanted tokens with
  | .error failure => .error failure
  | .ok (left, rest) => chain additive? (term limit factor .expression) limit left rest

/-- The further arguments of a call, after those already collected in reverse. -/
def moreArguments (factor : Rule) :
    Nat → List Expr → List Token → Except Failure (List Expr × List Token)
  | 0, collected, tokens => .ok (collected.reverse, tokens)
  | _ + 1, collected, [] => .ok (collected.reverse, [])
  | fuel + 1, collected, token :: rest =>
    if token.kind = .comma then
      match expr limit factor .expression rest with
      | .error failure => .error failure
      | .ok (arg, rest) => moreArguments factor fuel (arg :: collected) rest
    else .ok (collected.reverse, token :: rest)

/-- The rule `(Expr (',' Expr)*)?`. -/
def arguments (factor : Rule) (tokens : List Token) :
    Except Failure (List Expr × List Token) :=
  if startsFactor (tokens.headD stop).kind then
    match expr limit factor .expression tokens with
    | .error failure => .error failure
    | .ok (arg, rest) => moreArguments limit factor limit [arg] rest
  else .ok ([], tokens)

/-- A closing parenthesis. -/
def closeParen : List Token → Except Failure (Token × List Token)
  | [] => .error ⟨stop.span, .unclosed, []⟩
  | token :: rest =>
    if token.kind = .closeParen then .ok (token, rest)
    else .error ⟨token.span, .notClosed token.text, token :: rest⟩

/-- One level deeper, if the budget allows it; `inner` is the rule for that level. -/
def enter (inner : Option Rule) (span : Span) (rest : List Token) : Except Failure Rule :=
  match inner with
  | none => .error ⟨span, .tooDeep, rest⟩
  | some factor => .ok factor

/-- A call of `name`, whose opening parenthesis has been read. -/
def call (inner : Option Rule) (name : Token) (tokens : List Token) : Result := do
  let factor ← enter inner name.span tokens
  let (args, rest) ← arguments stop limit factor tokens
  let (close, rest) ← closeParen stop rest
  return (.call (name.span.merge close.span) name.text args, rest)

/-- The operand of a sign that has been read. -/
def signed (inner : Option Rule) (sign : Token) (op : UnaryOp) (wanted : Wanted)
    (tokens : List Token) : Result := do
  let factor ← enter inner sign.span tokens
  let (operand, rest) ← factor wanted tokens
  return (.unary (sign.span.merge operand.span) op operand, rest)

/-- An expression whose opening parenthesis has been read, and its closing one. -/
def parenthesised (inner : Option Rule) (paren : Token) (tokens : List Token) : Result := do
  let factor ← enter inner paren.span tokens
  let (inside, rest) ← expr limit factor .expression tokens
  let (_, rest) ← closeParen stop rest
  return (inside, rest)

/-- A factor; `inner` is the rule for the factors inside its parentheses and behind its signs. -/
def factorWith (inner : Option Rule) : Rule := fun wanted tokens =>
  match tokens with
  | [] => .error (unexpected stop wanted [])
  | token :: rest =>
    match token.kind with
    | .float | .int =>
      match readFloat token.text.toList with
      | .ok value => .ok (.number token.span (.ofFloat value), rest)
      | .error _ => .error ⟨token.span, .invalidNumber token.text, rest⟩
    | .identifier =>
      match rest with
      | [] => .ok (.var token.span token.text, [])
      | next :: rest =>
        if next.kind = .openParen then call stop limit inner token rest
        else .ok (.var token.span token.text, next :: rest)
    | .minus => signed inner token .neg .operandOfMinus rest
    | .plus => signed inner token .plus .operandOfPlus rest
    | .openParen => parenthesised stop limit inner token rest
    | _ => .error (unexpected stop wanted (token :: rest))

/-- A factor that may contain so many levels of nesting. -/
def factor : Nat → Rule
  | 0 => factorWith stop limit none
  | budget + 1 => factorWith stop limit (some (factor budget))

/-- The further expressions of a sequence. -/
def moreExprs (factor : Rule) : Nat → Expr → List Token → Result
  | 0, first, tokens => .ok (first, tokens)
  | _ + 1, first, [] => .ok (first, [])
  | fuel + 1, first, token :: rest =>
    if token.kind = .semicolon then
      match expr limit factor .expression rest with
      | .error failure => .error failure
      | .ok (second, rest) => moreExprs factor fuel (first.andThen second) rest
    else .ok (first, token :: rest)

/-- A whole input. -/
def block (tokens : List Token) : Except Failure Expr := do
  let rule := factor stop limit maxNesting
  let (first, rest) ← expr limit rule .expression tokens
  let (tree, rest) ← moreExprs limit rule limit first rest
  if rest.isEmpty then return tree
  else throw (unexpected stop .endOfInput rest)

end Rules

/-- The tree of a token list that the token `stop` closes. -/
def parse (stop : Token) (tokens : List Token) : Except Failure Expr :=
  block stop tokens.length tokens

end Parser

namespace Expr

/-- The tree of a source. An unknown character that the parser has come to is reported rather than
what the parser made of the tokens before it. -/
def ofSource? (source : Source) : Except CompileError Expr :=
  let (tokens, ending) := Token.scanAll 0 source.chars
  match Parser.parse ending.token tokens, ending.error? source with
  | .ok tree, none => .ok tree
  | .ok _, some error => .error error
  | .error failure, none => .error (.ofFault source failure.span failure.fault)
  | .error failure, some error =>
    if failure.rest.isEmpty then .error error
    else .error (.ofFault source failure.span failure.fault)

/-- The tree of a text. -/
def ofString? (text : String) : Except CompileError Expr :=
  ofSource? (.ofString text)

end Expr

end Formula
