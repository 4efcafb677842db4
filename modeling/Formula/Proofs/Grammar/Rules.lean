import Formula.Expr.Parser

/-!
# The grammar of expressions

The grammar relates tokens to trees, whatever a parser does:

* `Block := Expr (';' Expr)* END`,
* `Expr := Term (('+' | '-') Term)*`,
* `Term := Factor (('*' | '/') Factor)*`,
* `Factor := FLOAT | INT | IDENTIFIER ('(' (Expr (',' Expr)*)? ')')? | '-' Factor | '+' Factor
  | '(' Expr ')'`.

A repetition is derived from left to right, so the operators associate to the left. Each derivation
comes with its depth: how many parenthesised factors, signs and calls are nested in one another at
most. The span of a node covers the tokens it was derived from, but parentheses leave no trace.
-/

namespace Formula.Grammar

mutual

/-- A number, a variable, a call, a factor with a sign, or an expression in parentheses. -/
inductive IsFactor : Nat → List Token → Expr → Prop where
  | number {token : Token} {value : Float} (hKind : token.kind = .float ∨ token.kind = .int)
    (hValue : readFloat token.text.toList = .ok value) :
    IsFactor 0 [token] (.number token.span (.ofFloat value))
  | var {name : Token} (hName : name.kind = .identifier) :
    IsFactor 0 [name] (.var name.span name.text)
  | call {depth : Nat} {name paren close : Token} {tokens : List Token} {args : List Expr}
    (hName : name.kind = .identifier) (hParen : paren.kind = .openParen)
    (hClose : close.kind = .closeParen) (hArgs : IsArguments depth tokens args) :
    IsFactor (depth + 1) (name :: paren :: (tokens ++ [close]))
      (.call (name.span.merge close.span) name.text args)
  | minus {depth : Nat} {sign : Token} {tokens : List Token} {operand : Expr}
    (hSign : sign.kind = .minus) (hOperand : IsFactor depth tokens operand) :
    IsFactor (depth + 1) (sign :: tokens) (.unary (sign.span.merge operand.span) .neg operand)
  | plus {depth : Nat} {sign : Token} {tokens : List Token} {operand : Expr}
    (hSign : sign.kind = .plus) (hOperand : IsFactor depth tokens operand) :
    IsFactor (depth + 1) (sign :: tokens) (.unary (sign.span.merge operand.span) .plus operand)
  | parenthesised {depth : Nat} {paren close : Token} {tokens : List Token} {inside : Expr}
    (hParen : paren.kind = .openParen) (hClose : close.kind = .closeParen)
    (hInside : IsExpr depth tokens inside) :
    IsFactor (depth + 1) (paren :: (tokens ++ [close])) inside

/-- Factors with multiplicative operators between them. -/
inductive IsTerm : Nat → List Token → Expr → Prop where
  | factor {depth : Nat} {tokens : List Token} {e : Expr} (hFactor : IsFactor depth tokens e) :
    IsTerm depth tokens e
  | operation {depth depth' : Nat} {tokens tokens' : List Token} {left right : Expr}
    {operator : Token} {op : BinaryOp} (hLeft : IsTerm depth tokens left)
    (hOp : Parser.multiplicative? operator.kind = some op)
    (hRight : IsFactor depth' tokens' right) :
    IsTerm (max depth depth') (tokens ++ operator :: tokens')
      (.binary (left.span.merge right.span) op left right)

/-- Terms with additive operators between them. -/
inductive IsExpr : Nat → List Token → Expr → Prop where
  | term {depth : Nat} {tokens : List Token} {e : Expr} (hTerm : IsTerm depth tokens e) :
    IsExpr depth tokens e
  | operation {depth depth' : Nat} {tokens tokens' : List Token} {left right : Expr}
    {operator : Token} {op : BinaryOp} (hLeft : IsExpr depth tokens left)
    (hOp : Parser.additive? operator.kind = some op) (hRight : IsTerm depth' tokens' right) :
    IsExpr (max depth depth') (tokens ++ operator :: tokens')
      (.binary (left.span.merge right.span) op left right)

/-- No arguments, or some. -/
inductive IsArguments : Nat → List Token → List Expr → Prop where
  | none : IsArguments 0 [] []
  | some {depth : Nat} {tokens : List Token} {args : List Expr}
    (hList : IsList depth tokens args) : IsArguments depth tokens args

/-- Expressions with commas between them. -/
inductive IsList : Nat → List Token → List Expr → Prop where
  | single {depth : Nat} {tokens : List Token} {arg : Expr} (hArg : IsExpr depth tokens arg) :
    IsList depth tokens [arg]
  | more {depth depth' : Nat} {tokens tokens' : List Token} {args : List Expr} {arg : Expr}
    {comma : Token} (hList : IsList depth tokens args) (hComma : comma.kind = .comma)
    (hArg : IsExpr depth' tokens' arg) :
    IsList (max depth depth') (tokens ++ comma :: tokens') (args ++ [arg])

end

/-- Expressions with semicolons between them. -/
inductive IsSequence : Nat → List Token → Expr → Prop where
  | single {depth : Nat} {tokens : List Token} {e : Expr} (hExpr : IsExpr depth tokens e) :
    IsSequence depth tokens e
  | more {depth depth' : Nat} {tokens tokens' : List Token} {first second : Expr}
    {semicolon : Token} (hFirst : IsSequence depth tokens first)
    (hSemicolon : semicolon.kind = .semicolon) (hSecond : IsExpr depth' tokens' second) :
    IsSequence (max depth depth') (tokens ++ semicolon :: tokens') (first.andThen second)

/-- A sequence that the end of the input closes. -/
inductive IsBlock : Nat → List Token → Expr → Prop where
  | intro {depth : Nat} {tokens : List Token} {e : Expr} {stop : Token}
    (hSequence : IsSequence depth tokens e) (hStop : stop.kind = .endOfInput) :
    IsBlock depth (tokens ++ [stop]) e

/-! ## First tokens -/

/-- A factor begins with a token that can start an expression. -/
theorem IsFactor.starts {depth : Nat} {tokens : List Token} {e : Expr}
    (h : IsFactor depth tokens e) :
    ∃ first rest, tokens = first :: rest ∧ Parser.startsFactor first.kind = true := by
  cases h with
  | number hKind _ => exact ⟨_, _, rfl, by rcases hKind with h | h <;> rw [h] <;> rfl⟩
  | var hName => exact ⟨_, _, rfl, by rw [hName]; rfl⟩
  | call hName _ _ _ => exact ⟨_, _, rfl, by rw [hName]; rfl⟩
  | minus hSign _ => exact ⟨_, _, rfl, by rw [hSign]; rfl⟩
  | plus hSign _ => exact ⟨_, _, rfl, by rw [hSign]; rfl⟩
  | parenthesised hParen _ _ => exact ⟨_, _, rfl, by rw [hParen]; rfl⟩

/-- What begins with such a token still does when more tokens follow. -/
theorem starts_append {tokens : List Token} (more : List Token)
    (h : ∃ first rest, tokens = first :: rest ∧ Parser.startsFactor first.kind = true) :
    ∃ first rest, tokens ++ more = first :: rest ∧ Parser.startsFactor first.kind = true := by
  obtain ⟨first, rest, rfl, hStarts⟩ := h
  exact ⟨first, rest ++ more, rfl, hStarts⟩

theorem IsTerm.starts : ∀ {depth : Nat} {tokens : List Token} {e : Expr}, IsTerm depth tokens e →
    ∃ first rest, tokens = first :: rest ∧ Parser.startsFactor first.kind = true
  | _, _, _, .factor hFactor => hFactor.starts
  | _, _, _, .operation hLeft _ _ => starts_append _ hLeft.starts

theorem IsExpr.starts : ∀ {depth : Nat} {tokens : List Token} {e : Expr}, IsExpr depth tokens e →
    ∃ first rest, tokens = first :: rest ∧ Parser.startsFactor first.kind = true
  | _, _, _, .term hTerm => hTerm.starts
  | _, _, _, .operation hLeft _ _ => starts_append _ hLeft.starts

end Formula.Grammar
