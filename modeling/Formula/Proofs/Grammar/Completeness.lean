import Formula.Proofs.Grammar.Soundness
import Mathlib.Order.Lattice

/-!
# What is in the grammar is parsed

On tokens that the grammar derives, each rule of the parser reads exactly these tokens and gives
their tree, if the budget for nesting allows their depth, and otherwise fails because of it
(`Gives`). A loop is described by the state in which a derivation leaves it: what follows is the
same loop with the tree as its left side. Since a derivation determines what the parser does for
every budget, tokens have at most one tree and one depth (`IsSequence.unique`).
-/

namespace Formula.Parser

open Grammar

/-! ## Outcomes -/

/-- A computation that goes on as `target` if the nesting fits, and otherwise fails. -/
structure Gives {α : Type} (fits : Prop) (result target : Except Failure α) : Prop where
  reached : fits → result = target
  tooDeep : ¬fits → ∃ failure, result = .error failure ∧ failure.fault = .tooDeep

namespace Gives

variable {α β : Type} {fits : Prop}

theorem of_eq {result target : Except Failure α} (hFits : fits) (h : result = target) :
    Gives fits result target :=
  ⟨fun _ => h, fun hNot => absurd hFits hNot⟩

theorem fits_of_ok {result target : Except Failure α} {a : α} (h : Gives fits result target)
    (hOk : result = .ok a) : fits := by
  by_contra hNot
  obtain ⟨failure, hFailure, -⟩ := h.tooDeep hNot
  rw [hOk] at hFailure
  cases hFailure

/-- What follows does not depend on the budget. -/
theorem bind_eq {x : Except Failure α} {a : α} {f : α → Except Failure β}
    {target : Except Failure β} (h : Gives fits x (.ok a)) (h' : f a = target) :
    Gives fits (x >>= f) target where
  reached hFits := by
    rw [h.reached hFits]
    exact h'
  tooDeep hNot := by
    obtain ⟨failure, hFailure, hFault⟩ := h.tooDeep hNot
    rw [hFailure]
    exact ⟨failure, rfl, hFault⟩

/-- A loop over the right operands after what is nested less deep or as deep. -/
theorem max {depth depth' budget : Nat} {result middle target : Except Failure α}
    (h : Gives (depth ≤ budget) result middle) (h' : Gives (depth' ≤ budget) middle target) :
    Gives (max depth depth' ≤ budget) result target where
  reached hFits := by
    obtain ⟨hLeft, hRight⟩ := Nat.max_le.mp hFits
    exact (h.reached hLeft).trans (h'.reached hRight)
  tooDeep hNot := by
    by_cases hLeft : depth ≤ budget
    · rw [h.reached hLeft]
      exact h'.tooDeep fun hRight => hNot (Nat.max_le.mpr ⟨hLeft, hRight⟩)
    · exact h.tooDeep hLeft

end Gives

/-! ## What may follow -/

/-- A token that does not go on with a term. -/
def EndsTerm (kind : TokenKind) : Prop :=
  kind ≠ .openParen ∧ multiplicative? kind = none

/-- A token that may stand after an expression. -/
def EndsExpr (kind : TokenKind) : Prop :=
  kind = .closeParen ∨ kind = .comma ∨ kind = .semicolon

theorem endsTerm_of_additive? {kind : TokenKind} {op : BinaryOp}
    (h : additive? kind = some op) : EndsTerm kind := by
  unfold additive? at h
  split at h
  · exact ⟨nofun, rfl⟩
  · exact ⟨nofun, rfl⟩
  · cases h

theorem ne_openParen_of_multiplicative? {kind : TokenKind} {op : BinaryOp}
    (h : multiplicative? kind = some op) : kind ≠ .openParen := by
  rintro rfl
  cases h

namespace EndsExpr

variable {kind : TokenKind}

theorem endsTerm (h : EndsExpr kind) : EndsTerm kind := by
  rcases h with rfl | rfl | rfl <;> exact ⟨nofun, rfl⟩

theorem additive? (h : EndsExpr kind) : additive? kind = none := by
  rcases h with rfl | rfl | rfl <;> rfl

end EndsExpr

/-! ## Factors -/

section Factors

variable {stop : Token} {limit budget depth : Nat} {tokens rest : List Token}

theorem factor_number {token : Token} {value : Float}
    (hKind : token.kind = .float ∨ token.kind = .int)
    (hValue : readFloat token.text.toList = .ok value) (wanted : Wanted) (rest : List Token) :
    factor stop limit budget wanted (token :: rest) =
      .ok (.number token.span (.ofFloat value), rest) := by
  cases budget <;> rcases hKind with h | h <;> simp only [factor, factorWith, h, hValue]

theorem factor_var {name : Token} (hName : name.kind = .identifier)
    (hRest : Ahead (· ≠ .openParen) rest) (wanted : Wanted) :
    factor stop limit budget wanted (name :: rest) = .ok (.var name.span name.text, rest) := by
  cases rest with
  | nil => cases budget <;> simp only [factor, factorWith, hName]
  | cons next rest =>
    have hNext : next.kind ≠ .openParen := hRest next rfl
    cases budget <;> simp only [factor, factorWith, hName, if_neg hNext]

/-- The rule inside parentheses and behind signs. -/
def innerRule (stop : Token) (limit : Nat) : Nat → Option Rule
  | 0 => none
  | budget + 1 => some (factor stop limit budget)

theorem factor_eq (stop : Token) (limit budget : Nat) :
    factor stop limit budget = factorWith stop limit (innerRule stop limit budget) := by
  cases budget with
  | zero => rfl
  | succ budget => rfl

/-- One level is used up before what is inside. -/
theorem gives_enter {α : Type} {inside : Rule → Except Failure α} {target : Except Failure α}
    (h : ∀ below, Gives (depth ≤ below) (inside (factor stop limit below)) target) (span : Span)
    (budget : Nat) : Gives (depth + 1 ≤ budget)
      (enter (innerRule stop limit budget) span tokens >>= inside) target := by
  cases budget with
  | zero => exact ⟨fun hFits => absurd hFits (Nat.not_succ_le_zero _),
      fun _ => ⟨⟨span, .tooDeep, tokens⟩, rfl, rfl⟩⟩
  | succ below =>
    refine ⟨fun hFits => (h below).reached (Nat.le_of_succ_le_succ hFits), fun hNot => ?_⟩
    exact (h below).tooDeep fun hFits => hNot (Nat.succ_le_succ hFits)

theorem closeParen_cons {close : Token} (hClose : close.kind = .closeParen) (rest : List Token) :
    closeParen stop (close :: rest) = .ok (close, rest) := by
  rw [closeParen, if_pos hClose]

theorem gives_call {name paren close : Token} {args : List Expr} (hName : name.kind = .identifier)
    (hParen : paren.kind = .openParen) (hClose : close.kind = .closeParen)
    (hArgs : ∀ below, Gives (depth ≤ below)
      (arguments stop limit (factor stop limit below) tokens) (.ok (args, close :: rest)))
    (wanted : Wanted) (budget : Nat) : Gives (depth + 1 ≤ budget)
      (factor stop limit budget wanted (name :: paren :: tokens))
      (.ok (.call (name.span.merge close.span) name.text args, rest)) := by
  have hCall : factor stop limit budget wanted (name :: paren :: tokens) =
      call stop limit (innerRule stop limit budget) name tokens := by
    simp only [factor_eq, factorWith, hName, if_pos hParen]
  rw [hCall]
  refine gives_enter (fun below => (hArgs below).bind_eq ?_) _ budget
  simp only [closeParen_cons hClose]
  rfl

theorem gives_signed {sign : Token} {op : UnaryOp} {wanted : Wanted} {operand : Expr}
    (hOperand : ∀ below, Gives (depth ≤ below) (factor stop limit below wanted tokens)
      (.ok (operand, rest))) (budget : Nat) : Gives (depth + 1 ≤ budget)
      (signed (innerRule stop limit budget) sign op wanted tokens)
      (.ok (.unary (sign.span.merge operand.span) op operand, rest)) :=
  gives_enter (fun below => (hOperand below).bind_eq rfl) _ budget

theorem gives_parenthesised {paren close : Token} {inside : Expr}
    (hParen : paren.kind = .openParen) (hClose : close.kind = .closeParen)
    (hInside : ∀ below, Gives (depth ≤ below)
      (expr limit (factor stop limit below) .expression tokens) (.ok (inside, close :: rest)))
    (wanted : Wanted) (budget : Nat) : Gives (depth + 1 ≤ budget)
      (factor stop limit budget wanted (paren :: tokens)) (.ok (inside, rest)) := by
  have hFactor : factor stop limit budget wanted (paren :: tokens) =
      parenthesised stop limit (innerRule stop limit budget) paren tokens := by
    simp only [factor_eq, factorWith, hParen]
  rw [hFactor]
  refine gives_enter (fun below => (hInside below).bind_eq ?_) _ budget
  simp only [closeParen_cons hClose]
  rfl

end Factors

/-! ## Loops -/

section Loops

variable {stop : Token} {limit budget depth : Nat} {tokens rest : List Token}

/-- A computation that goes on as a loop with enough rounds left for the tokens that follow. -/
def GivesLoop {α : Type} (fits : Prop) (result : Except Failure α)
    (loop : Nat → Except Failure α) (rest : List Token) : Prop :=
  ∃ limit, rest.length ≤ limit ∧ Gives fits result (loop limit)

theorem GivesLoop.start {α : Type} {fits : Prop} {result : Except Failure α}
    {loop : Nat → Except Failure α} {taken : List Token} (hLimit : (taken ++ rest).length ≤ limit)
    (h : Gives fits result (loop limit)) : GivesLoop fits result loop rest := by
  rw [List.length_append] at hLimit
  exact ⟨limit, by omega, h⟩

/-- One more round of a loop. -/
theorem GivesLoop.round {α : Type} {depth' : Nat} {result : Except Failure α} {next : Token}
    {loop loop' : Nat → Except Failure α} {taken : List Token}
    (h : GivesLoop (depth ≤ budget) result loop (next :: (taken ++ rest)))
    (hRound : ∀ limit, Gives (depth' ≤ budget) (loop (limit + 1)) (loop' limit)) :
    GivesLoop (max depth depth' ≤ budget) result loop' rest := by
  obtain ⟨limit, hLimit, hLoop⟩ := h
  rw [List.length_cons, List.length_append] at hLimit
  obtain ⟨left, rfl⟩ := Nat.exists_eq_succ_of_ne_zero (show limit ≠ 0 by omega)
  exact ⟨left, by omega, hLoop.max (hRound left)⟩

theorem GivesLoop.ends {α : Type} {fits : Prop} {result target : Except Failure α}
    {loop : Nat → Except Failure α} (h : GivesLoop fits result loop rest)
    (hStop : ∀ limit, loop limit = target) : Gives fits result target := by
  obtain ⟨limit, -, hLoop⟩ := h
  rwa [hStop limit] at hLoop

/-- The loop over multiplicative operators stops at the end of a term. -/
theorem GivesLoop.term {fits : Prop} {result : Result} {operand : List Token → Result} {e : Expr}
    (h : GivesLoop fits result (fun left => chain multiplicative? operand left e rest) rest)
    (hRest : Ahead EndsTerm rest) : Gives fits result (.ok (e, rest)) :=
  h.ends (chain_stop e (hRest.imp fun _ hEnds => hEnds.2))

/-- The loop over additive operators stops at the end of an expression. -/
theorem GivesLoop.expr {fits : Prop} {result : Result} {operand : List Token → Result} {e : Expr}
    (h : GivesLoop fits result (fun left => chain additive? operand left e rest) rest)
    (hRest : Ahead EndsExpr rest) : Gives fits result (.ok (e, rest)) :=
  h.ends (chain_stop e (hRest.imp fun _ hEnds => hEnds.additive?))

theorem gives_chain {op? : TokenKind → Option BinaryOp} {operand : List Token → Result}
    {left right : Expr} {operator : Token} {op : BinaryOp} (hOp : op? operator.kind = some op)
    (hRight : Gives (depth ≤ budget) (operand tokens) (.ok (right, rest))) (limit : Nat) :
    Gives (depth ≤ budget) (chain op? operand (limit + 1) left (operator :: tokens))
      (chain op? operand limit (.binary (left.span.merge right.span) op left right) rest) := by
  rw [chain_cons hOp]
  exact hRight.bind_eq rfl

theorem length_le_of_append_cons {taken later : List Token} {next : Token}
    (h : (taken ++ next :: later).length ≤ limit) : later.length ≤ limit := by
  rw [List.length_append, List.length_cons] at h
  omega

-- The recursion is on derivations. The lemmas about terms, expressions and lists leave their loop
-- open: it goes on behind the left part of a longer derivation, and ends only at what follows.
mutual

/-- A factor is read unless the next token makes it a call. -/
theorem gives_factor : ∀ {depth : Nat} {tokens rest : List Token} {e : Expr},
    IsFactor depth tokens e → Ahead (· ≠ .openParen) rest → (tokens ++ rest).length ≤ limit →
    ∀ (wanted : Wanted) (budget : Nat), Gives (depth ≤ budget)
      (factor stop limit budget wanted (tokens ++ rest)) (.ok (e, rest))
  | _, _, rest, _, .number hKind hValue, _, _, wanted, budget =>
    .of_eq (Nat.zero_le _) (factor_number hKind hValue wanted rest)
  | _, _, _, _, .var hName, hRest, _, wanted, budget =>
    .of_eq (Nat.zero_le _) (factor_var hName hRest wanted)
  | _, _, rest, _, @IsFactor.call depth name paren close tokens args hName hParen hClose hArgs, _,
      hLimit, wanted, budget => by
    have hTokens : (name :: paren :: (tokens ++ [close])) ++ rest =
        name :: paren :: (tokens ++ close :: rest) := by simp
    rw [hTokens] at hLimit ⊢
    simp only [List.length_cons] at hLimit
    refine gives_call hName hParen hClose (fun below => ?_) wanted budget
    exact gives_arguments hArgs hClose (by omega) below
  | _, _, rest, _, @IsFactor.minus depth sign tokens operand hSign hOperand, hRest, hLimit, wanted,
      budget => by
    have hFactor : factor stop limit budget wanted (sign :: tokens ++ rest) =
        signed (innerRule stop limit budget) sign .neg .operandOfMinus (tokens ++ rest) := by
      simp only [factor_eq, List.cons_append, factorWith, hSign]
    simp only [List.cons_append, List.length_cons] at hLimit
    rw [hFactor]
    exact gives_signed (fun below => gives_factor hOperand hRest (by omega) _ below) budget
  | _, _, rest, _, @IsFactor.plus depth sign tokens operand hSign hOperand, hRest, hLimit, wanted,
      budget => by
    have hFactor : factor stop limit budget wanted (sign :: tokens ++ rest) =
        signed (innerRule stop limit budget) sign .plus .operandOfPlus (tokens ++ rest) := by
      simp only [factor_eq, List.cons_append, factorWith, hSign]
    simp only [List.cons_append, List.length_cons] at hLimit
    rw [hFactor]
    exact gives_signed (fun below => gives_factor hOperand hRest (by omega) _ below) budget
  | _, _, rest, _, @IsFactor.parenthesised depth paren close tokens inside hParen hClose hInside, _,
      hLimit, wanted, budget => by
    have hTokens : (paren :: (tokens ++ [close])) ++ rest =
        paren :: (tokens ++ close :: rest) := by simp
    rw [hTokens] at hLimit ⊢
    simp only [List.length_cons] at hLimit
    refine gives_parenthesised hParen hClose (fun below => ?_) wanted budget
    have hEnds : Ahead EndsExpr (close :: rest) := .cons (.inl hClose) rest
    exact (givesLoop_expr hInside (hEnds.imp fun _ h => h.endsTerm) (by omega) _ below).expr hEnds

/-- A term leaves the loop over multiplicative operators. -/
theorem givesLoop_term : ∀ {depth : Nat} {tokens rest : List Token} {e : Expr},
    IsTerm depth tokens e → Ahead (· ≠ .openParen) rest → (tokens ++ rest).length ≤ limit →
    ∀ (wanted : Wanted) (budget : Nat), GivesLoop (depth ≤ budget)
      (term limit (factor stop limit budget) wanted (tokens ++ rest))
      (fun left => chain multiplicative? (factor stop limit budget .term) left e rest) rest
  | _, tokens, rest, _, .factor hFactor, hRest, hLimit, wanted, budget => by
    refine .start hLimit ?_
    rw [term_eq]
    exact (gives_factor hFactor hRest hLimit wanted budget).bind_eq rfl
  | _, _, rest, _, @IsTerm.operation depth depth' tokens tokens' left right operator op hLeft hOp
      hRight, hRest, hLimit, wanted, budget => by
    rw [List.append_assoc, List.cons_append] at hLimit ⊢
    have hLeft := givesLoop_term hLeft
      (.cons (ne_openParen_of_multiplicative? hOp) _) hLimit wanted budget
    have hLength := length_le_of_append_cons hLimit
    exact hLeft.round (gives_chain hOp (gives_factor hRight hRest hLength .term budget))

/-- An expression leaves the loop over additive operators. -/
theorem givesLoop_expr : ∀ {depth : Nat} {tokens rest : List Token} {e : Expr},
    IsExpr depth tokens e → Ahead EndsTerm rest → (tokens ++ rest).length ≤ limit →
    ∀ (wanted : Wanted) (budget : Nat), GivesLoop (depth ≤ budget)
      (expr limit (factor stop limit budget) wanted (tokens ++ rest))
      (fun left => chain additive? (term limit (factor stop limit budget) .expression) left e rest)
      rest
  | _, tokens, rest, _, .term hTerm, hRest, hLimit, wanted, budget => by
    refine .start hLimit ?_
    rw [expr_eq]
    have hLoop := givesLoop_term hTerm (hRest.imp fun _ h => h.1) hLimit wanted budget
    exact (hLoop.term hRest).bind_eq rfl
  | _, _, rest, _, @IsExpr.operation depth depth' tokens tokens' left right operator op hLeft hOp
      hRight, hRest, hLimit, wanted, budget => by
    rw [List.append_assoc, List.cons_append] at hLimit ⊢
    have hLeft := givesLoop_expr hLeft (.cons (endsTerm_of_additive? hOp) _) hLimit wanted budget
    have hLength := length_le_of_append_cons hLimit
    have hRight := givesLoop_term hRight (hRest.imp fun _ h => h.1) hLength .expression budget
    exact hLeft.round (gives_chain hOp (hRight.term hRest))

/-- Arguments are read up to the closing parenthesis. -/
theorem gives_arguments : ∀ {depth : Nat} {tokens rest : List Token} {args : List Expr}
    {close : Token}, IsArguments depth tokens args → close.kind = .closeParen →
    (tokens ++ close :: rest).length ≤ limit → ∀ budget : Nat, Gives (depth ≤ budget)
      (arguments stop limit (factor stop limit budget) (tokens ++ close :: rest))
      (.ok (args, close :: rest))
  | _, _, rest, _, close, .none, hClose, _, budget => by
    refine .of_eq (Nat.zero_le _) (arguments_none ?_)
    rw [List.nil_append, List.headD_cons, hClose]
    rfl
  | _, _, rest, args, close, .some hList, hClose, hLimit, budget => by
    have hComma : close.kind ≠ .comma := by rw [hClose]; exact nofun
    refine (givesLoop_list hList (.cons (.inl hClose) rest) hLimit budget).ends fun left => ?_
    rw [moreArguments_stop (.cons hComma rest), List.reverse_reverse]

/-- Arguments leave the loop over commas. -/
theorem givesLoop_list : ∀ {depth : Nat} {tokens rest : List Token} {args : List Expr},
    IsList depth tokens args → Ahead EndsExpr rest → (tokens ++ rest).length ≤ limit →
    ∀ budget : Nat, GivesLoop (depth ≤ budget)
      (arguments stop limit (factor stop limit budget) (tokens ++ rest))
      (fun left => moreArguments limit (factor stop limit budget) left args.reverse rest) rest
  | _, tokens, rest, _, .single hArg, hRest, hLimit, budget => by
    obtain ⟨first, more, hFirst, hStarts⟩ := starts_append rest hArg.starts
    have hArg := givesLoop_expr hArg (hRest.imp fun _ h => h.endsTerm) hLimit .expression budget
    refine .start hLimit ?_
    rw [arguments_some (by rw [hFirst]; exact hStarts)]
    exact (hArg.expr hRest).bind_eq rfl
  | _, _, rest, _, @IsList.more depth depth' tokens tokens' args arg comma hList hComma hArg,
      hRest, hLimit, budget => by
    rw [List.append_assoc, List.cons_append] at hLimit ⊢
    have hList := givesLoop_list hList (.cons (.inr (.inl hComma)) _) hLimit budget
    have hLength := length_le_of_append_cons hLimit
    refine hList.round fun left => ?_
    rw [moreArguments_cons hComma, List.reverse_append]
    have hArg := givesLoop_expr hArg (hRest.imp fun _ h => h.endsTerm) hLength .expression budget
    exact (hArg.expr hRest).bind_eq rfl

end

/-- An expression is read up to a token that may stand after it. -/
theorem gives_expr {e : Expr} (hExpr : IsExpr depth tokens e) (hRest : Ahead EndsExpr rest)
    (hLimit : (tokens ++ rest).length ≤ limit) (wanted : Wanted) (budget : Nat) :
    Gives (depth ≤ budget) (expr limit (factor stop limit budget) wanted (tokens ++ rest))
      (.ok (e, rest)) :=
  (givesLoop_expr hExpr (hRest.imp fun _ h => h.endsTerm) hLimit wanted budget).expr hRest

end Loops

/-! ## Whole inputs -/

/-- The expressions of an input, for any budget. -/
def sequence (stop : Token) (limit budget : Nat) (tokens : List Token) : Result := do
  let (first, rest) ← expr limit (factor stop limit budget) .expression tokens
  moreExprs limit (factor stop limit budget) limit first rest

section Sequences

variable {stop : Token} {limit depth : Nat} {tokens rest : List Token} {tree : Expr}

/-- A sequence leaves the loop over semicolons. -/
theorem givesLoop_sequence (h : IsSequence depth tokens tree) (budget : Nat) :
    ∀ {rest : List Token}, Ahead EndsExpr rest → (tokens ++ rest).length ≤ limit →
    GivesLoop (depth ≤ budget) (sequence stop limit budget (tokens ++ rest))
      (fun left => moreExprs limit (factor stop limit budget) left tree rest) rest := by
  induction h with
  | single hExpr =>
    intro rest hRest hLimit
    exact .start hLimit ((gives_expr hExpr hRest hLimit .expression budget).bind_eq rfl)
  | @more depth depth' tokens tokens' first second semicolon _ hSemicolon hSecond ih =>
    intro rest hRest hLimit
    rw [List.append_assoc, List.cons_append] at hLimit ⊢
    have hFirst := ih (.cons (.inr (.inr hSemicolon)) _) hLimit
    have hLength := length_le_of_append_cons hLimit
    refine hFirst.round fun left => ?_
    rw [moreExprs_cons hSemicolon]
    exact (gives_expr hSecond hRest hLength .expression budget).bind_eq rfl

theorem gives_sequence (stop : Token) (h : IsSequence depth tokens tree)
    (hLimit : tokens.length ≤ limit) (budget : Nat) :
    Gives (depth ≤ budget) (sequence stop limit budget tokens) (.ok (tree, [])) := by
  rw [← List.append_nil tokens] at hLimit ⊢
  exact (givesLoop_sequence h budget .nil hLimit).ends (moreExprs_stop .nil)

/-- Sequences of the grammar are parsed if they are not nested too deeply. -/
theorem parse_of_isSequence (h : IsSequence depth tokens tree) (hDepth : depth ≤ maxNesting) :
    parse stop tokens = .ok tree := by
  have hSequence := (gives_sequence stop h le_rfl maxNesting).reached hDepth
  obtain ⟨⟨first, rest⟩, hFirst, hMore⟩ := Except.bind_eq_ok_iff.mp hSequence
  dsimp only at hMore
  rw [parse, block, hFirst]
  dsimp only [bind, Except.bind]
  rw [hMore]
  rfl

end Sequences

end Formula.Parser

namespace Formula

/-- Tokens have at most one tree, and its derivation has one depth. -/
theorem Grammar.IsSequence.unique {depth depth' : Nat} {tokens : List Token} {tree tree' : Expr}
    (h : IsSequence depth tokens tree) (h' : IsSequence depth' tokens tree') :
    depth = depth' ∧ tree = tree' := by
  have hGives := Parser.gives_sequence default h le_rfl
  have hGives' := Parser.gives_sequence default h' le_rfl
  have hDepth : depth ≤ depth' := (hGives depth').fits_of_ok ((hGives' depth').reached le_rfl)
  have hDepth' : depth' ≤ depth := (hGives' depth).fits_of_ok ((hGives depth).reached le_rfl)
  refine ⟨le_antisymm hDepth hDepth', ?_⟩
  have hTrees := ((hGives depth).reached le_rfl).symm.trans ((hGives' depth).reached hDepth')
  cases hTrees
  rfl

end Formula
