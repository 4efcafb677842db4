import Formula.Proofs.Grammar.Positions
import Formula.Proofs.Grammar.Soundness
import Formula.Proofs.Splitting

/-!
# Impossible tokens

A rule of the parser that fails because of a token fails at the first one that cannot come where it
does (`Stuck`): the tokens before it lead to a position that has no step for it, and yet they are
the beginning of something that the grammar derives. A rule that succeeds leaves a position where
what comes next has to follow an operand (`Ends`). Every rule has one lemma for both outcomes, and
every loop goes on in the same way (`outcome_round`).
-/

namespace Formula

/-- Whether the fault is that a token, or the end of the input, cannot stand where it does. -/
def Fault.Misplaced : Fault → Prop
  | .unexpected .. | .unclosed | .notClosed _ => True
  | _ => False

namespace Parser

open Grammar

/-! ## Tokens that can be completed -/

/-- Behind the taken tokens there are lexemes which, wherever they stand, complete them to something
that is derived, nested at most `budget` deep. -/
def Viable {α : Type} (P : Nat → List Token → α → Prop) (budget : Nat) (taken : List Token) :
    Prop :=
  ∃ lexemes : List (TokenKind × List Char), (∀ l ∈ lexemes, Token.Lexeme l.1 l.2) ∧
    ∀ more : List Token, more.map Token.written = lexemes →
      ∃ depth tree, depth ≤ budget ∧ P depth (taken ++ more) tree

section Viable

variable {α β : Type} {P : Nat → List Token → α → Prop} {Q : Nat → List Token → β → Prop}
  {budget below depth : Nat} {taken before : List Token}

theorem viable_of_derived {tree : α} (hDepth : depth ≤ budget) (h : P depth taken tree) :
    Viable P budget taken := by
  refine ⟨[], nofun, fun more hMore => ⟨depth, tree, hDepth, ?_⟩⟩
  rwa [List.map_eq_nil_iff.mp hMore, List.append_nil]

theorem Viable.behind (h : Viable Q below taken)
    (hMap : ∀ {depth tokens tree}, depth ≤ below → Q depth tokens tree →
      ∃ depth tree, depth ≤ budget ∧ P depth (before ++ tokens) tree) :
    Viable P budget (before ++ taken) := by
  obtain ⟨lexemes, hLexemes, hMore⟩ := h
  refine ⟨lexemes, hLexemes, fun more hWritten => ?_⟩
  obtain ⟨depth, tree, hDepth, hTree⟩ := hMore more hWritten
  rw [List.append_assoc]
  exact hMap hDepth hTree

/-- What can be completed inside parentheses can be completed and closed. -/
theorem Viable.closed (h : Viable Q below taken)
    (hMap : ∀ {depth tokens close tree}, close.kind = .closeParen → depth ≤ below →
      Q depth tokens tree →
      ∃ depth tree, depth ≤ budget ∧ P depth (before ++ (tokens ++ [close])) tree) :
    Viable P budget (before ++ taken) := by
  have hParen : Token.Lexeme .closeParen [')'] := rfl
  obtain ⟨lexemes, hLexemes, hMore⟩ := h
  refine ⟨lexemes ++ [(.closeParen, [')'])],
    List.forall_mem_append.mpr ⟨hLexemes, List.forall_mem_singleton.mpr hParen⟩,
    fun more hWritten => ?_⟩
  obtain ⟨inner, last, rfl, hInner, hLast⟩ := List.map_eq_append_iff.mp hWritten
  obtain ⟨close, rfl, hClose⟩ := List.map_eq_singleton_iff.mp hLast
  obtain ⟨depth, tree, hDepth, hTree⟩ := hMore inner hInner
  rw [List.append_assoc, ← List.append_assoc taken]
  exact hMap (congrArg Prod.fst hClose) hDepth hTree

/-- A number is a factor. -/
theorem viable_number (budget : Nat) : Viable IsFactor budget [] := by
  have hDigits : ∀ c ∈ ['1'], c.isDigit = true := List.forall_mem_singleton.mpr rfl
  have hInt : Token.Lexeme .int ['1'] := ⟨List.cons_ne_nil _ _, hDigits⟩
  refine ⟨[(.int, ['1'])], List.forall_mem_singleton.mpr hInt, fun more hWritten => ?_⟩
  obtain ⟨number, rfl, hNumber⟩ := List.map_eq_singleton_iff.mp hWritten
  obtain ⟨hKind, hText⟩ := Prod.ext_iff.mp hNumber
  have hNumeral : IsNumeral number.text.toList :=
    ⟨['1'], [], hText, List.cons_ne_nil _ _, hDigits, .inl rfl⟩
  obtain ⟨value, hValue⟩ := hNumeral.exists_readFloat
  exact ⟨0, _, Nat.zero_le _, .number (.inr hKind) hValue⟩

end Viable

/-! ## Outcomes -/

/-- What holds of the result of a computation, or of its failure if a token is misplaced. -/
def Outcome {α : Type} (ok : α → Prop) (failed : Failure → Prop) : Except Failure α → Prop
  | .ok a => ok a
  | .error failure => failure.fault.Misplaced → failed failure

namespace Outcome

variable {α β : Type} {ok : α → Prop} {ok' : β → Prop} {failed failed' : Failure → Prop}

theorem bind {x : Except Failure α} {f : α → Except Failure β} (hFirst : Outcome ok failed x)
    (hFailed : ∀ failure, failed failure → failed' failure)
    (hNext : ∀ a, ok a → Outcome ok' failed' (f a)) : Outcome ok' failed' (x >>= f) := by
  cases x with
  | error failure => exact fun hFault => hFailed failure (hFirst hFault)
  | ok a => exact hNext a hFirst

theorem imp {x : Except Failure α} {ok' : α → Prop} (h : Outcome ok failed x)
    (hOk : ∀ a, ok a → ok' a) (hFailed : ∀ failure, failed failure → failed' failure) :
    Outcome ok' failed' x := by
  cases x with
  | error failure => exact fun hFault => hFailed failure (h hFault)
  | ok a => exact hOk a h

end Outcome

section Rules

variable (stop : Token)

/-- The kind of the next token, or of the end of the input. -/
def nextKind (tokens : List Token) : TokenKind :=
  (tokens.headD stop).kind

/-- From where the rule starts, the taken tokens lead to where the next one is impossible; but they
can be completed. The failure points there. -/
def Stuck {α : Type} (P : Nat → List Token → α → Prop) (budget : Nat)
    (start : List Bracket → Position) (tokens : List Token) (failure : Failure) : Prop :=
  failure.span = (failure.rest.headD stop).span ∧ ∃ taken, tokens = taken ++ failure.rest ∧
    (∀ brackets, ∃ p, (start brackets).run taken = some p ∧
      p.step (nextKind stop failure.rest) = none) ∧ Viable P budget taken

/-- From where an operand is due, the taken tokens lead to where the next one has to follow an
operand; `inside` is what is known of the open parentheses. -/
def Ends (inside : List Bracket → List Bracket) (taken rest : List Token) : Prop :=
  ∀ brackets, ∃ p, (Position.mk .operand (inside brackets)).run taken = some p ∧
    p.step (nextKind stop rest) = Position.follow? (inside brackets) (nextKind stop rest)

/-- The tokens before `rest` are derived, they are over, and the next one is as `q` says. -/
def Reads {α : Type} (inside : List Bracket → List Bracket) (P : Nat → List Token → α → Prop)
    (q : TokenKind → Prop) (budget : Nat) (tokens : List Token) (result : α × List Token) : Prop :=
  ∃ depth taken, tokens = taken ++ result.2 ∧ depth ≤ budget ∧ P depth taken result.1 ∧
    Ends stop inside taken result.2 ∧ q (nextKind stop result.2)

/-- A rule for operands, for inputs of at most `limit` tokens. -/
def Settles {α : Type} (P : Nat → List Token → α → Prop) (q : TokenKind → Prop)
    (budget limit : Nat) (rule : List Token → Except Failure (α × List Token)) : Prop :=
  ∀ tokens, tokens.length ≤ limit → Outcome (Reads stop id P q budget tokens)
    (Stuck stop P budget (Position.mk .operand) tokens) (rule tokens)

end Rules

section Rules

variable {stop : Token} {budget limit below : Nat} {α β : Type}
  {P : Nat → List Token → α → Prop} {Q : Nat → List Token → β → Prop} {q : TokenKind → Prop}
  {inside : List Bracket → List Bracket} {start : List Bracket → Position}
  {before taken tokens rest : List Token} {failure : Failure}

@[simp]
theorem nextKind_nil : nextKind stop [] = stop.kind :=
  rfl

@[simp]
theorem nextKind_cons (token : Token) (rest : List Token) :
    nextKind stop (token :: rest) = token.kind :=
  rfl

theorem nextKind_nil_ne (hStop : stop.kind = .endOfInput) {kind : TokenKind}
    (hKind : .endOfInput ≠ kind) : nextKind stop [] ≠ kind := by
  rwa [nextKind_nil, hStop]

/-- What a part is stuck at, the whole is stuck at. -/
theorem Stuck.behind (before : List Token) {inner : List Bracket → Position}
    (h : Stuck stop Q below inner tokens failure)
    (hRun : ∀ brackets, ∃ brackets', (start brackets).run before = some (inner brackets'))
    (hViable : ∀ taken, Viable Q below taken → Viable P budget (before ++ taken)) :
    Stuck stop P budget start (before ++ tokens) failure := by
  obtain ⟨hSpan, taken, rfl, hStep, hTaken⟩ := h
  refine ⟨hSpan, before ++ taken, (List.append_assoc ..).symm, fun brackets => ?_, hViable _ hTaken⟩
  obtain ⟨brackets', hBefore⟩ := hRun brackets
  rw [Position.run_append_of_eq hBefore]
  exact hStep brackets'

theorem Stuck.imp (h : Stuck stop Q budget start tokens failure)
    (hMap : ∀ {depth tokens tree}, Q depth tokens tree → ∃ tree, P depth tokens tree) :
    Stuck stop P budget start tokens failure := by
  refine h.behind [] (fun brackets => ⟨brackets, rfl⟩) fun taken hViable =>
    hViable.behind fun {depth tokens tree} hDepth hTree => ?_
  obtain ⟨tree', hTree'⟩ := hMap hTree
  exact ⟨depth, tree', hDepth, hTree'⟩

theorem Ends.behind (before : List Token) (h : Ends stop id taken rest)
    (hRun : ∀ brackets, (Position.mk .operand (inside brackets)).run before =
      some ⟨.operand, inside brackets⟩) : Ends stop inside (before ++ taken) rest := by
  intro brackets
  rw [Position.run_append_of_eq (hRun brackets)]
  exact h (inside brackets)

/-- A token that an operand has to follow again. -/
theorem Ends.run_concat {separator : Token} (h : Ends stop inside taken (separator :: rest))
    (hFollow : ∀ brackets, Position.follow? (inside brackets) separator.kind =
      some ⟨.operand, inside brackets⟩) (brackets : List Bracket) :
    (Position.mk .operand (inside brackets)).run (taken ++ [separator]) =
      some ⟨.operand, inside brackets⟩ := by
  obtain ⟨p, hRun, hStep⟩ := h brackets
  rw [Position.run_concat hRun, ← hFollow brackets]
  exact hStep

/-- One more round of a loop: a separator, and what a rule for operands makes of the tokens behind
it. -/
theorem outcome_round {γ : Type} {ok : γ → Prop} {separator : Token}
    {x : Except Failure (β × List Token)} {f : β × List Token → Except Failure γ}
    (hEnds : Ends stop inside taken (separator :: tokens))
    (hFollow : ∀ brackets, Position.follow? (inside brackets) separator.kind =
      some ⟨.operand, inside brackets⟩)
    (hOperand : Outcome (Reads stop id Q q budget tokens)
      (Stuck stop Q budget (Position.mk .operand) tokens) x)
    (hDerived : ∀ {depth tokens tree}, depth ≤ budget → Q depth tokens tree →
      ∃ depth tree, depth ≤ budget ∧ P depth (taken ++ separator :: tokens) tree)
    (hNext : ∀ {depth taken' tree rest}, tokens = taken' ++ rest → depth ≤ budget →
      Q depth taken' tree → Ends stop inside (taken ++ separator :: taken') rest →
      q (nextKind stop rest) → Outcome ok (Stuck stop P budget
        (fun brackets => ⟨.operand, inside brackets⟩) (taken ++ separator :: tokens))
        (f (tree, rest))) :
    Outcome ok (Stuck stop P budget (fun brackets => ⟨.operand, inside brackets⟩)
      (taken ++ separator :: tokens)) (x >>= f) := by
  have hRun := hEnds.run_concat hFollow
  rw [List.append_cons] at hNext ⊢
  refine hOperand.bind (fun failure hStuck => ?_) fun ⟨tree, rest⟩ hReads => ?_
  · refine hStuck.behind _ (fun brackets => ⟨inside brackets, hRun brackets⟩)
      fun taken' hViable => ?_
    refine hViable.behind fun hDepth hTree => ?_
    rw [← List.append_cons]
    exact hDerived hDepth hTree
  · obtain ⟨depth, taken', hTokens, hDepth, hTree, hEnds', hq⟩ := hReads
    refine hNext hTokens hDepth hTree ?_ hq
    rw [List.append_cons]
    exact hEnds'.behind _ hRun

/-- A loop over operators. -/
theorem outcome_chain {P Q : Nat → List Token → Expr → Prop} {q q' : TokenKind → Prop}
    {op? : TokenKind → Option BinaryOp} {operand : List Token → Result}
    (hStep : ∀ {depth depth' tokens tokens' left right operator op}, P depth tokens left →
      op? operator.kind = some op → Q depth' tokens' right →
      P (max depth depth') (tokens ++ operator :: tokens')
        (.binary (left.span.merge right.span) op left right))
    (hFollow : ∀ {kind op brackets}, op? kind = some op →
      Position.follow? brackets kind = some ⟨.operand, brackets⟩)
    (hOver : ∀ {kind}, q kind → op? kind = none → q' kind)
    (hStop : op? stop.kind = none) (hOperand : Settles stop Q q budget limit operand)
    (rounds : Nat) : ∀ {depth : Nat} {taken tokens : List Token} {left : Expr},
      P depth taken left → depth ≤ budget → Ends stop id taken tokens → q (nextKind stop tokens) →
      tokens.length ≤ rounds → rounds ≤ limit →
      Outcome (Reads stop id P q' budget (taken ++ tokens))
        (Stuck stop P budget (Position.mk .operand) (taken ++ tokens))
        (chain op? operand rounds left tokens) := by
  induction rounds with
  | zero =>
    intro depth taken tokens left hLeft hDepth hEnds hq hLength _
    obtain rfl := List.length_eq_zero_iff.mp (Nat.le_zero.mp hLength)
    exact ⟨depth, taken, rfl, hDepth, hLeft, hEnds, hOver hq hStop⟩
  | succ rounds ih =>
    intro depth taken tokens left hLeft hDepth hEnds hq hLength hRounds
    cases tokens with
    | nil => exact ⟨depth, taken, rfl, hDepth, hLeft, hEnds, hOver hq hStop⟩
    | cons operator tokens =>
      rw [List.length_cons] at hLength
      cases hOp : op? operator.kind with
      | none =>
        rw [chain_stop left (.cons hOp tokens)]
        exact ⟨depth, taken, rfl, hDepth, hLeft, hEnds, hOver hq hOp⟩
      | some op =>
        rw [chain_cons hOp]
        refine outcome_round hEnds (fun _ => hFollow hOp) (hOperand tokens (by omega))
          (fun hDepth' hRight => ⟨_, _, Nat.max_le.mpr ⟨hDepth, hDepth'⟩, hStep hLeft hOp hRight⟩)
          fun {depth' taken' right rest} hTokens hDepth' hRight hEnds' hq' => ?_
        subst hTokens
        rw [List.length_append] at hLength
        have hMore := ih (hStep hLeft hOp hRight) (Nat.max_le.mpr ⟨hDepth, hDepth'⟩) hEnds' hq'
          (by omega) (by omega)
        rwa [List.append_assoc] at hMore

/-! ## Rules -/

/-- Behind an expression, or a term of one. -/
def AfterTerm (kind : TokenKind) : Prop :=
  multiplicative? kind = none

/-- Behind a whole expression. -/
def AfterExpr (kind : TokenKind) : Prop :=
  multiplicative? kind = none ∧ additive? kind = none

/-- Behind all arguments of a call. -/
def AfterArgument (kind : TokenKind) : Prop :=
  AfterExpr kind ∧ kind ≠ .comma

/-- Inside parentheses, the taken tokens lead to where only the closing one may come, if the next is
what is next. -/
def Closes (stop : Token) (start : List Bracket → Position) (taken rest : List Token) : Prop :=
  ∀ brackets, ∃ p, (start brackets).run taken = some p ∧ p.step (nextKind stop rest) =
    if nextKind stop rest = .closeParen then some ⟨.read, brackets⟩ else none

/-- The tokens before `rest` are derived and can only be closed. -/
def Inside {α : Type} (stop : Token) (P : Nat → List Token → α → Prop) (budget : Nat)
    (start : List Bracket → Position) (tokens : List Token) (result : α × List Token) : Prop :=
  ∃ depth taken, tokens = taken ++ result.2 ∧ depth ≤ budget ∧ P depth taken result.1 ∧
    Closes stop start taken result.2

/-- A rule for factors, whatever is wanted. -/
def SettlesFactor (stop : Token) (budget limit : Nat) (factor : Rule) : Prop :=
  ∀ wanted, Settles stop IsFactor (fun _ => True) budget limit (factor wanted)

/-- What follows an operand inside parentheses, where no operator comes. -/
theorem Ends.closes {bracket : Grammar.Bracket} (h : Ends stop (bracket :: ·) taken rest)
    (hOver : AfterExpr (nextKind stop rest))
    (hComma : bracket = .call → nextKind stop rest ≠ .comma) :
    Closes stop (fun brackets => ⟨.operand, bracket :: brackets⟩) taken rest := by
  intro brackets
  obtain ⟨p, hRun, hStep⟩ := h brackets
  refine ⟨p, hRun, hStep.trans ?_⟩
  obtain ⟨hTerm, hExpr⟩ := hOver
  generalize nextKind stop rest = kind at *
  cases kind with
  | plus => cases hExpr
  | minus => cases hExpr
  | star => cases hTerm
  | slash => cases hTerm
  | comma =>
    cases bracket with
    | group => rfl
    | call => exact absurd rfl (hComma rfl)
  | _ => rfl

/-- An operand that may come is as good as an operand that has to come, if it does. -/
theorem run_argument {brackets : List Grammar.Bracket} {p : Position}
    (hStarts : startsFactor (nextKind stop (taken ++ rest)) = true)
    (hRun : (Position.mk .operand brackets).run taken = some p) :
    ∃ p', (Position.mk .argument brackets).run taken = some p' ∧
      p'.step (nextKind stop rest) = p.step (nextKind stop rest) := by
  cases taken with
  | nil =>
    cases hRun
    exact ⟨_, rfl, Position.step_argument hStarts⟩
  | cons first taken =>
    have hFirst : startsFactor first.kind = true := hStarts
    refine ⟨p, ?_, rfl⟩
    rw [← hRun, Position.run_cons, Position.run_cons, Position.step_argument hFirst]

theorem Stuck.argument (h : Stuck stop P budget (fun brackets => ⟨.operand, inside brackets⟩) tokens
      failure) (hStarts : startsFactor (nextKind stop tokens) = true) :
    Stuck stop P budget (fun brackets => ⟨.argument, inside brackets⟩) tokens failure := by
  obtain ⟨hSpan, taken, rfl, hStep, hViable⟩ := h
  refine ⟨hSpan, taken, rfl, fun brackets => ?_, hViable⟩
  obtain ⟨p, hRun, hNone⟩ := hStep brackets
  obtain ⟨p', hRun', hSame⟩ := run_argument hStarts hRun
  exact ⟨p', hRun', hSame.trans hNone⟩

theorem Closes.argument (h : Closes stop (fun brackets => ⟨.operand, inside brackets⟩) taken rest)
    (hStarts : startsFactor (nextKind stop (taken ++ rest)) = true) :
    Closes stop (fun brackets => ⟨.argument, inside brackets⟩) taken rest := by
  intro brackets
  obtain ⟨p, hRun, hStep⟩ := h brackets
  obtain ⟨p', hRun', hSame⟩ := run_argument hStarts hRun
  exact ⟨p', hRun', hSame.trans hStep⟩

section Loops

variable {factor : Rule} (hStop : stop.kind = .endOfInput)
  (hFactor : SettlesFactor stop budget limit factor)

include hStop hFactor

theorem settles_term (wanted : Wanted) :
    Settles stop IsTerm AfterTerm budget limit (term limit factor wanted) := by
  intro tokens hLength
  rw [term_eq]
  refine (hFactor wanted tokens hLength).bind (fun failure hStuck => ?_) ?_
  · exact hStuck.imp fun hFactor => ⟨_, .factor hFactor⟩
  · rintro ⟨left, rest⟩ ⟨depth, taken, rfl, hDepth, hLeft, hEnds, -⟩
    rw [List.length_append] at hLength
    exact outcome_chain .operation Position.follow?_of_multiplicative? (fun _ hOp => hOp)
      (by rw [hStop]; rfl) (hFactor .term) limit (.factor hLeft) hDepth hEnds trivial (by omega)
      (Nat.le_refl _)

theorem settles_expr (wanted : Wanted) :
    Settles stop IsExpr AfterExpr budget limit (expr limit factor wanted) := by
  intro tokens hLength
  rw [expr_eq]
  refine (settles_term hStop hFactor wanted tokens hLength).bind (fun failure hStuck => ?_) ?_
  · exact hStuck.imp fun hTerm => ⟨_, .term hTerm⟩
  · rintro ⟨left, rest⟩ ⟨depth, taken, rfl, hDepth, hLeft, hEnds, hq⟩
    rw [List.length_append] at hLength
    exact outcome_chain .operation Position.follow?_of_additive? And.intro (by rw [hStop]; rfl)
      (settles_term hStop hFactor .expression) limit (.term hLeft) hDepth hEnds hq (by omega)
      (Nat.le_refl _)

theorem outcome_moreArguments (rounds : Nat) :
    ∀ {depth : Nat} {taken tokens : List Token} {collected : List Expr},
      IsList depth taken collected.reverse → depth ≤ budget → Ends stop (.call :: ·) taken tokens →
      AfterExpr (nextKind stop tokens) → tokens.length ≤ rounds → rounds ≤ limit →
      Outcome (Reads stop (.call :: ·) IsList AfterArgument budget (taken ++ tokens))
        (Stuck stop IsList budget (fun brackets => ⟨.operand, .call :: brackets⟩)
          (taken ++ tokens))
        (moreArguments limit factor rounds collected tokens) := by
  induction rounds with
  | zero =>
    intro depth taken tokens collected hList hDepth hEnds hq hLength _
    obtain rfl := List.length_eq_zero_iff.mp (Nat.le_zero.mp hLength)
    exact ⟨depth, taken, rfl, hDepth, hList, hEnds, hq, nextKind_nil_ne hStop (by decide)⟩
  | succ rounds ih =>
    intro depth taken tokens collected hList hDepth hEnds hq hLength hRounds
    cases tokens with
    | nil =>
      exact ⟨depth, taken, rfl, hDepth, hList, hEnds, hq, nextKind_nil_ne hStop (by decide)⟩
    | cons comma tokens =>
      rw [List.length_cons] at hLength
      by_cases hComma : comma.kind = .comma
      · rw [moreArguments_cons hComma]
        refine outcome_round hEnds (fun _ => by rw [hComma]; rfl)
          (settles_expr hStop hFactor .expression tokens (by omega))
          (fun hDepth' hArg => ⟨_, _, Nat.max_le.mpr ⟨hDepth, hDepth'⟩, .more hList hComma hArg⟩)
          fun {depth' taken' arg rest} hTokens hDepth' hArg hEnds' hq' => ?_
        subst hTokens
        rw [List.length_append] at hLength
        have hLonger : IsList (max depth depth') (taken ++ comma :: taken')
            (arg :: collected).reverse := by
          rw [List.reverse_cons]
          exact .more hList hComma hArg
        have hMore := ih hLonger (Nat.max_le.mpr ⟨hDepth, hDepth'⟩) hEnds' hq' (by omega)
          (by omega)
        rwa [List.append_assoc] at hMore
      · rw [moreArguments_stop (.cons hComma tokens)]
        exact ⟨depth, taken, rfl, hDepth, hList, hEnds, hq, hComma⟩

theorem outcome_arguments {tokens : List Token} (hLength : tokens.length ≤ limit) :
    Outcome (Inside stop IsArguments budget (fun brackets => ⟨.argument, .call :: brackets⟩) tokens)
      (Stuck stop IsArguments budget (fun brackets => ⟨.argument, .call :: brackets⟩) tokens)
      (arguments stop limit factor tokens) := by
  cases hStarts : startsFactor (nextKind stop tokens) with
  | false =>
    rw [arguments_none hStarts]
    refine ⟨0, [], rfl, Nat.zero_le _, .none, fun brackets => ⟨_, rfl, ?_⟩⟩
    rw [Position.step, Position.begin?_eq_none_iff.mpr hStarts]
    split_ifs with hClose
    · rw [hClose]
      rfl
    · rfl
  | true =>
    rw [arguments_some hStarts]
    refine (settles_expr hStop hFactor .expression tokens hLength).bind
      (fun failure hStuck => ?_) ?_
    · refine Stuck.argument (hStuck.behind [] (fun brackets => ⟨_, rfl⟩) ?_) hStarts
      exact fun taken hViable => hViable.behind fun hDepth hArg =>
        ⟨_, _, hDepth, .some (.single hArg)⟩
    · rintro ⟨arg, rest⟩ ⟨depth, taken, rfl, hDepth, hArg, hEnds, hq⟩
      have hFirst : IsList depth taken [arg].reverse := .single hArg
      rw [List.length_append] at hLength
      refine (outcome_moreArguments hStop hFactor limit hFirst hDepth (fun brackets => hEnds _) hq
        (by omega) (Nat.le_refl _)).imp ?_ fun failure hStuck => ?_
      · rintro ⟨args, rest'⟩ ⟨depth', taken', hTokens, hDepth', hList, hEnds', hq'⟩
        rw [hTokens] at hStarts
        exact ⟨depth', taken', hTokens, hDepth', .some hList,
          (hEnds'.closes hq'.1 fun _ => hq'.2).argument hStarts⟩
      · exact (hStuck.imp fun hList => ⟨_, .some hList⟩).argument hStarts

end Loops

/-! ## Factors -/

section Factors

variable {factor : Rule} {inner : Option Rule}

/-- A factor of a single token. -/
theorem reads_single {token : Token} {e : Expr} (mode : Mode) (hFactor : IsFactor 0 [token] e)
    (hStep : ∀ brackets, Position.begin? brackets token.kind = some ⟨mode, brackets⟩)
    (hNext : ∀ brackets, (Position.mk mode brackets).step (nextKind stop rest) =
      Position.follow? brackets (nextKind stop rest)) :
    Reads stop id IsFactor (fun _ => True) budget (token :: rest) (e, rest) := by
  refine ⟨0, [token], rfl, Nat.zero_le _, hFactor, fun brackets => ⟨⟨mode, brackets⟩, ?_, hNext _⟩,
    trivial⟩
  exact (Position.run_singleton _ token).trans (hStep brackets)

/-- A number is an operand, whatever follows. -/
theorem reads_number {token : Token} {value : Float}
    (hKind : token.kind = .float ∨ token.kind = .int)
    (hValue : readFloat token.text.toList = .ok value) :
    Reads stop id IsFactor (fun _ => True) budget (token :: rest)
      (.number token.span (.ofFloat value), rest) := by
  refine reads_single .read (.number hKind hValue) (fun brackets => ?_) fun _ => rfl
  rcases hKind with h | h <;> rw [h] <;> rfl

/-- A name is an operand, unless a call follows. -/
theorem reads_var {token : Token} (hName : token.kind = .identifier)
    (hNext : nextKind stop rest ≠ .openParen) :
    Reads stop id IsFactor (fun _ => True) budget (token :: rest)
      (.var token.span token.text, rest) := by
  refine reads_single .name (.var hName) (fun brackets => ?_) fun _ => if_neg hNext
  rw [hName]
  rfl

/-- Where no factor begins, the first token is impossible. -/
theorem stuck_unexpected (wanted : Wanted)
    (hStarts : startsFactor (nextKind stop tokens) = false) :
    Stuck stop IsFactor budget (Position.mk .operand) tokens (unexpected stop wanted tokens) :=
  ⟨rfl, [], rfl, fun _ => ⟨_, rfl, Position.begin?_eq_none_iff.mpr hStarts⟩, viable_number budget⟩

/-- The rule for the next level is settled with one level less. -/
def SettlesInner (stop : Token) (budget limit : Nat) (inner : Option Rule) : Prop :=
  ∀ factor ∈ inner, ∃ below, budget = below + 1 ∧ SettlesFactor stop below limit factor

/-- A failure because of the nesting is no matter of tokens. -/
theorem outcome_enter {ok : α → Prop} {failed : Failure → Prop} {f : Rule → Except Failure α}
    {span : Span} (hNext : ∀ factor ∈ inner, Outcome ok failed (f factor)) :
    Outcome ok failed (enter inner span rest >>= f) := by
  cases inner with
  | none => exact nofun
  | some factor => exact hNext factor rfl

/-- A sign and its operand. -/
theorem outcome_signed (hInner : SettlesInner stop budget limit inner) {sign : Token}
    {op : UnaryOp} {wanted : Wanted} (hKind : sign.kind = .minus ∨ sign.kind = .plus)
    (hSign : ∀ {depth tokens operand}, IsFactor depth tokens operand →
      IsFactor (depth + 1) (sign :: tokens) (.unary (sign.span.merge operand.span) op operand))
    (hLength : tokens.length ≤ limit) :
    Outcome (Reads stop id IsFactor (fun _ => True) budget (sign :: tokens))
      (Stuck stop IsFactor budget (Position.mk .operand) (sign :: tokens))
      (signed inner sign op wanted tokens) := by
  refine outcome_enter fun factor hFactor => ?_
  obtain ⟨below, rfl, hFactor⟩ := hInner factor hFactor
  have hRun (brackets : List Grammar.Bracket) :
      (Position.mk .operand brackets).run [sign] = some ⟨.operand, brackets⟩ := by
    rw [Position.run_singleton]
    rcases hKind with h | h <;> rw [h] <;> rfl
  refine (hFactor wanted tokens hLength).bind (fun failure hStuck => ?_) ?_
  · refine hStuck.behind [sign] (fun brackets => ⟨_, hRun brackets⟩)
      fun _ hViable => hViable.behind fun hDepth hOperand => ?_
    exact ⟨_, _, Nat.succ_le_succ hDepth, hSign hOperand⟩
  · rintro ⟨operand, rest⟩ ⟨depth, taken, rfl, hDepth, hOperand, hEnds, -⟩
    exact ⟨depth + 1, sign :: taken, rfl, Nat.succ_le_succ hDepth, hSign hOperand,
      hEnds.behind [sign] hRun, trivial⟩

variable (hStop : stop.kind = .endOfInput)

include hStop

/-- What is inside parentheses, and the closing one. -/
theorem outcome_enclosed (before : List Token) {start : List Grammar.Bracket → Position}
    {x : Except Failure (α × List Token)} {e : α → Token → Expr}
    (hInside : Outcome (Inside stop P below start tokens) (Stuck stop P below start tokens) x)
    (hBefore : ∀ brackets, (Position.mk .operand brackets).run before = some (start brackets))
    (hFactor : ∀ {depth taken tree close}, close.kind = .closeParen → P depth taken tree →
      IsFactor (depth + 1) (before ++ (taken ++ [close])) (e tree close)) :
    Outcome (Reads stop id IsFactor (fun _ => True) (below + 1) (before ++ tokens))
      (Stuck stop IsFactor (below + 1) (Position.mk .operand) (before ++ tokens))
      (do
        let (tree, rest) ← x
        let (close, rest) ← closeParen stop rest
        return (e tree close, rest)) := by
  have hClosed {taken : List Token} (hViable : Viable P below taken) :
      Viable IsFactor (below + 1) (before ++ taken) :=
    hViable.closed fun hClose hDepth hTree => ⟨_, _, Nat.succ_le_succ hDepth, hFactor hClose hTree⟩
  refine hInside.bind (fun failure hStuck => ?_) ?_
  · exact hStuck.behind _ (fun brackets => ⟨brackets, hBefore brackets⟩) fun _ => hClosed
  · rintro ⟨tree, rest⟩ ⟨depth, taken, rfl, hDepth, hTree, hCloses⟩
    have hLeads (brackets : List Grammar.Bracket) :
        ∃ p, (Position.mk .operand brackets).run (before ++ taken) = some p ∧
          p.step (nextKind stop rest) =
            if nextKind stop rest = .closeParen then some ⟨.read, brackets⟩ else none := by
      rw [Position.run_append_of_eq (hBefore brackets)]
      exact hCloses brackets
    have hStuck (hNext : nextKind stop rest ≠ .closeParen) (fault : Fault) :
        Stuck stop IsFactor (below + 1) (Position.mk .operand) (before ++ (taken ++ rest))
          ⟨(rest.headD stop).span, fault, rest⟩ := by
      refine ⟨rfl, before ++ taken, (List.append_assoc ..).symm, fun brackets => ?_,
        hClosed (viable_of_derived hDepth hTree)⟩
      obtain ⟨p, hRun, hStep⟩ := hLeads brackets
      exact ⟨p, hRun, hStep.trans (if_neg hNext)⟩
    cases rest with
    | nil => exact fun _ => hStuck (nextKind_nil_ne hStop (by decide)) _
    | cons close rest =>
      by_cases hClose : close.kind = .closeParen
      · have hParen : closeParen stop (close :: rest) = .ok (close, rest) := if_pos hClose
        simp only [hParen]
        refine ⟨depth + 1, before ++ (taken ++ [close]), by simp, Nat.succ_le_succ hDepth,
          hFactor hClose hTree, fun brackets => ?_, trivial⟩
        obtain ⟨p, hRun, hStep⟩ := hLeads brackets
        refine ⟨⟨.read, brackets⟩, ?_, rfl⟩
        rw [← List.append_assoc]
        exact (Position.run_concat hRun close).trans (hStep.trans (if_pos hClose))
      · have hParen : closeParen stop (close :: rest) =
            .error ⟨close.span, .notClosed close.text, close :: rest⟩ := if_neg hClose
        simp only [hParen]
        exact fun _ => hStuck hClose _

theorem outcome_call (hInner : SettlesInner stop budget limit inner) {name paren : Token}
    (hName : name.kind = .identifier) (hParen : paren.kind = .openParen)
    (hLength : tokens.length ≤ limit) :
    Outcome (Reads stop id IsFactor (fun _ => True) budget (name :: paren :: tokens))
      (Stuck stop IsFactor budget (Position.mk .operand) (name :: paren :: tokens))
      (call stop limit inner name tokens) := by
  refine outcome_enter fun factor hFactor => ?_
  obtain ⟨below, rfl, hFactor⟩ := hInner factor hFactor
  refine outcome_enclosed hStop [name, paren]
    (e := fun args close => .call (name.span.merge close.span) name.text args)
    (outcome_arguments hStop hFactor hLength) (fun brackets => ?_)
    fun hClose hArgs => .call hName hParen hClose hArgs
  have hFirst : (Position.mk .operand brackets).step name.kind = some ⟨.name, brackets⟩ := by
    rw [hName]
    rfl
  rw [Position.run_cons_of_eq hFirst, Position.run_singleton, hParen]
  rfl

theorem outcome_parenthesised (hInner : SettlesInner stop budget limit inner) {paren : Token}
    (hParen : paren.kind = .openParen) (hLength : tokens.length ≤ limit) :
    Outcome (Reads stop id IsFactor (fun _ => True) budget (paren :: tokens))
      (Stuck stop IsFactor budget (Position.mk .operand) (paren :: tokens))
      (parenthesised stop limit inner paren tokens) := by
  refine outcome_enter fun factor hFactor => ?_
  obtain ⟨below, rfl, hFactor⟩ := hInner factor hFactor
  have hInside : Outcome
      (Inside stop IsExpr below (fun brackets => ⟨.operand, .group :: brackets⟩) tokens)
      (Stuck stop IsExpr below (fun brackets => ⟨.operand, .group :: brackets⟩) tokens)
      (expr limit factor .expression tokens) := by
    refine (settles_expr hStop hFactor .expression tokens hLength).imp ?_ fun failure hStuck => ?_
    · rintro ⟨inside, rest⟩ ⟨depth, taken, hTokens, hDepth, hInside, hEnds, hOver⟩
      exact ⟨depth, taken, hTokens, hDepth, hInside,
        Ends.closes (fun brackets => hEnds (.group :: brackets)) hOver nofun⟩
    · exact hStuck.behind [] (fun brackets => ⟨_, rfl⟩) fun _ hViable => hViable
  refine outcome_enclosed hStop [paren] (e := fun inside _ => inside) hInside
    (fun brackets => ?_) fun hClose hInside => .parenthesised hParen hClose hInside
  rw [Position.run_singleton, hParen]
  rfl

theorem settles_factorWith (hInner : SettlesInner stop budget limit inner) :
    SettlesFactor stop budget limit (factorWith stop limit inner) := by
  intro wanted tokens hLength
  cases tokens with
  | nil => exact fun _ => stuck_unexpected wanted (by rw [nextKind_nil, hStop]; rfl)
  | cons token tokens =>
    rw [List.length_cons] at hLength
    simp only [factorWith]
    split
    · rename_i hKind
      split
      · exact reads_number (.inl hKind) ‹_›
      · exact False.elim
    · rename_i hKind
      split
      · exact reads_number (.inr hKind) ‹_›
      · exact False.elim
    · rename_i hName
      cases tokens with
      | nil => exact reads_var hName (nextKind_nil_ne hStop (by decide))
      | cons next tokens =>
        dsimp only
        rw [List.length_cons] at hLength
        split_ifs with hParen
        · exact outcome_call hStop hInner hName hParen (by omega)
        · exact reads_var hName hParen
    · rename_i hSign
      exact outcome_signed hInner (.inl hSign) (.minus hSign) (by omega)
    · rename_i hSign
      exact outcome_signed hInner (.inr hSign) (.plus hSign) (by omega)
    · rename_i hParen
      exact outcome_parenthesised hStop hInner hParen (by omega)
    · refine fun _ => stuck_unexpected wanted ?_
      rw [nextKind_cons]
      cases hKind : token.kind <;> simp_all [startsFactor]

theorem settles_factor (limit budget : Nat) :
    SettlesFactor stop budget limit (Parser.factor stop limit budget) := by
  induction budget with
  | zero => exact settles_factorWith hStop nofun
  | succ budget ih =>
    refine settles_factorWith hStop fun rule hRule => ⟨budget, rfl, ?_⟩
    cases hRule
    exact ih

end Factors

/-! ## Whole inputs -/

/-- Behind a whole sequence of expressions. -/
def AfterSequence (kind : TokenKind) : Prop :=
  AfterExpr kind ∧ kind ≠ .semicolon

theorem AfterSequence.follow?_eq_none {kind : TokenKind} (h : AfterSequence kind)
    (hEnd : kind ≠ .endOfInput) : Position.follow? [] kind = none := by
  obtain ⟨⟨hTerm, hExpr⟩, hSemicolon⟩ := h
  cases kind with
  | plus => cases hExpr
  | minus => cases hExpr
  | star => cases hTerm
  | slash => cases hTerm
  | semicolon => exact absurd rfl hSemicolon
  | endOfInput => exact absurd rfl hEnd
  | _ => rfl

section Sequences

variable {factor : Rule} (hStop : stop.kind = .endOfInput)

include hStop

theorem outcome_moreExprs (hFactor : SettlesFactor stop budget limit factor) (rounds : Nat) :
    ∀ {depth : Nat} {taken tokens : List Token} {first : Expr},
      IsSequence depth taken first → depth ≤ budget → Ends stop (fun _ => []) taken tokens →
      AfterExpr (nextKind stop tokens) → tokens.length ≤ rounds → rounds ≤ limit →
      Outcome (Reads stop (fun _ => []) IsSequence AfterSequence budget (taken ++ tokens))
        (Stuck stop IsSequence budget (fun _ => .start) (taken ++ tokens))
        (moreExprs limit factor rounds first tokens) := by
  induction rounds with
  | zero =>
    intro depth taken tokens first hFirst hDepth hEnds hq hLength _
    obtain rfl := List.length_eq_zero_iff.mp (Nat.le_zero.mp hLength)
    exact ⟨depth, taken, rfl, hDepth, hFirst, hEnds, hq, nextKind_nil_ne hStop (by decide)⟩
  | succ rounds ih =>
    intro depth taken tokens first hFirst hDepth hEnds hq hLength hRounds
    cases tokens with
    | nil =>
      exact ⟨depth, taken, rfl, hDepth, hFirst, hEnds, hq, nextKind_nil_ne hStop (by decide)⟩
    | cons semicolon tokens =>
      rw [List.length_cons] at hLength
      by_cases hSemicolon : semicolon.kind = .semicolon
      · rw [moreExprs_cons hSemicolon]
        refine outcome_round hEnds (fun _ => by rw [hSemicolon]; rfl)
          (settles_expr hStop hFactor .expression tokens (by omega))
          (fun hDepth' hSecond =>
            ⟨_, _, Nat.max_le.mpr ⟨hDepth, hDepth'⟩, .more hFirst hSemicolon hSecond⟩)
          fun {depth' taken' second rest} hTokens hDepth' hSecond hEnds' hq' => ?_
        subst hTokens
        rw [List.length_append] at hLength
        have hMore := ih (.more hFirst hSemicolon hSecond) (Nat.max_le.mpr ⟨hDepth, hDepth'⟩) hEnds'
          hq' (by omega) (by omega)
        rwa [List.append_assoc] at hMore
      · rw [moreExprs_stop (.cons hSemicolon tokens)]
        exact ⟨depth, taken, rfl, hDepth, hFirst, hEnds, hq, hSemicolon⟩

/-- An input is read to its end, or up to a token that is impossible there. -/
theorem outcome_parse (hTokens : ∀ token ∈ tokens, token.kind ≠ .endOfInput) :
    Outcome (fun _ => ∃ p, Position.start.run tokens = some p ∧
        p.step .endOfInput = some ⟨.finished, []⟩)
      (Stuck stop IsSequence maxNesting (fun _ => .start) tokens) (parse stop tokens) := by
  have hFactor := settles_factor hStop tokens.length maxNesting
  refine (settles_expr hStop hFactor .expression tokens (Nat.le_refl _)).bind
    (fun failure hStuck => ?_) ?_
  · exact (hStuck.imp fun hExpr => ⟨_, .single hExpr⟩).behind []
      (fun _ => ⟨[], rfl⟩) fun _ hViable => hViable
  · rintro ⟨first, rest⟩ ⟨depth, taken, hRead, hDepth, hFirst, hEnds, hOver⟩
    have hLength : rest.length ≤ tokens.length := by
      rw [hRead, List.length_append]
      exact Nat.le_add_left ..
    have hMore := outcome_moreExprs hStop hFactor tokens.length (.single hFirst) hDepth
      (fun _ => hEnds []) hOver hLength (Nat.le_refl _)
    rw [← hRead] at hMore
    refine hMore.bind (fun _ hStuck => hStuck) ?_
    rintro ⟨tree, rest'⟩ ⟨depth', taken', rfl, hDepth', hTree, hEnds', hOver'⟩
    obtain ⟨p, hRun, hStep⟩ := hEnds' []
    cases rest' with
    | nil =>
      rw [nextKind_nil, hStop] at hStep
      rw [List.append_nil]
      exact ⟨p, hRun, hStep⟩
    | cons token rest' =>
      refine fun _ => ⟨rfl, taken', rfl, fun _ => ⟨p, hRun, hStep.trans ?_⟩,
        viable_of_derived hDepth' hTree⟩
      exact hOver'.follow?_eq_none (hTokens token (by simp))

end Sequences

end Rules

end Parser

end Formula
