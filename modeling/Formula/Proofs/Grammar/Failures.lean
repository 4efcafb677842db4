import Formula.Proofs.Grammar.Soundness

/-!
# Failures of the parser

A rule fails at one of the tokens that it was given or at the token that closes them, and because of
a number only at a number token that cannot be read (`Located`). What a rule leaves is the end of
what it was given (`Takes`), so the tokens that a later rule fails at are still tokens of the input.
If all number tokens can be read, the parser fails for other reasons only (`legible_parse`).
-/

namespace Formula.Parser

open Grammar

theorem Takes.subset {α : Type} {P : Nat → List Token → α → Prop} {budget : Nat}
    {input tokens rest : List Token} {tree : α} (h : Takes P budget tokens tree rest)
    (hTokens : tokens ⊆ input) : rest ⊆ input := by
  obtain ⟨_, taken, rfl, -, -⟩ := h
  exact fun token hMem => hTokens (List.mem_append_right taken hMem)

/-- A computation on the tokens of an input that fails only at one of them or at the token that
closes them, and because of a number only at a number token that cannot be read. -/
def Located {α : Type} (stop : Token) (input : List Token) (x : Except Failure α) : Prop :=
  ∀ failure, x = .error failure → ∃ token, (token ∈ input ∨ token = stop) ∧
    failure.span = token.span ∧ ∀ text, failure.fault = .invalidNumber text →
      token ∈ input ∧ (token.kind = .float ∨ token.kind = .int) ∧
        ∀ value, readFloat token.text.toList ≠ .ok value

namespace Located

variable {α β : Type} {stop : Token} {input : List Token}

theorem ok (a : α) : Located stop input (.ok a) := by
  intro failure h
  cases h

theorem error {failure : Failure} {token : Token} (hToken : token ∈ input ∨ token = stop)
    (hSpan : failure.span = token.span) (hFault : ∀ text, failure.fault ≠ .invalidNumber text) :
    Located stop input (.error failure : Except Failure α) := by
  intro other hOther
  cases hOther
  exact ⟨token, hToken, hSpan, fun text h => absurd h (hFault text)⟩

theorem bind {x : Except Failure α} {f : α → Except Failure β} (hFirst : Located stop input x)
    (hNext : ∀ a, x = .ok a → Located stop input (f a)) : Located stop input (x >>= f) := by
  cases x with
  | error failure => exact fun other h => hFirst other (by cases h; rfl)
  | ok a => exact hNext a rfl

end Located

/-- The first of some tokens of an input, or what closes them. -/
theorem headD_mem {stop : Token} {input tokens : List Token} (hTokens : tokens ⊆ input) :
    tokens.headD stop ∈ input ∨ tokens.headD stop = stop := by
  cases tokens with
  | nil => exact .inr rfl
  | cons token tokens => exact .inl (hTokens (List.mem_cons_self ..))

/-! ## Rules -/

/-- A rule that fails at the tokens it is given. -/
def LocatedRule (stop : Token) (input : List Token) (rule : Rule) : Prop :=
  ∀ wanted ⦃tokens⦄, tokens ⊆ input → Located stop input (rule wanted tokens)

section Rules

variable {stop : Token} {input : List Token} {limit budget : Nat} {factor : Rule}

theorem located_chain {Q : Nat → List Token → Expr → Prop} {op? : TokenKind → Option BinaryOp}
    {operand : List Token → Result}
    (hTakes : ∀ ⦃tokens e rest⦄, operand tokens = .ok (e, rest) → Takes Q budget tokens e rest)
    (hOperand : ∀ ⦃tokens⦄, tokens ⊆ input → Located stop input (operand tokens)) (limit : Nat) :
    ∀ {left : Expr} {tokens : List Token}, tokens ⊆ input →
      Located stop input (chain op? operand limit left tokens) := by
  induction limit with
  | zero => exact fun _ => .ok _
  | succ limit ih =>
    intro left tokens hTokens
    cases tokens with
    | nil => exact .ok _
    | cons operator tokens =>
      cases hOp : op? operator.kind with
      | none =>
        rw [chain_stop left (.cons hOp tokens)]
        exact .ok _
      | some op =>
        rw [chain_cons hOp]
        have hRest := List.subset_of_cons_subset hTokens
        exact (hOperand hRest).bind fun _ hRight => ih ((hTakes hRight).subset hRest)

theorem located_term (hSound : Sound budget factor) (hFactor : LocatedRule stop input factor) :
    LocatedRule stop input (term limit factor) := by
  intro wanted tokens hTokens
  rw [term_eq]
  exact (hFactor wanted hTokens).bind fun _ hLeft =>
    located_chain (hSound .term) (hFactor .term) limit ((hSound wanted hLeft).subset hTokens)

theorem located_expr (hSound : Sound budget factor) (hFactor : LocatedRule stop input factor) :
    LocatedRule stop input (expr limit factor) := by
  intro wanted tokens hTokens
  have hTerm : LocatedRule stop input (term limit factor) := located_term hSound hFactor
  rw [expr_eq]
  exact (hTerm wanted hTokens).bind fun _ hLeft =>
    located_chain (fun _ _ _ hRight => takes_term hSound hRight) (hTerm .expression) limit
      ((takes_term hSound hLeft).subset hTokens)

theorem located_moreArguments (hSound : Sound budget factor)
    (hFactor : LocatedRule stop input factor) (fuel : Nat) : ∀ {collected : List Expr} {tokens : List Token}, tokens ⊆ input →
      Located stop input (moreArguments limit factor fuel collected tokens) := by
  induction fuel with
  | zero => exact fun _ => .ok _
  | succ fuel ih =>
    intro collected tokens hTokens
    cases tokens with
    | nil => exact .ok _
    | cons comma tokens =>
      by_cases hComma : comma.kind = .comma
      · rw [moreArguments_cons hComma]
        have hRest := List.subset_of_cons_subset hTokens
        exact (located_expr hSound hFactor _ hRest).bind fun _ hArg =>
          ih ((takes_expr hSound hArg).subset hRest)
      · rw [moreArguments_stop (.cons hComma tokens)]
        exact .ok _

theorem located_arguments (hSound : Sound budget factor) (hFactor : LocatedRule stop input factor)
    {tokens : List Token} (hTokens : tokens ⊆ input) :
    Located stop input (arguments stop limit factor tokens) := by
  cases hStarts : startsFactor (tokens.headD stop).kind with
  | false =>
    rw [arguments_none hStarts]
    exact .ok _
  | true =>
    rw [arguments_some hStarts]
    exact (located_expr hSound hFactor _ hTokens).bind fun _ hArg =>
      located_moreArguments hSound hFactor limit ((takes_expr hSound hArg).subset hTokens)

theorem located_closeParen {tokens : List Token} (hTokens : tokens ⊆ input) :
    Located stop input (closeParen stop tokens) := by
  cases tokens with
  | nil => exact .error (.inr rfl) rfl (by simp)
  | cons token tokens =>
    rw [closeParen]
    split_ifs
    · exact .ok _
    · exact .error (.inl (hTokens (List.mem_cons_self ..))) rfl (by simp)

theorem located_unexpected {α : Type} (wanted : Wanted) {tokens : List Token}
    (hTokens : tokens ⊆ input) :
    Located stop input (.error (unexpected stop wanted tokens) : Except Failure α) :=
  .error (headD_mem hTokens) rfl (by simp [unexpected])

variable {inner : Option Rule}

/-- The rule for the next level is sound and fails at the tokens it is given. -/
def LocatedInner (stop : Token) (input : List Token) (inner : Option Rule) : Prop :=
  ∀ factor ∈ inner, (∃ below, Sound below factor) ∧ LocatedRule stop input factor

theorem located_enter {α : Type} {f : Rule → Except Failure α} {token : Token} {rest : List Token}
    (hToken : token ∈ input) (hNext : ∀ factor ∈ inner, Located stop input (f factor)) :
    Located stop input (enter inner token.span rest >>= f) := by
  cases inner with
  | none => exact .error (.inl hToken) rfl (by simp)
  | some factor => exact hNext factor rfl

theorem located_call (hInner : LocatedInner stop input inner) {name : Token} {tokens : List Token}
    (hName : name ∈ input) (hTokens : tokens ⊆ input) :
    Located stop input (call stop limit inner name tokens) := by
  refine located_enter hName fun factor hFactor => ?_
  obtain ⟨⟨below, hSound⟩, hFactor⟩ := hInner factor hFactor
  exact (located_arguments hSound hFactor hTokens).bind fun _ hArgs =>
    (located_closeParen ((takes_arguments hSound hArgs).subset hTokens)).bind fun _ _ => .ok _

theorem located_signed (hInner : LocatedInner stop input inner) {sign : Token} {op : UnaryOp}
    {wanted : Wanted} {tokens : List Token} (hSign : sign ∈ input) (hTokens : tokens ⊆ input) :
    Located stop input (signed inner sign op wanted tokens) := by
  refine located_enter hSign fun factor hFactor => ?_
  exact ((hInner factor hFactor).2 wanted hTokens).bind fun _ _ => .ok _

theorem located_parenthesised (hInner : LocatedInner stop input inner) {paren : Token}
    {tokens : List Token} (hParen : paren ∈ input) (hTokens : tokens ⊆ input) :
    Located stop input (parenthesised stop limit inner paren tokens) := by
  refine located_enter hParen fun factor hFactor => ?_
  obtain ⟨⟨below, hSound⟩, hFactor⟩ := hInner factor hFactor
  exact (located_expr hSound hFactor _ hTokens).bind fun _ hInside =>
    (located_closeParen ((takes_expr hSound hInside).subset hTokens)).bind fun _ _ => .ok _

/-- A number token fails only because it cannot be read. -/
theorem located_number {token : Token} (hToken : token ∈ input)
    (hKind : token.kind = .float ∨ token.kind = .int) (rest : List Token) :
    Located stop input (match readFloat token.text.toList with
      | .ok value => .ok (.number token.span (.ofFloat value), rest)
      | .error _ => .error ⟨token.span, .invalidNumber token.text, rest⟩ : Result) := by
  cases hRead : readFloat token.text.toList with
  | ok value => exact .ok _
  | error reason =>
    rintro failure ⟨⟩
    refine ⟨token, .inl hToken, rfl, fun text _ => ⟨hToken, hKind, fun value hValue => ?_⟩⟩
    rw [hRead] at hValue
    cases hValue

theorem located_factorWith (hInner : LocatedInner stop input inner) :
    LocatedRule stop input (factorWith stop limit inner) := by
  intro wanted tokens hTokens
  cases tokens with
  | nil => exact located_unexpected wanted hTokens
  | cons token tokens =>
    have hToken := hTokens (List.mem_cons_self ..)
    have hRest := List.subset_of_cons_subset hTokens
    simp only [factorWith]
    split
    · rename_i hKind
      exact located_number hToken (.inl hKind) tokens
    · rename_i hKind
      exact located_number hToken (.inr hKind) tokens
    · split
      · exact .ok _
      · split_ifs
        · exact located_call hInner hToken (List.subset_of_cons_subset hRest)
        · exact .ok _
    · exact located_signed hInner hToken hRest
    · exact located_signed hInner hToken hRest
    · exact located_parenthesised hInner hToken hRest
    · exact located_unexpected wanted hTokens

theorem located_factor (stop : Token) (limit budget : Nat) :
    LocatedRule stop input (Parser.factor stop limit budget) := by
  induction budget with
  | zero =>
    refine located_factorWith fun rule hRule => ?_
    cases hRule
  | succ budget ih =>
    refine located_factorWith fun rule hRule => ?_
    cases hRule
    exact ⟨⟨budget, sound_factor stop limit budget⟩, ih⟩

/-! ## Whole inputs -/

theorem located_moreExprs (hSound : Sound budget factor) (hFactor : LocatedRule stop input factor)
    (fuel : Nat) : ∀ {first : Expr} {tokens : List Token}, tokens ⊆ input →
      Located stop input (moreExprs limit factor fuel first tokens) := by
  induction fuel with
  | zero => exact fun _ => .ok _
  | succ fuel ih =>
    intro first tokens hTokens
    cases tokens with
    | nil => exact .ok _
    | cons semicolon tokens =>
      by_cases hSemicolon : semicolon.kind = .semicolon
      · rw [moreExprs_cons hSemicolon]
        have hRest := List.subset_of_cons_subset hTokens
        exact (located_expr hSound hFactor _ hRest).bind fun _ hSecond =>
          ih ((takes_expr hSound hSecond).subset hRest)
      · rw [moreExprs_stop (.cons hSemicolon tokens)]
        exact .ok _

/-- An input that is not parsed fails at one of its tokens or at the token that closes it. -/
theorem located_parse (stop : Token) (tokens : List Token) :
    Located stop tokens (parse stop tokens) := by
  have hSound := sound_factor stop tokens.length maxNesting
  have hFactor : LocatedRule stop tokens (factor stop tokens.length maxNesting) :=
    located_factor stop tokens.length maxNesting
  refine (located_expr hSound hFactor _ (List.Subset.refl _)).bind fun _ hFirst => ?_
  have hRest := (takes_expr hSound hFirst).subset (List.Subset.refl _)
  refine (located_moreExprs hSound hFactor _ hRest).bind fun _ hMore => ?_
  obtain ⟨depth, taken, hTaken, hDepth, hTree⟩ := takes_expr hSound hFirst
  have hTakes := takes_moreExprs hSound _ (.single hTree) hDepth hMore
  rw [← hTaken] at hTakes
  dsimp only
  split_ifs
  · exact .ok _
  · exact located_unexpected .endOfInput (hTakes.subset (List.Subset.refl _))

end Rules

/-- Tokens whose numbers can be read. -/
def Readable (tokens : List Token) : Prop :=
  ∀ token ∈ tokens, token.kind = .float ∨ token.kind = .int →
    ∃ value, readFloat token.text.toList = .ok value

/-- Readable tokens are parsed, or they are not for a reason that is not a number. -/
theorem legible_parse {stop : Token} {tokens : List Token} (hTokens : Readable tokens)
    {failure : Failure} (hFailure : parse stop tokens = .error failure) (text : String) :
    failure.fault ≠ .invalidNumber text := by
  intro hFault
  obtain ⟨token, -, -, hNumber⟩ := located_parse stop tokens failure hFailure
  obtain ⟨hMem, hKind, hUnreadable⟩ := hNumber text hFault
  obtain ⟨value, hValue⟩ := hTokens token hMem hKind
  exact hUnreadable value hValue

end Formula.Parser
