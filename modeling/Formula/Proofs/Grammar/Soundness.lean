import Formula.Proofs.Computation
import Formula.Proofs.Grammar.Rules

/-!
# What the parser accepts is in the grammar

Each rule of the parser takes tokens from the front that the grammar derives to the tree of the
rule (`Takes`), at most as deep as its budget for nesting allows. The loops over operators,
arguments and expressions follow derivations from left to right, so they extend what has been
derived before them.
-/

namespace Formula.Parser

open Grammar

/-! ## Rules in steps -/

/-- What holds of the next token, if there is one. -/
def Ahead (p : TokenKind → Prop) (tokens : List Token) : Prop :=
  ∀ next ∈ tokens.head?, p next.kind

theorem Ahead.nil {p : TokenKind → Prop} : Ahead p [] :=
  nofun

theorem Ahead.cons {p : TokenKind → Prop} {token : Token} (h : p token.kind) (rest : List Token) :
    Ahead p (token :: rest) :=
  fun _ hNext => Option.some.inj hNext ▸ h

theorem Ahead.imp {p q : TokenKind → Prop} {tokens : List Token} (h : Ahead p tokens)
    (hImp : ∀ kind, p kind → q kind) : Ahead q tokens :=
  fun next hNext => hImp _ (h next hNext)

section Steps

variable {stop : Token} {limit : Nat} {factor : Rule}

theorem term_eq (wanted : Wanted) (tokens : List Token) : term limit factor wanted tokens =
    factor wanted tokens >>= fun r => chain multiplicative? (factor .term) limit r.1 r.2 := by
  unfold term
  cases factor wanted tokens with
  | error failure => rfl
  | ok r => rfl

theorem expr_eq (wanted : Wanted) (tokens : List Token) : expr limit factor wanted tokens =
    term limit factor wanted tokens >>= fun r =>
      chain additive? (term limit factor .expression) limit r.1 r.2 := by
  unfold expr
  cases term limit factor wanted tokens with
  | error failure => rfl
  | ok r => rfl

/-- A loop over operators stops at a token that is none. -/
theorem chain_stop {op? : TokenKind → Option BinaryOp} {operand : List Token → Result} (left : Expr)
    {tokens : List Token} (h : Ahead (op? · = none) tokens) (limit : Nat) :
    chain op? operand limit left tokens = .ok (left, tokens) := by
  cases limit with
  | zero => rfl
  | succ limit =>
    cases tokens with
    | nil => rfl
    | cons next rest => simp only [chain, h next rfl]

theorem chain_cons {op? : TokenKind → Option BinaryOp} {operand : List Token → Result}
    {left : Expr} {operator : Token} {op : BinaryOp} (h : op? operator.kind = some op)
    (rest : List Token) (limit : Nat) :
    chain op? operand (limit + 1) left (operator :: rest) =
      operand rest >>= fun r =>
        chain op? operand limit (.binary (left.span.merge r.1.span) op left r.1) r.2 := by
  simp only [chain, h]
  cases operand rest with
  | error failure => rfl
  | ok r => rfl

theorem moreArguments_stop {args : List Expr} {tokens : List Token}
    (h : Ahead (· ≠ .comma) tokens) (fuel : Nat) :
    moreArguments limit factor fuel args tokens = .ok (args.reverse, tokens) := by
  cases fuel with
  | zero => rfl
  | succ fuel =>
    cases tokens with
    | nil => rfl
    | cons next rest => rw [moreArguments, if_neg (h next rfl)]

theorem moreArguments_cons {args : List Expr} {comma : Token} (h : comma.kind = .comma)
    (rest : List Token) (fuel : Nat) :
    moreArguments limit factor (fuel + 1) args (comma :: rest) =
      expr limit factor .expression rest >>= fun r =>
        moreArguments limit factor fuel (r.1 :: args) r.2 := by
  rw [moreArguments, if_pos h]
  cases expr limit factor .expression rest with
  | error failure => rfl
  | ok r => rfl

theorem arguments_none {tokens : List Token} (h : startsFactor (tokens.headD stop).kind = false) :
    arguments stop limit factor tokens = .ok ([], tokens) := by
  rw [arguments, h]
  rfl

theorem arguments_some {tokens : List Token} (h : startsFactor (tokens.headD stop).kind = true) :
    arguments stop limit factor tokens =
      expr limit factor .expression tokens >>= fun r =>
        moreArguments limit factor limit [r.1] r.2 := by
  rw [arguments, if_pos h]
  cases expr limit factor .expression tokens with
  | error failure => rfl
  | ok r => rfl

theorem moreExprs_stop {first : Expr} {tokens : List Token}
    (h : Ahead (· ≠ .semicolon) tokens) (fuel : Nat) :
    moreExprs limit factor fuel first tokens = .ok (first, tokens) := by
  cases fuel with
  | zero => rfl
  | succ fuel =>
    cases tokens with
    | nil => rfl
    | cons next rest => rw [moreExprs, if_neg (h next rfl)]

theorem moreExprs_cons {first : Expr} {semicolon : Token} (h : semicolon.kind = .semicolon)
    (rest : List Token) (fuel : Nat) :
    moreExprs limit factor (fuel + 1) first (semicolon :: rest) =
      expr limit factor .expression rest >>= fun r =>
        moreExprs limit factor fuel (first.andThen r.1) r.2 := by
  rw [moreExprs, if_pos h]
  cases expr limit factor .expression rest with
  | error failure => rfl
  | ok r => rfl

end Steps

/-! ## Derived tokens -/

/-- The tokens before `rest` are derived to `tree`, nested at most `budget` deep. -/
def Takes {α : Type} (P : Nat → List Token → α → Prop) (budget : Nat) (tokens : List Token)
    (tree : α) (rest : List Token) : Prop :=
  ∃ depth taken, tokens = taken ++ rest ∧ depth ≤ budget ∧ P depth taken tree

/-- A rule whose trees are derived by the grammar. -/
def Sound (budget : Nat) (factor : Rule) : Prop :=
  ∀ wanted ⦃tokens e rest⦄, factor wanted tokens = .ok (e, rest) →
    Takes IsFactor budget tokens e rest

section Takes

variable {stop : Token} {limit budget : Nat} {factor : Rule}

/-- A loop over operators extends the derivation of its left operand. -/
theorem takes_chain {P Q : Nat → List Token → Expr → Prop} {op? : TokenKind → Option BinaryOp}
    {operand : List Token → Result}
    (hStep : ∀ {depth depth' tokens tokens' left right operator op}, P depth tokens left →
      op? operator.kind = some op → Q depth' tokens' right →
      P (max depth depth') (tokens ++ operator :: tokens')
        (.binary (left.span.merge right.span) op left right))
    (hOperand : ∀ ⦃tokens e rest⦄, operand tokens = .ok (e, rest) → Takes Q budget tokens e rest)
    (limit : Nat) : ∀ {depth : Nat} {taken tokens rest : List Token} {left e : Expr},
      P depth taken left → depth ≤ budget → chain op? operand limit left tokens = .ok (e, rest) →
      Takes P budget (taken ++ tokens) e rest := by
  induction limit with
  | zero =>
    intro depth taken tokens rest left e hLeft hDepth h
    cases h
    exact ⟨depth, taken, rfl, hDepth, hLeft⟩
  | succ limit ih =>
    intro depth taken tokens rest left e hLeft hDepth h
    cases tokens with
    | nil =>
      cases h
      exact ⟨depth, taken, rfl, hDepth, hLeft⟩
    | cons operator tokens =>
      cases hOp : op? operator.kind with
      | none =>
        rw [chain_stop left (.cons hOp tokens)] at h
        cases h
        exact ⟨depth, taken, rfl, hDepth, hLeft⟩
      | some op =>
        rw [chain_cons hOp] at h
        obtain ⟨⟨right, rest'⟩, hRead, hLoop⟩ := Except.bind_eq_ok_iff.mp h
        obtain ⟨depth', taken', rfl, hDepth', hRight⟩ := hOperand hRead
        have hMore := ih (hStep hLeft hOp hRight) (Nat.max_le.mpr ⟨hDepth, hDepth'⟩) hLoop
        rwa [List.append_assoc] at hMore

theorem takes_term (hFactor : Sound budget factor) {wanted : Wanted} {tokens rest : List Token}
    {e : Expr} (h : term limit factor wanted tokens = .ok (e, rest)) :
    Takes IsTerm budget tokens e rest := by
  rw [term_eq] at h
  obtain ⟨⟨left, rest'⟩, hRead, hLoop⟩ := Except.bind_eq_ok_iff.mp h
  obtain ⟨depth, taken, rfl, hDepth, hLeft⟩ := hFactor wanted hRead
  exact takes_chain .operation (hFactor .term) limit (.factor hLeft) hDepth hLoop

theorem takes_expr (hFactor : Sound budget factor) {wanted : Wanted} {tokens rest : List Token}
    {e : Expr} (h : expr limit factor wanted tokens = .ok (e, rest)) :
    Takes IsExpr budget tokens e rest := by
  rw [expr_eq] at h
  obtain ⟨⟨left, rest'⟩, hRead, hLoop⟩ := Except.bind_eq_ok_iff.mp h
  obtain ⟨depth, taken, rfl, hDepth, hLeft⟩ := takes_term hFactor hRead
  exact takes_chain .operation (fun _ _ _ hOperand => takes_term hFactor hOperand) limit
    (.term hLeft) hDepth hLoop

theorem takes_moreArguments (hFactor : Sound budget factor) (fuel : Nat) :
    ∀ {depth : Nat} {taken tokens rest : List Token} {collected args : List Expr},
      IsList depth taken collected.reverse → depth ≤ budget →
      moreArguments limit factor fuel collected tokens = .ok (args, rest) →
      Takes IsList budget (taken ++ tokens) args rest := by
  induction fuel with
  | zero =>
    intro depth taken tokens rest collected args hList hDepth h
    cases h
    exact ⟨depth, taken, rfl, hDepth, hList⟩
  | succ fuel ih =>
    intro depth taken tokens rest collected args hList hDepth h
    cases tokens with
    | nil =>
      cases h
      exact ⟨depth, taken, rfl, hDepth, hList⟩
    | cons comma tokens =>
      by_cases hComma : comma.kind = .comma
      · rw [moreArguments_cons hComma] at h
        obtain ⟨⟨arg, rest'⟩, hRead, hLoop⟩ := Except.bind_eq_ok_iff.mp h
        obtain ⟨depth', taken', rfl, hDepth', hArg⟩ := takes_expr hFactor hRead
        have hLonger : IsList (max depth depth') (taken ++ comma :: taken')
            (arg :: collected).reverse := by
          rw [List.reverse_cons]
          exact .more hList hComma hArg
        have hMore := ih hLonger (Nat.max_le.mpr ⟨hDepth, hDepth'⟩) hLoop
        rwa [List.append_assoc] at hMore
      · rw [moreArguments_stop (.cons hComma tokens)] at h
        cases h
        exact ⟨depth, taken, rfl, hDepth, hList⟩

theorem takes_arguments (hFactor : Sound budget factor) {tokens rest : List Token}
    {args : List Expr} (h : arguments stop limit factor tokens = .ok (args, rest)) :
    Takes IsArguments budget tokens args rest := by
  cases hStarts : startsFactor (tokens.headD stop).kind with
  | false =>
    rw [arguments_none hStarts] at h
    cases h
    exact ⟨0, [], rfl, Nat.zero_le _, .none⟩
  | true =>
    rw [arguments_some hStarts] at h
    obtain ⟨⟨arg, rest'⟩, hRead, hLoop⟩ := Except.bind_eq_ok_iff.mp h
    obtain ⟨depth, taken, rfl, hDepth, hArg⟩ := takes_expr hFactor hRead
    have hFirst : IsList depth taken [arg].reverse := .single hArg
    obtain ⟨depth', taken', hTokens, hDepth', hList⟩ :=
      takes_moreArguments hFactor limit hFirst hDepth hLoop
    exact ⟨depth', taken', hTokens, hDepth', .some hList⟩

theorem closeParen_eq_ok {tokens rest : List Token} {close : Token}
    (h : closeParen stop tokens = .ok (close, rest)) :
    tokens = close :: rest ∧ close.kind = .closeParen := by
  cases tokens with
  | nil => cases h
  | cons token tokens =>
    rw [closeParen] at h
    split_ifs at h with hKind
    cases h
    exact ⟨rfl, hKind⟩

/-! ## Factors -/

variable {inner : Option Rule}

/-- The rule for the next level is sound with one level less. -/
def SoundInner (budget : Nat) (inner : Option Rule) : Prop :=
  ∀ factor ∈ inner, ∃ below, budget = below + 1 ∧ Sound below factor

theorem enter_eq_ok {span : Span} {rest : List Token}
    (h : enter inner span rest = .ok factor) : inner = some factor := by
  cases inner with
  | none => cases h
  | some rule =>
    cases h
    rfl

theorem takes_call (hInner : SoundInner budget inner) {name paren : Token}
    {tokens rest : List Token} {e : Expr} (hName : name.kind = .identifier)
    (hParen : paren.kind = .openParen) (h : call stop limit inner name tokens = .ok (e, rest)) :
    Takes IsFactor budget (name :: paren :: tokens) e rest := by
  obtain ⟨factor, hEnter, h⟩ := Except.bind_eq_ok_iff.mp h
  obtain ⟨⟨args, rest₁⟩, hArguments, h⟩ := Except.bind_eq_ok_iff.mp h
  obtain ⟨⟨close, rest₂⟩, hClose, h⟩ := Except.bind_eq_ok_iff.mp h
  cases h
  obtain ⟨below, rfl, hFactor⟩ := hInner factor (enter_eq_ok hEnter)
  obtain ⟨depth, taken, rfl, hDepth, hArgs⟩ := takes_arguments hFactor hArguments
  obtain ⟨rfl, hKind⟩ := closeParen_eq_ok hClose
  exact ⟨depth + 1, name :: paren :: (taken ++ [close]), by simp, Nat.succ_le_succ hDepth,
    .call hName hParen hKind hArgs⟩

/-- A sign and its operand. -/
theorem takes_signed (hInner : SoundInner budget inner) {sign : Token} {op : UnaryOp}
    {wanted : Wanted} {tokens rest : List Token} {e : Expr}
    (hSign : ∀ {depth tokens operand}, IsFactor depth tokens operand →
      IsFactor (depth + 1) (sign :: tokens)
        (.unary (sign.span.merge operand.span) op operand))
    (h : signed inner sign op wanted tokens = .ok (e, rest)) :
    Takes IsFactor budget (sign :: tokens) e rest := by
  obtain ⟨factor, hEnter, h⟩ := Except.bind_eq_ok_iff.mp h
  obtain ⟨⟨operand, rest₁⟩, hOperand, h⟩ := Except.bind_eq_ok_iff.mp h
  cases h
  obtain ⟨below, rfl, hFactor⟩ := hInner factor (enter_eq_ok hEnter)
  obtain ⟨depth, taken, rfl, hDepth, hOperand⟩ := hFactor wanted hOperand
  exact ⟨depth + 1, sign :: taken, rfl, Nat.succ_le_succ hDepth, hSign hOperand⟩

theorem takes_parenthesised (hInner : SoundInner budget inner) {paren : Token}
    {tokens rest : List Token} {e : Expr} (hParen : paren.kind = .openParen)
    (h : parenthesised stop limit inner paren tokens = .ok (e, rest)) :
    Takes IsFactor budget (paren :: tokens) e rest := by
  obtain ⟨factor, hEnter, h⟩ := Except.bind_eq_ok_iff.mp h
  obtain ⟨⟨inside, rest₁⟩, hRead, h⟩ := Except.bind_eq_ok_iff.mp h
  obtain ⟨⟨close, rest₂⟩, hClose, h⟩ := Except.bind_eq_ok_iff.mp h
  cases h
  obtain ⟨below, rfl, hFactor⟩ := hInner factor (enter_eq_ok hEnter)
  obtain ⟨depth, taken, rfl, hDepth, hInside⟩ := takes_expr hFactor hRead
  obtain ⟨rfl, hKind⟩ := closeParen_eq_ok hClose
  exact ⟨depth + 1, paren :: (taken ++ [close]), by simp, Nat.succ_le_succ hDepth,
    .parenthesised hParen hKind hInside⟩

/-- A factor of a single token. -/
theorem takes_single {token : Token} {e : Expr} (h : IsFactor 0 [token] e) (rest : List Token) :
    Takes IsFactor budget (token :: rest) e rest :=
  ⟨0, [token], rfl, Nat.zero_le _, h⟩

theorem sound_factorWith (hInner : SoundInner budget inner) :
    Sound budget (factorWith stop limit inner) := by
  intro wanted tokens e rest h
  cases tokens with
  | nil => cases h
  | cons token tokens =>
    simp only [factorWith] at h
    split at h
    · rename_i hKind
      split at h <;> cases h
      exact takes_single (.number (.inl hKind) ‹_›) rest
    · rename_i hKind
      split at h <;> cases h
      exact takes_single (.number (.inr hKind) ‹_›) rest
    · rename_i hName
      cases tokens with
      | nil =>
        cases h
        exact takes_single (.var hName) []
      | cons next tokens =>
        dsimp only at h
        split_ifs at h with hParen
        · exact takes_call hInner hName hParen h
        · cases h
          exact takes_single (.var hName) _
    · rename_i hSign
      exact takes_signed hInner (.minus hSign) h
    · rename_i hSign
      exact takes_signed hInner (.plus hSign) h
    · rename_i hParen
      exact takes_parenthesised hInner hParen h
    · cases h

theorem sound_factor (stop : Token) (limit budget : Nat) :
    Sound budget (Parser.factor stop limit budget) := by
  induction budget with
  | zero => exact sound_factorWith nofun
  | succ budget ih =>
    refine sound_factorWith fun rule hRule => ⟨budget, rfl, ?_⟩
    cases hRule
    exact ih

/-! ## Whole inputs -/

theorem takes_moreExprs (hFactor : Sound budget factor) (fuel : Nat) :
    ∀ {depth : Nat} {taken tokens rest : List Token} {first e : Expr},
      IsSequence depth taken first → depth ≤ budget →
      moreExprs limit factor fuel first tokens = .ok (e, rest) →
      Takes IsSequence budget (taken ++ tokens) e rest := by
  induction fuel with
  | zero =>
    intro depth taken tokens rest first e hFirst hDepth h
    cases h
    exact ⟨depth, taken, rfl, hDepth, hFirst⟩
  | succ fuel ih =>
    intro depth taken tokens rest first e hFirst hDepth h
    cases tokens with
    | nil =>
      cases h
      exact ⟨depth, taken, rfl, hDepth, hFirst⟩
    | cons semicolon tokens =>
      by_cases hSemicolon : semicolon.kind = .semicolon
      · rw [moreExprs_cons hSemicolon] at h
        obtain ⟨⟨second, rest'⟩, hRead, hLoop⟩ := Except.bind_eq_ok_iff.mp h
        obtain ⟨depth', taken', rfl, hDepth', hSecond⟩ := takes_expr hFactor hRead
        have hMore := ih (.more hFirst hSemicolon hSecond) (Nat.max_le.mpr ⟨hDepth, hDepth'⟩)
          hLoop
        rwa [List.append_assoc] at hMore
      · rw [moreExprs_stop (.cons hSemicolon tokens)] at h
        cases h
        exact ⟨depth, taken, rfl, hDepth, hFirst⟩

/-- What is parsed is a sequence of the grammar. -/
theorem isSequence_of_parse {tokens : List Token} {tree : Expr}
    (h : parse stop tokens = .ok tree) :
    ∃ depth, IsSequence depth tokens tree ∧ depth ≤ maxNesting := by
  obtain ⟨⟨first, rest⟩, hFirst, h⟩ := Except.bind_eq_ok_iff.mp h
  obtain ⟨⟨tree', rest'⟩, hTree, h⟩ := Except.bind_eq_ok_iff.mp h
  have hFactor := sound_factor stop tokens.length maxNesting
  obtain ⟨depth, taken, rfl, hDepth, hFirst⟩ := takes_expr hFactor hFirst
  obtain ⟨depth', taken', hTokens, hDepth', hSequence⟩ :=
    takes_moreExprs hFactor _ (.single hFirst) hDepth hTree
  cases rest' with
  | nil =>
    cases h
    rw [List.append_nil] at hTokens
    exact ⟨depth', hTokens ▸ hSequence, hDepth'⟩
  | cons token rest' => cases h

end Takes

end Formula.Parser
