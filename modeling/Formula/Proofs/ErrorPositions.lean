import Formula.Proofs.Grammar.Impossible
import Formula.Proofs.Grammar.Texts

/-!
# Where errors of texts are

A text that is rejected because of a token is rejected at the first one that is impossible: what is
before it in the text can be completed to a text that is accepted, and no text is accepted that has
tokens of these kinds and then one of that kind (`Expr.ofString?_fails_at_impossible_token`). For
the first, the lexemes that complete the tokens are written behind them; for the second, what is
accepted leads to the end of the input from position to position, each of which has at most one step
for each kind. An error about a token is never one about a character or the nesting
(`Fault.Misplaced.ofFault_ne`).
-/

namespace Formula

variable {source : Source}

/-! ## Tokens of texts -/

theorem Token.ne_endOfInput_of_mem_scanAll {offset : Nat} {text : List Char} {token : Token}
    (hToken : token ∈ (scanAll offset text).1) : token.kind ≠ .endOfInput := by
  obtain ⟨before, kind, lexeme, after, -, rfl, hLexeme, -⟩ :=
    (splits_scanAll offset text).placed token hToken
  rintro rfl
  exact hLexeme

/-- At the end of a text whose characters are all known. -/
theorem Token.ending_eq {stop : Nat} (h : (scanAll 0 source.chars).2 = .finished stop) :
    stop = source.length := by
  rcases (splits_scanAll 0 source.chars).ends with
    ⟨hEnding, hAll⟩ | ⟨before, c, after, -, -, -, hEnding⟩
  · rw [h] at hEnding
    cases hEnding
    rw [Nat.zero_add, Source.length, Text.byteLength_ascii]
    exact fun c hMem => toNat_lt_of_isLexical (hAll c hMem)
  · rw [h] at hEnding
    cases hEnding

/-- A text without NULs is a source as it is. -/
theorem Source.chars_ofString {chars : List Char} (h : '\x00' ∉ chars) :
    (ofString (String.ofList chars)).chars = chars := by
  rw [ofString, String.toList_ofList, List.takeWhile_eq_self_iff]
  intro c hMem
  simp only [ne_eq, decide_not, Bool.not_eq_true', decide_eq_false_iff_not]
  rintro rfl
  exact h hMem

theorem Source.not_mem_chars (text : String) : '\x00' ∉ (ofString text).chars := by
  intro hMem
  have hNul := List.mem_takeWhile_imp hMem
  cases hNul

theorem Token.not_mem_spaced {lexemes : List (TokenKind × List Char)}
    (hLexemes : ∀ lexeme ∈ lexemes, Lexeme lexeme.1 lexeme.2) : '\x00' ∉ spaced lexemes := by
  intro hMem
  obtain ⟨lexeme, hLexeme, hMem⟩ := List.mem_flatMap.mp hMem
  rcases List.mem_cons.mp hMem with hBlank | hMem
  · cases hBlank
  · exact (hLexemes lexeme hLexeme).not_mem (by decide) hMem

/-! ## Messages -/

theorem Fault.Misplaced.not_prefix_message {fault : Fault} (hFault : fault.Misplaced)
    {start : List Char} (position : Nat)
    (hStart : start = "Error, unknown".toList ∨ start = "Error, expression".toList) :
    ¬start <+: (fault.message position).toList := by
  cases fault with
  | unexpected wanted found =>
    dsimp only [message]
    simp only [String.toList_append, List.append_assoc]
    rw [← List.append_assoc "Error, ".toList]
    rcases hStart with rfl | rfl <;> cases wanted <;>
      exact not_prefix_append _ (by decide) (by decide)
  | unclosed =>
    dsimp only [message]
    rcases hStart with rfl | rfl <;> decide
  | notClosed found =>
    dsimp only [message]
    simp only [String.toList_append, List.append_assoc]
    rcases hStart with rfl | rfl <;> exact not_prefix_append _ (by decide) (by decide)
  | _ => cases hFault

/-- The error for a token out of place is not one for a character or for the nesting. -/
theorem Fault.Misplaced.ofFault_ne {fault other : Fault} (hFault : fault.Misplaced)
    (hOther : (∃ c, other = .unknownSymbol c) ∨ other = .tooDeep) (span span' : Span) :
    CompileError.ofFault source span fault ≠ .ofFault source span' other := by
  intro h
  have hMessage : fault.message span.start = other.message span'.start :=
    congrArg CompileError.message h
  rcases hOther with ⟨c, rfl⟩ | rfl
  · have hBegins : "Error, unknown".toList <+: "Error, unknown symbol \"".toList := by decide
    refine hFault.not_prefix_message span.start (.inl rfl) ?_
    rw [hMessage]
    dsimp only [message]
    simp only [String.toList_append, List.append_assoc]
    exact hBegins.trans (List.prefix_append ..)
  · have hBegins : "Error, expression".toList <+:
        "Error, expression is nested too deeply at position ".toList := by decide
    refine hFault.not_prefix_message span.start (.inr rfl) ?_
    rw [hMessage]
    dsimp only [message]
    simp only [String.toList_append, List.append_assoc]
    exact hBegins.trans (List.prefix_append ..)

namespace Expr

/-! ## Rejected texts -/

/-- An error that is not about a character is a failure of the parser, and behind the last token
the text has ended. -/
theorem failure_of_ofSource? {error : CompileError} (hError : ofSource? source = .error error)
    (hSymbol : ∀ span c, error ≠ .ofFault source span (.unknownSymbol c)) :
    ∃ failure, Parser.parse (Token.scanAll 0 source.chars).2.token
        (Token.scanAll 0 source.chars).1 = .error failure ∧
      error = .ofFault source failure.span failure.fault ∧
      (failure.rest = [] → ∃ stop, (Token.scanAll 0 source.chars).2 = .finished stop) := by
  rcases ofSource?_eq_error_cases hError with hUnknown | ⟨failure, hParse, hFault, hRest⟩
  · obtain ⟨offset, c, -, rfl⟩ := Token.Ending.unknown_of_error? hUnknown
    exact absurd rfl (hSymbol _ _)
  · exact ⟨failure, hParse, hFault, fun hNil => Token.Ending.finished_of_error? (hRest hNil)⟩

/-- What the parser makes of the tokens of a text. -/
theorem outcome_ofSource (source : Source) :
    Parser.Outcome (fun _ => ∃ p, Grammar.Position.start.run (Token.scanAll 0 source.chars).1 =
        some p ∧ p.step .endOfInput = some ⟨.finished, []⟩)
      (Parser.Stuck (Token.scanAll 0 source.chars).2.token Grammar.IsSequence Parser.maxNesting
        (fun _ => .start) (Token.scanAll 0 source.chars).1)
      (Parser.parse (Token.scanAll 0 source.chars).2.token (Token.scanAll 0 source.chars).1) :=
  Parser.outcome_parse (Token.Ending.token_kind _) fun _ => Token.ne_endOfInput_of_mem_scanAll

/-- What is accepted leads from the start to the end of the input. -/
theorem isSome_run_of_ofString? {text : String} {tree : Expr} {tokens : List Token}
    (hTree : ofString? text = .ok tree) (hTokens : Token.ofSource? (.ofString text) = .ok tokens) :
    (Grammar.Position.start.run tokens).isSome := by
  obtain ⟨-, hParse⟩ := ofSource?_eq_ok_iff.mp hTree
  obtain ⟨-, rfl⟩ := Token.ofSource?_eq_ok_iff.mp hTokens
  have hOutcome := outcome_ofSource (.ofString text)
  rw [hParse] at hOutcome
  obtain ⟨p, hRun, hEnd⟩ := hOutcome
  rw [Grammar.Position.run_concat hRun, Token.Ending.token_kind, hEnd]
  rfl

/-- Tokens at the front of a text that can be completed are those of a text that is accepted. -/
theorem exists_completion {text : String} {before after : List Token}
    (hTokens : (Token.scanAll 0 (Source.ofString text).chars).1 = before ++ after)
    (hViable : Parser.Viable Grammar.IsSequence Parser.maxNesting before) :
    ∃ text' tree more, ofString? text' = .ok tree ∧
      Token.ofSource? (.ofString text') = .ok (before ++ more) := by
  obtain ⟨lexemes, hLexemes, hComplete⟩ := hViable
  obtain ⟨front, back, place, hText, hReplace⟩ :=
    (Token.splits_scanAll 0 (Source.ofString text).chars).replace hTokens
  obtain ⟨more, stop, hSplits, hWritten⟩ := Token.splits_spaced hLexemes place
  obtain ⟨depth, tree, hDepth, hTree⟩ := hComplete more hWritten
  have hChars : (Source.ofString (String.ofList (front ++ Token.spaced lexemes))).chars =
      front ++ Token.spaced lexemes := by
    refine Source.chars_ofString fun hMem => ?_
    rcases List.mem_append.mp hMem with hMem | hMem
    · exact Source.not_mem_chars text (by rw [hText]; exact List.mem_append_left _ hMem)
    · exact Token.not_mem_spaced hLexemes hMem
  have hScan := Token.scanAll_of_splits (hReplace (Token.detached_spaced lexemes) hSplits)
  refine ⟨String.ofList (front ++ Token.spaced lexemes), tree, more ++ [Token.endOfInput stop],
    ofSource?_eq_ok_iff.mpr ?_, Token.ofSource?_eq_ok_iff.mpr ?_⟩
  · rw [hChars, hScan]
    exact ⟨rfl, Parser.parse_of_isSequence hTree hDepth⟩
  · rw [hChars, hScan, ← List.append_assoc]
    exact ⟨rfl, rfl⟩

/-- What makes a text be rejected, other than its characters and its nesting, is out of place. -/
theorem misplaced_of_failure {failure : Parser.Failure}
    (hParse : Parser.parse (Token.scanAll 0 source.chars).2.token
      (Token.scanAll 0 source.chars).1 = .error failure)
    (hSymbol : ∀ c, failure.fault ≠ .unknownSymbol c) (hDeep : failure.fault ≠ .tooDeep) :
    failure.fault.Misplaced := by
  have hNumber := parse_ne_invalidNumber hParse
  cases hFault : failure.fault with
  | unknownSymbol c => exact absurd hFault (hSymbol c)
  | tooDeep => exact absurd hFault hDeep
  | invalidNumber text => exact absurd hFault (hNumber text)
  | _ => trivial

/-- A text is rejected for what stands in it, other than for its characters or its nesting, at one
of its tokens or at its end. What comes before can be completed, as it stands in the text, to a text
that is accepted; but no text is accepted that has tokens of the same kinds up to there. -/
theorem ofString?_fails_at_impossible_token {text : String} {error : CompileError}
    (hError : ofString? text = .error error)
    (hSymbol : ∀ span c, error ≠ .ofFault (.ofString text) span (.unknownSymbol c))
    (hDeep : ∀ span, error ≠ .ofFault (.ofString text) span .tooDeep) :
    ∃ before bad, error.span = bad.span ∧
      ((∃ after, (Token.scanAll 0 (Source.ofString text).chars).1 = before ++ bad :: after) ∨
        (Token.ofSource? (.ofString text) = .ok (before ++ [bad]) ∧
          bad = Token.endOfInput (Source.ofString text).length)) ∧
      (∃ text' tree more, ofString? text' = .ok tree ∧
        Token.ofSource? (.ofString text') = .ok (before ++ more)) ∧
      ∀ text' tree tokens, ofString? text' = .ok tree →
        Token.ofSource? (.ofString text') = .ok tokens →
        ¬(before ++ [bad]).map Token.kind <+: tokens.map Token.kind := by
  obtain ⟨failure, hParse, rfl, hEnd⟩ := failure_of_ofSource? hError hSymbol
  have hFault := misplaced_of_failure hParse (fun c h => hSymbol failure.span c (by rw [h]))
    fun h => hDeep failure.span (by rw [h])
  have hOutcome := outcome_ofSource (.ofString text)
  rw [hParse] at hOutcome
  obtain ⟨hSpan, before, hTokens, hStuck, hViable⟩ := hOutcome hFault
  obtain ⟨p, hRun, hStep⟩ := hStuck []
  refine ⟨before, failure.rest.headD (Token.scanAll 0 (Source.ofString text).chars).2.token, hSpan,
    ?_, exists_completion hTokens hViable, fun text' tree tokens hTree hAccepted hPrefix => ?_⟩
  · cases hRest : failure.rest with
    | cons bad after =>
      rw [hRest] at hTokens
      exact .inl ⟨after, hTokens⟩
    | nil =>
      rw [hRest, List.append_nil] at hTokens
      obtain ⟨stop, hFinished⟩ := hEnd hRest
      refine .inr ⟨Token.ofSource?_eq_ok_iff.mpr ⟨?_, ?_⟩, ?_⟩
      · rw [hFinished]
        rfl
      · rw [hTokens]
        rfl
      · rw [hFinished, ← Token.ending_eq hFinished]
        rfl
  · have hRead := Grammar.Position.isSome_run_of_prefix hPrefix
      (isSome_run_of_ofString? hTree hAccepted)
    have hNone := (Grammar.Position.run_concat hRun _).trans hStep
    rw [hNone] at hRead
    cases hRead

end Expr

/-! ## An example -/

/-- The parenthesis is impossible, and not yet what comes before it. -/
theorem Expr.ofString?_strayParen : ∃ error, ofString? "x + )" = .error error ∧
    error.span = ⟨4, 5⟩ ∧
    (∃ text tree more, ofString? text = .ok tree ∧ Token.ofSource? (.ofString text) =
      .ok ([⟨.identifier, ⟨0, 1⟩, "x"⟩, ⟨.plus, ⟨2, 3⟩, "+"⟩] ++ more)) ∧
    ∀ text tree tokens, ofString? text = .ok tree →
      Token.ofSource? (.ofString text) = .ok tokens →
      ¬[.identifier, .plus, .closeParen] <+: tokens.map Token.kind := by
  have hScan : Token.scanAll 0 (Source.ofString "x + )").chars =
      ([⟨.identifier, ⟨0, 1⟩, "x"⟩, ⟨.plus, ⟨2, 3⟩, "+"⟩, ⟨.closeParen, ⟨4, 5⟩, ")"⟩],
        .finished 5) := by
    cbv
  have hError : ofString? "x + )" = .error (.ofFault (.ofString "x + )") ⟨4, 5⟩
      (.unexpected .expression ")")) := by
    rw [ofString?, ofSource?, hScan]
    rfl
  have hFault : Fault.Misplaced (.unexpected .expression ")") := trivial
  refine ⟨_, hError, rfl, ?_⟩
  obtain ⟨before, bad, hSpan, hPlace, hBefore, hBad⟩ := ofString?_fails_at_impossible_token hError
    (fun _ c => hFault.ofFault_ne (.inl ⟨c, rfl⟩) _ _) fun _ => hFault.ofFault_ne (.inr rfl) _ _
  have hFirst : before = [⟨.identifier, ⟨0, 1⟩, "x"⟩, ⟨.plus, ⟨2, 3⟩, "+"⟩] ∧
      bad = ⟨.closeParen, ⟨4, 5⟩, ")"⟩ := by
    rcases hPlace with ⟨after, hTokens⟩ | ⟨-, rfl⟩
    · rw [hScan] at hTokens
      rcases before with _ | ⟨first, _ | ⟨second, _ | ⟨third, before⟩⟩⟩
      · cases hTokens
        cases hSpan
      · cases hTokens
        cases hSpan
      · cases hTokens
        exact ⟨rfl, rfl⟩
      · simp at hTokens
    · cases hSpan
  obtain ⟨rfl, rfl⟩ := hFirst
  exact ⟨hBefore, hBad⟩

end Formula
