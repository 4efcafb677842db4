import Formula.Proofs.Computation
import Formula.Proofs.Grammar.Texts
import Formula.Proofs.Splitting

/-!
# Tokens on demand

A `Lexer` may be asked for its next token, whether it keeps an error, for the error, and to give the
error away, in any order. Whatever has been asked, the text that it has not read splits into the
tokens that have not been asked for, and the rest ends as the whole text does (`tokens_run`). So the
tokens come one after the other, and from the end or the first unknown character on it is the end of
the input again and again. There is an error exactly if that character has been met since the error
was last taken (`Met`), and it is the error of that character (`error_run`).
-/

namespace Formula.Lexer

open Token

/-! ## Calls -/

/-- What can be asked of a lexer. -/
inductive Call where
  | next
  | hasError
  | error
  | takeError
deriving DecidableEq

/-- What a lexer answers. -/
inductive Answer where
  | token (token : Token)
  | flag (flag : Bool)
  | error (error : Option CompileError)

/-- The answer to a call, and the lexer after it. -/
def perform (lexer : Lexer) : Call → Answer × Lexer
  | .next => (.token lexer.next.1, lexer.next.2)
  | .hasError => (.flag lexer.hasError, lexer)
  | .error => (.error lexer.error, lexer)
  | .takeError => (.error lexer.takeError.1, lexer.takeError.2)

/-- The lexer after several calls. -/
def run (lexer : Lexer) (calls : List Call) : Lexer :=
  calls.foldl (fun lexer call => (lexer.perform call).2) lexer

theorem run_append (lexer : Lexer) (calls more : List Call) :
    lexer.run (calls ++ more) = (lexer.run calls).run more :=
  List.foldl_append ..

theorem run_concat (lexer : Lexer) (calls : List Call) (call : Call) :
    lexer.run (calls ++ [call]) = ((lexer.run calls).perform call).2 :=
  List.foldl_concat ..

/-- Some call has asked for a token when there were none of the first `length` left, and the error
has not been taken since. -/
def Met (length : Nat) (calls : List Call) : Prop :=
  ∃ before after, calls = before ++ .next :: after ∧ length ≤ before.count .next ∧
    .takeError ∉ after

section Met

variable {length : Nat} {calls : List Call} {call : Call}

theorem not_met_nil : ¬Met length [] := by
  rintro ⟨before, after, hCalls, -⟩
  exact absurd hCalls.symm (List.append_ne_nil_of_right_ne_nil _ (List.cons_ne_nil _ _))

theorem met_concat_iff : Met length (calls ++ [call]) ↔
    (call = .next ∧ length ≤ calls.count .next) ∨ (call ≠ .takeError ∧ Met length calls) := by
  constructor
  · rintro ⟨before, after, hCalls, hLength, hKept⟩
    rcases concat_eq_append_cons_iff.mp hCalls with ⟨-, rfl, hNext⟩ | ⟨others, rfl, hEarlier⟩
    · exact .inl ⟨hNext.symm, hLength⟩
    · rw [List.mem_append, not_or, List.mem_singleton] at hKept
      exact .inr ⟨fun hTake => hKept.2 hTake.symm, before, others, hEarlier, hLength, hKept.1⟩
  · rintro (⟨rfl, hLength⟩ | ⟨hCall, before, after, rfl, hLength, hKept⟩)
    · exact ⟨calls, [], rfl, hLength, List.not_mem_nil⟩
    · refine ⟨before, after ++ [call], by simp, hLength, ?_⟩
      rw [List.mem_append, not_or, List.mem_singleton]
      exact ⟨hKept, fun hTake => hCall hTake.symm⟩

/-- Only a lexer that has been asked for more tokens than there are has met what follows them. -/
theorem Met.length_lt (h : Met length calls) : length < calls.count .next := by
  obtain ⟨before, after, rfl, hLength, -⟩ := h
  rw [List.count_append, List.count_cons_self]
  omega

end Met

/-! ## One call -/

section Next

variable {lexer : Lexer} {token : Token} {tokens : List Token} {ending : Ending}

/-- A token that is left is handed out, and those behind it are left. -/
theorem next_of_cons (h : scanAll lexer.offset lexer.rest = (token :: tokens, ending)) :
    lexer.next.1 = token ∧
      scanAll lexer.next.2.offset lexer.next.2.rest = (tokens, ending) ∧
      lexer.next.2.error = lexer.error := by
  rw [scanAll_eq] at h
  unfold next
  split at h
  · simp only [Prod.mk.injEq, List.cons.injEq] at h
    obtain ⟨⟨rfl, rfl⟩, rfl⟩ := h
    exact ⟨rfl, rfl, rfl⟩
  · cases h
  · cases h

/-- When no token is left, none ever is. -/
theorem next_of_nil (h : scanAll lexer.offset lexer.rest = ([], ending)) :
    lexer.next.1 = ending.token ∧
      scanAll lexer.next.2.offset lexer.next.2.rest = ([], ending) ∧
      lexer.next.2.error = (lexer.error <|> ending.error? lexer.source) := by
  rw [scanAll_eq] at h
  unfold next
  split at h
  · cases h
  · cases h
    refine ⟨rfl, scanAll_of_splits (@Splits.finished _ [] nofun), ?_⟩
    cases lexer.error <;> rfl
  · rename_i hScan
    cases h
    obtain ⟨-, -, -, hOther, -⟩ := scan_unknown hScan
    exact ⟨rfl, scanAll_of_splits (@Splits.unknown _ [] _ _ nofun hOther), rfl⟩

theorem next_source (lexer : Lexer) : lexer.next.2.source = lexer.source := by
  unfold next
  split <;> rfl

theorem perform_source (lexer : Lexer) (call : Call) :
    (lexer.perform call).2.source = lexer.source := by
  cases call with
  | next => exact lexer.next_source
  | _ => rfl

end Next

/-! ## Any calls -/

section Run

variable {source : Source} {tokens : List Token} {ending : Ending}

theorem run_source (lexer : Lexer) (calls : List Call) :
    (lexer.run calls).source = lexer.source := by
  induction calls using List.reverseRecOn with
  | nil => rfl
  | append_singleton calls call ih => rw [run_concat, perform_source, ih]

/-- The tokens that have not been asked for are left. -/
theorem tokens_run (h : scanAll 0 source.chars = (tokens, ending)) (calls : List Call) :
    scanAll ((ofSource source).run calls).offset ((ofSource source).run calls).rest =
      (tokens.drop (calls.count .next), ending) := by
  induction calls using List.reverseRecOn with
  | nil => exact h
  | append_singleton calls call ih =>
    rw [run_concat]
    cases call with
    | next =>
      rw [List.count_append, List.count_singleton_self, ← List.drop_drop]
      generalize tokens.drop (calls.count .next) = left at ih
      cases left with
      | nil => exact (next_of_nil ih).2.1
      | cons token left => exact (next_of_cons ih).2.1
    | _ => rwa [List.count_append, List.count_singleton, if_neg (by decide), Nat.add_zero]

theorem error_run (h : scanAll 0 source.chars = (tokens, ending)) (calls : List Call)
    (error : CompileError) : ((ofSource source).run calls).error = some error ↔
      ending.error? source = some error ∧ Met tokens.length calls := by
  induction calls using List.reverseRecOn generalizing error with
  | nil => exact iff_of_false nofun fun hMet => not_met_nil hMet.2
  | append_singleton calls call ih =>
    have hSource := run_source (ofSource source) calls
    have hTokens := tokens_run h calls
    rw [run_concat, met_concat_iff]
    generalize (ofSource source).run calls = lexer at ih hSource hTokens
    cases call with
    | next =>
      show lexer.next.2.error = some error ↔ _
      simp only [true_and, ne_eq, reduceCtorEq, not_false_eq_true]
      cases hLeft : tokens.drop (calls.count .next) with
      | nil =>
        -- the lexer meets the end, and an error that it keeps already is the same one
        have hMet := List.drop_eq_nil_iff.mp hLeft
        rw [hLeft] at hTokens
        rw [(next_of_nil hTokens).2.2, hSource]
        simp only [hMet, true_or, and_true]
        cases hKept : lexer.error with
        | none => rfl
        | some kept =>
          rw [((ih kept).mp hKept).1]
          rfl
      | cons token left =>
        have hLater : ¬tokens.length ≤ calls.count .next := by
          rw [← List.drop_eq_nil_iff, hLeft]
          exact List.cons_ne_nil token left
        rw [hLeft] at hTokens
        rw [(next_of_cons hTokens).2.2, ih]
        simp only [hLater, false_or]
    | takeError => exact iff_of_false nofun (by simp)
    | _ =>
      refine (ih error).trans ?_
      simp

/-- A lexer without an error stays so while no token is asked for. -/
theorem run_error_of_not_next {lexer : Lexer} (hNone : lexer.error = none) {calls : List Call}
    (hCalls : .next ∉ calls) : (lexer.run calls).error = none := by
  induction calls generalizing lexer with
  | nil => exact hNone
  | cons call calls ih =>
    rw [List.mem_cons, not_or] at hCalls
    refine ih ?_ hCalls.2
    cases call with
    | next => exact absurd rfl hCalls.1
    | takeError => rfl
    | _ => exact hNone

end Run

/-! ## Every order of calls -/

/-- Tokens end where the text ends, or shows an unknown character, or before that. -/
theorem stop_le_of_splits {offset : Nat} {text : List Char} {tokens : List Token} {ending : Ending}
    (h : Splits offset text tokens ending) : offset ≤ ending.token.span.start ∧
      ∀ token ∈ tokens, token.span.stop ≤ ending.token.span.start := by
  induction h with
  | finished => exact ⟨Nat.le_add_right .., nofun⟩
  | unknown => exact ⟨Nat.le_add_right .., nofun⟩
  | token _ _ _ _ ih =>
    obtain ⟨hOffset, hTokens⟩ := ih
    exact ⟨by omega, List.forall_mem_cons.mpr ⟨hOffset, hTokens⟩⟩

/-- An error is left by an unknown character only, the first one of the text. -/
theorem error?_of_splits {source : Source} {tokens : List Token} {ending : Ending}
    (h : Splits 0 source.chars tokens ending) :
    (ending.error? source = none ∧ ∀ c ∈ source.chars, isLexical c = true) ∨
      ∃ before c after, source.chars = before ++ c :: after ∧
        (∀ d ∈ before, isLexical d = true) ∧ isLexical c = false ∧
        ending = .unknown (Text.byteLength before) c := by
  rcases h.ends with ⟨rfl, hAll⟩ | ⟨before, c, after, hText, hBefore, hOther, rfl⟩
  · exact .inl ⟨rfl, hAll⟩
  · refine .inr ⟨before, c, after, hText, hBefore, hOther, ?_⟩
    rw [Nat.zero_add, Text.byteLength_ascii fun d hMem => toNat_lt_of_isLexical (hBefore d hMem)]

/-- A text has a list of tokens up to its end, or up to its first unknown character. Whatever has
been asked of a lexer for it, the next token is the one of this list that is due, and from its end
on it is the end of the input again and again. The lexer keeps an error exactly if it has met the
unknown character since the error was last taken. It is always the same one, and after it has been
taken it comes back when the next token is asked for. Looking for it changes nothing. -/
theorem answers_on_demand (text : String) :
    let source := Source.ofString text
    ∃ tokens ending, Splits 0 source.chars tokens ending ∧
      ofSource? source = (ending.error? source).elim (.ok (tokens ++ [ending.token])) .error ∧
      (∀ token ∈ tokens, token.kind ≠ .endOfInput) ∧ ending.token.kind = .endOfInput ∧
      (∀ token ∈ tokens, token.span.stop ≤ ending.token.span.start) ∧
      ((ending.error? source = none ∧ ∀ c ∈ source.chars, isLexical c = true) ∨
        ∃ before c after, source.chars = before ++ c :: after ∧
          (∀ d ∈ before, isLexical d = true) ∧ isLexical c = false ∧
          ending = .unknown (Text.byteLength before) c ∧
          ending.error? source = some (.ofFault source ending.token.span (.unknownSymbol c))) ∧
      ∀ calls : List Call,
        let lexer := (ofSource source).run calls
        let count := calls.count .next
        (∀ token, tokens[count]? = some token → (lexer.perform .next).1 = .token token) ∧
        (tokens.length ≤ count → (lexer.perform .next).1 = .token ending.token) ∧
        (∃ kept, (lexer.perform .error).1 = .error kept ∧
          (lexer.perform .takeError).1 = .error kept ∧
          (lexer.perform .hasError).1 = .flag kept.isSome ∧
          (∀ error, kept = some error ↔
            ending.error? source = some error ∧ Met tokens.length calls) ∧
          ∀ error, kept = some error → ∀ looks, .next ∉ looks →
            (lexer.run (.takeError :: looks)).error = none ∧
            (lexer.run (.takeError :: looks ++ [.next])).error = some error) ∧
        (lexer.perform .hasError).2 = lexer ∧ (lexer.perform .error).2 = lexer := by
  intro source
  obtain ⟨tokens, ending, hAll⟩ : ∃ tokens ending, scanAll 0 source.chars = (tokens, ending) :=
    ⟨_, _, rfl⟩
  have hSplits := splits_scanAll 0 source.chars
  rw [hAll] at hSplits
  refine ⟨tokens, ending, hSplits, ?_, ?_, ending.token_kind, (stop_le_of_splits hSplits).2, ?_,
    fun calls => ?_⟩
  · simp only [ofSource?, hAll]
    cases ending.error? source <;> rfl
  · intro token hMem
    obtain ⟨before, kind, lexeme, after, -, rfl, hLexeme, -⟩ := hSplits.placed token hMem
    rintro rfl
    exact hLexeme
  · refine (error?_of_splits hSplits).imp_right ?_
    rintro ⟨before, c, after, hText, hBefore, hOther, rfl⟩
    exact ⟨before, c, after, hText, hBefore, hOther, rfl, rfl⟩
  intro lexer count
  have hTokens := tokens_run hAll calls
  refine ⟨fun token hToken => ?_, fun hCount => ?_,
    ⟨lexer.error, rfl, rfl, rfl, error_run hAll calls, fun error hError looks hLooks => ?_⟩,
    rfl, rfl⟩
  · obtain ⟨hLt, rfl⟩ := List.getElem?_eq_some_iff.mp hToken
    rw [List.drop_eq_getElem_cons hLt] at hTokens
    exact congrArg Answer.token (next_of_cons hTokens).1
  · rw [List.drop_of_length_le hCount] at hTokens
    exact congrArg Answer.token (next_of_nil hTokens).1
  · obtain ⟨hEnding, hMet⟩ := (error_run hAll calls error).mp hError
    have hNone : (lexer.run (.takeError :: looks)).error = none :=
      @run_error_of_not_next lexer.takeError.2 rfl looks hLooks
    refine ⟨hNone, ?_⟩
    -- taken together, the calls ask for at least as many tokens as those that met the character
    rw [← run_append, error_run hAll]
    refine ⟨hEnding, calls ++ .takeError :: looks, [], by simp, ?_, List.not_mem_nil⟩
    have hLt := hMet.length_lt
    rw [List.count_append]
    omega

end Formula.Lexer
