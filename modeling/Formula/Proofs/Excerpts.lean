import Formula.Proofs.Grammar.Texts
import Formula.Proofs.Splitting

/-!
# Where the carets of an error stand

The line of an error is cut out of the source by counting bytes, while the carets below it stand
under characters. They agree because an error is only ever where the lexer has come to: everything
in front of it is blanks and lexemes, which are ASCII, and a lexeme contains no line break
(`Source.Shows`). So on the line of the error every character in front of it is one byte, and the
carets, one for each byte of the error, stand under its characters, or one place behind the line
where the input has ended (`Expr.ofString?_carets_line_up`).
-/

namespace Formula

/-! ## Lines -/

namespace Text

theorem forall_bytes_ne_lineBreak {text : List Char} (h : '\n' ∉ text) : ∀ byte ∈ bytes text, byte ≠ 10 := by
  have hText : text.takeWhile (· ≠ '\n') = text :=
    List.takeWhile_eq_self_iff.mpr fun c hMem => decide_eq_true fun hBreak => h (hBreak ▸ hMem)
  have hBytes : bytes (text.takeWhile (· ≠ '\n')) = (bytes text).takeWhile (· ≠ 10) :=
    bytes_takeWhile_ne (by decide) text
  rw [hText] at hBytes
  intro byte hMem
  rw [hBytes] at hMem
  simpa using List.mem_takeWhile_imp hMem

end Text

namespace Source

/-- The line that holds a byte offset: `lead` stands on it in front of the offset and `rest` behind,
and it goes from one line break, or end of the source, to the next. -/
def LineAt (source : Source) (offset : Nat) (lead rest : List Char) : Prop :=
  ∃ before after, source.chars = before ++ (lead ++ rest ++ after) ∧
    offset = Text.byteLength (before ++ lead) ∧ '\n' ∉ lead ∧ '\n' ∉ rest ∧
    (before = [] ∨ ∃ earlier, before = earlier ++ ['\n']) ∧
    (after = [] ∨ ∃ later, after = '\n' :: later)

/-- What is written under a character in front of the carets. -/
def under (c : Char) : Char :=
  if c = '\t' then '\t' else ' '

theorem underByte_eq {c : Char} (h : c.toNat < 128) :
    underByte (UInt8.ofNat c.toNat) = under c := by
  have hAscii : ∀ n < 128, underByte (UInt8.ofNat n) = under (Char.ofNat n) := by decide
  rw [hAscii c.toNat h, Char.ofNat_toNat]

namespace LineAt

variable {source : Source} {offset : Nat} {lead rest before after : List Char}

/-- Every place of a source is on a line. -/
theorem of_append (h : source.chars = before ++ after) :
    source.LineAt (Text.byteLength before) (before.rtakeWhile (· ≠ '\n'))
      (after.takeWhile (· ≠ '\n')) := by
  refine ⟨before.rdropWhile (· ≠ '\n'), after.dropWhile (· ≠ '\n'), ?_, ?_, ?_, ?_, ?_, ?_⟩
  · rw [List.append_assoc, List.takeWhile_append_dropWhile, ← List.append_assoc,
      List.rdropWhile_append_rtakeWhile, h]
  · rw [List.rdropWhile_append_rtakeWhile]
  · intro hMem
    have hBreak := List.mem_rtakeWhile_imp hMem
    simp at hBreak
  · intro hMem
    have hBreak := List.mem_takeWhile_imp hMem
    simp at hBreak
  · refine (List.eq_nil_or_concat _).imp_right fun ⟨earlier, c, hLast⟩ => ⟨earlier, ?_⟩
    have hBreak := List.rdropWhile_last_not (fun c => decide (c ≠ '\n')) before
    simp only [hLast] at hBreak
    rw [hLast]
    simpa using hBreak
  · cases hRest : after.dropWhile (· ≠ '\n') with
    | nil => exact .inl rfl
    | cons c later =>
      have hBreak := Token.eq_false_of_dropWhile hRest
      exact .inr ⟨later, by simpa using hBreak⟩

theorem bytes_eq (h : source.chars = before ++ (lead ++ rest ++ after)) :
    source.bytes = Text.bytes (before ++ lead) ++ (Text.bytes rest ++ Text.bytes after) := by
  simp only [bytes, h, Text.bytes_append, List.append_assoc]

/-- The line begins where `lead` does. -/
theorem lineStart_eq (h : source.LineAt offset lead rest) :
    source.lineStart offset + Text.byteLength lead = offset := by
  obtain ⟨before, after, hChars, rfl, hLead, -, hBefore, -⟩ := h
  have hFront : source.bytes.take (Text.byteLength (before ++ lead)) =
      Text.bytes (before ++ lead) := by
    rw [bytes_eq hChars, ← Text.length_bytes, List.take_left]
  have hStop : ∀ byte ∈ (Text.bytes before).reverse.head?, decide (byte ≠ 10) = false := by
    intro byte hHead
    rcases hBefore with rfl | ⟨earlier, rfl⟩
    · cases hHead
    · rw [Text.bytes_append, List.reverse_append] at hHead
      obtain rfl := Option.some.inj hHead
      rfl
  have hLine : ∀ byte ∈ (Text.bytes lead).reverse, decide (byte ≠ 10) = true := fun byte hMem =>
    decide_eq_true (Text.forall_bytes_ne_lineBreak hLead byte (List.mem_reverse.mp hMem))
  have hTake : (Text.bytes (before ++ lead)).reverse.takeWhile (· ≠ 10) =
      (Text.bytes lead).reverse := by
    rw [Text.bytes_append, List.reverse_append]
    exact Token.takeWhile_front hLine hStop
  rw [lineStart, hFront, hTake, List.length_reverse, Text.length_bytes, Text.byteLength_append,
    Nat.add_sub_cancel]

/-- The line ends where `rest` does. -/
theorem lineStop_eq (h : source.LineAt offset lead rest) :
    source.lineStop offset = offset + Text.byteLength rest := by
  obtain ⟨before, after, hChars, rfl, -, hRest, -, hAfter⟩ := h
  have hBack : source.bytes.drop (Text.byteLength (before ++ lead)) =
      Text.bytes rest ++ Text.bytes after := by
    rw [bytes_eq hChars, ← Text.length_bytes, List.drop_left]
  have hStop : ∀ byte ∈ (Text.bytes after).head?, decide (byte ≠ 10) = false := by
    intro byte hHead
    rcases hAfter with rfl | ⟨later, rfl⟩
    · cases hHead
    · obtain rfl := Option.some.inj hHead
      rfl
  have hLine : ∀ byte ∈ Text.bytes rest, decide (byte ≠ 10) = true := fun byte hMem =>
    decide_eq_true (Text.forall_bytes_ne_lineBreak hRest byte hMem)
  have hTake : (Text.bytes rest ++ Text.bytes after).takeWhile (· ≠ 10) = Text.bytes rest :=
    Token.takeWhile_front hLine hStop
  rw [lineStop, hBack, hTake, Text.length_bytes]

/-- An excerpt is the line of its span and the carets below, if only ASCII is in front of it. -/
theorem excerpt_eq {span : Span} (h : source.LineAt span.start lead rest)
    (hAscii : ∀ c ∈ lead, c.toNat < 128) (hSpan : span.start < span.stop) :
    source.excerpt span = String.ofList (lead ++ rest ++ '\n' ::
      (lead.map under ++ List.replicate (span.stop - span.start) '^')) := by
  have hFirst := h.lineStart_eq
  have hStop := h.lineStop_eq
  obtain ⟨before, after, hChars, hStart, -⟩ := h
  rw [Text.byteLength_append] at hStart
  have hLength : source.length = Text.byteLength before +
      (Text.byteLength lead + Text.byteLength rest + Text.byteLength after) := by
    rw [length, hChars, Text.byteLength_append, Text.byteLength_append, Text.byteLength_append]
  have hMin : min span.start source.length = span.start := by omega
  have hBegin : source.lineStart span.start = Text.byteLength before := by omega
  have hEnd : source.lineStop span.start =
      Text.byteLength before + Text.byteLength (lead ++ rest) := by
    rw [Text.byteLength_append]
    omega
  have hLine : Text.slice? (Text.byteLength before)
      (Text.byteLength before + Text.byteLength (lead ++ rest)) source.chars =
        some (lead ++ rest) := by
    rw [hChars]
    exact Text.slice?_append before (lead ++ rest) after
  have hIndent : (source.bytes.drop (Text.byteLength before)).take
      (span.start - Text.byteLength before) = Text.bytes lead := by
    rw [bytes_eq hChars, Text.bytes_append, List.append_assoc, ← Text.length_bytes before,
      List.drop_left, hStart, Text.length_bytes, Nat.add_sub_cancel_left, ← Text.length_bytes,
      List.take_left]
  have hUnder : (Text.bytes lead).map underByte = lead.map under := by
    rw [Text.bytes_of_ascii hAscii, List.map_map]
    exact List.map_congr_left fun c hMem => underByte_eq (hAscii c hMem)
  have hCarets : max (span.stop - span.start) 1 = span.stop - span.start := by omega
  simp only [excerpt, hMin, hBegin, hEnd, hLine, hIndent, hUnder, hCarets, Option.getD_some,
    List.append_assoc, List.cons_append]

end LineAt

/-! ## Where errors are -/

/-- A span that begins where only ASCII is in front of it, and covers text without line breaks, or
such text and one place more. -/
def Shows (source : Source) (span : Span) : Prop :=
  ∃ front inside after, source.chars = front ++ (inside ++ after) ∧ (∀ c ∈ front, c.toNat < 128) ∧
    '\n' ∉ inside ∧ span.start = front.length ∧ span.start < span.stop ∧
    span.stop ≤ span.start + inside.length + 1

/-- Carets below such a span stand under its line or one place behind it. -/
theorem Shows.exists_lineAt {source : Source} {span : Span} (h : source.Shows span) :
    span.start < span.stop ∧ ∃ lead rest, source.LineAt span.start lead rest ∧
      (∀ c ∈ lead, c.toNat < 128) ∧
      lead.length + (span.stop - span.start) ≤ (lead ++ rest).length + 1 := by
  obtain ⟨front, inside, after, hChars, hAscii, hInside, hStart, hSome, hStop⟩ := h
  have hLine := LineAt.of_append hChars
  rw [Text.byteLength_ascii hAscii, ← hStart] at hLine
  have hRest : (inside ++ after).takeWhile (· ≠ '\n') = inside ++ after.takeWhile (· ≠ '\n') :=
    List.takeWhile_append_of_pos fun c hMem => decide_eq_true fun hBreak => hInside (hBreak ▸ hMem)
  refine ⟨hSome, _, _, hLine, fun c hMem => hAscii c ((List.rtakeWhile_suffix _ _).subset hMem), ?_⟩
  rw [hRest, List.length_append, List.length_append]
  omega

end Source

namespace Token

variable {source : Source} {token : Token}

/-- A token can be shown in its source. -/
theorem shows_of_mem (hToken : token ∈ (scanAll 0 source.chars).1) : source.Shows token.span := by
  obtain ⟨before, kind, lexeme, after, hText, rfl, hLexeme, -, hBefore⟩ :=
    (splits_scanAll 0 source.chars).placed token hToken
  have hPos := List.length_pos_iff.mpr hLexeme.ne_nil
  refine ⟨before, lexeme, after, hText, fun c hMem => toNat_lt_of_isLexical (hBefore c hMem),
    hLexeme.not_mem (by decide), Nat.zero_add _, ?_, ?_⟩
  · dsimp only
    omega
  · dsimp only
    omega

/-- The end of the input, or the character that ends it, can be shown. -/
theorem shows_ending (source : Source) :
    source.Shows (scanAll 0 source.chars).2.token.span := by
  rcases (splits_scanAll 0 source.chars).ends with
    ⟨hEnding, hAll⟩ | ⟨before, c, after, hText, hBefore, -, hEnding⟩
  · rw [hEnding]
    refine ⟨source.chars, [], [], by simp, fun c hMem => toNat_lt_of_isLexical (hAll c hMem),
      List.not_mem_nil, Nat.zero_add _, Nat.lt_succ_self _, Nat.le_refl _⟩
  · rw [hEnding]
    refine ⟨before, [], c :: after, hText, fun d hMem => toNat_lt_of_isLexical (hBefore d hMem),
      List.not_mem_nil, Nat.zero_add _, Nat.lt_succ_self _, Nat.le_refl _⟩

end Token

namespace Expr

/-- Every error of a text is a fault at a place that can be shown. -/
theorem exists_shown_fault {source : Source} {error : CompileError}
    (h : ofSource? source = .error error) :
    ∃ span fault, error = .ofFault source span fault ∧ source.Shows span := by
  have hEnd := Token.shows_ending source
  rcases ofSource?_eq_error_cases h with hUnknown | ⟨failure, hParse, rfl, -⟩
  · obtain ⟨offset, c, hEnding, rfl⟩ := Token.Ending.unknown_of_error? hUnknown
    rw [hEnding] at hEnd
    exact ⟨_, _, rfl, hEnd⟩
  · obtain ⟨token, hToken, hSpan, -⟩ := Parser.located_parse _ _ failure hParse
    refine ⟨_, _, rfl, ?_⟩
    rw [hSpan]
    rcases hToken with hMem | rfl
    · exact Token.shows_of_mem hMem
    · exact hEnd

end Expr

/-! ## Messages -/

/-- The number behind the last blank of a text. -/
theorem Decimal.eq_of_append_toDigits {front front' : List Char} {m n : Nat}
    (h : front ++ ' ' :: Nat.toDigits 10 m = front' ++ ' ' :: Nat.toDigits 10 n) : m = n := by
  have hDigits (n : Nat) : ∀ c ∈ (Nat.toDigits 10 n).reverse, c.isDigit = true := fun c hMem =>
    Nat.isDigit_of_mem_toDigits (by decide) (by decide) (List.mem_reverse.mp hMem)
  have hBlank (front : List Char) : ∀ c ∈ (' ' :: front).head?, c.isDigit = false := by
    rintro c ⟨⟩
    rfl
  have hReverse : (Nat.toDigits 10 m).reverse ++ ' ' :: front.reverse =
      (Nat.toDigits 10 n).reverse ++ ' ' :: front'.reverse := by
    simpa using congrArg List.reverse h
  obtain ⟨hSame, -⟩ := Token.front_inj (hDigits m) (hDigits n) (hBlank _) (hBlank _) hReverse
  exact toDigits_inj (List.reverse_inj.mp hSame)

namespace CompileError

/-- Whether the message says at which position the error is. -/
def Quotes (error : CompileError) (position : Nat) : Prop :=
  ∃ what, error.message = what ++ " at position " ++ toString position ++ "." ∨
    error.message = what ++ " at position: " ++ toString position ++ "."

theorem Quotes.exists_digits {error : CompileError} {position : Nat} (h : error.Quotes position) :
    ∃ front, error.message.toList = front ++ ' ' :: Nat.toDigits 10 position ++ ['.'] := by
  obtain ⟨what, h | h⟩ := h
  · exact ⟨what.toList ++ " at position".toList, by rw [h]; simp⟩
  · exact ⟨what.toList ++ " at position:".toList, by rw [h]; simp⟩

/-- A message quotes one position only. -/
theorem Quotes.unique {error : CompileError} {p q : Nat} (hP : error.Quotes p)
    (hQ : error.Quotes q) : p = q := by
  obtain ⟨front, hFront⟩ := hP.exists_digits
  obtain ⟨front', hFront'⟩ := hQ.exists_digits
  exact Decimal.eq_of_append_toDigits (List.append_inj' (hFront.symm.trans hFront') rfl).1

theorem not_quotes_unclosed (source : Source) (span : Span) (position : Nat) :
    ¬(ofFault source span .unclosed).Quotes position := by
  intro h
  obtain ⟨front, hFront⟩ := h.exists_digits
  have hLast : "Error: Unexpected end of input".toList.getLast? = some '.' := by
    rw [← List.getLast?_concat (a := '.'), ← hFront]
    rfl
  revert hLast
  decide

/-- The position of a fault is quoted, except where the input has ended inside a parenthesis. -/
theorem quotes_ofFault (source : Source) (span : Span) {fault : Fault} (hFault : fault ≠ .unclosed) :
    (ofFault source span fault).Quotes span.start := by
  have hQuote : "\" at position " = "\"" ++ " at position " := rfl
  have hFound : "\" was found at position " = "\" was found" ++ " at position " := rfl
  have hInstead : "' was found at position: " = "' was found" ++ " at position: " := rfl
  have hDeep : "Error, expression is nested too deeply at position " =
      "Error, expression is nested too deeply" ++ " at position " := rfl
  cases fault with
  | unknownSymbol symbol =>
    refine ⟨"Error, unknown symbol \"" ++ symbol.toString ++ "\"", .inl ?_⟩
    dsimp only [ofFault, Fault.message]
    simp only [hQuote, ← String.append_assoc, -String.reduceAppend]
  | unexpected wanted found =>
    refine ⟨"Error, " ++ wanted.text ++ ", but \"" ++ found ++ "\" was found", .inl ?_⟩
    dsimp only [ofFault, Fault.message]
    simp only [hFound, ← String.append_assoc, -String.reduceAppend]
  | unclosed => exact absurd rfl hFault
  | notClosed found =>
    refine ⟨"Error: Unexpected token. Expected ')', but '" ++ found ++ "' was found", .inr ?_⟩
    dsimp only [ofFault, Fault.message]
    simp only [hInstead, ← String.append_assoc, -String.reduceAppend]
  | tooDeep =>
    refine ⟨"Error, expression is nested too deeply", .inl ?_⟩
    dsimp only [ofFault, Fault.message]
    rw [hDeep]
  | invalidNumber text =>
    refine ⟨"Error, invalid number \"" ++ text ++ "\"", .inl ?_⟩
    dsimp only [ofFault, Fault.message]
    simp only [hQuote, ← String.append_assoc, -String.reduceAppend]

end CompileError

/-! ## Rejected texts -/

namespace Expr

/-- The carets below the line of an error stand under what it is about. The excerpt is the line of
the error's first byte, from one line break or end of the text to the next, and below it as many
blanks as characters are in front of that byte, with the tabs among them, and a caret for each byte
of the error, of which there is one at least. Only ASCII is in front of the carets, so bytes and
characters agree there, and they go no further than one place behind the line. A position that the
message quotes is that of the first caret; only the message that the input has ended quotes none. -/
theorem ofString?_carets_line_up {text : String} {error : CompileError}
    (h : ofString? text = .error error) :
    ∃ lead rest, (Source.ofString text).LineAt error.span.start lead rest ∧
      error.excerpt = String.ofList (lead ++ rest ++ '\n' ::
        (lead.map (fun c => if c = '\t' then '\t' else ' ') ++
          List.replicate (error.span.stop - error.span.start) '^')) ∧
      error.span.start < error.span.stop ∧
      (∀ c ∈ lead, c.toNat < 128 ∧ c.utf8Size = 1) ∧
      lead.length + (error.span.stop - error.span.start) ≤ (lead ++ rest).length + 1 ∧
      (error.message = "Error: Unexpected end of input" ∨ error.Quotes error.span.start) ∧
      ∀ position, error.Quotes position → position = error.span.start := by
  obtain ⟨span, fault, rfl, hShows⟩ := exists_shown_fault h
  obtain ⟨hSpan, lead, rest, hLine, hAscii, hCarets⟩ := hShows.exists_lineAt
  refine ⟨lead, rest, hLine, hLine.excerpt_eq hAscii hSpan, hSpan,
    fun c hMem => ⟨hAscii c hMem, Text.utf8Size_of_ascii (hAscii c hMem)⟩, hCarets, ?_⟩
  by_cases hFault : fault = .unclosed
  · subst hFault
    exact ⟨.inl rfl, fun position hQuotes =>
      absurd hQuotes (CompileError.not_quotes_unclosed _ _ position)⟩
  · have hQuotes := CompileError.quotes_ofFault (Source.ofString text) span hFault
    exact ⟨.inr hQuotes, fun position hOther => hOther.unique hQuotes⟩

/-- The tab is kept, and what follows the error on its line may be any text. -/
theorem ofString?_carets_line_up_tab : ∃ error lead rest,
    ofString? "a;\n\tx y é" = .error error ∧
      (Source.ofString "a;\n\tx y é").LineAt 6 lead rest ∧
      error.excerpt = String.ofList (lead ++ rest ++ '\n' ::
        (lead.map (fun c => if c = '\t' then '\t' else ' ') ++ ['^'])) ∧
      error.Quotes 6 := by
  have hScan : Token.scanAll 0 (Source.ofString "a;\n\tx y é").chars =
      ([⟨.identifier, ⟨0, 1⟩, "a"⟩, ⟨.semicolon, ⟨1, 2⟩, ";"⟩, ⟨.identifier, ⟨4, 5⟩, "x"⟩,
        ⟨.identifier, ⟨6, 7⟩, "y"⟩], .unknown 8 'é') := by
    cbv
  have hError : ofString? "a;\n\tx y é" = .error (.ofFault (.ofString "a;\n\tx y é") ⟨6, 7⟩
      (.unexpected .endOfInput "y")) := by
    rw [ofString?, ofSource?, hScan]
    rfl
  obtain ⟨lead, rest, hLine, hExcerpt, -, -, -, hQuotes, -⟩ := ofString?_carets_line_up hError
  refine ⟨_, lead, rest, hError, hLine, hExcerpt, hQuotes.resolve_left ?_⟩
  decide

end Expr

end Formula
