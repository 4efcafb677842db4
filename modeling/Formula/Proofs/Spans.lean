import Formula.Proofs.Grammar.Texts
import Formula.Proofs.Lexing

/-!
# Spans of nodes

The spans of a tree nest like its nodes. The tokens of a part of the grammar stand in a text of
their own, with blanks before each (`Token.Laid`), and parts that follow one another stand in texts
that follow one another. By induction on the derivation, all nodes of a part have their spans in its
text (`Expr.Fits`), and each node has the one that reads like it: a call from its name to the
parenthesis that matches the one behind the name, since what the arguments are written in is
balanced (`Balanced`). Parentheses that leave no node make a text longer than the span in it.
-/

namespace Formula

/-! ## Nodes -/

namespace Expr

mutual

/-- What holds of a node if it holds of its children holds of every node. -/
@[elab_as_elim]
theorem children_induction {P : Expr → Prop}
    (node : ∀ e, (∀ child ∈ e.children, P child) → P e) : ∀ e, P e
  | .number _ _ => node _ (List.forall_mem_nil _)
  | .var _ _ => node _ (List.forall_mem_nil _)
  | .call _ _ args => node _ (children_induction_all node args)
  | .unary _ _ operand =>
    node _ (List.forall_mem_singleton.mpr (children_induction node operand))
  | .binary _ _ left right => node _ (List.forall_mem_cons.mpr
    ⟨children_induction node left, List.forall_mem_singleton.mpr (children_induction node right)⟩)
  | .sequence _ first second => node _ (List.forall_mem_cons.mpr
    ⟨children_induction node first, List.forall_mem_singleton.mpr (children_induction node second)⟩)

/-- The same of several expressions. -/
theorem children_induction_all {P : Expr → Prop}
    (node : ∀ e, (∀ child ∈ e.children, P child) → P e) : ∀ (es : List Expr), ∀ e ∈ es, P e
  | [] => List.forall_mem_nil _
  | e :: es =>
    List.forall_mem_cons.mpr ⟨children_induction node e, children_induction_all node es⟩

end

mutual

theorem preorderOnto_eq : ∀ (e : Expr) (rest : List Expr),
    preorderOnto rest e = e :: (e.children.flatMap preorder ++ rest)
  | .number _ _, _ => rfl
  | .var _ _, _ => rfl
  | .call _ _ args, rest => congrArg (List.cons _) (preorderListOnto_eq args rest)
  | .unary _ _ operand, rest => by
    rw [preorderOnto, preorderOnto_eq operand, children, List.flatMap_singleton, preorder,
      preorderOnto_eq operand, List.append_nil, List.cons_append]
  | .binary _ _ left right, rest => by
    simp only [preorderOnto, preorderOnto_eq left, preorderOnto_eq right, children, preorder,
      List.flatMap_cons, List.flatMap_nil, List.append_nil, List.append_assoc, List.cons_append]
  | .sequence _ first second, rest => by
    simp only [preorderOnto, preorderOnto_eq first, preorderOnto_eq second, children, preorder,
      List.flatMap_cons, List.flatMap_nil, List.append_nil, List.append_assoc, List.cons_append]

theorem preorderListOnto_eq : ∀ (es rest : List Expr),
    preorderListOnto rest es = es.flatMap preorder ++ rest
  | [], _ => rfl
  | e :: es, rest => by
    simp only [preorderListOnto, preorderOnto_eq e, preorderListOnto_eq es, preorder,
      List.flatMap_cons, List.append_nil, List.append_assoc, List.cons_append]

end

theorem preorder_eq (e : Expr) : e.preorder = e :: e.children.flatMap preorder := by
  rw [preorder, preorderOnto_eq, List.append_nil]

theorem mem_preorder_self (e : Expr) : e ∈ e.preorder := by
  rw [preorder_eq]
  exact List.mem_cons_self ..

/-- What holds of all nodes holds of the root, and of all nodes below it. -/
theorem forall_mem_preorder_iff {P : Expr → Prop} {e : Expr} :
    (∀ node ∈ e.preorder, P node) ↔
      P e ∧ ∀ child ∈ e.children, ∀ node ∈ child.preorder, P node := by
  rw [preorder_eq, List.forall_mem_cons, List.forall_mem_flatMap]

/-- Whether the nodes of a tree include the children of each. -/
def Closed (e : Expr) : Prop :=
  ∀ node ∈ e.preorder, ∀ child ∈ node.children, child ∈ e.preorder

theorem closed_of_children {e : Expr} (h : ∀ child ∈ e.children, child.Closed) : e.Closed := by
  have hBelow {child other : Expr} (hChild : child ∈ e.children) (hOther : other ∈ child.preorder) :
      other ∈ e.preorder := by
    rw [preorder_eq]
    exact List.mem_cons_of_mem _ (List.mem_flatMap.mpr ⟨child, hChild, hOther⟩)
  refine forall_mem_preorder_iff.mpr ⟨fun child hChild => hBelow hChild child.mem_preorder_self, ?_⟩
  exact fun child hChild node hNode other hOther =>
    hBelow hChild (h child hChild node hNode other hOther)

theorem closed (e : Expr) : e.Closed := by
  induction e using children_induction with
  | node e ih => exact closed_of_children ih

end Expr

/-- The character of a sign. -/
def UnaryOp.sign : UnaryOp → Char
  | neg => '-'
  | plus => '+'

/-! ## Balanced texts -/

/-- Texts in which the parentheses match. -/
inductive Balanced : List Char → Prop where
  | plain {text : List Char} (hText : ∀ c ∈ text, c ≠ '(' ∧ c ≠ ')') : Balanced text
  | append {text more : List Char} (hText : Balanced text) (hMore : Balanced more) :
    Balanced (text ++ more)
  | enclosed {text : List Char} (hText : Balanced text) : Balanced ('(' :: (text ++ [')']))

theorem Balanced.nil : Balanced [] :=
  .plain (List.forall_mem_nil _)

/-- A text is balanced if its characters are of a kind that parentheses are not. -/
theorem Balanced.of_forall {p : Char → Bool} (hOpen : p '(' = false) (hClose : p ')' = false)
    {text : List Char} (h : ∀ c ∈ text, p c = true) : Balanced text := by
  refine .plain fun c hMem => ⟨?_, ?_⟩
  · rintro rfl
    cases hOpen.symm.trans (h _ hMem)
  · rintro rfl
    cases hClose.symm.trans (h _ hMem)

theorem Balanced.of_isBlank {blanks : List Char} (h : ∀ c ∈ blanks, Token.isBlank c = true) :
    Balanced blanks :=
  .of_forall rfl rfl h

theorem Balanced.of_lexeme {kind : TokenKind} {lexeme : List Char} (h : Token.Lexeme kind lexeme)
    (hOpen : kind ≠ .openParen) (hClose : kind ≠ .closeParen) : Balanced lexeme := by
  have hDigits {text : List Char} (hText : ∀ c ∈ text, c.isDigit = true) : Balanced text :=
    .of_forall rfl rfl hText
  cases kind with
  | identifier =>
    obtain ⟨c, rest, rfl, hFirst, hRest⟩ := h
    exact .of_forall rfl rfl
      (List.forall_mem_cons.mpr ⟨Token.isWord_of_isWordStart hFirst, hRest⟩)
  | int => exact hDigits h.2
  | float =>
    obtain ⟨whole, fraction, rfl, -, hWhole, hFraction⟩ := h
    have hPoint : Balanced ['.'] := .plain (List.forall_mem_singleton.mpr (by decide))
    exact (hDigits hWhole).append (hPoint.append (hDigits hFraction))
  | openParen => exact absurd rfl hOpen
  | closeParen => exact absurd rfl hClose
  | endOfInput => exact h.elim
  | _ =>
    cases h
    exact .plain (List.forall_mem_singleton.mpr (by decide))

/-- The text of a number token is a numeral. -/
theorem Token.Lexeme.isNumeral {kind : TokenKind} {lexeme : List Char} (h : Lexeme kind lexeme)
    (hKind : kind = .float ∨ kind = .int) : IsNumeral lexeme := by
  rcases hKind with rfl | rfl
  · obtain ⟨whole, fraction, rfl, hWhole, hDigits, hFraction⟩ := h
    exact ⟨whole, '.' :: fraction, rfl, hWhole, hDigits, .inr ⟨fraction, rfl, hFraction⟩⟩
  · exact ⟨lexeme, [], (List.append_nil _).symm, h.1, h.2, .inl rfl⟩

/-! ## Texts of tokens -/

namespace Token

/-- A text at an offset that consists of the given tokens, with blanks before each. -/
inductive Laid : Nat → List Char → List Token → Prop where
  | nil {offset : Nat} : Laid offset [] []
  | cons {offset : Nat} {blanks lexeme rest : List Char} {kind : TokenKind} {tokens : List Token}
    (hBlanks : ∀ d ∈ blanks, isBlank d = true) (hLexeme : Lexeme kind lexeme)
    (hRest : Laid (offset + blanks.length + lexeme.length) rest tokens) :
    Laid offset (blanks ++ (lexeme ++ rest))
      (⟨kind, ⟨offset + blanks.length, offset + blanks.length + lexeme.length⟩,
        String.ofList lexeme⟩ :: tokens)

variable {offset : Nat} {text : List Char} {tokens tokens' : List Token}

/-- The tokens of a text stand in it, up to what follows the last of them. -/
theorem Splits.exists_laid {ending : Ending} (h : Splits offset text tokens ending) :
    ∃ front back, text = front ++ back ∧ Laid offset front tokens := by
  induction h with
  | finished => exact ⟨[], _, rfl, .nil⟩
  | unknown => exact ⟨[], _, rfl, .nil⟩
  | token hBlanks hLexeme hLongest hRest ih =>
    obtain ⟨front, back, rfl, hLaid⟩ := ih
    exact ⟨_, back, by simp only [List.append_assoc], .cons hBlanks hLexeme hLaid⟩

namespace Laid

/-- Parts that follow one another stand in texts that follow one another. -/
theorem of_append (h : Laid offset text (tokens ++ tokens')) :
    ∃ front back, text = front ++ back ∧ Laid offset front tokens ∧
      Laid (offset + front.length) back tokens' := by
  induction tokens generalizing offset text with
  | nil => exact ⟨[], text, rfl, .nil, h⟩
  | cons token tokens ih =>
    cases h with
    | @cons _ blanks lexeme rest kind _ hBlanks hLexeme hRest =>
      obtain ⟨front, back, rfl, hFront, hBack⟩ := ih hRest
      refine ⟨blanks ++ (lexeme ++ front), back, by simp only [List.append_assoc],
        .cons hBlanks hLexeme hFront, ?_⟩
      rw [List.length_append, List.length_append, ← Nat.add_assoc, ← Nat.add_assoc]
      exact hBack

/-- Two parts with a token between them. -/
theorem of_separated {separator : Token} (h : Laid offset text (tokens ++ separator :: tokens'))
    (hOpen : separator.kind ≠ .openParen) (hClose : separator.kind ≠ .closeParen) :
    ∃ front between back, text = front ++ (between ++ back) ∧ Laid offset front tokens ∧
      Balanced between ∧ Laid (offset + (front ++ between).length) back tokens' := by
  obtain ⟨front, back, rfl, hFront, hBack⟩ := h.of_append
  cases hBack with
  | @cons _ blanks lexeme rest _ _ hBlanks hLexeme hRest =>
    refine ⟨front, blanks ++ lexeme, rest, by simp only [List.append_assoc], hFront,
      (Balanced.of_isBlank hBlanks).append (.of_lexeme hLexeme hOpen hClose), ?_⟩
    rw [List.length_append, List.length_append, ← Nat.add_assoc, ← Nat.add_assoc]
    exact hRest

/-- A part in parentheses. -/
theorem of_enclosed {paren close : Token} (h : Laid offset text (paren :: (tokens ++ [close])))
    (hParen : paren.kind = .openParen) (hClose : close.kind = .closeParen) :
    ∃ blanks inside blanks', text = blanks ++ '(' :: ((inside ++ blanks') ++ [')']) ∧
      (∀ c ∈ blanks, isBlank c = true) ∧ (∀ c ∈ blanks', isBlank c = true) ∧
      Laid (offset + (blanks ++ ['(']).length) inside tokens ∧
      close.span.start + 1 = close.span.stop ∧ close.span.stop = offset + text.length := by
  cases h with
  | @cons _ blanks lexeme rest _ _ hBlanks hLexeme hRest =>
    obtain rfl : _ = TokenKind.openParen := hParen
    obtain rfl : lexeme = ['('] := hLexeme
    obtain ⟨inside, back, rfl, hInside, hBack⟩ := hRest.of_append
    cases hBack with
    | @cons _ blanks' lexeme' rest' _ _ hBlanks' hLexeme' hEnd =>
      obtain rfl : _ = TokenKind.closeParen := hClose
      obtain rfl : lexeme' = [')'] := hLexeme'
      cases hEnd
      refine ⟨blanks, inside, blanks', by simp, hBlanks, hBlanks', ?_, rfl, ?_⟩
      · rw [List.length_append, ← Nat.add_assoc]
        exact hInside
      · simp only [List.length_append, List.length_cons, List.length_nil]
        omega

end Laid

end Token

/-! ## Spans in a text -/

namespace Span

/-- Whether a part of a text that begins at an offset stands at a span. -/
def Holds (span : Span) (offset : Nat) (text part : List Char) : Prop :=
  ∃ before after, text = before ++ (part ++ after) ∧
    span = ⟨offset + before.length, offset + before.length + part.length⟩

/-- Two spans in their order are covered from the start of the first to the end of the second. -/
theorem merge_eq {a b : Span} (hStart : a.start ≤ b.start) (hStop : a.stop ≤ b.stop) :
    a.merge b = ⟨a.start, b.stop⟩ := by
  rw [merge, Nat.min_eq_left hStart, Nat.max_eq_right hStop]

end Span

namespace Expr

/-- What a node is written like: a number as the numeral that it was read from, a variable as its
name, which is a word, a call as such a name and something in parentheses, and a sign with something
behind it. -/
def Reads (text : List Char) : Expr → Prop
  | number _ value =>
    IsNumeral text ∧ ∃ read, readFloat text = .ok read ∧ value = .ofFloat read
  | var _ name => text = name.toList ∧ Token.Lexeme .identifier name.toList
  | call _ name _ => Token.Lexeme .identifier name.toList ∧ ∃ blanks inside,
    text = name.toList ++ (blanks ++ '(' :: (inside ++ [')'])) ∧
      (∀ c ∈ blanks, Token.isBlank c = true) ∧ Balanced inside
  | unary _ op _ => ∃ operand, text = op.sign :: operand
  | binary .. => True
  | sequence .. => True

/-- A node in a text: its span holds what reads like it, and the spans of its children, each before
the next. -/
structure Placed (offset : Nat) (text : List Char) (node : Expr) : Prop where
  written : ∃ part, part ≠ [] ∧ node.span.Holds offset text part ∧ node.Reads part
  inside : ∀ child ∈ node.children,
    node.span.start ≤ child.span.start ∧ child.span.stop ≤ node.span.stop
  ordered : node.children.Pairwise fun earlier later => earlier.span.stop ≤ later.span.start

/-- Whether all nodes of a tree are in a text. -/
def Fits (offset : Nat) (text : List Char) (e : Expr) : Prop :=
  ∀ node ∈ e.preorder, node.Placed offset text

variable {offset : Nat} {text : List Char} {e : Expr}

theorem Placed.bounds (h : e.Placed offset text) :
    offset ≤ e.span.start ∧ e.span.start < e.span.stop ∧ e.span.stop ≤ offset + text.length := by
  obtain ⟨part, hPart, ⟨before, after, rfl, hSpan⟩, -⟩ := h.written
  have hPos := List.length_pos_iff.mpr hPart
  rw [hSpan, List.length_append, List.length_append]
  dsimp only
  omega

/-- A node of a part of a text is in the text. -/
theorem Placed.widen {start : Nat} (h : e.Placed start text) (front back : List Char)
    (hStart : start = offset + front.length) : e.Placed offset (front ++ (text ++ back)) := by
  obtain ⟨⟨part, hPart, ⟨before, after, rfl, hSpan⟩, hReads⟩, hInside, hOrdered⟩ := h
  refine ⟨⟨part, hPart, ⟨front ++ before, after ++ back, ?_, ?_⟩, hReads⟩, hInside, hOrdered⟩
  · simp only [List.append_assoc]
  · rw [hSpan, hStart, List.length_append, ← Nat.add_assoc]

namespace Fits

theorem root (h : e.Fits offset text) : e.Placed offset text :=
  h e e.mem_preorder_self

theorem widen {start : Nat} (h : e.Fits start text) (front back : List Char)
    (hStart : start = offset + front.length) : e.Fits offset (front ++ (text ++ back)) :=
  fun node hMem => (h node hMem).widen front back hStart

/-- The same at the front of a text. -/
theorem append (h : e.Fits offset text) (back : List Char) : e.Fits offset (text ++ back) :=
  h.widen [] back rfl

/-- The same at the end of a text. -/
theorem behind {front : List Char} (h : e.Fits (offset + front.length) text) :
    e.Fits offset (front ++ text) := by
  have hWide := h.widen front [] rfl
  rwa [List.append_nil] at hWide

theorem of_children (hRoot : e.Placed offset text)
    (hChildren : ∀ child ∈ e.children, child.Fits offset text) : e.Fits offset text :=
  forall_mem_preorder_iff.mpr ⟨hRoot, hChildren⟩

/-- A node that covers two children, with something written between them. -/
theorem combine {left right : Expr} {between text' : List Char} (hLeft : left.Fits offset text)
    (hRight : right.Fits (offset + (text ++ between).length) text')
    (hChildren : e.children = [left, right]) (hSpan : e.span = left.span.merge right.span)
    (hReads : ∀ part, e.Reads part) : e.Fits offset (text ++ (between ++ text')) := by
  have hBounds := hLeft.root.bounds
  have hBounds' := hRight.root.bounds
  rw [List.length_append] at hBounds'
  have hMerge : e.span = ⟨left.span.start, right.span.stop⟩ := by
    rw [hSpan, Span.merge_eq (by omega) (by omega)]
  obtain ⟨part, hPart, ⟨before, after, hText, hHolds⟩, -⟩ := hLeft.root.written
  obtain ⟨part', -, ⟨before', after', hText', hHolds'⟩, -⟩ := hRight.root.written
  refine of_children ⟨⟨part ++ (after ++ (between ++ (before' ++ part'))), ?_,
    ⟨before, after', ?_, ?_⟩, hReads _⟩, ?_, ?_⟩ ?_
  · exact List.append_ne_nil_of_left_ne_nil hPart _
  · rw [hText, hText']
    simp only [List.append_assoc]
  · rw [hMerge, hHolds, hHolds', hText]
    simp only [List.length_append, Span.mk.injEq, true_and]
    omega
  · rw [hChildren, hMerge]
    refine List.forall_mem_cons.mpr ⟨?_, List.forall_mem_singleton.mpr ?_⟩ <;> dsimp only <;> omega
  · rw [hChildren]
    exact List.pairwise_pair.mpr (by omega)
  · rw [hChildren]
    refine List.forall_mem_cons.mpr ⟨hLeft.append _, List.forall_mem_singleton.mpr ?_⟩
    rw [← List.append_assoc]
    exact hRight.behind

end Fits

end Expr

/-! ## Derived trees -/

namespace Grammar

open Token (Laid)

/-- Wherever these tokens stand, the text is balanced and the tree is in it. -/
def Carries (tokens : List Token) (e : Expr) : Prop :=
  ∀ ⦃offset : Nat⦄ ⦃text : List Char⦄, Laid offset text tokens →
    Balanced text ∧ e.Fits offset text

/-- Wherever these tokens stand, the text is balanced and the trees are in it, each before the
next. -/
def CarriesAll (tokens : List Token) (es : List Expr) : Prop :=
  ∀ ⦃offset : Nat⦄ ⦃text : List Char⦄, Laid offset text tokens →
    Balanced text ∧ (∀ e ∈ es, e.Fits offset text) ∧
      es.Pairwise fun earlier later => earlier.span.stop ≤ later.span.start

/-- A token that is read as an operator is no parenthesis. -/
theorem ne_paren_of_operator {read : TokenKind → Option BinaryOp} {kind : TokenKind} {op : BinaryOp}
    (hOpen : read .openParen = none) (hClose : read .closeParen = none) (h : read kind = some op) :
    kind ≠ .openParen ∧ kind ≠ .closeParen := by
  constructor
  · rintro rfl
    cases hOpen.symm.trans h
  · rintro rfl
    cases hClose.symm.trans h

/-- A factor behind its sign. -/
theorem Carries.unary {sign : Token} {tokens : List Token} {op : UnaryOp} {operand : Expr}
    (hSign : ∀ lexeme, Token.Lexeme sign.kind lexeme → lexeme = [op.sign])
    (hOperand : Carries tokens operand) :
    Carries (sign :: tokens) (.unary (sign.span.merge operand.span) op operand) := by
  intro offset text hLaid
  cases hLaid with
  | @cons _ blanks lexeme rest _ _ hBlanks hLexeme hRest =>
    obtain rfl := hSign _ hLexeme
    obtain ⟨hBalanced, hFits⟩ := hOperand hRest
    have hPlain : Balanced [op.sign] := by
      refine .plain (List.forall_mem_singleton.mpr ?_)
      cases op <;> decide
    refine ⟨(Balanced.of_isBlank hBlanks).append (hPlain.append hBalanced), ?_⟩
    have hBounds := hFits.root.bounds
    obtain ⟨part, -, ⟨before, after, hText, hHolds⟩, -⟩ := hFits.root.written
    refine .of_children ⟨⟨op.sign :: (before ++ part), List.cons_ne_nil _ _,
      ⟨blanks, after, ?_, ?_⟩, ⟨_, rfl⟩⟩, ?_, List.pairwise_singleton ..⟩ ?_
    · rw [hText]
      simp
    · rw [hHolds]
      simp only [Expr.span, Span.merge, List.length_append, List.length_cons, List.length_nil,
        Span.mk.injEq]
      omega
    · refine List.forall_mem_singleton.mpr ?_
      simp only [Expr.span, Span.merge]
      omega
    · refine List.forall_mem_singleton.mpr ?_
      rw [Nat.add_assoc, ← List.length_append] at hFits
      rw [← List.append_assoc]
      exact hFits.behind

/-- A node for a single token. -/
theorem Carries.leaf {token : Token} {e : Expr} (hOpen : token.kind ≠ .openParen)
    (hClose : token.kind ≠ .closeParen) (hSpan : e.span = token.span) (hChildren : e.children = [])
    (hReads : Token.Lexeme token.kind token.text.toList → e.Reads token.text.toList) :
    Carries [token] e := by
  intro offset text hLaid
  cases hLaid with
  | @cons _ blanks lexeme rest _ _ hBlanks hLexeme hRest =>
    cases hRest
    rw [String.toList_ofList] at hReads
    refine ⟨(Balanced.of_isBlank hBlanks).append
      ((Balanced.of_lexeme hLexeme hOpen hClose).append .nil), ?_⟩
    refine .of_children ⟨⟨lexeme, hLexeme.ne_nil, ⟨blanks, [], rfl, hSpan⟩, hReads hLexeme⟩, ?_, ?_⟩
      ?_
    · rw [hChildren]
      exact List.forall_mem_nil _
    · rw [hChildren]
      exact .nil
    · rw [hChildren]
      exact List.forall_mem_nil _

/-- A call, given what holds of its arguments. -/
theorem Carries.call {name paren close : Token} {tokens : List Token} {args : List Expr}
    (hName : name.kind = .identifier) (hParen : paren.kind = .openParen)
    (hClose : close.kind = .closeParen) (hArgs : CarriesAll tokens args) :
    Carries (name :: paren :: (tokens ++ [close]))
      (.call (name.span.merge close.span) name.text args) := by
  intro offset text hLaid
  cases hLaid with
  | @cons _ blanks lexeme rest kind _ hBlanks hLexeme hRest =>
    obtain rfl : kind = .identifier := hName
    obtain ⟨between, inside, blanks', rfl, hBetween, hBlanks', hInside, hStart, hStop⟩ :=
      hRest.of_enclosed hParen hClose
    obtain ⟨hBalanced, hFits, hOrdered⟩ := hArgs hInside
    have hEnclosed := hBalanced.append (.of_isBlank hBlanks')
    have hWord := Balanced.of_lexeme hLexeme nofun nofun
    refine ⟨(Balanced.of_isBlank hBlanks).append (hWord.append
      ((Balanced.of_isBlank hBetween).append hEnclosed.enclosed)), ?_⟩
    simp only [List.length_append, List.length_cons, List.length_nil] at hStop
    have hSpan : Span.merge ⟨offset + blanks.length, offset + blanks.length + lexeme.length⟩
        close.span = ⟨offset + blanks.length, close.span.stop⟩ := by
      refine Span.merge_eq ?_ ?_ <;> dsimp only <;> omega
    rw [hSpan]
    refine .of_children ⟨⟨lexeme ++ (between ++ '(' :: (inside ++ blanks' ++ [')'])),
      List.append_ne_nil_of_left_ne_nil hLexeme.ne_nil _, ⟨blanks, [], ?_, ?_⟩,
      ⟨?_, between, inside ++ blanks', ?_, hBetween, hEnclosed⟩⟩, fun arg hArg => ?_, hOrdered⟩
      fun arg hArg => ?_
    · rw [List.append_nil]
    · simp only [Expr.span, List.length_append, List.length_cons, List.length_nil,
        Span.mk.injEq, true_and]
      omega
    · rw [String.toList_ofList]
      exact hLexeme
    · rw [String.toList_ofList]
    · have hBounds := (hFits arg hArg).root.bounds
      simp only [List.length_append, List.length_cons, List.length_nil] at hBounds
      show offset + blanks.length ≤ arg.span.start ∧ arg.span.stop ≤ close.span.stop
      omega
    · have hFront : offset + blanks.length + lexeme.length + (between ++ ['(']).length =
          offset + (blanks ++ (lexeme ++ (between ++ ['(']))).length := by
        simp only [List.length_append, Nat.add_assoc]
      have hWide := (hFits arg hArg).widen _ (blanks' ++ [')']) hFront
      simpa only [List.append_assoc, List.cons_append, List.nil_append] using hWide

/-- An operation, with its operands on both sides of a token. -/
theorem Carries.operation {operator : Token} {tokens tokens' : List Token} {left right e : Expr}
    (hOperator : operator.kind ≠ .openParen ∧ operator.kind ≠ .closeParen)
    (hLeft : Carries tokens left) (hRight : Carries tokens' right)
    (hChildren : e.children = [left, right]) (hSpan : e.span = left.span.merge right.span)
    (hReads : ∀ part, e.Reads part) : Carries (tokens ++ operator :: tokens') e := by
  intro offset text hLaid
  obtain ⟨hOpen, hClose⟩ := hOperator
  obtain ⟨front, between, back, rfl, hFront, hBetween, hBack⟩ := hLaid.of_separated hOpen hClose
  obtain ⟨hBalanced, hFits⟩ := hLeft hFront
  obtain ⟨hBalanced', hFits'⟩ := hRight hBack
  exact ⟨hBalanced.append (hBetween.append hBalanced'),
    hFits.combine hFits' hChildren hSpan hReads⟩

/-- A part in parentheses. -/
theorem Carries.enclosed {paren close : Token} {tokens : List Token} {e : Expr}
    (hParen : paren.kind = .openParen) (hClose : close.kind = .closeParen)
    (hInside : Carries tokens e) : Carries (paren :: (tokens ++ [close])) e := by
  intro offset text hLaid
  obtain ⟨blanks, inside, blanks', rfl, hBlanks, hBlanks', hPart, -⟩ :=
    hLaid.of_enclosed hParen hClose
  obtain ⟨hBalanced, hFits⟩ := hInside hPart
  refine ⟨(Balanced.of_isBlank hBlanks).append
    (hBalanced.append (.of_isBlank hBlanks')).enclosed, ?_⟩
  have hWide := hFits.widen (blanks ++ ['(']) (blanks' ++ [')']) rfl
  simpa only [List.append_assoc, List.cons_append, List.nil_append] using hWide

theorem CarriesAll.nil : CarriesAll [] [] := by
  intro offset text hLaid
  cases hLaid
  exact ⟨.nil, List.forall_mem_nil _, .nil⟩

theorem CarriesAll.single {tokens : List Token} {arg : Expr} (hArg : Carries tokens arg) :
    CarriesAll tokens [arg] := by
  intro offset text hLaid
  obtain ⟨hBalanced, hFits⟩ := hArg hLaid
  exact ⟨hBalanced, List.forall_mem_singleton.mpr hFits, List.pairwise_singleton ..⟩

/-- An argument behind a comma. -/
theorem CarriesAll.more {comma : Token} {tokens tokens' : List Token} {args : List Expr}
    {arg : Expr} (hList : CarriesAll tokens args) (hComma : comma.kind = .comma)
    (hArg : Carries tokens' arg) : CarriesAll (tokens ++ comma :: tokens') (args ++ [arg]) := by
  intro offset text hLaid
  obtain ⟨front, between, back, rfl, hFront, hBetween, hBack⟩ :=
    hLaid.of_separated (by rw [hComma]; decide) (by rw [hComma]; decide)
  obtain ⟨hBalanced, hFits, hOrdered⟩ := hList hFront
  obtain ⟨hBalanced', hFits'⟩ := hArg hBack
  refine ⟨hBalanced.append (hBetween.append hBalanced'), ?_, ?_⟩
  · refine List.forall_mem_append.mpr ⟨fun arg hMem => (hFits arg hMem).append _,
      List.forall_mem_singleton.mpr ?_⟩
    rw [← List.append_assoc]
    exact hFits'.behind
  · refine List.pairwise_append.mpr ⟨hOrdered, List.pairwise_singleton .., fun arg hMem => ?_⟩
    have hBounds := (hFits arg hMem).root.bounds
    have hBounds' := hFits'.root.bounds
    rw [List.length_append] at hBounds'
    exact List.forall_mem_singleton.mpr (by omega)

mutual

theorem IsFactor.carries : ∀ {depth : Nat} {tokens : List Token} {e : Expr},
    IsFactor depth tokens e → Carries tokens e
  | _, _, _, .number hKind hValue =>
    Carries.leaf (by rcases hKind with h | h <;> rw [h] <;> decide)
      (by rcases hKind with h | h <;> rw [h] <;> decide) rfl rfl
      fun hLexeme => ⟨hLexeme.isNumeral hKind, _, hValue, rfl⟩
  | _, _, _, .var hName =>
    Carries.leaf (by rw [hName]; decide) (by rw [hName]; decide) rfl rfl
      fun hLexeme => ⟨rfl, hName ▸ hLexeme⟩
  | _, _, _, .call hName hParen hClose hArgs => Carries.call hName hParen hClose hArgs.carries
  | _, _, _, .minus hSign hOperand =>
    Carries.unary (fun lexeme hLexeme => by rwa [hSign] at hLexeme) hOperand.carries
  | _, _, _, .plus hSign hOperand =>
    Carries.unary (fun lexeme hLexeme => by rwa [hSign] at hLexeme) hOperand.carries
  | _, _, _, .parenthesised hParen hClose hInside => Carries.enclosed hParen hClose hInside.carries

theorem IsTerm.carries : ∀ {depth : Nat} {tokens : List Token} {e : Expr},
    IsTerm depth tokens e → Carries tokens e
  | _, _, _, .factor hFactor => hFactor.carries
  | _, _, _, .operation hLeft hOp hRight =>
    Carries.operation (ne_paren_of_operator rfl rfl hOp) hLeft.carries hRight.carries rfl rfl
      fun _ => trivial

theorem IsExpr.carries : ∀ {depth : Nat} {tokens : List Token} {e : Expr},
    IsExpr depth tokens e → Carries tokens e
  | _, _, _, .term hTerm => hTerm.carries
  | _, _, _, .operation hLeft hOp hRight =>
    Carries.operation (ne_paren_of_operator rfl rfl hOp) hLeft.carries hRight.carries rfl rfl
      fun _ => trivial

theorem IsArguments.carries : ∀ {depth : Nat} {tokens : List Token} {args : List Expr},
    IsArguments depth tokens args → CarriesAll tokens args
  | _, _, _, .none => CarriesAll.nil
  | _, _, _, .some hList => hList.carries

theorem IsList.carries : ∀ {depth : Nat} {tokens : List Token} {args : List Expr},
    IsList depth tokens args → CarriesAll tokens args
  | _, _, _, .single hArg => CarriesAll.single hArg.carries
  | _, _, _, .more hList hComma hArg => CarriesAll.more hList.carries hComma hArg.carries

end

theorem IsSequence.carries {depth : Nat} {tokens : List Token} {e : Expr}
    (h : IsSequence depth tokens e) : Carries tokens e := by
  induction h with
  | single hExpr => exact hExpr.carries
  | more hFirst hSemicolon hSecond ih =>
    exact Carries.operation (by rw [hSemicolon]; decide) ih hSecond.carries rfl rfl fun _ => trivial

end Grammar

/-! ## Parsed texts -/

/-- In a source of ASCII characters, a span that holds a part of it is cut out as that part. -/
theorem Span.Holds.slice {source : Source} {span : Span} {part : List Char}
    (h : span.Holds 0 source.chars part) (hAscii : ∀ c ∈ source.chars, c.toNat < 128) :
    source.slice span = String.ofList part := by
  obtain ⟨chars⟩ := source
  obtain ⟨before, after, rfl, rfl⟩ := h
  have hSame := Source.slice_append before part after
  rw [Text.byteLength_ascii fun c hMem => hAscii c (by simp [hMem]),
    Text.byteLength_ascii fun c hMem => hAscii c (by simp [hMem])] at hSame
  rw [Nat.zero_add]
  exact hSame

theorem Source.length_ofString_le (text : String) :
    (Source.ofString text).length ≤ Text.byteLength text.toList := by
  rw [Source.length, ← Text.length_bytes, ← Text.length_bytes]
  exact (Source.bytes_ofString text ▸ List.takeWhile_prefix _).length_le

namespace Expr

/-- All nodes of a parsed text are placed in it, and it is ASCII. -/
theorem fits_of_ofString? {text : String} {tree : Expr} (h : ofString? text = .ok tree) :
    tree.Fits 0 (Source.ofString text).chars ∧
      ∀ c ∈ (Source.ofString text).chars, c.toNat < 128 := by
  obtain ⟨hError, hParse⟩ := ofSource?_eq_ok_iff.mp h
  obtain ⟨depth, hTree, -⟩ := Parser.parse_eq_ok_iff.mp hParse
  obtain ⟨stop, hStop⟩ := Token.Ending.finished_of_error? hError
  have hSplits := Token.splits_scanAll 0 (Source.ofString text).chars
  obtain ⟨front, back, hText, hLaid⟩ := hSplits.exists_laid
  refine ⟨?_, ?_⟩
  · rw [hText]
    exact (hTree.carries hLaid).2.append back
  · rcases hSplits.ends with ⟨-, hAll⟩ | ⟨before, c, after, -, -, -, hUnknown⟩
    · exact fun c hMem => Token.toNat_lt_of_isLexical (hAll c hMem)
    · rw [hStop] at hUnknown
      cases hUnknown

/-- Every node of a parsed text has a span that is not empty and lies in the text, and what stands
there reads like the node. The spans of its children lie in its span, each before the next. -/
theorem spans_nest {text : String} {tree : Expr} (h : ofString? text = .ok tree) :
    let source := Source.ofString text
    source.length ≤ Text.byteLength text.toList ∧ tree ∈ tree.preorder ∧
      ∀ node ∈ tree.preorder,
        node.span.start < node.span.stop ∧ node.span.stop ≤ source.length ∧
        node.Reads (source.slice node.span).toList ∧
        (∀ child ∈ node.children, child ∈ tree.preorder ∧
          node.span.start ≤ child.span.start ∧ child.span.stop ≤ node.span.stop) ∧
        node.children.Pairwise fun earlier later => earlier.span.stop ≤ later.span.start := by
  obtain ⟨hFits, hAscii⟩ := fits_of_ofString? h
  refine ⟨Source.length_ofString_le text, tree.mem_preorder_self, fun node hMem => ?_⟩
  have hPlaced := hFits node hMem
  obtain ⟨part, hPart, hHolds, hReads⟩ := hPlaced.written
  have hBounds := hPlaced.bounds
  rw [Nat.zero_add] at hBounds
  refine ⟨hBounds.2.1, ?_, ?_, fun child hChild => ⟨?_, hPlaced.inside child hChild⟩,
    hPlaced.ordered⟩
  · rw [Source.length, Text.byteLength_ascii hAscii]
    exact hBounds.2.2
  · rw [hHolds.slice hAscii, String.toList_ofList]
    exact hReads
  · exact tree.closed node hMem child hChild

/-- The tree of `f(x, (-y))`. -/
def callXNegY : Expr :=
  .call ⟨0, 10⟩ "f" [.var ⟨2, 3⟩ "x", .unary ⟨6, 8⟩ .neg (.var ⟨7, 8⟩ "y")]

theorem ofString?_callXNegY : ofString? "f(x, (-y))" = .ok callXNegY := by
  have hScan : Token.scanAll 0 (Source.ofString "f(x, (-y))").chars =
      ([⟨.identifier, ⟨0, 1⟩, "f"⟩, ⟨.openParen, ⟨1, 2⟩, "("⟩, ⟨.identifier, ⟨2, 3⟩, "x"⟩,
        ⟨.comma, ⟨3, 4⟩, ","⟩, ⟨.openParen, ⟨5, 6⟩, "("⟩, ⟨.minus, ⟨6, 7⟩, "-"⟩,
        ⟨.identifier, ⟨7, 8⟩, "y"⟩, ⟨.closeParen, ⟨8, 9⟩, ")"⟩, ⟨.closeParen, ⟨9, 10⟩, ")"⟩],
        .finished 10) := by
    cbv
  rw [ofString?, ofSource?, hScan]
  rfl

/-- The parentheses of the second argument are in the span of the call, but not in its own. -/
theorem spans_nest_callXNegY :
    let source := Source.ofString "f(x, (-y))"
    ofString? "f(x, (-y))" = .ok callXNegY ∧
      (∃ operand, (source.slice ⟨6, 8⟩).toList = '-' :: operand) ∧
      (source.slice ⟨7, 8⟩).toList = "y".toList ∧
      ∃ blanks inside, (source.slice ⟨0, 10⟩).toList =
        "f".toList ++ (blanks ++ '(' :: (inside ++ [')'])) ∧ Balanced inside := by
  intro source
  have hTree := ofString?_callXNegY
  have hAll : callXNegY.preorder = [callXNegY, .var ⟨2, 3⟩ "x",
      .unary ⟨6, 8⟩ .neg (.var ⟨7, 8⟩ "y"), .var ⟨7, 8⟩ "y"] := rfl
  obtain ⟨-, -, hNodes⟩ := spans_nest hTree
  rw [hAll] at hNodes
  obtain ⟨-, -, ⟨-, blanks, inside, hCall, -, hInside⟩, -⟩ := hNodes callXNegY (by simp)
  obtain ⟨-, -, hSign, -⟩ := hNodes (.unary ⟨6, 8⟩ .neg (.var ⟨7, 8⟩ "y")) (by simp)
  obtain ⟨-, -, ⟨hName, -⟩, -⟩ := hNodes (.var ⟨7, 8⟩ "y") (by simp)
  exact ⟨hTree, hSign, hName, blanks, inside, hCall, hInside⟩

end Expr

end Formula
