import Formula.Expr.Parser
import Formula.Proofs.LeftToRight
import Formula.Proofs.Signature
import Formula.Proofs.Tokens

/-!
# Names in parsed expressions

The names of the functions that a parsed expression calls are words, so none of them begins with a
digit (`plain_of_ofString?`). Every rule of the grammar takes the names in its tree from identifier
tokens, and leaves tokens that it was given.
-/

namespace Formula

/-- Whether no call is of a name that begins with a digit. -/
def Expr.Plain (e : Expr) : Prop :=
  ∀ signature, .call signature ∈ e.references → Signature.Plain signature.name

namespace Token

/-- Whether the token is not an identifier that begins with a digit. -/
def Plain (token : Token) : Prop :=
  token.kind = .identifier → Signature.Plain token.text

theorem plain_of_scanNumber {start : Nat} {text rest : List Char} {token : Token}
    (h : scanNumber start text = .token token rest) : token.Plain := by
  unfold scanNumber at h
  dsimp only at h
  split at h <;>
  · cases h
    exact nofun

theorem plain_of_scan {offset : Nat} {text rest : List Char} {token : Token}
    (h : scan offset text = .token token rest) : token.Plain := by
  unfold scan scanSolid at h
  split at h
  · cases h
  · split at h
    · rename_i kind hKind
      cases h
      exact fun hIdentifier => absurd hIdentifier (operator?_ne hKind).1
    · split_ifs at h with hWord hDigit
      · cases h
        exact fun _ => Signature.plain_of_isWordStart (String.toList_ofList ..) hWord
      · exact plain_of_scanNumber h

end Token

namespace Parser

/-- Whether no token is an identifier that begins with a digit. -/
def PlainTokens (tokens : List Token) : Prop :=
  ∀ token ∈ tokens, token.Plain

theorem PlainTokens.head {token : Token} {tokens : List Token} (h : PlainTokens (token :: tokens)) :
    token.Plain :=
  h token (List.mem_cons_self ..)

theorem PlainTokens.tail {token : Token} {tokens : List Token} (h : PlainTokens (token :: tokens)) :
    PlainTokens tokens :=
  fun other hOther => h other (List.mem_cons_of_mem _ hOther)

/-- A rule that takes plain tokens to a plain tree and leaves plain tokens. -/
def Keeps (rule : Rule) : Prop :=
  ∀ wanted ⦃tokens e rest⦄, PlainTokens tokens → rule wanted tokens = .ok (e, rest) →
    e.Plain ∧ PlainTokens rest

/-! ## Trees -/

theorem plain_number (span : Span) (value : Double) : (Expr.number span value).Plain := by
  intro signature hMem
  cases hMem

theorem plain_var (span : Span) (name : String) : (Expr.var span name).Plain := by
  intro signature hMem
  cases List.mem_singleton.mp hMem

theorem plain_binary {span : Span} {op : BinaryOp} {left right : Expr} (hLeft : left.Plain)
    (hRight : right.Plain) : (Expr.binary span op left right).Plain := by
  intro signature hMem
  rcases List.mem_append.mp hMem with hMem | hMem
  · exact hLeft signature hMem
  · exact hRight signature hMem

theorem plain_sequence {span : Span} {first second : Expr} (hFirst : first.Plain)
    (hSecond : second.Plain) : (Expr.sequence span first second).Plain := by
  intro signature hMem
  rcases List.mem_append.mp hMem with hMem | hMem
  · exact hFirst signature hMem
  · exact hSecond signature hMem

theorem mem_referencesAll {args : List Expr} {name : Reference}
    (h : name ∈ Expr.referencesAll args) : ∃ arg ∈ args, name ∈ arg.references := by
  induction args with
  | nil => cases h
  | cons arg args ih =>
    rcases List.mem_append.mp h with h | h
    · exact ⟨arg, List.mem_cons_self .., h⟩
    · obtain ⟨other, hOther, hName⟩ := ih h
      exact ⟨other, List.mem_cons_of_mem _ hOther, hName⟩

theorem plain_call {span : Span} {name : String} {args : List Expr} (hName : Signature.Plain name)
    (hArgs : ∀ arg ∈ args, arg.Plain) : (Expr.call span name args).Plain := by
  intro signature hMem
  rcases List.mem_append.mp hMem with hMem | hMem
  · obtain ⟨arg, hArg, hMem⟩ := mem_referencesAll hMem
    exact hArgs arg hArg signature hMem
  · cases List.mem_singleton.mp hMem
    exact hName

/-! ## Rules -/

theorem keeps_chain {op? : TokenKind → Option BinaryOp} {operand : List Token → Result}
    (hOperand : ∀ ⦃tokens e rest⦄, PlainTokens tokens → operand tokens = .ok (e, rest) →
      e.Plain ∧ PlainTokens rest) :
    ∀ (limit : Nat) {left e : Expr} {tokens rest : List Token}, left.Plain → PlainTokens tokens →
      chain op? operand limit left tokens = .ok (e, rest) → e.Plain ∧ PlainTokens rest := by
  intro limit
  induction limit with
  | zero =>
    intro left e tokens rest hLeft hTokens h
    cases h
    exact ⟨hLeft, hTokens⟩
  | succ limit ih =>
    intro left e tokens rest hLeft hTokens h
    cases tokens with
    | nil =>
      cases h
      exact ⟨hLeft, hTokens⟩
    | cons token tokens =>
      simp only [chain] at h
      split at h
      · cases h
        exact ⟨hLeft, hTokens⟩
      · split at h
        · cases h
        · rename_i right rest' hRight
          obtain ⟨hRight, hRest⟩ := hOperand hTokens.tail hRight
          exact ih (plain_binary hLeft hRight) hRest h

variable {stop : Token} {limit : Nat} {factor : Rule}

theorem keeps_term (hFactor : Keeps factor) : Keeps (term limit factor) := by
  intro wanted tokens e rest hTokens h
  simp only [term] at h
  split at h
  · cases h
  · rename_i left rest' hLeft
    obtain ⟨hLeft, hRest⟩ := hFactor wanted hTokens hLeft
    exact keeps_chain (hFactor _) limit hLeft hRest h

theorem keeps_expr (hFactor : Keeps factor) : Keeps (expr limit factor) := by
  intro wanted tokens e rest hTokens h
  simp only [expr] at h
  split at h
  · cases h
  · rename_i left rest' hLeft
    obtain ⟨hLeft, hRest⟩ := keeps_term hFactor wanted hTokens hLeft
    exact keeps_chain (keeps_term hFactor _) limit hLeft hRest h

theorem keeps_moreArguments (hFactor : Keeps factor) :
    ∀ (fuel : Nat) {collected args : List Expr} {tokens rest : List Token},
      (∀ arg ∈ collected, arg.Plain) → PlainTokens tokens →
      moreArguments limit factor fuel collected tokens = .ok (args, rest) →
      (∀ arg ∈ args, arg.Plain) ∧ PlainTokens rest := by
  intro fuel
  induction fuel with
  | zero =>
    intro collected args tokens rest hCollected hTokens h
    cases h
    exact ⟨fun arg hArg => hCollected arg (List.mem_reverse.mp hArg), hTokens⟩
  | succ fuel ih =>
    intro collected args tokens rest hCollected hTokens h
    cases tokens with
    | nil =>
      cases h
      exact ⟨fun arg hArg => hCollected arg (List.mem_reverse.mp hArg), hTokens⟩
    | cons token tokens =>
      simp only [moreArguments] at h
      split_ifs at h
      · split at h
        · cases h
        · rename_i arg rest' hArg
          obtain ⟨hArg, hRest⟩ := keeps_expr hFactor _ hTokens.tail hArg
          exact ih (List.forall_mem_cons.mpr ⟨hArg, hCollected⟩) hRest h
      · cases h
        exact ⟨fun arg hArg => hCollected arg (List.mem_reverse.mp hArg), hTokens⟩

theorem keeps_arguments (hFactor : Keeps factor) {args : List Expr} {tokens rest : List Token}
    (hTokens : PlainTokens tokens) (h : arguments stop limit factor tokens = .ok (args, rest)) :
    (∀ arg ∈ args, arg.Plain) ∧ PlainTokens rest := by
  simp only [arguments] at h
  split_ifs at h
  · split at h
    · cases h
    · rename_i arg rest' hArg
      obtain ⟨hArg, hRest⟩ := keeps_expr hFactor _ hTokens hArg
      exact keeps_moreArguments hFactor limit (List.forall_mem_singleton.mpr hArg) hRest h
  · cases h
    exact ⟨nofun, hTokens⟩

theorem keeps_closeParen {close : Token} {tokens rest : List Token} (hTokens : PlainTokens tokens)
    (h : closeParen stop tokens = .ok (close, rest)) : PlainTokens rest := by
  cases tokens with
  | nil => cases h
  | cons token tokens =>
    simp only [closeParen] at h
    split_ifs at h
    cases h
    exact hTokens.tail

variable {inner : Option Rule}

/-- The rule for the next level keeps names plain if there is one. -/
def KeepsInner (inner : Option Rule) : Prop :=
  ∀ rule ∈ inner, Keeps rule

theorem keeps_of_enter (hInner : KeepsInner inner) {span : Span} {rest : List Token}
    (h : enter inner span rest = .ok factor) : Keeps factor := by
  cases inner with
  | none => cases h
  | some rule =>
    cases h
    exact hInner _ rfl

theorem keeps_call (hInner : KeepsInner inner) {name : Token} {tokens rest : List Token} {e : Expr}
    (hName : Signature.Plain name.text) (hTokens : PlainTokens tokens)
    (h : call stop limit inner name tokens = .ok (e, rest)) : e.Plain ∧ PlainTokens rest := by
  obtain ⟨factor, hEnter, h⟩ := Except.bind_eq_ok_iff.mp h
  obtain ⟨⟨args, rest₁⟩, hArguments, h⟩ := Except.bind_eq_ok_iff.mp h
  obtain ⟨⟨close, rest₂⟩, hClose, h⟩ := Except.bind_eq_ok_iff.mp h
  cases h
  obtain ⟨hArgs, hRest⟩ := keeps_arguments (keeps_of_enter hInner hEnter) hTokens hArguments
  exact ⟨plain_call hName hArgs, keeps_closeParen hRest hClose⟩

theorem keeps_signed (hInner : KeepsInner inner) {sign : Token} {op : UnaryOp} {wanted : Wanted}
    {tokens rest : List Token} {e : Expr} (hTokens : PlainTokens tokens)
    (h : signed inner sign op wanted tokens = .ok (e, rest)) : e.Plain ∧ PlainTokens rest := by
  obtain ⟨factor, hEnter, h⟩ := Except.bind_eq_ok_iff.mp h
  obtain ⟨⟨operand, rest₁⟩, hOperand, h⟩ := Except.bind_eq_ok_iff.mp h
  cases h
  obtain ⟨hPlain, hRest⟩ := keeps_of_enter hInner hEnter wanted hTokens hOperand
  exact ⟨hPlain, hRest⟩

theorem keeps_parenthesised (hInner : KeepsInner inner) {paren : Token} {tokens rest : List Token}
    {e : Expr} (hTokens : PlainTokens tokens)
    (h : parenthesised stop limit inner paren tokens = .ok (e, rest)) :
    e.Plain ∧ PlainTokens rest := by
  obtain ⟨factor, hEnter, h⟩ := Except.bind_eq_ok_iff.mp h
  obtain ⟨⟨inside, rest₁⟩, hInside, h⟩ := Except.bind_eq_ok_iff.mp h
  obtain ⟨⟨close, rest₂⟩, hClose, h⟩ := Except.bind_eq_ok_iff.mp h
  cases h
  obtain ⟨hInside, hRest⟩ := keeps_expr (keeps_of_enter hInner hEnter) _ hTokens hInside
  exact ⟨hInside, keeps_closeParen hRest hClose⟩

theorem keeps_factorWith (hInner : KeepsInner inner) : Keeps (factorWith stop limit inner) := by
  intro wanted tokens e rest hTokens h
  cases tokens with
  | nil => cases h
  | cons token tokens =>
    simp only [factorWith] at h
    split at h
    · split at h <;> cases h
      exact ⟨plain_number _ _, hTokens.tail⟩
    · split at h <;> cases h
      exact ⟨plain_number _ _, hTokens.tail⟩
    · rename_i hKind
      split at h
      · cases h
        exact ⟨plain_var _ _, hTokens.tail⟩
      · split_ifs at h
        · exact keeps_call hInner (hTokens.head hKind) hTokens.tail.tail h
        · cases h
          exact ⟨plain_var _ _, hTokens.tail⟩
    · exact keeps_signed hInner hTokens.tail h
    · exact keeps_signed hInner hTokens.tail h
    · exact keeps_parenthesised hInner hTokens.tail h
    · cases h

theorem keeps_factor (stop : Token) (limit budget : Nat) :
    Keeps (Parser.factor stop limit budget) := by
  induction budget with
  | zero => exact keeps_factorWith nofun
  | succ budget ih =>
    exact keeps_factorWith fun rule hRule => Option.some.inj hRule ▸ ih

theorem keeps_moreExprs (hFactor : Keeps factor) :
    ∀ (fuel : Nat) {first e : Expr} {tokens rest : List Token}, first.Plain → PlainTokens tokens →
      moreExprs limit factor fuel first tokens = .ok (e, rest) → e.Plain := by
  intro fuel
  induction fuel with
  | zero =>
    intro first e tokens rest hFirst hTokens h
    cases h
    exact hFirst
  | succ fuel ih =>
    intro first e tokens rest hFirst hTokens h
    cases tokens with
    | nil =>
      cases h
      exact hFirst
    | cons token tokens =>
      simp only [moreExprs] at h
      split_ifs at h
      · split at h
        · cases h
        · rename_i second rest' hSecond
          obtain ⟨hSecond, hRest⟩ := keeps_expr hFactor _ hTokens.tail hSecond
          exact ih (plain_sequence hFirst hSecond) hRest h
      · cases h
        exact hFirst

theorem plain_of_parse {tokens : List Token} {e : Expr} (hTokens : PlainTokens tokens)
    (h : parse stop tokens = .ok e) : e.Plain := by
  obtain ⟨⟨first, rest⟩, hFirst, h⟩ := Except.bind_eq_ok_iff.mp h
  obtain ⟨hFirst, hRest⟩ := keeps_expr (keeps_factor stop _ _) _ hTokens hFirst
  obtain ⟨⟨tree, rest'⟩, hTree, h⟩ := Except.bind_eq_ok_iff.mp h
  have hPlain := keeps_moreExprs (keeps_factor stop _ _) _ hFirst hRest hTree
  dsimp only at h
  split_ifs at h
  cases h
  exact hPlain

end Parser

/-- A parsed expression calls no function whose name begins with a digit. -/
theorem Expr.plain_of_ofString? {text : String} {e : Expr} (h : Expr.ofString? text = .ok e) :
    e.Plain := by
  simp only [Expr.ofString?, Expr.ofSource?] at h
  split at h <;> try cases h
  · rename_i hParse
    exact Parser.plain_of_parse (Token.forall_scanAll Token.plain_of_scan _ _) hParse
  · split_ifs at h

/-! ## An example -/

/-- The expression `-x`. -/
def Expr.negX : Expr :=
  .unary ⟨0, 2⟩ .neg (.var ⟨1, 2⟩ "x")

theorem Expr.ofString?_negX : Expr.ofString? "-x" = .ok negX := by
  have hScan : Token.scanAll 0 (Source.ofString "-x").chars =
      ([⟨.minus, ⟨0, 1⟩, "-"⟩, ⟨.identifier, ⟨1, 2⟩, "x"⟩], .finished 2) := by
    cbv
  rw [Expr.ofString?, Expr.ofSource?, hScan]
  rfl

/-- The tree of `y()`. -/
def Expr.callY : Expr :=
  .call ⟨0, 3⟩ "y" []

theorem Expr.ofString?_callY : Expr.ofString? "y()" = .ok callY := by
  have hScan : Token.scanAll 0 (Source.ofString "y()").chars =
      ([⟨.identifier, ⟨0, 1⟩, "y"⟩, ⟨.openParen, ⟨1, 2⟩, "("⟩, ⟨.closeParen, ⟨2, 3⟩, ")"⟩],
        .finished 3) := by
    cbv
  rw [Expr.ofString?, Expr.ofSource?, hScan]
  rfl

end Formula
