import Formula.Proofs.ErrorPositions

/-!
# How high the trees of texts are

The nesting that the parser limits is that of parentheses, signs and calls. A tree also grows with
each operator or semicolon, for what is before it becomes the left operand of a new node. So there
are texts without any nesting whose trees are as high as one likes (`Expr.height_unbounded`), and
whatever recurses on a tree recurses as deep.

The limit bounds all other ways down: on any path through the tree there is only a fixed number of
steps that do not go to a left operand (`Expr.turns`), since a rule of the grammar adds one at most
and the rules follow one another three times for each level of nesting. Between two such steps lies
a chain of left operands, so the height is bounded by that number and the longest such chain
(`Expr.height_le`).
-/

namespace Formula

namespace Expr

/-! ## Heights -/

mutual

/-- How many nodes are below one another at most. -/
def height : Expr → Nat
  | number _ _ => 1
  | var _ _ => 1
  | call _ _ args => 1 + heightAll args
  | unary _ _ operand => 1 + operand.height
  | binary _ _ left right => 1 + max left.height right.height
  | sequence _ first second => 1 + max first.height second.height

/-- The same of several expressions. -/
def heightAll : List Expr → Nat
  | [] => 0
  | e :: es => max e.height (heightAll es)

end

mutual

/-- The same without the nodes that are entered as the left operand of an operation or as the first
part of a sequence. -/
def turns : Expr → Nat
  | number _ _ => 1
  | var _ _ => 1
  | call _ _ args => 1 + turnsAll args
  | unary _ _ operand => 1 + operand.turns
  | binary _ _ left right => max left.turns (1 + right.turns)
  | sequence _ first second => max first.turns (1 + second.turns)

/-- The same of several expressions. -/
def turnsAll : List Expr → Nat
  | [] => 0
  | e :: es => max e.turns (turnsAll es)

end

/-- How many left operands and first parts follow one another from a node on. -/
def chain : Expr → Nat
  | binary _ _ left _ => left.chain + 1
  | sequence _ first _ => first.chain + 1
  | _ => 0

mutual

/-- The longest such chain from any node of a tree. -/
def longestChain : Expr → Nat
  | number _ _ => 0
  | var _ _ => 0
  | call _ _ args => longestChainAll args
  | unary _ _ operand => operand.longestChain
  | binary _ _ left right => max (left.chain + 1) (max left.longestChain right.longestChain)
  | sequence _ first second => max (first.chain + 1) (max first.longestChain second.longestChain)

/-- The same of several expressions. -/
def longestChainAll : List Expr → Nat
  | [] => 0
  | e :: es => max e.longestChain (longestChainAll es)

end

theorem chain_le_longestChain (e : Expr) : e.chain ≤ e.longestChain := by
  cases e with
  | binary => exact Nat.le_max_left ..
  | sequence => exact Nat.le_max_left ..
  | _ => exact Nat.zero_le _

section Bound

variable {limit : Nat}

/-- A node above two operands, of which the left one goes on with the chain. -/
theorem add_le_of_operands {left right chain turns turns' : Nat}
    (hLeft : left + limit ≤ chain + turns * (limit + 1)) (hRight : right ≤ turns' * (limit + 1)) :
    1 + max left right + limit ≤ chain + 1 + max turns (1 + turns') * (limit + 1) := by
  have hFirst := Nat.mul_le_mul_right (limit + 1) (Nat.le_max_left turns (1 + turns'))
  have hSecond := Nat.mul_le_mul_right (limit + 1) (Nat.le_max_right turns (1 + turns'))
  rw [Nat.add_mul] at hSecond
  omega

mutual

/-- Every path goes down one chain for each of its turns, and the first of these chains is the one
from the root. -/
theorem height_add_le : ∀ (e : Expr), e.longestChain ≤ limit →
    e.height + limit ≤ e.chain + e.turns * (limit + 1)
  | .number _ _, _ => by
    simp only [height, chain, turns]
    omega
  | .var _ _, _ => by
    simp only [height, chain, turns]
    omega
  | .call _ _ args, h => by
    have hArgs := heightAll_le args h
    simp only [height, chain, turns, Nat.add_mul]
    omega
  | .unary _ _ operand, h => by
    have hOperand := height_add_le operand h
    have hChain := operand.chain_le_longestChain.trans h
    simp only [height, chain, turns, Nat.add_mul]
    omega
  | .binary _ _ left right, h => by
    obtain ⟨-, h⟩ := Nat.max_le.mp h
    obtain ⟨hLeft, hRight⟩ := Nat.max_le.mp h
    have hHeight := height_add_le right hRight
    have hChain := right.chain_le_longestChain.trans hRight
    exact add_le_of_operands (height_add_le left hLeft) (by omega)
  | .sequence _ first second, h => by
    obtain ⟨-, h⟩ := Nat.max_le.mp h
    obtain ⟨hFirst, hSecond⟩ := Nat.max_le.mp h
    have hHeight := height_add_le second hSecond
    have hChain := second.chain_le_longestChain.trans hSecond
    exact add_le_of_operands (height_add_le first hFirst) (by omega)

theorem heightAll_le : ∀ (es : List Expr), longestChainAll es ≤ limit →
    heightAll es ≤ turnsAll es * (limit + 1)
  | [], _ => Nat.zero_le _
  | e :: es, h => by
    obtain ⟨hFirst, hRest⟩ := Nat.max_le.mp h
    have hHeight := height_add_le e hFirst
    have hChain := e.chain_le_longestChain.trans hFirst
    have hHeights := heightAll_le es hRest
    have hTurns := Nat.mul_le_mul_right (limit + 1) (Nat.le_max_left e.turns (turnsAll es))
    have hTurnsAll := Nat.mul_le_mul_right (limit + 1) (Nat.le_max_right e.turns (turnsAll es))
    simp only [heightAll, turnsAll]
    omega

end

end Bound

theorem turnsAll_append (es es' : List Expr) :
    turnsAll (es ++ es') = max (turnsAll es) (turnsAll es') := by
  induction es with
  | nil => exact (Nat.zero_max _).symm
  | cons e es ih => rw [List.cons_append, turnsAll, ih, turnsAll, Nat.max_assoc]

/-- The height of a tree, by its turns and its longest chain. -/
theorem height_le (e : Expr) : e.height ≤ e.turns * (e.longestChain + 1) := by
  have hHeight := height_add_le e le_rfl
  have hChain := e.chain_le_longestChain
  omega

end Expr

/-! ## Turns of derived trees -/

namespace Grammar

mutual

theorem IsFactor.turns_le : ∀ {depth : Nat} {tokens : List Token} {e : Expr},
    IsFactor depth tokens e → e.turns ≤ 3 * depth + 1
  | _, _, _, .number _ _ => le_rfl
  | _, _, _, .var _ => le_rfl
  | _, _, _, .call _ _ _ hArgs => by
    have hTurns := hArgs.turns_le
    rw [Expr.turns]
    omega
  | _, _, _, .minus _ hOperand => by
    have hTurns := hOperand.turns_le
    rw [Expr.turns]
    omega
  | _, _, _, .plus _ hOperand => by
    have hTurns := hOperand.turns_le
    rw [Expr.turns]
    omega
  | _, _, _, .parenthesised _ _ hInside => by
    have hTurns := hInside.turns_le
    omega

theorem IsTerm.turns_le : ∀ {depth : Nat} {tokens : List Token} {e : Expr},
    IsTerm depth tokens e → e.turns ≤ 3 * depth + 2
  | _, _, _, .factor hFactor => hFactor.turns_le.trans (Nat.le_succ _)
  | _, _, _, .operation hLeft _ hRight => by
    have hTurns := hLeft.turns_le
    have hTurns' := hRight.turns_le
    rw [Expr.turns]
    omega

theorem IsExpr.turns_le : ∀ {depth : Nat} {tokens : List Token} {e : Expr},
    IsExpr depth tokens e → e.turns ≤ 3 * depth + 3
  | _, _, _, .term hTerm => hTerm.turns_le.trans (Nat.le_succ _)
  | _, _, _, .operation hLeft _ hRight => by
    have hTurns := hLeft.turns_le
    have hTurns' := hRight.turns_le
    rw [Expr.turns]
    omega

theorem IsArguments.turns_le : ∀ {depth : Nat} {tokens : List Token} {args : List Expr},
    IsArguments depth tokens args → Expr.turnsAll args ≤ 3 * depth + 3
  | _, _, _, .none => Nat.zero_le _
  | _, _, _, .some hList => hList.turns_le

theorem IsList.turns_le : ∀ {depth : Nat} {tokens : List Token} {args : List Expr},
    IsList depth tokens args → Expr.turnsAll args ≤ 3 * depth + 3
  | _, _, _, .single hArg => Nat.max_le.mpr ⟨hArg.turns_le, Nat.zero_le _⟩
  | _, _, _, .more hList _ hArg => by
    have hTurns := hList.turns_le
    have hTurns' := hArg.turns_le
    rw [Expr.turnsAll_append, Expr.turnsAll, Expr.turnsAll]
    omega

end

theorem IsSequence.turns_le {depth : Nat} {tokens : List Token} {e : Expr}
    (h : IsSequence depth tokens e) : e.turns ≤ 3 * depth + 4 := by
  induction h with
  | single hExpr => exact hExpr.turns_le.trans (Nat.le_succ _)
  | more hFirst _ hSecond ih =>
    have hTurns := hSecond.turns_le
    rw [Expr.andThen, Expr.turns]
    omega

end Grammar

/-! ## Texts -/

/-- Lexemes with blanks before them are parsed to the tree that their tokens have. -/
theorem Token.exists_ofString?_spaced {lexemes : List (TokenKind × List Char)}
    (hLexemes : ∀ lexeme ∈ lexemes, Lexeme lexeme.1 lexeme.2) :
    ∃ tokens, tokens.map written = lexemes ∧ ∀ {depth tree},
      Grammar.IsSequence depth tokens tree → depth ≤ Parser.maxNesting →
        Expr.ofString? (String.ofList (spaced lexemes)) = .ok tree := by
  obtain ⟨tokens, stop, hSplits, hWritten⟩ := splits_spaced hLexemes 0
  refine ⟨tokens, hWritten, fun hTree hDepth => Expr.ofSource?_eq_ok_iff.mpr ?_⟩
  rw [Source.chars_ofString (not_mem_spaced hLexemes), scanAll_of_splits hSplits]
  exact ⟨rfl, Parser.parse_of_isSequence hTree hDepth⟩

namespace Expr

/-- A variable, and so many times a semicolon and the variable again. -/
def repeated : Nat → List (TokenKind × List Char)
  | 0 => [(.identifier, ['x'])]
  | n + 1 => repeated n ++ [(.semicolon, [';']), (.identifier, ['x'])]

theorem lexeme_of_mem_repeated (n : Nat) :
    ∀ lexeme ∈ repeated n, Token.Lexeme lexeme.1 lexeme.2 := by
  have hName : Token.Lexeme .identifier ['x'] := ⟨'x', [], rfl, rfl, nofun⟩
  induction n with
  | zero => exact List.forall_mem_singleton.mpr hName
  | succ n ih =>
    exact List.forall_mem_append.mpr
      ⟨ih, List.forall_mem_cons.mpr ⟨rfl, List.forall_mem_singleton.mpr hName⟩⟩

/-- The tree is as high as there are variables, though nothing in it is nested. -/
theorem exists_isSequence_repeated {n : Nat} {tokens : List Token}
    (h : tokens.map Token.written = repeated n) :
    ∃ tree, Grammar.IsSequence 0 tokens tree ∧ tree.height = n + 1 := by
  have hVar {name : Token} (hName : name.written = (.identifier, ['x'])) :
      Grammar.IsExpr 0 [name] (.var name.span name.text) :=
    .term (.factor (.var (congrArg Prod.fst hName)))
  induction n generalizing tokens with
  | zero =>
    obtain ⟨name, rfl, hName⟩ := List.map_eq_singleton_iff.mp h
    exact ⟨_, .single (hVar hName), rfl⟩
  | succ n ih =>
    obtain ⟨front, back, rfl, hFront, hBack⟩ := List.map_eq_append_iff.mp h
    obtain ⟨semicolon, back, rfl, hSemicolon, hBack⟩ := List.map_eq_cons_iff.mp hBack
    obtain ⟨name, rfl, hName⟩ := List.map_eq_singleton_iff.mp hBack
    obtain ⟨tree, hTree, hHeight⟩ := ih hFront
    refine ⟨_, .more hTree (congrArg Prod.fst hSemicolon) (hVar hName), ?_⟩
    rw [andThen, height, height, hHeight]
    omega

/-- The text of these lexemes. -/
def repeatedText (n : Nat) : String :=
  String.ofList (Token.spaced (repeated n))

theorem ofString?_repeatedText (n : Nat) :
    ∃ tree, ofString? (repeatedText n) = .ok tree ∧ tree.height = n + 1 := by
  obtain ⟨tokens, hWritten, hParse⟩ := Token.exists_ofString?_spaced (lexeme_of_mem_repeated n)
  obtain ⟨tree, hTree, hHeight⟩ := exists_isSequence_repeated hWritten
  exact ⟨tree, hParse hTree (Nat.zero_le _), hHeight⟩

/-- No number bounds the height of the trees of all texts that are accepted. -/
theorem height_unbounded :
    ¬∃ bound, ∀ text tree, ofString? text = .ok tree → tree.height ≤ bound := by
  rintro ⟨bound, hBound⟩
  obtain ⟨tree, hTree, hHeight⟩ := ofString?_repeatedText bound
  have hLe := hBound (repeatedText bound) tree hTree
  omega

/-- The nesting that the parser allows bounds how often a path through the tree of a text does
anything else than enter the left operand of an operation or the first part of a sequence. So the
tree is no higher than that number times the length of the longest run of such operands. -/
theorem ofString?_bounds_turns {text : String} {tree : Expr} (h : ofString? text = .ok tree) :
    tree.turns ≤ 3 * Parser.maxNesting + 4 ∧
      tree.height ≤ (3 * Parser.maxNesting + 4) * (tree.longestChain + 1) := by
  obtain ⟨-, hParse⟩ := ofSource?_eq_ok_iff.mp h
  obtain ⟨depth, hTree, hDepth⟩ := Parser.parse_eq_ok_iff.mp hParse
  have hTurns : tree.turns ≤ 3 * Parser.maxNesting + 4 := by
    have hDerived := hTree.turns_le
    omega
  exact ⟨hTurns, tree.height_le.trans (Nat.mul_le_mul_right _ hTurns)⟩

/-- A tree with nothing nested in it that is higher than the parser's nesting. -/
theorem ofString?_bounds_turns_repeatedText : ∃ tree, ofString? (repeatedText 999) = .ok tree ∧
    tree.height = 1000 ∧ tree.turns ≤ 772 ∧ 1000 ≤ 772 * (tree.longestChain + 1) := by
  obtain ⟨tree, hTree, hHeight⟩ := ofString?_repeatedText 999
  obtain ⟨hTurns, hBound⟩ := ofString?_bounds_turns hTree
  rw [hHeight] at hBound
  exact ⟨tree, hTree, hHeight, hTurns, hBound⟩

end Expr

end Formula
