import Formula.Source.Span

/-!
# Tokens

The kinds of token of the expression language and the character classes they are made of. All of
them are ASCII, so a token's characters and bytes coincide.
-/

namespace Formula

/-- What a token is. Some operators are recognised although no expression uses them. -/
inductive TokenKind where
  | assign
  | plus
  | minus
  | star
  | slash
  | openParen
  | closeParen
  | percent
  | caret
  | dot
  | comma
  | semicolon
  | identifier
  | float
  | int
  | endOfInput
deriving DecidableEq, Inhabited

namespace TokenKind

/-- One character for each kind: an operator stands for itself. -/
def tag : TokenKind → Char
  | assign => '='
  | plus => '+'
  | minus => '-'
  | star => '*'
  | slash => '/'
  | openParen => '('
  | closeParen => ')'
  | percent => '%'
  | caret => '^'
  | dot => '.'
  | comma => ','
  | semicolon => ';'
  | identifier => 'd'
  | float => 'f'
  | int => 'i'
  | endOfInput => '\x00'

/-- The operator a character stands for. -/
def operator? : Char → Option TokenKind
  | '=' => some assign
  | '+' => some plus
  | '-' => some minus
  | '*' => some star
  | '/' => some slash
  | '(' => some openParen
  | ')' => some closeParen
  | '%' => some percent
  | '^' => some caret
  | '.' => some dot
  | ',' => some comma
  | ';' => some semicolon
  | _ => none

end TokenKind

/-- A token, where it stands and how it is written. The end of the input has no text. -/
structure Token where
  kind : TokenKind
  span : Span
  text : String
deriving DecidableEq, Inhabited

namespace Token

/-- Space, tab, line feed, form feed and carriage return separate tokens. -/
def isBlank (c : Char) : Bool :=
  c = ' ' || c = '\t' || c = '\n' || c = '\x0c' || c = '\r'

/-- An ASCII letter or an underscore. -/
def isWordStart (c : Char) : Bool :=
  c.isAlpha || c = '_'

/-- An ASCII letter, an ASCII digit or an underscore. -/
def isWord (c : Char) : Bool :=
  c.isAlphanum || c = '_'

/-- The token that closes every token sequence, one byte past offset `offset`. -/
def endOfInput (offset : Nat) : Token :=
  ⟨.endOfInput, ⟨offset, offset + 1⟩, ""⟩

end Token

end Formula
