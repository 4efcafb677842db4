import Formula.Number.Double
import Formula.Source.Span

/-!
# Expressions

The tree of an expression. Each node carries the span of source text it came from. Parentheses
leave no node; a sequence evaluates both sides and has the value of the second.
-/

namespace Formula

/-- The arithmetic operations on two operands. -/
inductive BinaryOp where
  | add
  | sub
  | mul
  | div
deriving DecidableEq, Inhabited

namespace BinaryOp

/-- The operation on doubles. -/
def apply : BinaryOp → Float → Float → Float
  | add, x, y => x + y
  | sub, x, y => x - y
  | mul, x, y => x * y
  | div, x, y => x / y

end BinaryOp

/-- The signs that may stand before an operand. -/
inductive UnaryOp where
  | neg
  | plus
deriving DecidableEq, Inhabited

namespace UnaryOp

/-- The operation on doubles. -/
def apply : UnaryOp → Float → Float
  | neg, x => -x
  | plus, x => x

end UnaryOp

/-- An expression. -/
inductive Expr where
  | number (span : Span) (value : Double)
  | var (span : Span) (name : String)
  | call (span : Span) (name : String) (args : List Expr)
  | unary (span : Span) (op : UnaryOp) (operand : Expr)
  | binary (span : Span) (op : BinaryOp) (left right : Expr)
  | sequence (span : Span) (first second : Expr)
deriving Inhabited

namespace Expr

/-- The source text of a node. -/
def span : Expr → Span
  | number span _ => span
  | var span _ => span
  | call span _ _ => span
  | unary span _ _ => span
  | binary span _ _ _ => span
  | sequence span _ _ => span

/-- First one expression, then the other. -/
def andThen (first second : Expr) : Expr :=
  .sequence (first.span.merge second.span) first second

/-- The operands of a node, in order of evaluation. -/
def children : Expr → List Expr
  | number _ _ => []
  | var _ _ => []
  | call _ _ args => args
  | unary _ _ operand => [operand]
  | binary _ _ left right => [left, right]
  | sequence _ first second => [first, second]

mutual

/-- Number of nodes. -/
def size : Expr → Nat
  | number _ _ => 1
  | var _ _ => 1
  | call _ _ args => 1 + sizeList args
  | unary _ _ operand => 1 + operand.size
  | binary _ _ left right => 1 + (left.size + right.size)
  | sequence _ first second => 1 + (first.size + second.size)

/-- Number of nodes of several expressions. -/
def sizeList : List Expr → Nat
  | [] => 0
  | e :: es => e.size + sizeList es

end

mutual

/-- The nodes of an expression, each before its operands, in front of `rest`. -/
def preorderOnto (rest : List Expr) : Expr → List Expr
  | number span value => number span value :: rest
  | var span name => var span name :: rest
  | call span name args => call span name args :: preorderListOnto rest args
  | unary span op operand => unary span op operand :: preorderOnto rest operand
  | binary span op left right =>
    binary span op left right :: preorderOnto (preorderOnto rest right) left
  | sequence span first second =>
    sequence span first second :: preorderOnto (preorderOnto rest second) first

/-- The nodes of several expressions in front of `rest`. -/
def preorderListOnto (rest : List Expr) : List Expr → List Expr
  | [] => rest
  | e :: es => preorderOnto (preorderListOnto rest es) e

end

/-- All nodes, each before its operands. -/
def preorder (e : Expr) : List Expr :=
  e.preorderOnto []

end Expr

end Formula
