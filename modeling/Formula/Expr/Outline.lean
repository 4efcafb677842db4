import Formula.Expr
import Formula.Number.Layout

/-!
# Outlines of expressions

`Expr.outline` draws a tree with one node a line. A node at depth `d` stands behind `d` units of
four characters each, of which the last says whether the node is the last operand of its parent.
-/

namespace Formula.Expr

/-- The name of a node. -/
def label : Expr → String
  | number _ value => "Float " ++ plain value.toFloat
  | var _ name => "Variable " ++ name
  | call _ name args => "Call " ++ name ++ "/" ++ toString args.length
  | unary _ .neg _ => "Neg"
  | unary _ .plus _ => "Plus"
  | binary _ .add _ _ => "Add"
  | binary _ .sub _ _ => "Sub"
  | binary _ .mul _ _ => "Mul"
  | binary _ .div _ _ => "Div"
  | sequence _ _ _ => "Combine"

/-- The unit before a node. -/
def branch (last : Bool) : String :=
  if last then "└── " else "├── "

/-- The unit before whatever stands below a node. -/
def trunk (last : Bool) : String :=
  if last then "    " else "│   "

mutual

/-- The lines of a node; `lead` stands before its own line and `below` before those of its
operands. -/
def outlineLines (lead below : String) : Expr → List String
  | number span value => [lead ++ (number span value).label]
  | var span name => [lead ++ (var span name).label]
  | call span name args => (lead ++ (call span name args).label) :: operandLines below args
  | unary span op operand =>
    (lead ++ (unary span op operand).label) ::
      outlineLines (below ++ branch true) (below ++ trunk true) operand
  | binary span op left right =>
    (lead ++ (binary span op left right).label) ::
      (outlineLines (below ++ branch false) (below ++ trunk false) left ++
        outlineLines (below ++ branch true) (below ++ trunk true) right)
  | sequence span first second =>
    (lead ++ (sequence span first second).label) ::
      (outlineLines (below ++ branch false) (below ++ trunk false) first ++
        outlineLines (below ++ branch true) (below ++ trunk true) second)

/-- The lines of the operands of a node. -/
def operandLines (below : String) : List Expr → List String
  | [] => []
  | e :: es =>
    outlineLines (below ++ branch es.isEmpty) (below ++ trunk es.isEmpty) e ++
      operandLines below es

end

/-- The tree, one node a line. -/
def outline (e : Expr) : String :=
  String.join ((e.outlineLines "" "").map (· ++ "\n"))

end Formula.Expr
