import Formula.CommandLine.Run
import Formula.Proofs.Interpreter
import Formula.Proofs.Native.Program

/-!
# Expressions with the values of variables

At the command line, variables have values that no evaluation changes. So a value can take the
place of each variable: `Closes` relates an expression to the tree in which every variable, in the
expression and in the bodies of the sub-programs that it calls, is replaced by its value, whatever
cells there are. `Resolved.fill` does the same to a tree with cells. That changes neither the value
at the command line (`eval_fill`) nor what an evaluation takes (`need_fill`, `callDepth_fill`), and
gives the closed tree of an expression if the cells hold the values of the variables
(`Resolves.closes_fill`).
-/

namespace Formula

/-! ## Values in the place of cells -/

namespace Resolved

mutual

/-- The tree with values in the place of cells. -/
def fill (read : Cell → Float) : Resolved → Resolved
  | .number value => .number value
  | .var cell => .number (.ofFloat (read cell))
  | .call f args => .call f (fillAll read args)
  | .subprogram body => .subprogram (body.fill read)
  | .unary op operand => .unary op (operand.fill read)
  | .binary op left right => .binary op (left.fill read) (right.fill read)
  | .sequence first second => .sequence (first.fill read) (second.fill read)

/-- The same of several trees. -/
def fillAll (read : Cell → Float) : List Resolved → List Resolved
  | [] => []
  | tree :: trees => tree.fill read :: fillAll read trees

end

variable (read : Cell → Float)

mutual

theorem need_fill : ∀ tree : Resolved, (tree.fill read).need = tree.need
  | .number _ => rfl
  | .var _ => rfl
  | .call _ args => by rw [fill, need, need, needAll_fill args]
  | .subprogram body => need_fill body
  | .unary _ operand => need_fill operand
  | .binary _ left right => by rw [fill, need, need, need_fill left, need_fill right]
  | .sequence first second => by rw [fill, need, need, need_fill first, need_fill second]

theorem needAll_fill : ∀ (trees : List Resolved) (before : Nat),
    needAll before (fillAll read trees) = needAll before trees
  | [], _ => rfl
  | tree :: trees, before => by
    rw [fillAll, needAll, needAll, need_fill tree, needAll_fill trees]

end

mutual

theorem callDepth_fill : ∀ tree : Resolved, (tree.fill read).callDepth = tree.callDepth
  | .number _ => rfl
  | .var _ => rfl
  | .call _ args => callDepthAll_fill args
  | .subprogram body => by rw [fill, callDepth, callDepth, callDepth_fill body]
  | .unary _ operand => callDepth_fill operand
  | .binary _ left right => by
    rw [fill, callDepth, callDepth, callDepth_fill left, callDepth_fill right]
  | .sequence first second => by
    rw [fill, callDepth, callDepth, callDepth_fill first, callDepth_fill second]

theorem callDepthAll_fill : ∀ trees : List Resolved,
    callDepthAll (fillAll read trees) = callDepthAll trees
  | [] => rfl
  | tree :: trees => by
    rw [fillAll, callDepthAll, callDepthAll, callDepth_fill tree, callDepthAll_fill trees]

end

/-! ## Values at the command line -/

/-- No function that can be called at the command line sees the variables. -/
theorem apply_host (now : Float) (f : Primitive) (args : List Float) (store other : Store) :
    (CommandLine.host now).apply f args store =
      (((CommandLine.host now).apply f args other).1, store) := by
  cases f with
  | builtin b => cases b <;> rfl
  | host f => rfl

variable (now : Float) (store : Store)

mutual

/-- The value of a tree is that of the tree with the values of its cells, where no cell is read any
more, and the cells keep their values. -/
theorem eval_fill : ∀ (tree : Resolved) (other : Store), tree.eval (CommandLine.host now) store =
    (((tree.fill store.read).eval (CommandLine.host now) other).1, store)
  | .number _, _ => rfl
  | .var cell, _ => by
    rw [fill, eval, eval, Double.toFloat_ofFloat]
    rfl
  | .call f args, other => by
    simp only [fill, eval, StateM.bind_apply, evalAll_fill args other]
    exact apply_host ..
  | .subprogram body, other => eval_fill body other
  | .unary _ operand, other => by
    simp only [fill, eval, StateM.bind_apply, eval_fill operand other]
    rfl
  | .binary _ left right, other => by
    have hRight := eval_fill right ((left.fill store.read).eval (CommandLine.host now) other).2
    simp only [fill, eval, StateM.bind_apply, eval_fill left other, hRight]
    rfl
  | .sequence first second, other => by
    have hSecond := eval_fill second ((first.fill store.read).eval (CommandLine.host now) other).2
    simp only [fill, eval, StateM.bind_apply, eval_fill first other, hSecond]

theorem evalAll_fill : ∀ (trees : List Resolved) (other : Store),
    evalAll (CommandLine.host now) trees store =
      ((evalAll (CommandLine.host now) (fillAll store.read trees) other).1, store)
  | [], _ => rfl
  | tree :: trees, other => by
    have hTail := evalAll_fill trees ((tree.fill store.read).eval (CommandLine.host now) other).2
    simp only [fillAll, evalAll, StateM.bind_apply, eval_fill tree other, hTail]
    rfl

end

end Resolved

/-! ## Values in the place of variables -/

mutual

/-- Whether a tree is an expression with values in the place of variables and bodies in the place of
sub-programs. All other functions are built in. -/
inductive Closes (value? : String → Option Float) (body? : String → Option Expr) :
    Expr → Resolved → Prop where
  | number (span : Span) (value : Double) :
    Closes value? body? (.number span value) (.number value)
  | var (span : Span) {name : String} {value : Float} (hValue : value? name = some value) :
    Closes value? body? (.var span name) (.number (.ofFloat value))
  | builtin (span : Span) {name : String} {args : List Expr} {b : Builtin} {trees : List Resolved}
    (hName : b.signature = ⟨name, args.length⟩) (hArgs : ClosesAll value? body? args trees) :
    Closes value? body? (.call span name args) (.call (.builtin b) trees)
  | subprogram (span : Span) {name : String} {body : Expr} {tree : Resolved}
    (hBody : body? name = some body) (hTree : Closes value? body? body tree) :
    Closes value? body? (.call span name []) (.subprogram tree)
  | unary (span : Span) (op : UnaryOp) {operand : Expr} {tree : Resolved}
    (hOperand : Closes value? body? operand tree) :
    Closes value? body? (.unary span op operand) (.unary op tree)
  | binary (span : Span) (op : BinaryOp) {left right : Expr} {leftTree rightTree : Resolved}
    (hLeft : Closes value? body? left leftTree) (hRight : Closes value? body? right rightTree) :
    Closes value? body? (.binary span op left right) (.binary op leftTree rightTree)
  | sequence (span : Span) {first second : Expr} {firstTree secondTree : Resolved}
    (hFirst : Closes value? body? first firstTree)
    (hSecond : Closes value? body? second secondTree) :
    Closes value? body? (.sequence span first second) (.sequence firstTree secondTree)

/-- The same of several expressions. -/
inductive ClosesAll (value? : String → Option Float) (body? : String → Option Expr) :
    List Expr → List Resolved → Prop where
  | nil : ClosesAll value? body? [] []
  | cons {e : Expr} {es : List Expr} {tree : Resolved} {trees : List Resolved}
    (hHead : Closes value? body? e tree) (hTail : ClosesAll value? body? es trees) :
    ClosesAll value? body? (e :: es) (tree :: trees)

end

/-- A registry has no variables but those with values, which are in the cells, and no functions but
the built-in ones and the given sub-programs. -/
structure Registry.Gives (registry : Registry) (read : Cell → Float)
    (value? : String → Option Float) (body? : String → Option Expr) : Prop where
  var : ∀ name cell, registry.vars name = some cell → value? name = some (read cell)
  function : ∀ signature f, registry.functions signature = some f →
    (∃ b, f = .builtin b ∧ b.signature = signature) ∨
      ∃ name, f = .program name ∧ signature = ⟨name, 0⟩ ∧ body? name = registry.bodies name

section Resolves

variable {registry : Registry} {read : Cell → Float} {value? : String → Option Float}
  {body? : String → Option Expr}

mutual

/-- The tree of an expression is closed by the values in the cells. -/
theorem Resolves.closes_fill (h : registry.Gives read value? body?) : ∀ {tree : Resolved} {e : Expr},
    Resolves registry e tree → Closes value? body? e (tree.fill read)
  | .number _, _, .number span value => .number span value
  | .var _, _, .var span hVar => .var span (h.var _ _ hVar)
  | .call f _, _, .call span hFunction hArgs => by
    rcases h.function _ _ hFunction with ⟨b, hBuiltin, hName⟩ | ⟨name, hProgram, -⟩
    · obtain rfl : f = .builtin b := Primitive.function_inj hBuiltin
      exact .builtin span hName (hArgs.closesAll_fill h)
    · exact absurd hProgram (f.function_ne_program name)
  | .subprogram _, _, .subprogram span hFunction hBody hTree => by
    rcases h.function _ _ hFunction with ⟨b, hBuiltin, -⟩ | ⟨name, hProgram, hName, hSame⟩
    · cases hBuiltin
    · cases hProgram
      cases hName
      exact .subprogram span (hSame.trans hBody) (hTree.closes_fill h)
  | .unary _ _, _, .unary span op hOperand => .unary span op (hOperand.closes_fill h)
  | .binary _ _ _, _, .binary span op hLeft hRight =>
    .binary span op (hLeft.closes_fill h) (hRight.closes_fill h)
  | .sequence _ _, _, .sequence span hFirst hSecond =>
    .sequence span (hFirst.closes_fill h) (hSecond.closes_fill h)

theorem ResolvesAll.closesAll_fill (h : registry.Gives read value? body?) :
    ∀ {trees : List Resolved} {es : List Expr}, ResolvesAll registry es trees →
      ClosesAll value? body? es (Resolved.fillAll read trees)
  | [], _, .nil => .nil
  | _ :: _, _, .cons hHead hTail => .cons (hHead.closes_fill h) (hTail.closesAll_fill h)

end

end Resolves

/-! ## Evaluation -/

section Evaluation

variable {registry : Registry} {context : Context} {store : Store}
  {value? : String → Option Float} {body? : String → Option Expr}

/-- What an evaluation of a program comes to: the value of a closed tree, unless it does not fit on
the stack of the interpreter. -/
def Evaluates (backend : Backend) (tree : Resolved) (value : Float)
    (outcome : Except RuntimeError Float) : Prop :=
  (backend = .jit ∨ tree.need ≤ 128 ∧ tree.callDepth ≤ 64 → outcome = .ok value) ∧
    (backend = .interpreted → ¬(tree.need ≤ 128 ∧ tree.callDepth ≤ 64) →
      ∃ error, outcome = .error error ∧ Resolved.Exceeds error tree.need tree.callDepth)

theorem evaluates_interpreted {tree : Resolved} {value : Float}
    {outcome : Except RuntimeError Float} (hValue : tree.limit? 0 0 = none → outcome = .ok value)
    (hError : ∀ error, tree.limit? 0 0 = some error → outcome = .error error) :
    Evaluates .interpreted tree value outcome := by
  have hFits := tree.limit?_eq_none_iff 0 (Nat.zero_le Stack.maxCalls)
  rw [Nat.zero_add, Nat.zero_add] at hFits
  constructor
  · rintro (hJit | hSmall)
    · cases hJit
    · exact hValue (hFits.mpr hSmall)
  · intro _ hLarge
    obtain ⟨error, hLimit⟩ := Option.ne_none_iff_exists'.mp (mt hFits.mp hLarge)
    have hExceeds := tree.exceeds_of_limit? hLimit
    rw [Nat.zero_add, Nat.zero_add] at hExceeds
    exact ⟨error, hError error hLimit, hExceeds⟩

/-- A linked program evaluates the closed tree of its expression. -/
theorem Registry.Describes.evaluates (h : registry.Describes context)
    (hGives : registry.Gives store.read value? body?) {text : String} {p : Program} {e : Expr}
    (hCompile : context.compile text = .ok p) (hExpr : Expr.ofString? text = .ok e)
    (hReady : (context.linkProgram p).isReady = true) :
    ∃ tree, Closes value? body? e tree ∧ ∀ now,
      Evaluates context.backend tree (tree.eval (CommandLine.host now) .empty).1
        (CommandLine.Ready.eval ⟨context.linkProgram p, store⟩ now) := by
  obtain ⟨e', object, hExpr', hObject, rfl⟩ := Context.compile_eq_ok_iff.mp hCompile
  obtain rfl := Except.ok.inj (hExpr.symm.trans hExpr')
  obtain ⟨linked, hLinked, hEval⟩ := Context.eval_linkProgram hReady
  have hPlain := Expr.plain_of_ofString? hExpr
  obtain ⟨tree, hTree⟩ := h.resolves_of_linkObject? hPlain hObject hLinked
  refine ⟨tree.fill store.read, hTree.closes_fill hGives, fun now => ?_⟩
  have hFill := congrArg Prod.fst (tree.eval_fill now store .empty)
  rw [← hFill, Evaluates, tree.need_fill, tree.callDepth_fill, CommandLine.Ready.eval, hEval]
  cases hBackend : context.backend with
  | interpreted =>
    rw [hBackend] at hObject
    obtain ⟨hValue, hError⟩ :=
      (h.gives_linked hBackend (CommandLine.host now) hTree hPlain hObject hLinked [] 0
        store).onEmptyStack
    exact evaluates_interpreted (fun hNone => congrArg Prod.fst (hValue hNone)) hError
  | jit =>
    rw [hBackend] at hObject
    rw [h.eval_linked_native hBackend (CommandLine.host now) hTree hPlain hObject hLinked]
    exact ⟨fun _ => rfl, nofun⟩

end Evaluation

end Formula
