import Formula.Context
import Formula.Evaluation
import Formula.Proofs.Bytecode.Stack
import Formula.Proofs.LeftToRight

/-!
# Resolved expressions

A `Registry` says what every name stands for, as its user registered it. An expression whose names
are all registered has a `Resolved` tree, in which calls of sub-programs are replaced by the bodies
of the sub-programs; there is none for a recursive definition, and at most one at all
(`Resolves.unique`).

The tree has a value, `Resolved.eval`, and measures of what computing it on a stack takes: `need`
counts the values that lie on the stack at the same time, and `callDepth` the sub-programs that run
inside one another. `Resolved.limit?` is the first limit that an evaluation runs into; it depends on
neither values nor effects, and there is none exactly if both measures are small enough
(`limit?_eq_none_iff`).
-/

namespace Formula

/-! ## Registries -/

/-- What names stand for. -/
structure Registry where
  /-- Variables by name. -/
  vars : String → Option Cell
  /-- Functions by name and number of parameters. -/
  functions : Signature → Option Function
  /-- The expressions that sub-programs compute. -/
  bodies : String → Option Expr

/-- A function that is no sub-program. -/
inductive Primitive where
  | builtin (b : Builtin)
  | host (f : HostFunction)

namespace Primitive

/-- The same as a function. -/
def function : Primitive → Function
  | builtin b => .builtin b
  | host f => .host f

end Primitive

/-- Calls a function that is no sub-program. -/
def Host.apply {σ : Type} (host : Host σ) : Primitive → List Float → StateM σ Float
  | .builtin b => host.builtin b
  | .host f => host.call f

/-- An expression in which names are replaced by what they stand for. -/
inductive Resolved where
  | number (value : Double)
  | var (cell : Cell)
  | call (f : Primitive) (args : List Resolved)
  /-- The call of a sub-program with a given body. -/
  | subprogram (body : Resolved)
  | unary (op : UnaryOp) (operand : Resolved)
  | binary (op : BinaryOp) (left right : Resolved)
  | sequence (first second : Resolved)

mutual

/-- Whether the names of an expression resolve to a tree. -/
inductive Resolves (registry : Registry) : Expr → Resolved → Prop where
  | number (span : Span) (value : Double) :
    Resolves registry (.number span value) (.number value)
  | var (span : Span) {name : String} {cell : Cell} (hVar : registry.vars name = some cell) :
    Resolves registry (.var span name) (.var cell)
  | call (span : Span) {name : String} {args : List Expr} {f : Primitive} {trees : List Resolved}
    (hFunction : registry.functions ⟨name, args.length⟩ = some f.function)
    (hArgs : ResolvesAll registry args trees) :
    Resolves registry (.call span name args) (.call f trees)
  | subprogram (span : Span) {name callee : String} {body : Expr} {tree : Resolved}
    (hFunction : registry.functions ⟨name, 0⟩ = some (.program callee))
    (hBody : registry.bodies callee = some body) (hTree : Resolves registry body tree) :
    Resolves registry (.call span name []) (.subprogram tree)
  | unary (span : Span) (op : UnaryOp) {operand : Expr} {tree : Resolved}
    (hOperand : Resolves registry operand tree) :
    Resolves registry (.unary span op operand) (.unary op tree)
  | binary (span : Span) (op : BinaryOp) {left right : Expr} {leftTree rightTree : Resolved}
    (hLeft : Resolves registry left leftTree) (hRight : Resolves registry right rightTree) :
    Resolves registry (.binary span op left right) (.binary op leftTree rightTree)
  | sequence (span : Span) {first second : Expr} {firstTree secondTree : Resolved}
    (hFirst : Resolves registry first firstTree) (hSecond : Resolves registry second secondTree) :
    Resolves registry (.sequence span first second) (.sequence firstTree secondTree)

/-- The same of several expressions. -/
inductive ResolvesAll (registry : Registry) : List Expr → List Resolved → Prop where
  | nil : ResolvesAll registry [] []
  | cons {e : Expr} {es : List Expr} {tree : Resolved} {trees : List Resolved}
    (hHead : Resolves registry e tree) (hTail : ResolvesAll registry es trees) :
    ResolvesAll registry (e :: es) (tree :: trees)

end

theorem Primitive.function_inj {f f' : Primitive} (h : f.function = f'.function) : f = f' := by
  cases f <;> cases f' <;> cases h <;> rfl

theorem Primitive.function_ne_program (f : Primitive) (name : String) :
    f.function ≠ .program name := by
  cases f <;> exact nofun

theorem ResolvesAll.length_eq {registry : Registry} {es : List Expr} {trees : List Resolved}
    (h : ResolvesAll registry es trees) : es.length = trees.length := by
  induction es generalizing trees with
  | nil =>
    cases h
    rfl
  | cons e es ih =>
    cases h with
    | cons hHead hTail => rw [List.length_cons, List.length_cons, ih hTail]

mutual

/-- An expression resolves to at most one tree. -/
theorem Resolves.unique {registry : Registry} : ∀ {tree tree' : Resolved} {e : Expr},
    Resolves registry e tree → Resolves registry e tree' → tree = tree'
  | .number _, _, _, .number .., .number .. => rfl
  | .var _, _, _, .var _ hVar, .var _ hVar' => by
    rw [hVar] at hVar'
    cases hVar'
    rfl
  | .call _ _, _, _, .call _ hFunction hArgs, .call _ hFunction' hArgs' => by
    rw [hFunction] at hFunction'
    rw [Primitive.function_inj (Option.some.inj hFunction'), hArgs.unique hArgs']
  | .call f _, _, _, .call _ hFunction _, .subprogram _ hFunction' _ _ => by
    rw [List.length_nil, hFunction'] at hFunction
    exact absurd (Option.some.inj hFunction).symm (f.function_ne_program _)
  | .subprogram _, _, _, .subprogram _ hFunction _ _, .call (f := f) _ hFunction' _ => by
    rw [List.length_nil, hFunction] at hFunction'
    exact absurd (Option.some.inj hFunction').symm (f.function_ne_program _)
  | .subprogram _, _, _, .subprogram _ hFunction hBody hTree,
      .subprogram _ hFunction' hBody' hTree' => by
    rw [hFunction] at hFunction'
    cases hFunction'
    rw [hBody] at hBody'
    cases hBody'
    rw [hTree.unique hTree']
  | .unary _ _, _, _, .unary _ _ hOperand, .unary _ _ hOperand' => by
    rw [hOperand.unique hOperand']
  | .binary _ _ _, _, _, .binary _ _ hLeft hRight, .binary _ _ hLeft' hRight' => by
    rw [hLeft.unique hLeft', hRight.unique hRight']
  | .sequence _ _, _, _, .sequence _ hFirst hSecond, .sequence _ hFirst' hSecond' => by
    rw [hFirst.unique hFirst', hSecond.unique hSecond']

theorem ResolvesAll.unique {registry : Registry} :
    ∀ {trees trees' : List Resolved} {es : List Expr}, ResolvesAll registry es trees →
      ResolvesAll registry es trees' → trees = trees'
  | [], _, _, .nil, .nil => rfl
  | _ :: _, _, _, .cons hHead hTail, .cons hHead' hTail' => by
    rw [hHead.unique hHead', hTail.unique hTail']

end

/-! ## Values -/

namespace Resolved

variable {σ : Type}

mutual

/-- The value, from left to right. -/
def eval (host : Host σ) : Resolved → StateM σ Float
  | .number value => pure value.toFloat
  | .var cell => host.read cell
  | .call f args => do
    let values ← evalAll host args
    host.apply f values
  | .subprogram body => body.eval host
  | .unary op operand => do
    let value ← operand.eval host
    return op.apply value
  | .binary op left right => do
    let leftValue ← left.eval host
    let rightValue ← right.eval host
    return op.apply leftValue rightValue
  | .sequence first second => do
    let _ ← first.eval host
    second.eval host

/-- The values of several trees. -/
def evalAll (host : Host σ) : List Resolved → StateM σ (List Float)
  | [] => pure []
  | tree :: trees => do
    let value ← tree.eval host
    let values ← evalAll host trees
    return value :: values

end

theorem length_evalAll (host : Host σ) (trees : List Resolved) (s : σ) :
    (evalAll host trees s).1.length = trees.length := by
  induction trees generalizing s with
  | nil => rfl
  | cons tree trees ih =>
    rw [evalAll]
    exact congrArg (· + 1) (ih _)

/-! ## What an evaluation takes -/

mutual

/-- How many values lie on the stack at the same time. -/
def need : Resolved → Nat
  | .number _ => 1
  | .var _ => 1
  | .call _ args => max 1 (needAll 0 args)
  | .subprogram body => body.need
  | .unary _ operand => operand.need
  | .binary _ left right => max left.need (1 + right.need)
  | .sequence first second => max first.need second.need

/-- The same of arguments, the first of them above so many others. -/
def needAll (before : Nat) : List Resolved → Nat
  | [] => 0
  | tree :: trees => max (before + tree.need) (needAll (before + 1) trees)

end

mutual

/-- How many sub-programs run inside one another. -/
def callDepth : Resolved → Nat
  | .number _ => 0
  | .var _ => 0
  | .call _ args => callDepthAll args
  | .subprogram body => 1 + body.callDepth
  | .unary _ operand => operand.callDepth
  | .binary _ left right => max left.callDepth right.callDepth
  | .sequence first second => max first.callDepth second.callDepth

/-- The same of arguments. -/
def callDepthAll : List Resolved → Nat
  | [] => 0
  | tree :: trees => max tree.callDepth (callDepthAll trees)

end

/-- The error of a push onto so many values. -/
def overflow? (depth : Nat) : Option RuntimeError :=
  if depth < Stack.maxValues then none else some .stackOverflow

mutual

/-- The first limit that is exceeded when the tree is evaluated above so many values and inside so
many calls. -/
def limit? (depth calls : Nat) : Resolved → Option RuntimeError
  | .number _ => overflow? depth
  | .var _ => overflow? depth
  | .call _ args => (limitAll? depth calls args).or (overflow? depth)
  | .subprogram body =>
    if calls < Stack.maxCalls then body.limit? depth (calls + 1)
    else some (.callDepthExceeded Stack.maxCalls)
  | .unary _ operand => operand.limit? depth calls
  | .binary _ left right => (left.limit? depth calls).or (right.limit? (depth + 1) calls)
  | .sequence first second => (first.limit? depth calls).or (second.limit? depth calls)

/-- The same of arguments, each above those before it. -/
def limitAll? (depth calls : Nat) : List Resolved → Option RuntimeError
  | [] => none
  | tree :: trees => (tree.limit? depth calls).or (limitAll? (depth + 1) calls trees)

end

theorem overflow?_eq_none_iff (depth : Nat) :
    overflow? depth = none ↔ depth + 1 ≤ Stack.maxValues := by
  unfold overflow?
  split
  · rename_i hRoom
    exact iff_of_true rfl hRoom
  · rename_i hFull
    exact iff_of_false nofun hFull

theorem need_pos : ∀ tree : Resolved, 1 ≤ tree.need
  | .number _ => Nat.le_refl 1
  | .var _ => Nat.le_refl 1
  | .call _ _ => Nat.le_max_left ..
  | .subprogram body => need_pos body
  | .unary _ operand => need_pos operand
  | .binary _ left _ => Nat.le_trans (need_pos left) (Nat.le_max_left ..)
  | .sequence first _ => Nat.le_trans (need_pos first) (Nat.le_max_left ..)

mutual

/-- No limit is exceeded exactly if the values and the calls fit. -/
theorem limit?_eq_none_iff : ∀ (tree : Resolved) (depth : Nat) {calls : Nat},
    calls ≤ Stack.maxCalls →
    (tree.limit? depth calls = none ↔
      depth + tree.need ≤ Stack.maxValues ∧ calls + tree.callDepth ≤ Stack.maxCalls)
  | .number _, depth, calls, hCalls => by
    rw [limit?, overflow?_eq_none_iff, need, callDepth]
    exact (and_iff_left hCalls).symm
  | .var _, depth, calls, hCalls => by
    rw [limit?, overflow?_eq_none_iff, need, callDepth]
    exact (and_iff_left hCalls).symm
  | .call _ args, depth, calls, hCalls => by
    rw [limit?, Option.or_eq_none_iff, overflow?_eq_none_iff, need, callDepth]
    by_cases hRoom : depth + 1 ≤ Stack.maxValues
    · have hArgs := limitAll?_eq_none_iff args 0 (Nat.le_of_succ_le hRoom) hCalls
      rw [Nat.add_zero] at hArgs
      rw [hArgs]
      omega
    · omega
  | .subprogram body, depth, calls, hCalls => by
    rw [limit?, need, callDepth]
    split
    · rename_i hRoom
      rw [limit?_eq_none_iff body depth hRoom]
      omega
    · rename_i hFull
      exact iff_of_false nofun (by omega)
  | .unary _ operand, depth, calls, hCalls => limit?_eq_none_iff operand depth hCalls
  | .binary _ left right, depth, calls, hCalls => by
    rw [limit?, Option.or_eq_none_iff, limit?_eq_none_iff left depth hCalls,
      limit?_eq_none_iff right (depth + 1) hCalls, need, callDepth]
    omega
  | .sequence first second, depth, calls, hCalls => by
    rw [limit?, Option.or_eq_none_iff, limit?_eq_none_iff first depth hCalls,
      limit?_eq_none_iff second depth hCalls, need, callDepth]
    omega

theorem limitAll?_eq_none_iff : ∀ (trees : List Resolved) (before : Nat) {depth calls : Nat},
    depth ≤ Stack.maxValues → calls ≤ Stack.maxCalls →
    (limitAll? (depth + before) calls trees = none ↔
      depth + needAll before trees ≤ Stack.maxValues ∧
        calls + callDepthAll trees ≤ Stack.maxCalls)
  | [], before, depth, calls, hDepth, hCalls => iff_of_true rfl ⟨hDepth, hCalls⟩
  | tree :: trees, before, depth, calls, hDepth, hCalls => by
    rw [limitAll?, Option.or_eq_none_iff, limit?_eq_none_iff tree (depth + before) hCalls,
      Nat.add_assoc depth before 1, limitAll?_eq_none_iff trees (before + 1) hDepth hCalls,
      needAll, callDepthAll]
    omega

end

/-- Where a value has been computed there is room to push it. -/
theorem limit?_or_overflow? (tree : Resolved) (depth : Nat) {calls : Nat}
    (hCalls : calls ≤ Stack.maxCalls) :
    (tree.limit? depth calls).or (overflow? depth) = tree.limit? depth calls := by
  cases hLimit : tree.limit? depth calls with
  | some error => rfl
  | none =>
    have hFits := ((limit?_eq_none_iff tree depth hCalls).mp hLimit).1
    have hPos := need_pos tree
    exact (overflow?_eq_none_iff depth).mpr (by omega)

/-- What it means that a limit is exceeded. -/
def Exceeds (error : RuntimeError) (values calls : Nat) : Prop :=
  (error = .stackOverflow ∧ Stack.maxValues < values) ∨
    (error = .callDepthExceeded Stack.maxCalls ∧ Stack.maxCalls < calls)

theorem Exceeds.mono {error : RuntimeError} {values values' calls calls' : Nat}
    (h : Exceeds error values calls) (hValues : values ≤ values') (hCalls : calls ≤ calls') :
    Exceeds error values' calls' := by
  rcases h with ⟨hError, hMore⟩ | ⟨hError, hMore⟩
  · exact .inl ⟨hError, Nat.lt_of_lt_of_le hMore hValues⟩
  · exact .inr ⟨hError, Nat.lt_of_lt_of_le hMore hCalls⟩

theorem exceeds_of_overflow? {depth : Nat} {error : RuntimeError} (calls : Nat)
    (h : overflow? depth = some error) : Exceeds error (depth + 1) calls := by
  unfold overflow? at h
  split at h
  · cases h
  · rename_i hFull
    cases h
    exact .inl ⟨rfl, by omega⟩

mutual

/-- A limit that an evaluation runs into is one that the measures exceed. -/
theorem exceeds_of_limit? : ∀ (tree : Resolved) {depth calls : Nat} {error : RuntimeError},
    tree.limit? depth calls = some error →
    Exceeds error (depth + tree.need) (calls + tree.callDepth)
  | .number _, depth, calls, error, h => exceeds_of_overflow? _ h
  | .var _, depth, calls, error, h => exceeds_of_overflow? _ h
  | .call _ args, depth, calls, error, h => by
    rw [need, callDepth]
    rcases Option.or_eq_some_iff.mp h with hArgs | ⟨-, hPush⟩
    · exact (exceeds_of_limitAll? args 0 hArgs).mono (by omega) (by omega)
    · exact (exceeds_of_overflow? calls hPush).mono (by omega) (by omega)
  | .subprogram body, depth, calls, error, h => by
    rw [limit?] at h
    rw [need, callDepth]
    split at h
    · exact (exceeds_of_limit? body h).mono (by omega) (by omega)
    · rename_i hFull
      cases h
      exact .inr ⟨rfl, by omega⟩
  | .unary _ operand, depth, calls, error, h => exceeds_of_limit? operand h
  | .binary _ left right, depth, calls, error, h => by
    rw [need, callDepth]
    rcases Option.or_eq_some_iff.mp h with hLeft | ⟨-, hRight⟩
    · exact (exceeds_of_limit? left hLeft).mono (by omega) (by omega)
    · exact (exceeds_of_limit? right hRight).mono (by omega) (by omega)
  | .sequence first second, depth, calls, error, h => by
    rw [need, callDepth]
    rcases Option.or_eq_some_iff.mp h with hFirst | ⟨-, hSecond⟩
    · exact (exceeds_of_limit? first hFirst).mono (by omega) (by omega)
    · exact (exceeds_of_limit? second hSecond).mono (by omega) (by omega)

theorem exceeds_of_limitAll? : ∀ (trees : List Resolved) (before : Nat) {depth calls : Nat}
    {error : RuntimeError}, limitAll? (depth + before) calls trees = some error →
    Exceeds error (depth + needAll before trees) (calls + callDepthAll trees)
  | [], before, depth, calls, error, h => nomatch h
  | tree :: trees, before, depth, calls, error, h => by
    rw [needAll, callDepthAll]
    rcases Option.or_eq_some_iff.mp h with hHead | ⟨-, hTail⟩
    · exact (exceeds_of_limit? tree hHead).mono (by omega) (by omega)
    · rw [Nat.add_assoc] at hTail
      exact (exceeds_of_limitAll? trees (before + 1) hTail).mono (by omega) (by omega)

end

end Resolved

end Formula
