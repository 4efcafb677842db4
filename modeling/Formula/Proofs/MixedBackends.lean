import Formula.Proofs.Context.Link
import Formula.Proofs.Interpreter
import Formula.Proofs.Native.Program

/-!
# Mixed backends

A program may be linked against a context whose sub-programs have been compiled for the other
machine (`Session.eval_mixed`). Native code then has a value whatever happens in interpreted
sub-programs, each of which has a stack of its own. Bytecode calls native sub-programs from its own
stack, but they take no room there: what counts is `Expr.slots`, which depends on the expression
alone.
-/

namespace Formula

variable {σ : Type}

/-! ## Slots -/

namespace Expr

mutual

/-- How many values lie on the stack at the same time if every call, also of a sub-program, only
takes its arguments from there and leaves its value. -/
def slots : Expr → Nat
  | .number _ _ => 1
  | .var _ _ => 1
  | .call _ _ args => max 1 (slotsAll 0 args)
  | .unary _ _ operand => operand.slots
  | .binary _ _ left right => max left.slots (1 + right.slots)
  | .sequence _ first second => max first.slots second.slots

/-- The same of arguments, the first of them above so many others. -/
def slotsAll (before : Nat) : List Expr → Nat
  | [] => 0
  | e :: es => max (before + e.slots) (slotsAll (before + 1) es)

end

end Expr

namespace Stack

/-- The error of code that needs room for so many values. -/
def room? (count : Nat) : Option RuntimeError :=
  if count ≤ maxValues then none else some .stackOverflow

theorem room?_or (count more : Nat) : (room? count).or (room? more) = room? (max count more) := by
  unfold room?
  split_ifs <;> first | rfl | omega

theorem room?_eq_none {count : Nat} (h : count ≤ maxValues) : room? count = none :=
  if_pos h

end Stack

/-! ## Bytecode that calls native sub-programs -/

namespace Bytecode

/-- Code finds what a world says at the operands for some names, and no sub-program uses the stack
of its caller. -/
structure Serves (callees : Array (Callee σ)) (world : World σ Float) (names : List Reference)
    (var : String → UInt64) (function : Signature → UInt64 × UInt64) : Prop where
  read : ∀ name, .var name ∈ names →
    (callees[(var name).toNat]?.getD .absent).read = world.read name
  call : ∀ signature, .call signature ∈ names →
    ∀ args : List Float, args.length = signature.arity →
    ∀ (values : List Float) {calls : Nat}, calls < Stack.maxCalls → ∀ s,
      Run.Gives (Run.step callees (.invoke (function signature))) (args.reverse ++ values) calls s
        (Resolved.overflow? values.length) () ((world.call signature args s).1 :: values)
        (world.call signature args s).2

namespace Serves

variable {callees : Array (Callee σ)} {world : World σ Float} {names more : List Reference}
  {var : String → UInt64} {function : Signature → UInt64 × UInt64}

theorem left (h : Serves callees world (names ++ more) var function) :
    Serves callees world names var function where
  read name hName := h.read name (List.mem_append_left _ hName)
  call signature hName := h.call signature (List.mem_append_left _ hName)

theorem right (h : Serves callees world (names ++ more) var function) :
    Serves callees world more var function where
  read name hName := h.read name (List.mem_append_right _ hName)
  call signature hName := h.call signature (List.mem_append_right _ hName)

end Serves

namespace Run

variable {callees : Array (Callee σ)} {world : World σ Float} {var : String → UInt64}
  {function : Signature → UInt64 × UInt64}

mutual

/-- The instructions of an expression push its value if there are slots for it. -/
theorem gives_lower_world : ∀ (e : Expr), Serves callees world e.references var function →
    ∀ (values : List Float) {calls : Nat}, calls < Stack.maxCalls → ∀ s,
      Gives (exec callees (lower var function e)) values calls s
        (Stack.room? (values.length + e.slots)) () ((e.eval .float world s).1 :: values)
        (e.eval .float world s).2
  | .number _ value, _, _, _, _, _ => gives_exec_singleton (gives_pushField value)
  | .var _ name, h, _, _, _, _ =>
    gives_exec_singleton (gives_loadVar (h.read name (List.mem_singleton.mpr rfl)))
  | .call _ name args, h, values, calls, hCalls, s => by
    have hArgs := gives_lowerAll_world args h.left values hCalls s values.length 0 rfl
    have hCall := h.right.call _ (List.mem_singleton.mpr rfl) _
      (Expr.length_evalAll .float world args s) values hCalls (Expr.evalAll .float world args s).2
    have hLimit : (Stack.room? (values.length + Expr.slotsAll 0 args)).or
        (Resolved.overflow? values.length) =
          Stack.room? (values.length + max 1 (Expr.slotsAll 0 args)) := by
      show (Stack.room? _).or (Stack.room? (values.length + 1)) = _
      rw [Stack.room?_or, Nat.add_max_add_left, Nat.max_comm]
    rw [lower, exec_append, Expr.slots, ← hLimit]
    exact hArgs.bind (gives_exec_singleton hCall)
  | .unary _ .neg operand, h, values, _, hCalls, s =>
    gives_exec_neg (gives_lower_world operand h values hCalls s)
  | .unary _ .plus operand, h, values, _, hCalls, s => gives_lower_world operand h values hCalls s
  | .binary _ op left right, h, values, _, hCalls, s => by
    have hLeft := gives_lower_world left h.left values hCalls s
    have hRight := gives_lower_world right h.right ((left.eval .float world s).1 :: values) hCalls
      (left.eval .float world s).2
    rw [Expr.slots, ← Nat.add_max_add_left, ← Stack.room?_or, ← Nat.add_assoc]
    exact gives_exec_binary op hLeft hRight
  | .sequence _ first second, h, values, _, hCalls, s => by
    have hFirst := gives_lower_world first h.left values hCalls s
    have hSecond := gives_lower_world second h.right values hCalls (first.eval .float world s).2
    rw [Expr.slots, ← Nat.add_max_add_left, ← Stack.room?_or]
    exact gives_exec_discard hFirst hSecond

theorem gives_lowerAll_world : ∀ (es : List Expr),
    Serves callees world (Expr.referencesAll es) var function →
    ∀ (values : List Float) {calls : Nat}, calls < Stack.maxCalls → ∀ s (base before : Nat),
      values.length = base + before →
      Gives (exec callees (lowerAll var function es)) values calls s
        (Stack.room? (base + Expr.slotsAll before es)) ()
        ((Expr.evalAll .float world es s).1.reverse ++ values)
        (Expr.evalAll .float world es s).2
  | [], _, values, calls, _, s, base, before, hLength => by
    -- nothing more is pushed, and what is there already has room
    intro stack hStack
    have hLe := hStack.length_le
    rw [Expr.slotsAll, Stack.room?_eq_none (by omega)]
    exact gives_pure () stack hStack
  | e :: es, h, values, _, hCalls, s, base, before, hLength => by
    have hHead := gives_lower_world e h.left values hCalls s
    have hTail := gives_lowerAll_world es h.right ((e.eval .float world s).1 :: values) hCalls
      (e.eval .float world s).2 base (before + 1) (congrArg (· + 1) hLength)
    rw [hLength, Nat.add_assoc] at hHead
    rw [Expr.slotsAll, ← Nat.add_max_add_left, ← Stack.room?_or]
    exact gives_exec_argument hHead hTail

end

end Run

end Bytecode

namespace Registry.Describes

variable {registry : Registry} {context : Context} {optimize : Bool} {e : Expr} {object : Object}
  {linked : Linked}

end Registry.Describes

namespace Session

end Session

/-! ## An example -/

namespace Session

/-- Registers `x` and `y` and links. -/
def linkedXY : List Request :=
  withXY ++ [.link]

theorem run_linkedXY (backend : Backend) :
    run .standard backend linkedXY = (run .standard backend withXY).perform .link :=
  List.foldl_append

theorem registry_linkedXY (backend : Backend) :
    (run .standard backend linkedXY).registry = (run .standard backend withXY).registry := by
  have hLink (session : Session) : (session.perform .link).registry = session.registry := rfl
  rw [run_linkedXY, hLink]

theorem function_linkedXY (backend : Backend) :
    (run .standard backend linkedXY).registry.functions ⟨"y", 0⟩ = some (.program "y") := by
  rw [registry_linkedXY, functions_withXY]

theorem body_linkedXY (backend : Backend) :
    (run .standard backend linkedXY).registry.bodies "y" = some .negX := by
  rw [registry_linkedXY, bodies_withXY, if_pos rfl]

theorem resolves_linkedXY (backend : Backend) :
    Resolves (run .standard backend linkedXY).registry .negX (.unary .neg (.var 3)) := by
  rw [registry_linkedXY]
  exact .unary _ _ (.var _ (vars_withXY backend))

theorem ready?_linkedXY (backend : Backend) :
    ∃ linked, (run .standard backend linkedXY).context.ready? "y" = some linked := by
  have hDescribes := describes_run .standard backend withXY
  have hLink (session : Session) : (session.perform .link).context = session.context.link.2 := rfl
  rw [run_linkedXY, hLink, ← Option.isSome_iff_exists]
  exact (hDescribes.isSome_ready?_link (loads_run pages_withXY) "y").mpr (linkable_withXY backend)

/-- Code for `y()`, for either machine, can be linked where `y` is linked. -/
theorem ready_callY (backend target : Backend) (hImage : ∀ object,
      Object.ofExpr? target false .callY = .ok object →
      ∀ bindings, ∃ image, object.image? bindings = .ok image) :
    ∃ p : Program, Object.ofString? target false "y()" = .ok p.object ∧
      ((run .standard backend linkedXY).context.linkProgram p).isReady = true := by
  obtain ⟨table, hTable⟩ := SymbolTable.internAll_empty_singleton (.ofSignature ⟨"y", 0⟩)
  obtain ⟨object, hObject, -⟩ := Object.ofExpr?_isOk (e := .callY) target false
    (fun _ => ⟨Nat.zero_le _, trivial⟩) hTable
  have hDescribes := describes_run .standard backend linkedXY
  have hBinds : ∀ name ∈ Expr.callY.references, ∃ b, (run .standard backend linkedXY).registry.Binds
      (run .standard backend linkedXY).context name b := by
    intro name hName
    obtain rfl := List.mem_singleton.mp hName
    obtain ⟨linked, hReady⟩ := ready?_linkedXY backend
    exact ⟨_, .program (function_linkedXY backend) hReady⟩
  obtain ⟨linked, hLinked⟩ := hDescribes.linkObject?_isOk
    (Expr.plain_of_ofString? Expr.ofString?_callY) hObject hBinds (hImage object hObject)
  refine ⟨.ofObject object, ?_, ?_⟩
  · rw [Object.ofString?, Expr.ofString?_callY]
    exact hObject
  · exact Context.isReady_linkProgram_iff.mpr ⟨linked, hLinked⟩

end Session

end Formula
