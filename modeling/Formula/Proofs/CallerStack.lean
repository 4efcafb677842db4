import Formula.Proofs.MixedBackends

/-!
# The stack of the caller

An evaluation runs on the stack of its caller. `Stack.Above` says that nothing of what the caller
has put there is different, and how many values lie above it. Code of an expression puts one value
there, or stops with some number of them (`leaves_lower`). `evalOn` takes them away, so it leaves
the stack intact in any case (`tidy_evalOn`), which is all that the code of a caller needs to know
about a sub-program. By induction on calls, this holds of all programs
(`Session.evalOn_leaves_stack`).
-/

namespace Formula

variable {σ α β : Type}

/-- Above what a caller has put on it, a stack holds so many values. -/
structure Stack.Above (caller : Stack) (count : Nat) (stack : Stack) : Prop where
  depth : stack.depth = caller.depth + 8 * count
  calls : stack.calls = caller.calls
  below : ∀ i < caller.depth, stack.buffer[i]? = caller.buffer[i]?

/-- Whether the error says that a stack has no room or too many sub-programs run on it. -/
def RuntimeError.Exhausted (error : RuntimeError) : Prop :=
  error = .stackOverflow ∨ error = .callDepthExceeded Stack.maxCalls

namespace Stack.Above

variable {caller stack stack' : Stack} {count more : Nat}

theorem refl (stack : Stack) : stack.Above 0 stack :=
  ⟨rfl, rfl, fun _ _ => rfl⟩

theorem trans (h : caller.Above count stack) (h' : stack.Above more stack') :
    caller.Above (count + more) stack' where
  depth := by
    rw [h'.depth, h.depth]
    omega
  calls := h'.calls.trans h.calls
  below i hi := by
    have hDepth := h.depth
    rw [h'.below i (by omega), h.below i hi]

theorem push (h : caller.Above count stack) (field : Double) :
    match Stack.push field stack with
    | .ok _ left => caller.Above (count + 1) left
    | .error error left => error = .stackOverflow ∧ caller.Above count left := by
  obtain ⟨buffer, depth, calls, hLe⟩ := stack
  have hDepth : depth = caller.depth + 8 * count := h.depth
  unfold Stack.push
  dsimp only
  split_ifs
  · refine ⟨?_, h.calls, fun i hi => ?_⟩
    · show depth + 8 = _
      omega
    · exact (getElem?_store buffer depth _ (by omega)).trans (h.below i hi)
  · exact ⟨rfl, h⟩

/-- A value above those of the caller can be taken away. -/
theorem pop (h : caller.Above (count + 1) stack) :
    ∃ (field : Double) (left : Stack), Stack.pop stack = .ok field left ∧
      caller.Above count left := by
  obtain ⟨buffer, depth, calls, hLe⟩ := stack
  have hDepth : depth = caller.depth + 8 * (count + 1) := h.depth
  have hEnough : Packed.width Double ≤ depth := by
    show 8 ≤ depth
    omega
  refine ⟨_, _, if_pos hEnough, ?_, h.calls, h.below⟩
  show depth - 8 = _
  omega

/-- Whatever lies above the values of the caller can be dropped. -/
theorem truncate (h : caller.Above count stack) : caller.Above 0 (stack.truncate caller.depth) where
  depth := by
    have hDepth := h.depth
    show min stack.depth caller.depth = _
    omega
  calls := h.calls
  below := h.below

end Stack.Above

namespace Bytecode

namespace Run

/-! ## Computations above a caller -/

/-- With `count` values above those of any caller, a computation leaves `count'`; or it is out of
room or of calls, and leaves some number of them. -/
def Leaves (x : Run σ α) (count count' : Nat) : Prop :=
  ∀ (caller stack : Stack) (s : σ), caller.Above count stack →
    match x ⟨stack, s⟩ with
    | .ok _ m => caller.Above count' m.stack
    | .error error m => error.Exhausted ∧ ∃ left, caller.Above left m.stack

/-- A computation that leaves any stack as it was, also if it is out of room or of calls. -/
def Tidy (x : Run σ α) : Prop :=
  ∀ (stack : Stack) (s : σ),
    match x ⟨stack, s⟩ with
    | .ok _ m => stack.Above 0 m.stack
    | .error error m => error.Exhausted ∧ stack.Above 0 m.stack

variable {count count' count'' : Nat}

theorem leaves_pure (a : α) : Leaves (pure a : Run σ α) count count :=
  fun _ _ _ h => h

theorem Leaves.bind {x : Run σ α} {f : α → Run σ β} (hx : Leaves x count count')
    (hf : ∀ a, Leaves (f a) count' count'') : Leaves (x >>= f) count count'' := by
  intro caller stack s h
  have hFirst := hx caller stack s h
  show match EStateM.bind x f ⟨stack, s⟩ with
    | .ok _ m => _
    | .error error m => _
  unfold EStateM.bind
  generalize x ⟨stack, s⟩ = outcome at hFirst ⊢
  cases outcome with
  | ok a m => exact hf a caller m.stack m.state hFirst
  | error error m => exact hFirst

theorem tidy_effect (x : StateM σ α) : Tidy (effect x) :=
  fun stack _ => .refl stack

/-- A tidy computation does not touch the values above the caller's either. -/
theorem Tidy.leaves {x : Run σ α} (h : Tidy x) (count : Nat) : Leaves x count count := by
  intro caller stack s hStack
  have hOutcome := h stack s
  generalize x ⟨stack, s⟩ = outcome at hOutcome ⊢
  cases outcome with
  | ok a m => exact hStack.trans hOutcome
  | error error m => exact ⟨hOutcome.1, count, hStack.trans hOutcome.2⟩

theorem leaves_pushField (field : Double) :
    Leaves (onStack (Stack.push field) : Run σ Unit) count (count + 1) := by
  intro caller stack s h
  have hPush := h.push field
  unfold onStack
  dsimp only
  generalize Stack.push field stack = outcome at hPush ⊢
  cases outcome with
  | ok _ left => exact hPush
  | error error left => exact ⟨.inl hPush.1, count, hPush.2⟩

theorem leaves_push (value : Float) : Leaves (push value : Run σ Unit) count (count + 1) :=
  leaves_pushField _

theorem leaves_pop : Leaves (pop : Run σ Float) (count + 1) count := by
  intro caller stack s h
  obtain ⟨field, left, hPop, hLeft⟩ := h.pop
  have hRun : (pop : Run σ Float) ⟨stack, s⟩ = .ok field.toFloat ⟨left, s⟩ := by
    show EStateM.map Double.toFloat (onStack Stack.pop) _ = _
    rw [EStateM.map, onStack, hPop]
  rw [hRun]
  exact hLeft

theorem leaves_popArguments (arity : Nat) : ∀ args : List Float,
    Leaves (popArguments arity args : Run σ (List Float)) (count + arity) count := by
  induction arity with
  | zero => exact fun args => leaves_pure args
  | succ arity ih => exact fun args => leaves_pop.bind fun arg => ih (arg :: args)

/-- A sub-program is counted while it runs, and no longer. -/
theorem tidy_subprogram {callee : Callee σ} (h : Tidy callee.enter) : Tidy (subprogram callee) := by
  intro stack s
  by_cases hRoom : stack.calls < Stack.maxCalls
  · have hEnter : Stack.enterCall stack = .ok () { stack with calls := stack.calls + 1 } :=
      if_pos hRoom
    have hCallee := h { stack with calls := stack.calls + 1 } s
    have hLeave {left : Stack}
        (hLeft : Stack.Above { stack with calls := stack.calls + 1 } 0 left) :
        stack.Above 0 left.leaveCall := by
      refine ⟨hLeft.depth, ?_, hLeft.below⟩
      show left.calls - 1 = stack.calls
      rw [hLeft.calls]
      rfl
    rw [subprogram_apply s hEnter]
    generalize callee.enter _ = outcome at hCallee ⊢
    cases outcome with
    | ok value m => exact hLeave hCallee
    | error error m => exact ⟨hCallee.1, hLeave hCallee.2⟩
  · have hEnter : Stack.enterCall stack = .error (.callDepthExceeded Stack.maxCalls) stack :=
      if_neg hRoom
    have hRun : subprogram callee ⟨stack, s⟩ =
        .error (.callDepthExceeded Stack.maxCalls) ⟨stack, s⟩ := by
      simp only [subprogram, bind, EStateM.bind, onStack, hEnter]
    rw [hRun]
    exact ⟨.inr rfl, .refl stack⟩

/-- Whatever code has put on the stack of its caller is taken away. -/
theorem tidy_evalOn {callees : Array (Callee σ)} {bytes : List UInt8}
    (h : Leaves (execute callees bytes) 0 1) : Tidy (evalOn callees bytes) := by
  intro stack s
  have hRun := h.bind (fun _ => leaves_pop) stack stack s (.refl stack)
  unfold evalOn
  dsimp only
  generalize (do execute callees bytes; pop : Run σ Float) ⟨stack, s⟩ = outcome at hRun ⊢
  cases outcome with
  | ok value m =>
    have hDepth : m.stack.depth - stack.depth = 0 := by
      rw [hRun.depth]
      omega
    dsimp only
    rw [if_pos hDepth]
    exact hRun.truncate
  | error error m =>
    obtain ⟨hError, left, hLeft⟩ := hRun
    exact ⟨hError, hLeft.truncate⟩

end Run

/-! ## Code -/

/-- The functions that code calls by some names take their arguments off the stack, and the
sub-programs leave it as it was. -/
def CallsTidily (callees : Array (Callee σ)) (names : List Reference)
    (function : Signature → UInt64 × UInt64) : Prop :=
  ∀ signature, .call signature ∈ names →
    .ofWord (function signature).2 = Convention.arguments signature.arity ∨
      (.ofWord (function signature).2 = Convention.subprogram ∧ signature.arity = 0 ∧
        Run.Tidy (callees[(function signature).1.toNat]?.getD .absent).enter)

section Code

variable {callees : Array (Callee σ)} {names more : List Reference} {var : String → UInt64}
  {function : Signature → UInt64 × UInt64}

theorem CallsTidily.left (h : CallsTidily callees (names ++ more) function) :
    CallsTidily callees names function :=
  fun signature hName => h signature (List.mem_append_left _ hName)

theorem CallsTidily.right (h : CallsTidily callees (names ++ more) function) :
    CallsTidily callees more function :=
  fun signature hName => h signature (List.mem_append_right _ hName)

namespace Run

/-- A call replaces its arguments by its value. -/
theorem leaves_invoke (h : CallsTidily callees names function) {signature : Signature}
    (hName : .call signature ∈ names) (count : Nat) :
    Leaves (step callees (.invoke (function signature))) (count + signature.arity)
      (count + 1) := by
  rcases h signature hName with hWord | ⟨hWord, hArity, hTidy⟩
  · rw [step, hWord]
    exact (leaves_popArguments _ []).bind fun args =>
      ((tidy_effect _).leaves count).bind fun value => leaves_push value
  · rw [step, hWord, hArity]
    exact ((tidy_subprogram hTidy).leaves count).bind fun value => leaves_push value

theorem leaves_exec_singleton {i : LinkedInstr} {count count' : Nat}
    (h : Leaves (step callees i) count count') : Leaves (exec callees [i]) count count' :=
  h.bind fun _ => leaves_pure ()

mutual

/-- The code of an expression puts one value on the stack. -/
theorem leaves_lower : ∀ (e : Expr), CallsTidily callees e.references function →
    ∀ count : Nat, Leaves (exec callees (lower var function e)) count (count + 1)
  | .number _ value, _, _ => leaves_exec_singleton (leaves_pushField value)
  | .var _ name, _, count =>
    leaves_exec_singleton (((tidy_effect _).leaves count).bind fun value => leaves_push value)
  | .call _ name args, h, count => by
    rw [lower, exec_append]
    exact (leaves_lowerAll args h.left count).bind fun _ =>
      leaves_exec_singleton (leaves_invoke h.right (List.mem_singleton.mpr rfl) count)
  | .unary _ .neg operand, h, count => by
    rw [lower, exec_append]
    exact (leaves_lower operand h count).bind fun _ =>
      leaves_exec_singleton (leaves_pop.bind fun value => leaves_push (-value))
  | .unary _ .plus operand, h, count => leaves_lower operand h count
  | .binary _ op left right, h, count => by
    rw [lower, exec_append, exec_append]
    refine (leaves_lower left h.left count).bind fun _ => ?_
    refine (leaves_lower right h.right (count + 1)).bind fun _ => leaves_exec_singleton ?_
    exact leaves_pop.bind fun right => leaves_pop.bind fun left => leaves_push _
  | .sequence _ first second, h, count => by
    rw [lower, exec_append, exec]
    refine (leaves_lower first h.left count).bind fun _ => ?_
    exact (leaves_pop.bind fun _ => leaves_pure ()).bind fun _ => leaves_lower second h.right count

theorem leaves_lowerAll : ∀ (es : List Expr), CallsTidily callees (Expr.referencesAll es) function →
    ∀ count : Nat, Leaves (exec callees (lowerAll var function es)) count (count + es.length)
  | [], _, _ => leaves_pure ()
  | e :: es, h, count => by
    rw [lowerAll, exec_append, List.length_cons, Nat.add_comm es.length, ← Nat.add_assoc]
    exact (leaves_lower e h.left count).bind fun _ => leaves_lowerAll es h.right (count + 1)

end

end Run

end Code

end Bytecode

/-! ## Linked code -/

namespace Registry.Describes

variable {registry : Registry} {context : Context}

/-- Linked code leaves the stack of its caller as it was if the sub-programs that it calls do. -/
theorem tidy_of_callees (h : registry.Describes context) (host : Host σ) {backend : Backend}
    {optimize : Bool} {e : Expr} {object : Object} {linked : Linked} (hPlain : e.Plain)
    (hObject : Object.ofExpr? backend optimize e = .ok object)
    (hLinked : context.linkObject? object = .ok linked)
    (hCallees : ∀ callee linked', context.ready? callee = some linked' →
      (∃ signature, .call signature ∈ e.references ∧
        registry.functions signature = some (.program callee)) →
      Bytecode.Run.Tidy (linked'.evalOn host)) :
    Bytecode.Run.Tidy (linked.evalOn host) := by
  cases backend with
  | jit =>
    rw [h.evalOn_native host hPlain hObject hLinked]
    exact Bytecode.Run.tidy_effect _
  | interpreted =>
    rw [Linked.evalOn, h.image_bytecode hPlain hObject hLinked]
    apply Bytecode.Run.tidy_evalOn
    rw [Bytecode.Run.execute_encode]
    refine Bytecode.Run.leaves_lower e (fun signature hName => ?_) 0
    obtain ⟨b, hGet, hBinds⟩ := h.bound hPlain hObject hLinked hName
    rw [Reference.symbol] at hGet
    rw [Object.functionAddress, hGet, Option.getD_some, Binding.callee_at hGet]
    cases hBinds with
    | @primitive _ f hFunction =>
      obtain ⟨-, hArity, hMax⟩ := h.function signature _ hFunction
      rw [f.convention_binding, hArity]
      exact .inl (Bytecode.Convention.ofWord_word hMax)
    | program hFunction hReady =>
      exact .inr ⟨rfl, h.arity_of_program hFunction,
        hCallees _ _ hReady ⟨signature, hName, hFunction⟩⟩

/-- A linked sub-program leaves the stack of its caller as it was. -/
theorem tidy_of_ready? (h : registry.Describes context) (host : Host σ) {name : String}
    {linked : Linked} (hReady : context.ready? name = some linked) :
    Bytecode.Run.Tidy (linked.evalOn host) := by
  obtain ⟨body, object, -, hPlain, hObject, hLinked⟩ := h.body_of_ready? hReady
  refine h.linked_induction (P := fun _ linked => Bytecode.Run.Tidy (linked.evalOn host)) ?_ hPlain
    hObject hLinked
  intro optimize e object linked hPlain hObject hLinked hInner
  refine h.tidy_of_callees host hPlain hObject hLinked ?_
  rintro callee linked' hReady ⟨signature, hName, hFunction⟩
  obtain ⟨-, linked'', -, hReady', hTidy⟩ := hInner signature callee hName hFunction
  rw [hReady] at hReady'
  cases hReady'
  exact hTidy

end Registry.Describes

namespace Session

/-- A program compiled from any text for either machine, with any outcome of its last linking,
evaluates on any stack with a value, or fails because it is not linked, its linking has failed, or a
limit of the stack is reached, at whatever level of calls. In each case the stack has the depth, the
bytes below it and the number of running sub-programs that it had. -/
theorem evalOn_leaves_stack {target : Backend} {optimize : Bool} {source : String} {p : Program}
    (hObject : Object.ofString? target optimize source = .ok p.object)
    (hState : ∀ linked, p.state = .ready linked → ∃ config backend requests,
      (run config backend requests).context.linkObject? p.object = .ok linked)
    (host : Host σ) (stack : Stack) (s : σ) :
    ∃ (result : Except RuntimeError Float) (left : Stack) (s' : σ),
      p.evalOn host ⟨stack, s⟩ =
        (match result with
        | .ok value => .ok value ⟨left, s'⟩
        | .error error => .error error ⟨left, s'⟩) ∧
      left.depth = stack.depth ∧ left.calls = stack.calls ∧
      (∀ i < stack.depth, left.buffer[i]? = stack.buffer[i]?) ∧
      ∀ error, result = .error error →
        (error = .notLinked ∧ p.state = .unlinked) ∨
        (∃ cause, error = .linkFailed cause ∧ p.state = .failed cause) ∨
        (p.isReady = true ∧ (error = .stackOverflow ∨ error = .callDepthExceeded 64)) := by
  have hStopped {error : RuntimeError} (hRequire : p.state.require = .error error) :
      p.evalOn host ⟨stack, s⟩ = .error error ⟨stack, s⟩ := by
    rw [Program.evalOn, hRequire]
    rfl
  cases hLink : p.state with
  | unlinked =>
    refine ⟨.error .notLinked, stack, s, hStopped (by rw [hLink]; rfl), rfl, rfl,
      fun _ _ => rfl, ?_⟩
    rintro error ⟨⟩
    exact .inl ⟨rfl, rfl⟩
  | failed cause =>
    refine ⟨.error (.linkFailed cause), stack, s, hStopped (by rw [hLink]; rfl), rfl, rfl,
      fun _ _ => rfl, ?_⟩
    rintro error ⟨⟩
    exact .inr (.inl ⟨cause, rfl, rfl⟩)
  | ready linked =>
    obtain ⟨config, backend, requests, hLinked⟩ := hState linked hLink
    have hDescribes := describes_run config backend requests
    obtain ⟨e, -, hPlain, hOfExpr⟩ := Object.expr_of_ofString? hObject
    have hTidy : Bytecode.Run.Tidy (linked.evalOn host) :=
      hDescribes.tidy_of_callees host hPlain hOfExpr hLinked
        fun _ _ hReady _ => hDescribes.tidy_of_ready? host hReady
    have hOutcome := hTidy stack s
    have hRun : p.evalOn host = linked.evalOn host := by
      rw [Program.evalOn, hLink]
      rfl
    rw [hRun]
    generalize linked.evalOn host ⟨stack, s⟩ = outcome at hOutcome ⊢
    cases outcome with
    | ok value m =>
      exact ⟨.ok value, m.stack, m.state, rfl, hOutcome.depth, hOutcome.calls, hOutcome.below,
        fun _ hError => by cases hError⟩
    | error error m =>
      obtain ⟨hError, hStack⟩ := hOutcome
      refine ⟨.error error, m.stack, m.state, rfl, hStack.depth, hStack.calls, hStack.below, ?_⟩
      rintro error' ⟨⟩
      refine .inr (.inr ⟨?_, hError⟩)
      rw [Program.isReady, LinkState.isReady, hLink]
      rfl

/-! ## An example -/

/-- A stack that holds zero, with as many sub-programs on it as may run. -/
def busyStack : Stack :=
  { buffer := Vector.replicate 1024 0, depth := 8, calls := 64 }

theorem busyStack_holds : busyStack.Holds [Double.toFloat ⟨0⟩] 64 :=
  ⟨rfl, [⟨0⟩], rfl, rfl⟩

/-- On that stack, `y()` cannot run `y`, and leaves the stack alone. -/
theorem evalOn_callY : ∃ (p : Program) (left : Stack),
    Object.ofString? .interpreted false "y()" = .ok p.object ∧ p.isReady = true ∧
    p.evalOn twos ⟨busyStack, ()⟩ = .error (.callDepthExceeded 64) ⟨left, ()⟩ ∧
    left.depth = 8 ∧ left.calls = 64 ∧ ∀ i < 8, left.buffer[i]? = busyStack.buffer[i]? := by
  obtain ⟨p, hObject, hReady⟩ :=
    ready_callY .interpreted .interpreted fun object => Object.image?_bytecode
  obtain ⟨linked, hLink⟩ := Option.isSome_iff_exists.mp hReady
  have hLinked := LinkState.linked?_ofResult.mp hLink
  -- the call is refused
  have hListed := listed_run .standard .interpreted linkedXY
  obtain ⟨e, hExpr, hPlain, hOfExpr⟩ := Object.expr_of_ofString? hObject
  rw [Expr.ofString?_callY] at hExpr
  cases hExpr
  have hTree : Resolves (run .standard .interpreted linkedXY).registry _ _ :=
    .subprogram ⟨0, 3⟩ (function_linkedXY .interpreted) (body_linkedXY .interpreted)
      (resolves_linkedXY .interpreted)
  obtain ⟨m, hRun⟩ := hListed.describes.gives_linked hListed.backend twos hTree hPlain hOfExpr
    hLinked _ 64 () busyStack busyStack_holds
  obtain ⟨result, left, s', hOutcome, hDepth, hCalls, hBelow, -⟩ :=
    evalOn_leaves_stack (p := (run .standard .interpreted linkedXY).context.linkProgram p) hObject
      (fun linked' hState => ⟨.standard, .interpreted, linkedXY,
        LinkState.linked?_ofResult.mp (LinkState.linked?_eq_some.mpr hState)⟩) twos busyStack ()
  have hEval : ((run .standard .interpreted linkedXY).context.linkProgram p).evalOn twos =
      linked.evalOn twos := by
    rw [Program.evalOn, LinkState.linked?_eq_some.mp hLink]
    rfl
  rw [hEval, hRun] at hOutcome
  refine ⟨(run .standard .interpreted linkedXY).context.linkProgram p, left, hObject, hReady, ?_,
    hDepth, hCalls, hBelow⟩
  rw [hEval, hRun, hOutcome]
  cases result with
  | ok value => cases hOutcome
  | error error =>
    cases hOutcome
    rfl

end Session

end Formula
