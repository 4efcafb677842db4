import Formula.Proofs.Bytecode.Lowering
import Formula.Proofs.Resolved
import Mathlib.Data.List.Induction

/-!
# Running bytecode

The instructions of an expression push its value, or stop with the first limit that the expression
exceeds (`gives_lower`). `Run.Gives` states such outcomes: they depend on the number of values on
the stack and of running sub-programs, and neither on what the values are nor on the effects on the
state. `Names` says what the callees that code refers to have to do with the names of the
expression.
-/

namespace Formula.Bytecode

variable {σ α β : Type}

namespace Run

/-! ## Outcomes -/

/-- On a stack that holds `values`, inside `calls` sub-programs and in state `s`, a computation
fails with `limit` if there is one; otherwise it returns `a` and leaves `values'` and `s'`. -/
def Gives (x : Run σ α) (values : List Float) (calls : Nat) (s : σ) (limit : Option RuntimeError)
    (a : α) (values' : List Float) (s' : σ) : Prop :=
  ∀ stack : Stack, stack.Holds values calls →
    match limit with
    | none => ∃ stack', x ⟨stack, s⟩ = .ok a ⟨stack', s'⟩ ∧ stack'.Holds values' calls
    | some error => ∃ m, x ⟨stack, s⟩ = .error error m

variable {values values₁ values₂ : List Float} {calls : Nat} {s s₁ s₂ : σ}
  {limit limit₁ limit₂ : Option RuntimeError} {a : α} {b : β}

theorem gives_pure (a : α) : Gives (pure a) values calls s none a values s :=
  fun stack hStack => ⟨stack, rfl, hStack⟩

/-- One computation after another: the first limit counts. -/
theorem Gives.bind {x : Run σ α} {f : α → Run σ β} (hx : Gives x values calls s limit₁ a values₁ s₁)
    (hf : Gives (f a) values₁ calls s₁ limit₂ b values₂ s₂) :
    Gives (x >>= f) values calls s (limit₁.or limit₂) b values₂ s₂ := by
  intro stack hStack
  have hFirst := hx stack hStack
  cases limit₁ with
  | some error =>
    obtain ⟨m, hRun⟩ := hFirst
    refine ⟨m, ?_⟩
    show EStateM.bind x f _ = _
    rw [EStateM.bind, hRun]
  | none =>
    obtain ⟨stack₁, hRun, hStack₁⟩ := hFirst
    have hBind : (x >>= f) ⟨stack, s⟩ = f a ⟨stack₁, s₁⟩ := by
      show EStateM.bind x f _ = _
      rw [EStateM.bind, hRun]
    rw [Option.none_or, hBind]
    exact hf stack₁ hStack₁

/-- One computation after another where the second exceeds no limit. -/
theorem Gives.andThen {x : Run σ α} {f : α → Run σ β}
    (hx : Gives x values calls s limit a values₁ s₁)
    (hf : Gives (f a) values₁ calls s₁ none b values₂ s₂) :
    Gives (x >>= f) values calls s limit b values₂ s₂ := by
  have h := hx.bind hf
  rwa [Option.or_none] at h

theorem gives_effect (x : StateM σ α) :
    Gives (effect x) values calls s none (x s).1 values (x s).2 :=
  fun stack hStack => ⟨stack, rfl, hStack⟩

/-! ## The stack -/

theorem gives_pushField (field : Double) :
    Gives (onStack (Stack.push field)) values calls s (Resolved.overflow? values.length) ()
      (field.toFloat :: values) s := by
  intro stack hStack
  unfold Resolved.overflow?
  split_ifs with hRoom
  · obtain ⟨stack', hPush, hStack'⟩ := hStack.push field hRoom
    refine ⟨stack', ?_, hStack'⟩
    rw [onStack, hPush]
  · refine ⟨⟨stack, s⟩, ?_⟩
    rw [onStack, hStack.push_full field (Nat.le_of_not_lt hRoom)]

theorem gives_push (value : Float) :
    Gives (push value) values calls s (Resolved.overflow? values.length) () (value :: values)
      s := by
  have h : Gives (push value) values calls s (Resolved.overflow? values.length) ()
      ((Double.ofFloat value).toFloat :: values) s := gives_pushField (Double.ofFloat value)
  rwa [Double.toFloat_ofFloat] at h

theorem gives_pop (value : Float) :
    Gives pop (value :: values) calls s none value values s := by
  intro stack hStack
  obtain ⟨field, stack', hPop, rfl, hStack'⟩ := hStack.pop
  refine ⟨stack', ?_, hStack'⟩
  show EStateM.map Double.toFloat (onStack Stack.pop) _ = _
  rw [EStateM.map, onStack, hPop]

theorem gives_popArguments (args : List Float) :
    ∀ popped, Gives (popArguments args.length popped) (args.reverse ++ values) calls s none
      (args ++ popped) values s := by
  induction args using List.reverseRecOn with
  | nil => exact fun popped => gives_pure popped
  | append_singleton args arg ih =>
    intro popped
    rw [List.length_append, List.reverse_append, List.append_assoc args, List.append_assoc]
    exact (gives_pop arg).bind (ih (arg :: popped))

/-- A value can be pushed in the place of one that has been popped. -/
theorem Gives.replace {x : Run σ α} {value : Float}
    (h : Gives x (value :: values) calls s (Resolved.overflow? values.length) a values₁ s₁) :
    Gives x (value :: values) calls s none a values₁ s₁ := by
  intro stack hStack
  have hRoom := (Resolved.overflow?_eq_none_iff values.length).mpr hStack.length_le
  rw [hRoom] at h
  exact h stack hStack

/-- A sub-program that is entered, in one piece. -/
theorem subprogram_apply {callee : Callee σ} {stack entered : Stack} (s : σ)
    (h : Stack.enterCall stack = .ok () entered) :
    subprogram callee ⟨stack, s⟩ =
      match callee.enter ⟨entered, s⟩ with
      | .ok value m => .ok value ⟨m.stack.leaveCall, m.state⟩
      | .error error m => .error error ⟨m.stack.leaveCall, m.state⟩ := by
  simp only [subprogram, bind, EStateM.bind, onStack, h]
  cases callee.enter ⟨entered, s⟩ <;> rfl

/-- A sub-program runs on the stack and is counted meanwhile. -/
theorem gives_subprogram {callee : Callee σ} {value : Float}
    (h : Gives callee.enter values (calls + 1) s limit value values s₁) :
    Gives (subprogram callee) values calls s
      (if calls < Stack.maxCalls then limit else some (.callDepthExceeded Stack.maxCalls)) value
      values s₁ := by
  intro stack hStack
  split_ifs with hRoom
  · obtain ⟨entered, hEnter, hEntered⟩ := hStack.enterCall hRoom
    have hCallee := h entered hEntered
    rw [subprogram_apply s hEnter]
    cases limit with
    | some error =>
      obtain ⟨m, hRun⟩ := hCallee
      exact ⟨_, by rw [hRun]⟩
    | none =>
      obtain ⟨left, hRun, hLeft⟩ := hCallee
      exact ⟨left.leaveCall, by rw [hRun], hLeft.leaveCall⟩
  · refine ⟨⟨stack, s⟩, ?_⟩
    simp only [subprogram, bind, EStateM.bind, onStack,
      hStack.enterCall_full (Nat.le_of_not_lt hRoom)]

/-! ## Instructions -/

variable {callees : Array (Callee σ)}

theorem gives_neg (value : Float) :
    Gives (step callees .neg) (value :: values) calls s none () (-value :: values) s :=
  ((gives_pop value).bind (gives_push (-value))).replace

theorem gives_binary (op : BinaryOp) (left right : Float) :
    Gives (step callees (.binary op)) (right :: left :: values) calls s none ()
      (op.apply left right :: values) s :=
  (gives_pop right).bind ((gives_pop left).bind (gives_push (op.apply left right))).replace

theorem gives_discard (value : Float) :
    Gives (step callees .discard) (value :: values) calls s none () values s :=
  (gives_pop value).bind (gives_pure ())

theorem gives_loadVar {address : UInt64} {read : StateM σ Float}
    (h : (callees[address.toNat]?.getD .absent).read = read) :
    Gives (step callees (.loadVar address)) values calls s (Resolved.overflow? values.length) ()
      ((read s).1 :: values) (read s).2 := by
  rw [step, h]
  exact (gives_effect read).bind (gives_push _)

theorem gives_arguments {address word : UInt64} {args : List Float}
    {function : List Float → StateM σ Float}
    (hWord : .ofWord word = Convention.arguments args.length)
    (hCall : (callees[address.toNat]?.getD .absent).call = function) :
    Gives (step callees (.invoke (address, word))) (args.reverse ++ values) calls s
      (Resolved.overflow? values.length) () ((function args s).1 :: values)
      (function args s).2 := by
  have hArgs : Gives (popArguments args.length []) (args.reverse ++ values) calls s none
      (args ++ []) values s := gives_popArguments args []
  rw [List.append_nil] at hArgs
  rw [step, hWord, invoke, hCall]
  exact hArgs.bind ((gives_effect (function args)).bind (gives_push _))

/-- The value of a sub-program fits where the sub-program has computed it. -/
theorem gives_enter {address word : UInt64} {tree : Resolved} {host : Host σ}
    (hWord : .ofWord word = Convention.subprogram)
    (hEnter : Gives (callees[address.toNat]?.getD .absent).enter values (calls + 1) s
      (tree.limit? values.length (calls + 1)) (tree.eval host s).1 values (tree.eval host s).2) :
    Gives (step callees (.invoke (address, word))) values calls s
      (Resolved.limit? values.length calls (.subprogram tree)) () ((tree.eval host s).1 :: values)
      (tree.eval host s).2 := by
  have hPushed := (gives_subprogram hEnter).bind (gives_push _)
  have hLimit : (Resolved.limit? values.length calls (.subprogram tree)).or
      (Resolved.overflow? values.length) =
        Resolved.limit? values.length calls (.subprogram tree) := by
    rw [Resolved.limit?]
    split_ifs with hRoom
    · exact Resolved.limit?_or_overflow? tree values.length hRoom
    · rfl
  rw [step, hWord, invoke, ← hLimit]
  exact hPushed

/-- Executes instructions without offsets. -/
def exec (callees : Array (Callee σ)) : List LinkedInstr → Run σ Unit
  | [] => pure ()
  | i :: rest => do
    step callees i
    exec callees rest

theorem steps_eq_exec (instrs : List (Nat × LinkedInstr)) :
    steps callees instrs = exec callees (instrs.map Prod.snd) := by
  induction instrs with
  | nil => rfl
  | cons instr instrs ih =>
    rw [steps, List.map_cons, exec, ih]

theorem exec_append (code more : List LinkedInstr) :
    exec callees (code ++ more) = (exec callees code >>= fun _ => exec callees more) := by
  induction code with
  | nil => rfl
  | cons i code ih => rw [List.cons_append, exec, exec, ih, bind_assoc]

theorem execute_encode (code : List LinkedInstr) :
    execute callees (code.flatMap Instr.encode) = exec callees code := by
  have hSteps : steps callees (Instr.withOffsets 0 code) =
      exec callees ((Instr.withOffsets 0 code).map Prod.snd) := steps_eq_exec _
  rw [Instr.map_snd_withOffsets] at hSteps
  rw [execute, Instr.decodeAll_encode, ← hSteps]
  exact bind_pure_unit

/-- Code that pushes a value returns it and leaves the stack as it was. -/
theorem gives_evalOn {callees : Array (Callee σ)} {bytes : List UInt8} {value : Float}
    (h : Gives (execute callees bytes) values calls s limit () (value :: values) s₁) :
    Gives (evalOn callees bytes) values calls s limit value values s₁ := by
  intro stack hStack
  have hRun := h.bind (f := fun _ => pop) (gives_pop value) stack hStack
  rw [Option.or_none] at hRun
  unfold evalOn
  cases limit with
  | some error =>
    obtain ⟨m, hRun⟩ := hRun
    exact ⟨_, by dsimp only; rw [hRun]⟩
  | none =>
    obtain ⟨left, hRun, hLeft⟩ := hRun
    have hDepth : left.depth = stack.depth := hLeft.depth.trans hStack.depth.symm
    refine ⟨left.truncate stack.depth, ?_, hDepth ▸ hLeft.truncate⟩
    dsimp only
    rw [hRun]
    simp only [hDepth, Nat.sub_self, if_true]

end Run

/-! ## Expressions -/

/-- The operands that code has for `names` lead to what the names stand for in a registry, and a
call goes by the right convention. -/
structure Names (callees : Array (Callee σ)) (host : Host σ) (registry : Registry)
    (names : List Reference) (var : String → UInt64) (function : Signature → UInt64 × UInt64) :
    Prop where
  read : ∀ name cell, .var name ∈ names → registry.vars name = some cell →
    (callees[(var name).toNat]?.getD .absent).read = host.read cell
  call : ∀ signature f, .call signature ∈ names →
    registry.functions signature = some f.function →
    .ofWord (function signature).2 = Convention.arguments signature.arity ∧
      (callees[(function signature).1.toNat]?.getD .absent).call = host.apply f
  enter : ∀ signature callee body tree, .call signature ∈ names →
    registry.functions signature = some (.program callee) → registry.bodies callee = some body →
    Resolves registry body tree →
    .ofWord (function signature).2 = Convention.subprogram ∧ ∀ values calls s,
      Run.Gives (callees[(function signature).1.toNat]?.getD .absent).enter values calls s
        (tree.limit? values.length calls) (tree.eval host s).1 values (tree.eval host s).2

namespace Names

variable {callees : Array (Callee σ)} {host : Host σ} {registry : Registry}
  {names more : List Reference} {var : String → UInt64} {function : Signature → UInt64 × UInt64}

theorem left (h : Names callees host registry (names ++ more) var function) :
    Names callees host registry names var function where
  read name cell hName := h.read name cell (List.mem_append_left _ hName)
  call signature f hName := h.call signature f (List.mem_append_left _ hName)
  enter signature callee body tree hName :=
    h.enter signature callee body tree (List.mem_append_left _ hName)

theorem right (h : Names callees host registry (names ++ more) var function) :
    Names callees host registry more var function where
  read name cell hName := h.read name cell (List.mem_append_right _ hName)
  call signature f hName := h.call signature f (List.mem_append_right _ hName)
  enter signature callee body tree hName :=
    h.enter signature callee body tree (List.mem_append_right _ hName)

end Names

namespace Run

variable {callees : Array (Callee σ)} {host : Host σ} {registry : Registry}
  {var : String → UInt64} {function : Signature → UInt64 × UInt64}

theorem gives_exec_singleton {i : LinkedInstr} {values values₁ : List Float} {calls : Nat}
    {s s₁ : σ} {limit : Option RuntimeError} (h : Gives (step callees i) values calls s limit ()
      values₁ s₁) : Gives (exec callees [i]) values calls s limit () values₁ s₁ := by
  have hExec := h.bind (gives_pure ())
  rwa [Option.or_none] at hExec

section Composite

variable {code more : List LinkedInstr} {values values₂ : List Float} {calls : Nat} {s s₁ s₂ : σ}
  {limit limit₁ limit₂ : Option RuntimeError}

theorem gives_exec_neg {value : Float}
    (h : Gives (exec callees code) values calls s limit () (value :: values) s₁) :
    Gives (exec callees (code ++ [.neg])) values calls s limit () (-value :: values) s₁ := by
  rw [exec_append]
  exact h.andThen (gives_exec_singleton (gives_neg value))

/-- The right operand is computed one value higher. -/
theorem gives_exec_binary (op : BinaryOp) {left right : Float}
    (hLeft : Gives (exec callees code) values calls s limit₁ () (left :: values) s₁)
    (hRight : Gives (exec callees more) (left :: values) calls s₁ limit₂ ()
      (right :: left :: values) s₂) :
    Gives (exec callees (code ++ (more ++ [.binary op]))) values calls s (limit₁.or limit₂) ()
      (op.apply left right :: values) s₂ := by
  rw [exec_append, exec_append]
  exact hLeft.bind (hRight.andThen (gives_exec_singleton (gives_binary op left right)))

theorem gives_exec_discard {value : Float}
    (hFirst : Gives (exec callees code) values calls s limit₁ () (value :: values) s₁)
    (hSecond : Gives (exec callees more) values calls s₁ limit₂ () values₂ s₂) :
    Gives (exec callees (code ++ (.discard :: more))) values calls s (limit₁.or limit₂) () values₂
      s₂ := by
  rw [exec_append, exec]
  exact hFirst.bind ((gives_discard value).bind hSecond)

/-- An argument lies below those after it. -/
theorem gives_exec_argument {value : Float} {args : List Float}
    (hHead : Gives (exec callees code) values calls s limit₁ () (value :: values) s₁)
    (hTail : Gives (exec callees more) (value :: values) calls s₁ limit₂ ()
      (args.reverse ++ (value :: values)) s₂) :
    Gives (exec callees (code ++ more)) values calls s (limit₁.or limit₂) ()
      ((value :: args).reverse ++ values) s₂ := by
  rw [exec_append, List.reverse_cons, List.append_assoc]
  exact hHead.bind hTail

end Composite

mutual

/-- The instructions of an expression push its value. -/
theorem gives_lower : ∀ {tree : Resolved} {e : Expr}, Resolves registry e tree →
    Names callees host registry e.references var function →
    ∀ (values : List Float) (calls : Nat) (s : σ),
      Gives (exec callees (lower var function e)) values calls s (tree.limit? values.length calls)
        () ((tree.eval host s).1 :: values) (tree.eval host s).2
  | .number value, _, .number .., _, values, calls, s =>
    gives_exec_singleton (gives_pushField value)
  | .var cell, _, .var _ hVar, hNames, values, calls, s =>
    gives_exec_singleton (gives_loadVar (hNames.read _ cell (List.mem_singleton.mpr rfl) hVar))
  | .call f trees, _, .call _ hFunction hArgs, hNames, values, calls, s => by
    have hAll := gives_lowerAll hArgs hNames.left values calls s
    obtain ⟨hWord, hCall⟩ := hNames.right.call _ f (List.mem_singleton.mpr rfl) hFunction
    have hLength := Resolved.length_evalAll host trees s
    have hArity := hArgs.length_eq.trans hLength.symm
    rw [lower, exec_append]
    exact hAll.bind (gives_exec_singleton (gives_arguments (hArity ▸ hWord) hCall))
  | .subprogram body, _, .subprogram _ hFunction hBody hTree, hNames, values,
      calls, s => by
    obtain ⟨hWord, hEnter⟩ := hNames.right.enter _ _ _ body (List.mem_singleton.mpr rfl) hFunction
      hBody hTree
    exact gives_exec_singleton (gives_enter hWord (hEnter values (calls + 1) s))
  | .unary .neg tree, _, .unary _ _ hOperand, hNames, values, calls, s =>
    gives_exec_neg (gives_lower hOperand hNames values calls s)
  | .unary .plus tree, _, .unary _ _ hOperand, hNames, values, calls, s =>
    gives_lower hOperand hNames values calls s
  | .binary op left right, _, .binary _ _ hLeft hRight, hNames, values, calls, s =>
    gives_exec_binary op (gives_lower hLeft hNames.left values calls s)
      (gives_lower hRight hNames.right ((left.eval host s).1 :: values) calls
        (left.eval host s).2)
  | .sequence first second, _, .sequence _ hFirst hSecond, hNames, values, calls, s =>
    gives_exec_discard (gives_lower hFirst hNames.left values calls s)
      (gives_lower hSecond hNames.right values calls (first.eval host s).2)

theorem gives_lowerAll : ∀ {trees : List Resolved} {es : List Expr},
    ResolvesAll registry es trees →
    Names callees host registry (Expr.referencesAll es) var function →
    ∀ (values : List Float) (calls : Nat) (s : σ),
      Gives (exec callees (lowerAll var function es)) values calls s
        (Resolved.limitAll? values.length calls trees) ()
        ((Resolved.evalAll host trees s).1.reverse ++ values) (Resolved.evalAll host trees s).2
  | [], _, .nil, _, _, _, _ => gives_pure ()
  | tree :: _, _, .cons hHead hTail, hNames, values, calls, s =>
    gives_exec_argument (gives_lower hHead hNames.left values calls s)
      (gives_lowerAll hTail hNames.right ((tree.eval host s).1 :: values) calls
        (tree.eval host s).2)

end

end Run

end Formula.Bytecode
