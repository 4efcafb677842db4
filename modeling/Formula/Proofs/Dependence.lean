import Formula.Proofs.Context.Resolution
import Mathlib.Data.Option.Basic

/-!
# What an evaluation depends on

Let the states of two worlds be related. Computations in the two worlds are alike if they give the
same from the same stack and from related states, leave the same stack and related states, and do
not fail because there is nothing to run (`Bytecode.Run.Alike`).

Both machines only pass on what the callees of code do, so code with alike callees is alike
(`Image.alike_runOn`). By induction on its bindings, linked code is alike in two worlds that agree
on the variables and functions that it is bound to, at any level of calls (`Linked.alike_evalOn`).
-/

namespace Formula

/-- Whether the error says that there is nothing to run. -/
def RuntimeError.Unlinked : RuntimeError → Prop
  | notLinked => True
  | linkFailed _ => True
  | _ => False

namespace Bytecode.Instr

variable {v f : Type} [Packed v] [Packed f]

omit [Packed v] [Packed f] in
theorem not_unlinked_of_withOperand {α : Type} [Packed α] {make : α → Instr v f} {offset : Nat}
    {bytes : List UInt8} {error : RuntimeError}
    (h : withOperand make offset bytes = .error error) : ¬error.Unlinked := by
  unfold withOperand at h
  split at h
  · cases h
  · cases h
    exact id

theorem not_unlinked_of_decode {offset : Nat} {byte : UInt8} {bytes : List UInt8}
    {error : RuntimeError} (h : (decode offset byte bytes : Except RuntimeError (Instr v f × _)) =
      .error error) : ¬error.Unlinked := by
  unfold decode at h
  split at h
  · cases h
    exact id
  · exact not_unlinked_of_withOperand h
  · exact not_unlinked_of_withOperand h
  · exact not_unlinked_of_withOperand h
  all_goals cases h

theorem not_unlinked_of_decodeAllAfter (collected : List (Nat × Instr v f)) (offset : Nat)
    (bytes : List UInt8) {place : Nat} {error : RuntimeError}
    (h : (decodeAllAfter collected offset bytes).2 = some (place, error)) : ¬error.Unlinked := by
  fun_induction decodeAllAfter collected offset bytes with
  | case1 => cases h
  | case2 collected offset byte bytes error' hDecode =>
    cases h
    exact not_unlinked_of_decode hDecode
  | case3 collected offset byte bytes i rest hDecode ih => exact ih h

theorem not_unlinked_of_decodeAll {bytes : List UInt8} {broken : Nat × RuntimeError}
    (h : (decodeAll bytes : List (Nat × Instr v f) × _).2 = some broken) : ¬broken.2.Unlinked :=
  not_unlinked_of_decodeAllAfter [] 0 bytes h

end Bytecode.Instr

section Alike

variable {σ τ α β : Type} {R : σ → τ → Prop}

/-- From related states, both computations have the same value and leave related states. -/
def StateM.Alike (R : σ → τ → Prop) (x : StateM σ α) (y : StateM τ α) : Prop :=
  ∀ s t, R s t → (x s).1 = (y t).1 ∧ R (x s).2 (y t).2

theorem StateM.alike_pure (a : α) : StateM.Alike R (pure a) (pure a) :=
  fun _ _ h => ⟨rfl, h⟩

theorem StateM.Alike.bind {x : StateM σ α} {y : StateM τ α} {f : α → StateM σ β}
    {g : α → StateM τ β} (h : StateM.Alike R x y) (hNext : ∀ a, StateM.Alike R (f a) (g a)) :
    StateM.Alike R (x >>= f) (y >>= g) := by
  intro s t hStates
  obtain ⟨hValue, hLeft⟩ := h s t hStates
  rw [StateM.bind_apply, StateM.bind_apply, hValue]
  exact hNext _ _ _ hLeft

theorem StateM.Alike.map {x : StateM σ α} {y : StateM τ α} (h : StateM.Alike R x y) (f : α → β) :
    StateM.Alike R (f <$> x) (f <$> y) := by
  intro s t hStates
  obtain ⟨hValue, hLeft⟩ := h s t hStates
  rw [StateM.map_apply, StateM.map_apply, hValue]
  exact ⟨rfl, hLeft⟩

/-! ## Bytecode -/

namespace Bytecode

/-- The same value or the same error, with the same stack and related states. -/
inductive SameOutcome (R : σ → τ → Prop) : EStateM.Result RuntimeError (Machine σ) α →
    EStateM.Result RuntimeError (Machine τ) α → Prop where
  | ok (value : α) (stack : Stack) {s : σ} {t : τ} (h : R s t) :
    SameOutcome R (.ok value ⟨stack, s⟩) (.ok value ⟨stack, t⟩)
  | error {error : RuntimeError} (hLinked : ¬error.Unlinked) (stack : Stack) {s : σ} {t : τ}
    (h : R s t) : SameOutcome R (.error error ⟨stack, s⟩) (.error error ⟨stack, t⟩)

/-- From the same stack and related states, both computations have the same outcome. -/
def Run.Alike (R : σ → τ → Prop) (x : Run σ α) (y : Run τ α) : Prop :=
  ∀ stack s t, R s t → SameOutcome R (x ⟨stack, s⟩) (y ⟨stack, t⟩)

/-- Both callees behave alike, however they are used. -/
structure Callee.Alike (R : σ → τ → Prop) (callee : Callee σ) (callee' : Callee τ) : Prop where
  arity : callee.arity = callee'.arity
  read : StateM.Alike R callee.read callee'.read
  call : ∀ args, StateM.Alike R (callee.call args) (callee'.call args)
  enter : Run.Alike R callee.enter callee'.enter

/-- The callees at every address are alike. -/
def AllAlike (R : σ → τ → Prop) (callees : Array (Callee σ)) (callees' : Array (Callee τ)) : Prop :=
  ∀ i : Nat, Callee.Alike R (callees[i]?.getD .absent) (callees'[i]?.getD .absent)

namespace Run

theorem alike_pure (a : α) : Alike R (pure a) (pure a) :=
  fun stack _ _ h => .ok a stack h

theorem alike_throw {error : RuntimeError} (hLinked : ¬error.Unlinked) :
    Alike R (throw error : Run σ α) (throw error) :=
  fun stack _ _ h => .error hLinked stack h

theorem Alike.bind {x : Run σ α} {y : Run τ α} {f : α → Run σ β} {g : α → Run τ β}
    (h : Alike R x y) (hNext : ∀ a, Alike R (f a) (g a)) : Alike R (x >>= f) (y >>= g) := by
  intro stack s t hStates
  have hFirst := h stack s t hStates
  show SameOutcome R (EStateM.bind x f ⟨stack, s⟩) (EStateM.bind y g ⟨stack, t⟩)
  unfold EStateM.bind
  generalize x ⟨stack, s⟩ = outcome at hFirst
  generalize y ⟨stack, t⟩ = outcome' at hFirst
  cases hFirst with
  | ok value left hLeft => exact hNext value left _ _ hLeft
  | error hLinked left hLeft => exact .error hLinked left hLeft

theorem Alike.map {x : Run σ α} {y : Run τ α} (h : Alike R x y) (f : α → β) :
    Alike R (f <$> x) (f <$> y) := by
  rw [map_eq_pure_bind, map_eq_pure_bind]
  exact h.bind fun a => alike_pure (f a)

theorem alike_effect {x : StateM σ α} {y : StateM τ α} (h : StateM.Alike R x y) :
    Alike R (effect x) (effect y) := by
  intro stack s t hStates
  obtain ⟨hValue, hLeft⟩ := h s t hStates
  show SameOutcome R (.ok (x s).1 ⟨stack, (x s).2⟩) (.ok (y t).1 ⟨stack, (y t).2⟩)
  rw [hValue]
  exact .ok _ stack hLeft

/-- A computation on the stack only is alike if its errors are those of stacks. -/
theorem alike_onStack {x : EStateM RuntimeError Stack α}
    (hLinked : ∀ stack error left, x stack = .error error left → ¬error.Unlinked) :
    Alike R (onStack x : Run σ α) (onStack x) := by
  intro stack s t hStates
  unfold onStack
  dsimp only
  cases hOutcome : x stack with
  | ok value left => exact .ok value left hStates
  | error error left => exact .error (hLinked stack error left hOutcome) left hStates

theorem alike_pushField {γ : Type} [Packed γ] (value : γ) :
    Alike R (onStack (Stack.push value) : Run σ Unit) (onStack (Stack.push value)) := by
  refine alike_onStack fun ⟨buffer, depth, calls, hDepth⟩ error left hError => ?_
  simp only [Stack.push] at hError
  split_ifs at hError
  cases hError
  exact id

theorem alike_push (value : Float) : Alike R (push value : Run σ Unit) (push value) :=
  alike_pushField _

theorem alike_pop : Alike R (pop : Run σ Float) pop := by
  refine (alike_onStack fun ⟨buffer, depth, calls, hDepth⟩ error left hError => ?_).map _
  simp only [Stack.pop] at hError
  split_ifs at hError
  cases hError
  exact id

theorem alike_popArguments (count : Nat) : ∀ args : List Float,
    Alike R (popArguments count args : Run σ (List Float)) (popArguments count args) := by
  induction count with
  | zero => exact fun args => alike_pure args
  | succ count ih => exact fun args => alike_pop.bind fun arg => ih (arg :: args)

section Callees

variable {callee : Callee σ} {callee' : Callee τ}

theorem alike_subprogram (h : Alike R callee.enter callee'.enter) :
    Alike R (subprogram callee) (subprogram callee') := by
  have hEnter : Alike R (onStack Stack.enterCall : Run σ Unit) (onStack Stack.enterCall) := by
    refine alike_onStack fun stack error left hError => ?_
    rw [Stack.enterCall] at hError
    split_ifs at hError
    cases hError
    exact id
  refine hEnter.bind fun _ stack s t hStates => ?_
  have hCallee := h stack s t hStates
  generalize callee.enter ⟨stack, s⟩ = outcome at hCallee
  generalize callee'.enter ⟨stack, t⟩ = outcome' at hCallee
  cases hCallee with
  | ok value left hLeft => exact .ok value left.leaveCall hLeft
  | error hLinked left hLeft => exact .error hLinked left.leaveCall hLeft

theorem alike_invoke (h : Callee.Alike R callee callee') (convention : Convention) :
    Alike R (invoke callee convention) (invoke callee' convention) := by
  cases convention with
  | arguments count =>
    refine (alike_popArguments count []).bind fun args => ?_
    exact (alike_effect (h.call args)).bind alike_push
  | subprogram => exact (alike_subprogram h.enter).bind alike_push

variable {callees : Array (Callee σ)} {callees' : Array (Callee τ)}

theorem alike_step (h : AllAlike R callees callees') (i : LinkedInstr) :
    Alike R (step callees i) (step callees' i) := by
  cases i with
  | pushConst value => exact alike_pushField value
  | loadVar address => exact (alike_effect (h address.toNat).read).bind alike_push
  | invoke ref => exact alike_invoke (h ref.1.toNat) _
  | binary op => exact alike_pop.bind fun right => alike_pop.bind fun left => alike_push _
  | neg => exact alike_pop.bind fun value => alike_push _
  | discard => exact alike_pop.bind fun _ => alike_pure ()

theorem alike_steps (h : AllAlike R callees callees') (instrs : List (Nat × LinkedInstr)) :
    Alike R (steps callees instrs) (steps callees' instrs) := by
  induction instrs with
  | nil => exact alike_pure ()
  | cons instr instrs ih => exact (alike_step h instr.2).bind fun _ => ih

theorem alike_execute (h : AllAlike R callees callees') (bytes : List UInt8) :
    Alike R (execute callees bytes) (execute callees' bytes) := by
  have hBroken {place : Nat} {error : RuntimeError}
      (hError : (Instr.decodeAll bytes : List (Nat × LinkedInstr) × _).2 = some (place, error)) :
      ¬error.Unlinked := Instr.not_unlinked_of_decodeAll hError
  unfold execute
  generalize (Instr.decodeAll bytes : List (Nat × LinkedInstr) × _) = decoded at hBroken ⊢
  obtain ⟨instrs, broken⟩ := decoded
  refine (alike_steps h instrs).bind fun _ => ?_
  cases broken with
  | none => exact alike_pure ()
  | some broken => exact alike_throw (hBroken rfl)

theorem alike_evalOn (h : AllAlike R callees callees') (bytes : List UInt8) :
    Alike R (evalOn callees bytes) (evalOn callees' bytes) := by
  intro stack s t hStates
  have hRun := ((alike_execute h bytes).bind fun _ => alike_pop) stack s t hStates
  unfold evalOn
  dsimp only
  generalize (do execute callees bytes; pop : Run σ Float) ⟨stack, s⟩ = outcome at hRun ⊢
  generalize (do execute callees' bytes; pop : Run τ Float) ⟨stack, t⟩ = outcome' at hRun ⊢
  cases hRun with
  | error hLinked left hLeft => exact .error hLinked _ hLeft
  | ok value left hLeft =>
    dsimp only
    -- a stack that is too deep is the same error for both
    split_ifs
    · exact .ok value _ hLeft
    · exact .error id _ hLeft

end Callees

section EmptyStack

variable {x : Run σ α} {y : Run τ α}

/-- On stacks of their own, the computations have the same result. -/
theorem Alike.onEmptyStack (h : Alike R x y) : StateM.Alike R x.onEmptyStack y.onEmptyStack := by
  intro s t hStates
  have hRun := h .empty s t hStates
  unfold Run.onEmptyStack
  generalize x ⟨.empty, s⟩ = outcome at hRun ⊢
  generalize y ⟨.empty, t⟩ = outcome' at hRun ⊢
  cases hRun with
  | ok value left hLeft => exact ⟨rfl, hLeft⟩
  | error hLinked left hLeft => exact ⟨rfl, hLeft⟩

theorem Alike.not_unlinked (h : Alike R x y) {s : σ} {t : τ} (hStates : R s t)
    {error : RuntimeError} (hError : (x.onEmptyStack s).1 = .error error) : ¬error.Unlinked := by
  have hRun := h .empty s t hStates
  unfold Run.onEmptyStack at hError
  generalize x ⟨.empty, s⟩ = outcome at hRun hError
  generalize y ⟨.empty, t⟩ = outcome' at hRun
  cases hRun with
  | ok value left hLeft => cases hError
  | error hLinked left hLeft =>
    cases hError
    exact hLinked

end EmptyStack

end Run

end Bytecode

/-! ## Native code -/

namespace Native

/-- Both linkages put the same words in the place of symbols, and behave alike at every address. -/
structure Linkage.Alike (R : σ → τ → Prop) (linkage : Linkage σ) (linkage' : Linkage τ) : Prop where
  word : linkage.word = linkage'.word
  load : ∀ address, StateM.Alike R (linkage.load address) (linkage'.load address)
  call : ∀ address registers,
    StateM.Alike R (linkage.call address registers) (linkage'.call address registers)

/-- The same registers and the same stack, with related states. -/
inductive Machine.Alike (R : σ → τ → Prop) : Machine σ → Machine τ → Prop where
  | mk (registers : Registers) (stack : List UInt64) {s : σ} {t : τ} (h : R s t) :
    Alike R ⟨registers, stack, s⟩ ⟨registers, stack, t⟩

variable {linkage : Linkage σ} {linkage' : Linkage τ} {m : Machine σ} {m' : Machine τ}

theorem Machine.alike_step (h : linkage.Alike R linkage') (hMachines : Machine.Alike R m m')
    (i : Inst) : Option.Rel (Machine.Alike R) (m.step linkage i) (m'.step linkage' i) := by
  obtain @⟨registers, stack, s, t, hStates⟩ := hMachines
  have hOperand (kind : RelocationKind) (imm : Imm) :
      operand linkage kind imm = operand linkage' kind imm := by
    cases imm with
    | value word => rfl
    | symbol id => exact congrFun (congrFun h.word id) kind
  cases i with
  | movAbsRax imm =>
    simp only [step, hOperand]
    exact .some (.mk _ _ hStates)
  | movAbsRdi imm =>
    simp only [step, hOperand]
    exact .some (.mk _ _ hStates)
  | pushMemRax =>
    obtain ⟨hWord, hLeft⟩ := h.load registers.rax s t hStates
    show Option.Rel _ (some (Machine.mk registers ((linkage.load registers.rax s).1 :: stack) _)) _
    rw [hWord]
    exact .some (.mk _ _ hLeft)
  | callRax =>
    obtain ⟨hRegisters, hLeft⟩ := h.call registers.rax registers s t hStates
    show Option.Rel _ (some (Machine.mk (linkage.call registers.rax registers s).1 stack _)) _
    rw [hRegisters]
    exact .some (.mk _ _ hLeft)
  | popRax =>
    cases stack with
    | nil => exact .none
    | cons word stack => exact .some (.mk _ _ hStates)
  | restoreStack =>
    cases stack with
    | nil => exact .none
    | cons word stack => exact .some (.mk _ _ hStates)
  | _ => exact .some (.mk _ _ hStates)

theorem Machine.alike_run (h : linkage.Alike R linkage') (code : List Inst) :
    ∀ {m : Machine σ} {m' : Machine τ}, Machine.Alike R m m' →
      Option.Rel (Machine.Alike R) (run linkage code m) (run linkage' code m') := by
  induction code with
  | nil => exact fun _ => .none
  | cons i code ih =>
    intro m m' hMachines
    by_cases hRet : i = .ret
    · subst hRet
      exact .some hMachines
    · have hStep := alike_step h hMachines i
      -- `run` treats `ret` apart, so the step shows only for other instructions
      simp only [run]
      generalize m.step linkage i = next at hStep
      generalize m'.step linkage' i = next' at hStep
      cases hStep with
      | none => exact .none
      | some hNext => exact ih hNext

end Native

/-! ## Linked code -/

section Image

variable {callees : Array (Bytecode.Callee σ)} {callees' : Array (Bytecode.Callee τ)}

theorem Native.Linkage.alike_ofCallees (h : Bytecode.AllAlike R callees callees') :
    (ofCallees callees).Alike R (ofCallees callees') where
  word := rfl
  load address := (h address.toNat).read.map _
  call address registers := by
    have hCallee := h address.toNat
    have hArguments := hCallee.call (registers.arguments
      (callees[address.toNat]?.getD .absent).arity)
    refine StateM.Alike.bind ?_ fun value => StateM.alike_pure _
    rw [← hCallee.arity]
    exact hArguments

theorem Image.alike_nativeValue (h : Bytecode.AllAlike R callees callees')
    (code : List Native.Inst) :
    StateM.Alike R (nativeValue callees code) (nativeValue callees' code) := by
  intro s t hStates
  have hRun := Native.Machine.alike_run (Native.Linkage.alike_ofCallees h) code
    (.mk .zero [] hStates)
  unfold nativeValue Native.call?
  generalize Native.Machine.run _ code ⟨.zero, [], s⟩ = outcome at hRun ⊢
  generalize Native.Machine.run _ code ⟨.zero, [], t⟩ = outcome' at hRun ⊢
  cases hRun with
  | none => exact ⟨rfl, hStates⟩
  | some hMachines =>
    obtain ⟨registers, stack, hLeft⟩ := hMachines
    exact ⟨rfl, hLeft⟩

theorem Image.alike_runOn (h : Bytecode.AllAlike R callees callees') (image : Image) :
    Bytecode.Run.Alike R (image.runOn callees) (image.runOn callees') := by
  cases image with
  | bytecode bytes => exact Bytecode.Run.alike_evalOn h bytes
  | native code pages => exact Bytecode.Run.alike_effect (alike_nativeValue h code)

theorem Bytecode.Callee.alike_absent : Callee.Alike R .absent .absent where
  arity := rfl
  read := StateM.alike_pure _
  call _ := StateM.alike_pure _
  enter := Run.alike_pure _

theorem Image.alike_callee (h : Bytecode.AllAlike R callees callees') (image : Image) :
    Bytecode.Callee.Alike R (image.callee fun _ => callees) (image.callee fun _ => callees') where
  arity := rfl
  read := StateM.alike_pure _
  call args := by
    have hRun := (image.alike_runOn h).onEmptyStack
    exact hRun.map fun result : Except RuntimeError Float => result.toOption.getD Builtin.nan
  enter := image.alike_runOn h

end Image

mutual

/-- The variables and functions of a binding, at any level of calls. -/
def Binding.leaves : Binding → List Binding
  | .program _ _ bindings => leavesAll bindings
  | b => [b]

/-- The variables and functions of several bindings, at any level of calls. -/
def Binding.leavesAll : List Binding → List Binding
  | [] => []
  | b :: bs => b.leaves ++ leavesAll bs

end

theorem Binding.leavesAll_eq_flatMap (bindings : List Binding) :
    leavesAll bindings = bindings.flatMap leaves := by
  induction bindings with
  | nil => rfl
  | cons b bindings ih => rw [leavesAll, List.flatMap_cons, ih]

/-- The two worlds agree on those variables and functions that are among the bindings. -/
structure Host.AgreesOn (R : σ → τ → Prop) (host : Host σ) (host' : Host τ)
    (leaves : List Binding) : Prop where
  read : ∀ cell, .var cell ∈ leaves → StateM.Alike R (host.read cell) (host'.read cell)
  call : ∀ f args, .host f ∈ leaves → StateM.Alike R (host.call f args) (host'.call f args)
  clock : .builtin .clock ∈ leaves → StateM.Alike R host.clock host'.clock

theorem Host.agreesOn_self (host : Host σ) (leaves : List Binding) :
    host.AgreesOn Eq host leaves := by
  have hSelf {α : Type} (x : StateM σ α) : StateM.Alike Eq x x := by
    rintro s _ rfl
    exact ⟨rfl, rfl⟩
  exact ⟨fun cell _ => hSelf _, fun f args _ => hSelf _, fun _ => hSelf _⟩

section Host

variable {host : Host σ} {host' : Host τ}

theorem Host.AgreesOn.mono {leaves leaves' : List Binding} (h : host.AgreesOn R host' leaves)
    (hSubset : leaves' ⊆ leaves) : host.AgreesOn R host' leaves' :=
  ⟨fun cell hMem => h.read cell (hSubset hMem), fun f args hMem => h.call f args (hSubset hMem),
    fun hMem => h.clock (hSubset hMem)⟩

theorem Binding.allAlike {bindings : List Binding}
    (h : ∀ b ∈ bindings, Bytecode.Callee.Alike R (b.callee host) (b.callee host')) :
    Bytecode.AllAlike R (callees host bindings).toArray (callees host' bindings).toArray := by
  intro i
  rw [List.getElem?_toArray, List.getElem?_toArray, getElem?_callees, getElem?_callees]
  cases hBinding : bindings[i]? with
  | none => exact Bytecode.Callee.alike_absent
  | some b => exact h b (List.mem_of_getElem? hBinding)

mutual

theorem Binding.alike_callee : ∀ b : Binding, host.AgreesOn R host' b.leaves →
    Bytecode.Callee.Alike R (b.callee host) (b.callee host')
  | .var cell, h => by
    have hRead := h.read cell (List.mem_singleton.mpr rfl)
    exact ⟨rfl, hRead, fun _ => StateM.alike_pure _, Bytecode.Run.alike_pure _⟩
  | .builtin b, h => by
    refine ⟨rfl, StateM.alike_pure _, fun args => ?_, Bytecode.Run.alike_pure _⟩
    cases b with
    | clock => exact h.clock (List.mem_singleton.mpr rfl)
    | _ => exact StateM.alike_pure _
  | .host f, h => by
    have hCall := fun args => h.call f args (List.mem_singleton.mpr rfl)
    exact ⟨rfl, StateM.alike_pure _, hCall, Bytecode.Run.alike_pure _⟩
  | .program name image bindings, h =>
    image.alike_callee (allAlike (Binding.alike_callees bindings h))

theorem Binding.alike_callees : ∀ bindings : List Binding,
    host.AgreesOn R host' (Binding.leavesAll bindings) →
    ∀ b ∈ bindings, Bytecode.Callee.Alike R (b.callee host) (b.callee host')
  | [], _ => nofun
  | b :: bindings, h => by
    have hHead := Binding.alike_callee b (h.mono (List.subset_append_left ..))
    have hTail := Binding.alike_callees bindings (h.mono (List.subset_append_right ..))
    exact List.forall_mem_cons.mpr ⟨hHead, hTail⟩

end

/-- Linked code is alike in worlds that agree on what it is bound to. -/
theorem Linked.alike_evalOn {linked : Linked}
    (h : host.AgreesOn R host' (Binding.leavesAll linked.bindings)) :
    Bytecode.Run.Alike R (linked.evalOn host) (linked.evalOn host') :=
  linked.image.alike_runOn (Binding.allAlike (Binding.alike_callees linked.bindings h))

end Host

end Alike

end Formula
