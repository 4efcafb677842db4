import Formula.Proofs.Context.Resolution
import Formula.Proofs.Context.Walk

/-!
# Sub-programs looked up when they are called

Linked code holds the linked code of the sub-programs that it calls. `Program.evalNow` makes no use
of that: whenever a sub-program is called, it is looked up by its name in a context, and one that is
not linked there fails.

Both come to the same if the bindings are `Binding.Current`: at any level of calls, the context has
the code that they hold (`Program.evalNow_eq`). The bindings that linking gives are current
(`current_of_linkObject?`), and they remain so in later contexts (`Current.extends`).
-/

namespace Formula

/-! ## Levels of calls -/

mutual

/-- How many sub-programs call one another in a binding. -/
def Binding.depth : Binding → Nat
  | .program _ _ bindings => depthAll bindings + 1
  | _ => 0

/-- How many sub-programs call one another in any of the bindings. -/
def Binding.depthAll : List Binding → Nat
  | [] => 0
  | b :: bs => max b.depth (depthAll bs)

end

theorem Binding.depthAll_le_iff {bindings : List Binding} {depth : Nat} :
    depthAll bindings ≤ depth ↔ ∀ b ∈ bindings, b.depth ≤ depth := by
  induction bindings with
  | nil => exact iff_of_true (Nat.zero_le depth) nofun
  | cons b bindings ih => rw [depthAll, Nat.max_le, ih, List.forall_mem_cons]

/-- The context has the code that a binding holds for a sub-program, at any level of calls. -/
inductive Binding.Current (context : Context) : Binding → Prop where
  | var (cell : Cell) : Current context (.var cell)
  | builtin (b : Builtin) : Current context (.builtin b)
  | host (f : HostFunction) : Current context (.host f)
  | program {name : String} {image : Image} {bindings : List Binding}
    (hReady : context.ready? name = some ⟨image, bindings⟩)
    (hBindings : ∀ b ∈ bindings, Current context b) :
    Current context (.program name image bindings)

theorem Binding.Current.extends {early late : Context} {b : Binding} (h : b.Current early)
    (hExtends : early.Extends late) : b.Current late := by
  induction h with
  | var cell => exact .var cell
  | builtin b => exact .builtin b
  | host f => exact .host f
  | program hReady hBindings ih => exact .program (hExtends.ready _ _ hReady) ih

/-! ## Linking gives current bindings -/

namespace Registry.Describes

variable {registry : Registry} {context : Context}

theorem current_of_binding? (h : registry.Describes context) {symbol : Symbol} {b : Binding}
    (hBinding : context.binding? symbol = .ok b) : b.Current context := by
  generalize hSize : sizeOf b = size
  induction size using Nat.strongRecOn generalizing symbol b with
  | ind size ih =>
    unfold Context.binding? at hBinding
    split at hBinding
    · split at hBinding
      · cases hBinding
        exact .var _
      · cases hBinding
    · split at hBinding
      · cases hBinding
      · cases hBinding
        exact .builtin _
      · cases hBinding
        exact .host _
      · rename_i name hFunction
        split at hBinding
        · rename_i linked hReady
          cases hBinding
          obtain ⟨p, hProgram, hLinked⟩ := Context.ready?_eq_some_iff.mp hReady
          obtain ⟨hBindings, -⟩ :=
            Context.linkObject?_eq_ok_iff.mp (h.ready name p linked hProgram hLinked)
          refine .program hReady fun callee hMem => ?_
          have hLt := List.sizeOf_lt_of_mem hMem
          rw [Binding.program.sizeOf_spec] at hSize
          obtain ⟨other, -, hOther⟩ := Except.exists_of_mem_mapM hBindings hMem
          exact ih (sizeOf callee) (by omega) hOther rfl
        · cases hBinding

/-- What an object is linked to is current. -/
theorem current_of_linkObject? (h : registry.Describes context) {object : Object} {linked : Linked}
    (hLinked : context.linkObject? object = .ok linked) :
    ∀ b ∈ linked.bindings, b.Current context := by
  intro b hMem
  obtain ⟨hBindings, -⟩ := Context.linkObject?_eq_ok_iff.mp hLinked
  obtain ⟨symbol, -, hBinding⟩ := Except.exists_of_mem_mapM hBindings hMem
  exact h.current_of_binding? hBinding

end Registry.Describes

/-! ## Evaluation -/

section Evaluation

variable {σ : Type}

/-- A sub-program that does something when it is called. -/
def Bytecode.Callee.ofRun (run : Bytecode.Run σ Float) : Bytecode.Callee σ :=
  { absent with
    call := fun _ state =>
      let (result, state) := run.onEmptyStack state
      (result.toOption.getD Builtin.nan, state)
    enter := run }

/-- The value of a program whose bindings do something when they are used. -/
def Program.evalWith (callee : Binding → Bytecode.Callee σ) (p : Program) : Bytecode.Run σ Float :=
  match p.state.require with
  | .ok linked => linked.image.runOn (linked.bindings.map callee).toArray
  | .error error => throw error

/-- What a symbol is bound to, if a sub-program is looked up in a context when it is called. The
fuel is the number of sub-programs that may call one another. -/
def Binding.calleeNow (host : Host σ) (context : Context) : Nat → Binding → Bytecode.Callee σ
  | fuel + 1, .program name _ _ =>
    match context.program? name with
    | some p => .ofRun (p.evalWith (calleeNow host context fuel))
    | none => .ofRun (throw .notLinked)
  | 0, .program .. => .ofRun (throw .notLinked)
  | _, b => b.callee host

variable {host : Host σ} {context : Context}

theorem Binding.callees_eq_map (bindings : List Binding) :
    callees host bindings = bindings.map (callee host) := by
  apply List.ext_getElem?
  intro i
  rw [getElem?_callees, List.getElem?_map]

theorem Program.evalWith_of_linked? {p : Program} {linked : Linked}
    (hLinked : p.state.linked? = some linked) (callee : Binding → Bytecode.Callee σ) :
    p.evalWith callee = linked.image.runOn (linked.bindings.map callee).toArray := by
  rw [evalWith, LinkState.linked?_eq_some.mp hLinked]
  rfl

/-- A current sub-program does the same whether it is looked up or not. -/
theorem Binding.Current.calleeNow_eq {b : Binding} (h : b.Current context) :
    ∀ fuel, b.depth ≤ fuel → b.calleeNow host context fuel = b.callee host := by
  induction h with
  | var cell => exact fun fuel _ => by cases fuel <;> rfl
  | builtin b => exact fun fuel _ => by cases fuel <;> rfl
  | host f => exact fun fuel _ => by cases fuel <;> rfl
  | @program name image bindings hReady hBindings ih =>
    intro fuel hDepth
    rw [depth] at hDepth
    obtain ⟨fuel, rfl⟩ : ∃ fuel', fuel = fuel' + 1 := ⟨fuel - 1, by omega⟩
    obtain ⟨p, hProgram, hLinked⟩ := Context.ready?_eq_some_iff.mp hReady
    have hCallees : bindings.map (calleeNow host context fuel) = callees host bindings := by
      rw [callees_eq_map]
      refine List.map_congr_left fun callee hMem => ih callee hMem fuel ?_
      exact depthAll_le_iff.mp (Nat.le_of_succ_le_succ hDepth) callee hMem
    rw [calleeNow, hProgram]
    dsimp only
    rw [Program.evalWith_of_linked? hLinked, hCallees, callee]
    rfl

/-- The value of a program, on a stack of its own, if sub-programs are looked up in a context when
they are called. -/
def Program.evalNow (host : Host σ) (context : Context) (fuel : Nat) (p : Program) :
    StateM σ (Except RuntimeError Float) :=
  (p.evalWith (Binding.calleeNow host context fuel)).onEmptyStack

section Linked

variable {p : Program} {linked : Linked}

theorem Program.eval_of_linked? (hLinked : p.state.linked? = some linked) :
    p.eval host = (linked.evalOn host).onEmptyStack := by
  rw [eval, evalOn, LinkState.linked?_eq_some.mp hLinked]
  rfl

/-- A program with current bindings does the same whether sub-programs are looked up or not. -/
theorem Program.evalNow_eq (hLinked : p.state.linked? = some linked)
    (hCurrent : ∀ b ∈ linked.bindings, b.Current context) {fuel : Nat}
    (hDepth : Binding.depthAll linked.bindings ≤ fuel) :
    p.evalNow host context fuel = p.eval host := by
  have hCallees : linked.bindings.map (Binding.calleeNow host context fuel) =
      Binding.callees host linked.bindings := by
    rw [Binding.callees_eq_map]
    have hCallee := Binding.depthAll_le_iff.mp hDepth
    exact List.map_congr_left fun b hMem => (hCurrent b hMem).calleeNow_eq fuel (hCallee b hMem)
  rw [evalNow, evalWith_of_linked? hLinked, hCallees, eval_of_linked? hLinked]
  rfl

end Linked

end Evaluation

end Formula
