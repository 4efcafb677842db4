import Formula.Proofs.Context.Current

/-!
# The world of a context

`Context.world` says what names do in a context, without any code that refers to them: a variable is
read, a function is called, and a named sub-program is evaluated on a stack of its own, where an
error counts as NaN. That is also what linked code finds at the addresses of the names, whichever
machine the code is for (`callee_read`, `callee_call`).
-/

namespace Formula

variable {σ : Type}

namespace Context

/-- The value of a sub-program that is evaluated by itself, or NaN if there is none. -/
def callProgram (context : Context) (host : Host σ) (name : String) : StateM σ Float :=
  match context.program? name with
  | none => pure Builtin.nan
  | some p => (fun result => result.toOption.getD Builtin.nan) <$> p.eval host

/-- What names do. -/
def world (context : Context) (host : Host σ) : World σ Float where
  read name :=
    match context.vars[name]? with
    | none => pure Builtin.nan
    | some cell => host.read cell
  call signature args :=
    match context.functions[signature.symbol]? with
    | none => pure Builtin.nan
    | some (.builtin b) => host.builtin b args
    | some (.host f) => host.call f args
    | some (.program name) => context.callProgram host name

theorem callProgram_eq {context : Context} {name : String} {linked : Linked}
    (hReady : context.ready? name = some linked) (host : Host σ) :
    context.callProgram host name =
      (fun result => result.toOption.getD Builtin.nan) <$>
        (linked.evalOn host).onEmptyStack := by
  obtain ⟨p, hProgram, hLinked⟩ := ready?_eq_some_iff.mp hReady
  simp only [callProgram, hProgram, Program.eval_of_linked? hLinked]

/-- Functions with one symbol do the same. -/
theorem world_call_congr (context : Context) (host : Host σ) {signature other : Signature}
    (h : signature.symbol = other.symbol) :
    (context.world host).call signature = (context.world host).call other := by
  simp only [world, h]

end Context

namespace Registry.Describes

variable {registry : Registry} {context : Context}

theorem world_read (h : registry.Describes context) (host : Host σ) {name : String} {cell : Cell}
    (hVar : registry.vars name = some cell) :
    (context.world host).read name = host.read cell := by
  simp only [Context.world, h.var name, hVar]

theorem world_call (h : registry.Describes context) (host : Host σ) {signature : Signature}
    {f : Primitive} (hFunction : registry.functions signature = some f.function) :
    (context.world host).call signature = host.apply f := by
  simp only [Context.world, (h.function signature _ hFunction).1]
  cases f <;> rfl

theorem world_callProgram (h : registry.Describes context) (host : Host σ) {signature : Signature}
    {callee : String} (hFunction : registry.functions signature = some (.program callee)) :
    (context.world host).call signature = fun _ => context.callProgram host callee := by
  simp only [Context.world, (h.function signature _ hFunction).1]

/-! ## What code finds at the address of a name -/

variable {b : Binding}

theorem callee_read (h : registry.Describes context) (host : Host σ) {name : String}
    (hBinds : registry.Binds context (.var name) b) :
    (b.callee host).read = (context.world host).read name := by
  cases hBinds with
  | var hVar => exact (h.world_read host hVar).symm

theorem callee_call (h : registry.Describes context) (host : Host σ) {signature : Signature}
    (hBinds : registry.Binds context (.call signature) b) :
    (b.callee host).call = (context.world host).call signature := by
  cases hBinds with
  | @primitive _ f hFunction => rw [f.callee_binding_call, h.world_call host hFunction]
  | program hFunction hReady =>
    rw [h.world_callProgram host hFunction, Context.callProgram_eq hReady host]
    rfl

theorem callee_arity (h : registry.Describes context) (host : Host σ) {signature : Signature}
    (hBinds : registry.Binds context (.call signature) b) :
    (b.callee host).arity = signature.arity := by
  cases hBinds with
  | @primitive _ f hFunction =>
    rw [f.callee_binding_arity, (h.function signature _ hFunction).2.1]
  | program hFunction hReady =>
    rw [h.arity_of_program hFunction]
    rfl

end Registry.Describes

end Formula
