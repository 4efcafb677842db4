import Formula.Proofs.Bytecode.Lowering
import Formula.Proofs.Context.Walk
import Formula.Proofs.Native.Value

/-!
# Looking names up

The symbols of a compiled expression are those of its names (`internAll_of_ofExpr?`), for both
machines. In a context that a registry describes, a symbol leads to what the registry says about the
name, so its binding can be read off the registry and the linked sub-programs
(`binding?_eq_ok_iff`).
-/

namespace Formula

/-! ## Symbols of objects -/

namespace Object

variable {e : Expr} {object : Object}

theorem symbols_bytecode (h : bytecodeOfExpr? e = .ok object) :
    SymbolTable.empty.internAll (e.references.map Reference.symbol) = some object.symbols ∧
      object.code = .bytecode (Bytecode.numbered object.symbols.number e) := by
  obtain ⟨emitted, hEmitted, h⟩ := Except.bind_eq_ok_iff.mp h
  cases h
  obtain ⟨hSymbols, hCode⟩ := Bytecode.ofExpr?_ok hEmitted
  exact ⟨hSymbols, congrArg Code.bytecode hCode⟩

theorem symbols_native {optimize : Bool} (h : nativeOfExpr? optimize e = .ok object) :
    SymbolTable.empty.internAll (e.references.map Reference.symbol) = some object.symbols ∧
      e.CallsWithin maxArity := by
  obtain ⟨emitted, hEmitted, hSymbols, -⟩ := exists_emitted h
  obtain ⟨hArity, hNames, -⟩ := Native.ofExpr?_ok hEmitted
  exact ⟨hSymbols ▸ hNames, hArity⟩

/-- Code for either machine has the symbols of the expression's names. -/
theorem internAll_of_ofExpr? {backend : Backend} {optimize : Bool}
    (h : ofExpr? backend optimize e = .ok object) :
    SymbolTable.empty.internAll (e.references.map Reference.symbol) = some object.symbols := by
  cases backend with
  | interpreted => exact (symbols_bytecode h).1
  | jit => exact (symbols_native h).1

/-- Code can be made if the names can be numbered, native code only for calls with few enough
arguments. -/
theorem ofExpr?_isOk (backend : Backend) (optimize : Bool) {late : SymbolTable}
    (hArity : backend = .jit → e.CallsWithin maxArity)
    (h : SymbolTable.empty.internAll (e.references.map Reference.symbol) = some late) :
    ∃ object, ofExpr? backend optimize e = .ok object ∧ object.symbols = late := by
  cases backend with
  | interpreted =>
    obtain ⟨emitted, hEmitted, hSymbols⟩ := Bytecode.ofExpr?_isOk h
    refine ⟨⟨.bytecode emitted.code, emitted.symbols⟩, ?_, hSymbols⟩
    rw [ofExpr?, bytecodeOfExpr?, hEmitted]
    rfl
  | jit =>
    obtain ⟨emitted, hEmitted, hSymbols⟩ := Native.ofExpr?_isOk (hArity rfl) h
    exact ⟨⟨.native _, emitted.symbols⟩, by rw [ofExpr?, nativeOfExpr?, hEmitted]; rfl, hSymbols⟩

theorem ofExpr?_negX (backend : Backend) (optimize : Bool) :
    ∃ object, ofExpr? backend optimize .negX = .ok object := by
  obtain ⟨table, hTable⟩ := SymbolTable.internAll_empty_singleton (.ofVar "x")
  have hArity : Expr.negX.CallsWithin maxArity := by
    rw [Expr.negX, Expr.CallsWithin, Expr.CallsWithin]
    trivial
  obtain ⟨object, hObject, -⟩ := ofExpr?_isOk backend optimize (fun _ => hArity) hTable
  exact ⟨object, hObject⟩

/-- Bytecode needs no pages. -/
theorem image?_bytecode (h : bytecodeOfExpr? e = .ok object) (bindings : List Binding) :
    ∃ image, object.image? bindings = .ok image := by
  rw [image?, (symbols_bytecode h).2]
  exact ⟨_, rfl⟩

theorem valid_symbols {backend : Backend} {optimize : Bool}
    (h : ofExpr? backend optimize e = .ok object) : object.symbols.Valid :=
  (SymbolTable.internAll_some SymbolTable.valid_empty (internAll_of_ofExpr? h)).1

theorem knows_symbols {backend : Backend} {optimize : Bool}
    (h : ofExpr? backend optimize e = .ok object) {name : Reference} (hName : name ∈ e.references) :
    object.symbols.Knows name.symbol :=
  (SymbolTable.internAll_some SymbolTable.valid_empty (internAll_of_ofExpr? h)).2.2.1 _
    (List.mem_map_of_mem hName)

/-- The symbols of code are those of the expression's names. -/
theorem mem_symbols_iff {backend : Backend} {optimize : Bool}
    (h : ofExpr? backend optimize e = .ok object) (symbol : Symbol) :
    symbol ∈ object.symbols.toList ↔ ∃ name ∈ e.references, name.symbol = symbol := by
  obtain ⟨hValid, -, hKnows, hNew⟩ :=
    SymbolTable.internAll_some SymbolTable.valid_empty (internAll_of_ofExpr? h)
  rw [hValid.mem_toList_iff, ← List.mem_map]
  constructor
  · rintro ⟨id, hGet⟩
    rcases hNew id symbol hGet with hOld | hName
    · rw [SymbolTable.get?, SymbolTable.empty] at hOld
      cases hOld
    · exact hName
  · exact fun hName => ⟨_, hValid.get?_number (hKnows symbol hName)⟩

end Object

/-! ## Names in a context -/

/-- What has to be registered for the name. -/
def Reference.key : Reference → String ⊕ Signature
  | .var name => .inl name
  | .call signature => .inr signature

/-- Whether it is not a call of a name that begins with a digit. -/
def Reference.Plain : Reference → Prop
  | .var _ => True
  | .call signature => Signature.Plain signature.name

theorem Expr.Plain.reference {e : Expr} (h : e.Plain) {name : Reference}
    (hName : name ∈ e.references) : name.Plain := by
  cases name with
  | var name => trivial
  | call signature => exact h signature hName

/-- The binding of a function that is no sub-program. -/
def Primitive.binding : Primitive → Binding
  | .builtin b => .builtin b
  | .host f => .host f

namespace Primitive

@[simp]
theorem convention_binding (f : Primitive) :
    f.binding.convention = .arguments f.function.arity := by
  cases f <;> rfl

@[simp]
theorem callee_binding_arity {σ : Type} (f : Primitive) (host : Host σ) :
    (f.binding.callee host).arity = f.function.arity := by
  cases f <;> rfl

@[simp]
theorem callee_binding_call {σ : Type} (f : Primitive) (host : Host σ) :
    (f.binding.callee host).call = host.apply f := by
  cases f <;> rfl

end Primitive

/-- What a name is bound to in a context with a registry. -/
inductive Registry.Binds (registry : Registry) (context : Context) :
    Reference → Binding → Prop where
  | var {name : String} {cell : Cell} (hVar : registry.vars name = some cell) :
    Binds registry context (.var name) (.var cell)
  | primitive {signature : Signature} {f : Primitive}
    (hFunction : registry.functions signature = some f.function) :
    Binds registry context (.call signature) f.binding
  | program {signature : Signature} {callee : String} {linked : Linked}
    (hFunction : registry.functions signature = some (.program callee))
    (hReady : context.ready? callee = some linked) :
    Binds registry context (.call signature) (.program callee linked.image linked.bindings)

namespace Registry.Binds

variable {registry : Registry} {context : Context} {b : Binding}

theorem eq_var {name : String} {cell : Cell} (h : registry.Binds context (.var name) b)
    (hVar : registry.vars name = some cell) : b = .var cell := by
  cases h with
  | var hVar' =>
    rw [hVar] at hVar'
    cases hVar'
    rfl

theorem eq_primitive {signature : Signature} {f : Primitive}
    (h : registry.Binds context (.call signature) b)
    (hFunction : registry.functions signature = some f.function) : b = f.binding := by
  cases h with
  | primitive hFunction' =>
    rw [hFunction] at hFunction'
    rw [Primitive.function_inj (Option.some.inj hFunction')]
  | program hFunction' hReady =>
    rw [hFunction] at hFunction'
    exact absurd (Option.some.inj hFunction') (f.function_ne_program _)

theorem eq_program {signature : Signature} {callee : String}
    (h : registry.Binds context (.call signature) b)
    (hFunction : registry.functions signature = some (.program callee)) :
    ∃ linked, context.ready? callee = some linked ∧
      b = .program callee linked.image linked.bindings := by
  cases h with
  | @primitive _ f hFunction' =>
    rw [hFunction] at hFunction'
    exact absurd (Option.some.inj hFunction').symm (f.function_ne_program _)
  | @program _ callee' linked hFunction' hReady =>
    rw [hFunction] at hFunction'
    cases hFunction'
    exact ⟨linked, hReady, rfl⟩

end Registry.Binds

/-- A registered name can be bound if it is not that of a sub-program that is not linked. -/
theorem Registry.exists_binds {registry : Registry} {context : Context} {reference : Reference}
    (hHas : registry.Has reference.key)
    (hReady : ∀ signature callee, reference = .call signature →
      registry.functions signature = some (.program callee) → (context.ready? callee).isSome) :
    ∃ b, registry.Binds context reference b := by
  cases reference with
  | var name =>
    obtain ⟨cell, hVar⟩ := Option.isSome_iff_exists.mp hHas
    exact ⟨_, .var hVar⟩
  | call signature =>
    obtain ⟨f, hFunction⟩ := Option.isSome_iff_exists.mp hHas
    cases f with
    | builtin b => exact ⟨_, .primitive (f := .builtin b) hFunction⟩
    | host f => exact ⟨_, .primitive (f := .host f) hFunction⟩
    | program callee =>
      obtain ⟨linked, hLinked⟩ := Option.isSome_iff_exists.mp (hReady _ _ rfl hFunction)
      exact ⟨_, .program hFunction hLinked⟩

/-- Contexts with the same names know the same symbols. -/
theorem Registry.Lists.functions_eq_of_lists {registry : Registry} {context other : Context}
    (h : registry.Lists context) (hOther : registry.Lists other) (symbol : String) :
    context.functions[symbol]? = other.functions[symbol]? := by
  cases hFound : context.functions[symbol]? with
  | some f =>
    obtain ⟨signature, hFunction, rfl⟩ := h.signature symbol f hFound
    exact (hOther.function signature f hFunction).1.symm
  | none =>
    cases hFound' : other.functions[symbol]? with
    | none => rfl
    | some f =>
      obtain ⟨signature, hFunction, rfl⟩ := hOther.signature symbol f hFound'
      rw [(h.function signature f hFunction).1] at hFound
      cases hFound

namespace Registry.Describes

variable {registry : Registry} {context : Context}

/-- A call that can be parsed finds the function that is registered for it. -/
theorem functions_eq (h : registry.Describes context) {signature : Signature}
    (hPlain : Signature.Plain signature.name) :
    context.functions[signature.symbol]? = registry.functions signature := by
  cases hRegistered : registry.functions signature with
  | some f => exact (h.function signature f hRegistered).1
  | none =>
    cases hFound : context.functions[signature.symbol]? with
    | none => rfl
    | some f =>
      obtain ⟨other, hOther, hSymbol⟩ := h.signature _ f hFound
      obtain ⟨-, hArity, hMax⟩ := h.function other f hOther
      obtain rfl := Signature.eq_of_symbol_eq hSymbol (hArity ▸ hMax) hPlain
      rw [hRegistered] at hOther
      cases hOther

/-- The binding of a name's symbol is what the registry says. -/
theorem binding?_eq_ok_iff (h : registry.Describes context) {name : Reference} (hPlain : name.Plain)
    {b : Binding} : context.binding? name.symbol = .ok b ↔ registry.Binds context name b := by
  cases name with
  | var name =>
    rw [Reference.symbol, Context.binding?, Symbol.ofVar]
    dsimp only
    rw [h.var name]
    constructor
    · intro hBinding
      split at hBinding
      · rename_i cell hVar
        cases hBinding
        exact .var hVar
      · cases hBinding
    · rintro ⟨hVar⟩
      rw [hVar]
  | call signature =>
    rw [Reference.symbol, Context.binding?, Symbol.ofSignature]
    dsimp only
    rw [h.functions_eq hPlain]
    constructor
    · intro hBinding
      split at hBinding
      · cases hBinding
      · rename_i f hFunction
        cases hBinding
        exact .primitive (f := .builtin f) hFunction
      · rename_i f hFunction
        cases hBinding
        exact .primitive (f := .host f) hFunction
      · rename_i callee hFunction
        split at hBinding
        · rename_i linked hReady
          cases hBinding
          exact .program hFunction hReady
        · cases hBinding
    · rintro (_ | @⟨_, f, hFunction⟩ | ⟨hFunction, hReady⟩)
      · cases f <;> rw [hFunction] <;> rfl
      · rw [hFunction]
        unfold Context.ready? at hReady
        simp only [hReady]

end Registry.Describes

end Formula
