import Formula.Proofs.Context.Lookup

/-!
# Linked expressions resolve

If the code of an expression can be linked, the names of the expression resolve to a tree
(`resolves_of_linkObject?`). Linked code holds the linked code of the sub-programs that it calls, so
one can go down into smaller and smaller bindings (`linked_induction`). `Registry.Describes.bound`
reads off the bindings of linked code what each name of the expression leads to.
-/

namespace Formula

/-! ## Resolving one expression -/

/-- Whether a name can be part of a tree. -/
inductive Registry.Resolvable (registry : Registry) : Reference → Prop where
  | var {name : String} {cell : Cell} (hVar : registry.vars name = some cell) :
    Resolvable registry (.var name)
  | primitive {signature : Signature} {f : Primitive}
    (hFunction : registry.functions signature = some f.function) :
    Resolvable registry (.call signature)
  | program {name callee : String} {body : Expr} {tree : Resolved}
    (hFunction : registry.functions ⟨name, 0⟩ = some (.program callee))
    (hBody : registry.bodies callee = some body) (hTree : Resolves registry body tree) :
    Resolvable registry (.call ⟨name, 0⟩)

mutual

/-- An expression resolves if its names can be part of a tree. -/
theorem exists_resolves {registry : Registry} : ∀ (e : Expr),
    (∀ name ∈ e.references, registry.Resolvable name) → ∃ tree, Resolves registry e tree
  | .number span value, _ => ⟨_, .number span value⟩
  | .var span name, h => by
    cases h (.var name) (List.mem_singleton.mpr rfl) with
    | var hVar => exact ⟨_, .var span hVar⟩
  | .call span name args, h => by
    obtain ⟨trees, hTrees⟩ := existsAll_resolves args
      fun other hOther => h other (List.mem_append_left _ hOther)
    have hCall := h (.call ⟨name, args.length⟩)
      (List.mem_append_right _ (List.mem_singleton.mpr rfl))
    generalize hArity : args.length = arity at hCall
    cases hCall with
    | primitive hFunction => exact ⟨_, .call span (hArity ▸ hFunction) hTrees⟩
    | program hFunction hBody hTree =>
      obtain rfl := List.length_eq_zero_iff.mp hArity
      exact ⟨_, .subprogram span hFunction hBody hTree⟩
  | .unary span op operand, h => by
    obtain ⟨tree, hTree⟩ := exists_resolves operand h
    exact ⟨_, .unary span op hTree⟩
  | .binary span op left right, h => by
    obtain ⟨leftTree, hLeft⟩ := exists_resolves left
      fun other hOther => h other (List.mem_append_left _ hOther)
    obtain ⟨rightTree, hRight⟩ := exists_resolves right
      fun other hOther => h other (List.mem_append_right _ hOther)
    exact ⟨_, .binary span op hLeft hRight⟩
  | .sequence span first second, h => by
    obtain ⟨firstTree, hFirst⟩ := exists_resolves first
      fun other hOther => h other (List.mem_append_left _ hOther)
    obtain ⟨secondTree, hSecond⟩ := exists_resolves second
      fun other hOther => h other (List.mem_append_right _ hOther)
    exact ⟨_, .sequence span hFirst hSecond⟩

theorem existsAll_resolves {registry : Registry} : ∀ (es : List Expr),
    (∀ name ∈ Expr.referencesAll es, registry.Resolvable name) →
    ∃ trees, ResolvesAll registry es trees
  | [], _ => ⟨[], .nil⟩
  | e :: es, h => by
    obtain ⟨tree, hHead⟩ := exists_resolves e
      fun other hOther => h other (List.mem_append_left _ hOther)
    obtain ⟨trees, hTail⟩ := existsAll_resolves es
      fun other hOther => h other (List.mem_append_right _ hOther)
    exact ⟨_, .cons hHead hTail⟩

end

/-! ## Linked code -/

namespace Binding

variable {σ : Type}

theorem getElem?_callees (host : Host σ) (bindings : List Binding) (i : Nat) :
    (callees host bindings)[i]? = bindings[i]?.map (callee host) := by
  induction bindings generalizing i with
  | nil => rfl
  | cons b bindings ih =>
    cases i with
    | zero => rfl
    | succ i => exact ih i

theorem toNat_address (id : SymbolId) : id.address.toNat = id.toNat := by
  have hLt := id.toNat_lt
  exact Nat.mod_eq_of_lt (by omega)

/-- The callee at the address of a symbol. -/
theorem callee_at {host : Host σ} {bindings : List Binding} {id : SymbolId} {b : Binding}
    (h : bindings[id.toNat]? = some b) :
    (callees host bindings).toArray[id.address.toNat]?.getD .absent = b.callee host := by
  rw [List.getElem?_toArray, toNat_address, getElem?_callees, h]
  rfl

end Binding

namespace Registry.Describes

variable {registry : Registry} {context : Context}

/-- Each name of linked code has its binding at the number of its symbol. -/
theorem bound (h : registry.Describes context) {e : Expr} {object : Object} {linked : Linked}
    {backend : Backend} {optimize : Bool} (hPlain : e.Plain)
    (hObject : Object.ofExpr? backend optimize e = .ok object)
    (hLinked : context.linkObject? object = .ok linked) {name : Reference}
    (hName : name ∈ e.references) :
    ∃ b, linked.bindings[(object.symbols.number name.symbol).toNat]? = some b ∧
      registry.Binds context name b := by
  have hId := (Object.valid_symbols hObject).get?_number (Object.knows_symbols hObject hName)
  obtain ⟨b, hGet, hBinding⟩ :=
    Context.binding_of_get? (Context.linkObject?_eq_ok_iff.mp hLinked).1 hId
  exact ⟨b, hGet, (h.binding?_eq_ok_iff (hPlain.reference hName)).mp hBinding⟩

theorem binds_of_linkObject? (h : registry.Describes context) {e : Expr} {object : Object}
    {linked : Linked} {backend : Backend} {optimize : Bool} (hPlain : e.Plain)
    (hObject : Object.ofExpr? backend optimize e = .ok object)
    (hLinked : context.linkObject? object = .ok linked) {name : Reference}
    (hName : name ∈ e.references) : ∃ b, registry.Binds context name b := by
  obtain ⟨b, -, hBinds⟩ := h.bound hPlain hObject hLinked hName
  exact ⟨b, hBinds⟩

/-- Code is linked to nothing else. -/
theorem exists_binds_of_mem (h : registry.Describes context) {e : Expr} {object : Object}
    {linked : Linked} {backend : Backend} {optimize : Bool} (hPlain : e.Plain)
    (hObject : Object.ofExpr? backend optimize e = .ok object)
    (hLinked : context.linkObject? object = .ok linked) {b : Binding} (hMem : b ∈ linked.bindings) :
    ∃ name ∈ e.references, registry.Binds context name b := by
  obtain ⟨hBindings, -⟩ := Context.linkObject?_eq_ok_iff.mp hLinked
  obtain ⟨symbol, hSymbol, hBinding⟩ := Except.exists_of_mem_mapM hBindings hMem
  obtain ⟨name, hName, rfl⟩ := (Object.mem_symbols_iff hObject symbol).mp hSymbol
  exact ⟨name, hName, (h.binding?_eq_ok_iff (hPlain.reference hName)).mp hBinding⟩

/-- The symbols have bindings if the names of the expression have. -/
theorem exists_bindings? (h : registry.Describes context) {e : Expr} {object : Object}
    {backend : Backend} {optimize : Bool} (hPlain : e.Plain)
    (hObject : Object.ofExpr? backend optimize e = .ok object)
    (hBinds : ∀ name ∈ e.references, ∃ b, registry.Binds context name b) :
    ∃ bindings, context.bindings? object.symbols = .ok bindings := by
  apply Context.bindings?_isOk
  intro symbol hSymbol
  obtain ⟨name, hName, rfl⟩ := (Object.mem_symbols_iff hObject symbol).mp hSymbol
  obtain ⟨b, hName'⟩ := hBinds name hName
  exact ⟨b, (h.binding?_eq_ok_iff (hPlain.reference hName)).mpr hName'⟩

/-- Code links if each name of the expression has a binding and there is memory for it. -/
theorem linkObject?_isOk (h : registry.Describes context) {e : Expr} {object : Object}
    {backend : Backend} {optimize : Bool} (hPlain : e.Plain)
    (hObject : Object.ofExpr? backend optimize e = .ok object)
    (hBinds : ∀ name ∈ e.references, ∃ b, registry.Binds context name b)
    (hImage : ∀ bindings, ∃ image, object.image? bindings = .ok image) :
    ∃ linked, context.linkObject? object = .ok linked := by
  obtain ⟨bindings, hBindings⟩ := h.exists_bindings? hPlain hObject hBinds
  obtain ⟨image, hImage⟩ := hImage bindings
  exact ⟨⟨image, bindings⟩, Context.linkObject?_eq_ok_iff.mpr ⟨hBindings, hImage⟩⟩

/-- The body and the code of a linked sub-program. -/
theorem body_of_ready? (h : registry.Describes context) {name : String} {linked : Linked}
    (hReady : context.ready? name = some linked) :
    ∃ body object, registry.bodies name = some body ∧ body.Plain ∧
      Object.ofExpr? context.backend context.config.optimize body = .ok object ∧
      context.linkObject? object = .ok linked := by
  obtain ⟨p, hProgram, hState⟩ := Context.ready?_eq_some_iff.mp hReady
  obtain ⟨-, body, hBody, hPlain, hObject⟩ := h.source name p hProgram
  exact ⟨body, p.object, hBody, hPlain, hObject, h.ready name p linked hProgram hState⟩

/-- The code of a callee is a part of linked code. -/
theorem sizeOf_callee_lt {bindings bindings' : List Binding} {i : Nat} {callee : String}
    {image : Image} (h : bindings[i]? = some (.program callee image bindings')) :
    sizeOf bindings' < sizeOf bindings := by
  have hMem := List.sizeOf_lt_of_mem (List.mem_of_getElem? h)
  simp only [Binding.program.sizeOf_spec] at hMem
  omega

/-- A sub-program has no parameters. -/
theorem arity_of_program (h : registry.Describes context) {signature : Signature} {callee : String}
    (hFunction : registry.functions signature = some (.program callee)) : signature.arity = 0 :=
  (h.function signature _ hFunction).2.1

/-- What holds of linked code if it holds of the sub-programs that it calls holds of all linked
code. -/
theorem linked_induction (h : registry.Describes context) {P : Expr → Linked → Prop}
    (hStep : ∀ {optimize : Bool} {e : Expr} {object : Object} {linked : Linked}, e.Plain →
      Object.ofExpr? context.backend optimize e = .ok object →
      context.linkObject? object = .ok linked →
      (∀ signature callee, .call signature ∈ e.references →
        registry.functions signature = some (.program callee) → ∃ body linked',
          registry.bodies callee = some body ∧ context.ready? callee = some linked' ∧
            P body linked') →
      P e linked)
    {optimize : Bool} {e : Expr} {object : Object} {linked : Linked} (hPlain : e.Plain)
    (hObject : Object.ofExpr? context.backend optimize e = .ok object)
    (hLinked : context.linkObject? object = .ok linked) : P e linked := by
  -- the bindings of a callee are part of those that lead to it, so they are smaller
  generalize hSize : sizeOf linked.bindings = n
  induction n using Nat.strongRecOn generalizing optimize e object linked with
  | ind n ih =>
    refine hStep hPlain hObject hLinked fun signature callee hName hFunction => ?_
    obtain ⟨b, hGet, hBinds⟩ := h.bound hPlain hObject hLinked hName
    obtain ⟨linked', hReady, rfl⟩ := hBinds.eq_program hFunction
    obtain ⟨body, object', hBody, hPlain', hObject', hLinked'⟩ := h.body_of_ready? hReady
    exact ⟨body, linked', hBody, hReady,
      ih _ (hSize ▸ sizeOf_callee_lt hGet) hPlain' hObject' hLinked' rfl⟩

/-- What is bound can be part of a tree, if the body of a sub-program resolves. -/
theorem resolvable_of_binds (h : registry.Describes context) {name : Reference} {b : Binding}
    (hBinds : registry.Binds context name b)
    (hBodies : ∀ signature callee, name = .call signature →
      registry.functions signature = some (.program callee) →
      ∃ body tree, registry.bodies callee = some body ∧ Resolves registry body tree) :
    registry.Resolvable name := by
  cases hBinds with
  | var hVar => exact .var hVar
  | primitive hFunction => exact .primitive hFunction
  | @program signature callee linked hFunction hReady =>
    obtain ⟨body, tree, hBody, hTree⟩ := hBodies signature callee rfl hFunction
    have hArity := h.arity_of_program hFunction
    obtain ⟨name, arity⟩ := signature
    cases hArity
    exact .program hFunction hBody hTree

/-- The names of an expression whose code is linked resolve to a tree. -/
theorem resolves_of_linkObject? (h : registry.Describes context) {optimize : Bool} {e : Expr}
    {object : Object} {linked : Linked} (hPlain : e.Plain)
    (hObject : Object.ofExpr? context.backend optimize e = .ok object)
    (hLinked : context.linkObject? object = .ok linked) : ∃ tree, Resolves registry e tree := by
  refine h.linked_induction (P := fun e _ => ∃ tree, Resolves registry e tree) ?_ hPlain hObject
    hLinked
  intro optimize e object linked hPlain hObject hLinked hCallees
  refine exists_resolves e fun name hName => ?_
  obtain ⟨b, hBinds⟩ := h.binds_of_linkObject? hPlain hObject hLinked hName
  refine h.resolvable_of_binds hBinds fun signature callee hCall hFunction => ?_
  obtain ⟨body, -, hBody, -, tree, hTree⟩ := hCallees signature callee (hCall ▸ hName) hFunction
  exact ⟨body, tree, hBody, hTree⟩

end Registry.Describes

end Formula
