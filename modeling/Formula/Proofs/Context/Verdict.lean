import Formula.Proofs.Context.Linkable

/-!
# Why a program does not link

Linking binds the names of an expression in order of evaluation and stops at the first that it
cannot bind (`linkObject?_eq_error`). When all sub-programs that the expression calls are linked,
that is the first name that is not registered (`Registry.Misses`), and the error is the one of its
symbol (`linkObject?_eq_unresolved`).
-/

namespace Formula

/-- Whether `reference` is the first name of an expression, in order of evaluation, that is not
registered. -/
def Registry.Misses (registry : Registry) (body : Expr) (reference : Reference) : Prop :=
  ∃ earlier later, body.references = earlier ++ reference :: later ∧
    (∀ other ∈ earlier, registry.Has other.key) ∧ ¬registry.Has reference.key

/-- Either all names are registered, or one of them is the first that is not. -/
theorem Registry.has_or_misses (registry : Registry) (body : Expr) :
    (∀ reference ∈ body.references, registry.Has reference.key) ∨
      ∃ reference, registry.Misses body reference := by
  rcases forall_mem_or_exists_first (fun name => registry.Has name.key) body.references with
    hAll | ⟨earlier, reference, later, hNames, hEarlier, hNot⟩
  · exact .inl hAll
  · exact .inr ⟨reference, earlier, later, hNames, hEarlier, hNot⟩

theorem Registry.Misses.not_has {registry : Registry} {body : Expr} {reference : Reference}
    (h : registry.Misses body reference) :
    reference ∈ body.references ∧ ¬registry.Has reference.key := by
  obtain ⟨earlier, later, hNames, -, hNot⟩ := h
  rw [hNames]
  exact ⟨List.mem_append_right _ (List.mem_cons_self ..), hNot⟩

/-! ## The first name that has no binding -/

/-- A symbol without a binding follows those of the names before it. -/
theorem Object.symbols_eq_of_first {e : Expr} {object : Object} {backend : Backend}
    {optimize : Bool} (hObject : ofExpr? backend optimize e = .ok object)
    {earlier later : List Reference} {reference : Reference}
    (hNames : e.references = earlier ++ reference :: later)
    (hNew : ∀ other ∈ earlier, other.symbol ≠ reference.symbol) :
    ∃ before after : List Symbol, object.symbols.toList = before ++ reference.symbol :: after ∧
      ∀ symbol ∈ before, ∃ other ∈ earlier, other.symbol = symbol := by
  have hAll := internAll_of_ofExpr? hObject
  rw [hNames] at hAll
  obtain ⟨middle, hEarlier, hLater⟩ := SymbolTable.internAll_append_some hAll
  obtain ⟨hValid, -, -, hOld⟩ := SymbolTable.internAll_some SymbolTable.valid_empty hEarlier
  have hKnown {id : SymbolId} {symbol : Symbol} (hGet : middle.get? id = some symbol) :
      ∃ other ∈ earlier, other.symbol = symbol := by
    rcases hOld id symbol hGet with hEmpty | hMem
    · cases hEmpty
    · exact List.mem_map.mp hMem
  have hAbsent : middle.id? reference.symbol = none := by
    cases hId : middle.id? reference.symbol with
    | none => rfl
    | some id =>
      obtain ⟨other, hMem, hSame⟩ := hKnown ((hValid.id?_iff _ _).mp hId)
      exact absurd hSame (hNew other hMem)
  obtain ⟨after, hTable⟩ := SymbolTable.toList_internAll_new hAbsent hLater
  refine ⟨middle.toList, after, hTable, fun symbol hMem => ?_⟩
  obtain ⟨id, hGet⟩ := hValid.mem_toList_iff.mp hMem
  exact hKnown hGet

/-- Linking stops at the first name that cannot be bound. -/
theorem Context.linkObject?_eq_error {context : Context} {e : Expr} {object : Object}
    {backend : Backend} {optimize : Bool} (hObject : Object.ofExpr? backend optimize e = .ok object)
    {earlier later : List Reference} {reference : Reference} {error : LinkError}
    (hNames : e.references = earlier ++ reference :: later)
    (hEarlier : ∀ other ∈ earlier, ∃ b, context.binding? other.symbol = .ok b)
    (hError : context.binding? reference.symbol = .error error) :
    context.linkObject? object = .error error := by
  have hNew : ∀ other ∈ earlier, other.symbol ≠ reference.symbol := by
    intro other hMem hSame
    obtain ⟨b, hBinding⟩ := hEarlier other hMem
    rw [hSame, hError] at hBinding
    cases hBinding
  obtain ⟨before, after, hTable, hBefore⟩ := Object.symbols_eq_of_first hObject hNames hNew
  have hBindings : context.bindings? object.symbols = .error error := by
    rw [bindings?, hTable]
    refine Except.mapM_eq_error (fun symbol hMem => ?_) hError
    obtain ⟨other, hOther, rfl⟩ := hBefore symbol hMem
    exact hEarlier other hOther
  rw [linkObject?, hBindings]
  rfl

/-! ## Registered names -/

namespace Registry.Describes

variable {registry : Registry} {context : Context}

/-- The symbol of a name that is not registered is not found. -/
theorem binding?_eq_error (h : registry.Describes context) {reference : Reference}
    (hPlain : reference.Plain) (hNot : ¬registry.Has reference.key) :
    context.binding? reference.symbol = .error (.unresolvedSymbol reference.symbol.name) := by
  cases reference with
  | var name =>
    have hVar : registry.vars name = none := Option.not_isSome_iff_eq_none.mp hNot
    rw [Reference.symbol, Context.binding?, Symbol.ofVar]
    dsimp only
    rw [h.var name, hVar]
  | call signature =>
    have hFunction : registry.functions signature = none := Option.not_isSome_iff_eq_none.mp hNot
    rw [Reference.symbol, Context.binding?, Symbol.ofSignature]
    dsimp only
    rw [h.functions_eq hPlain, hFunction]

/-- When all sub-programs that it calls are linked, a program links unless a name is missing. -/
theorem linkObject?_eq_unresolved (h : registry.Describes context) {name : String} {p : Program}
    (hProgram : context.program? name = some p)
    (hCallees : ∀ callee, registry.Calls name callee → (context.ready? callee).isSome)
    (hImage : ∀ bindings, ∃ image, p.object.image? bindings = .ok image) :
    (∃ linked, context.linkObject? p.object = .ok linked) ∨
      ∃ body reference, registry.bodies name = some body ∧ registry.Misses body reference ∧
        context.linkObject? p.object = .error (.unresolvedSymbol reference.symbol.name) := by
  obtain ⟨-, body, hBody, hPlain, hObject⟩ := h.source name p hProgram
  have hBinds {reference : Reference} (hMem : reference ∈ body.references)
      (hHas : registry.Has reference.key) : ∃ b, registry.Binds context reference b := by
    refine exists_binds hHas fun signature callee hCall hFunction => ?_
    subst hCall
    exact hCallees callee ⟨body, signature, hBody, hMem, hFunction⟩
  rcases registry.has_or_misses body with hAll | ⟨reference, hMisses⟩
  · exact .inl (h.linkObject?_isOk hPlain hObject
      (fun reference hMem => hBinds hMem (hAll reference hMem)) hImage)
  · refine .inr ⟨body, reference, hBody, hMisses, ?_⟩
    have hName := hMisses.not_has
    obtain ⟨earlier, later, hNames, hEarlier, -⟩ := hMisses
    refine Context.linkObject?_eq_error hObject hNames (fun other hMem => ?_)
      (h.binding?_eq_error (hPlain.reference hName.1) hName.2)
    have hOther : other ∈ body.references := hNames ▸ List.mem_append_left _ hMem
    obtain ⟨b, hBound⟩ := hBinds hOther (hEarlier other hMem)
    exact ⟨b, (h.binding?_eq_ok_iff (hPlain.reference hOther)).mpr hBound⟩

end Registry.Describes

end Formula
