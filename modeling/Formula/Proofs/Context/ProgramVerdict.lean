import Formula.Proofs.Context.Link
import Formula.Proofs.Context.Verdict
import Formula.Proofs.Interpreter

/-!
# The verdict of linking a program

A name of an expression either has a binding or offends (`binding?_eq_error_iff`): nothing is
registered for it, or it is a call of a sub-program that is not linked. A program links exactly if
no name offends, and otherwise reports the first that does (`link_verdict`). This depends on the
names and the context only, so it is the same for both machines and whatever has been linked before.
-/

namespace Formula

/-- Whether a name has no binding in a context with a registry, and the error that says why. -/
inductive Registry.Offends (registry : Registry) (context : Context) :
    Reference → LinkError → Prop where
  | var {name : String} (hNone : registry.vars name = none) :
    Offends registry context (.var name) (.unresolvedSymbol name)
  | function {signature : Signature} (hNone : registry.functions signature = none) :
    Offends registry context (.call signature) (.unresolvedSymbol signature.symbol)
  | program {signature : Signature} {callee : String}
    (hFunction : registry.functions signature = some (.program callee))
    (hUnlinked : context.ready? callee = none) :
    Offends registry context (.call signature) (.dependencyNotLinked callee)

theorem LinkState.error?_ofResult {α : Type} {result : Except LinkError α} {error : LinkError} :
    (ofResult result).error? = some error ↔ result = .error error := by
  cases result with
  | ok found => exact iff_of_false nofun nofun
  | error error' =>
    show some error' = some error ↔ _
    rw [Option.some.injEq, Except.error.injEq]

namespace Registry.Describes

variable {registry : Registry} {context : Context}

/-- The symbol of a name has no binding exactly if the name offends. -/
theorem binding?_eq_error_iff (h : registry.Describes context) {name : Reference}
    (hPlain : name.Plain) {error : LinkError} :
    context.binding? name.symbol = .error error ↔ registry.Offends context name error := by
  cases name with
  | var name =>
    rw [Reference.symbol, Context.binding?, Symbol.ofVar]
    dsimp only
    rw [h.var name]
    constructor
    · intro hError
      split at hError
      · cases hError
      · rename_i hNone
        cases hError
        exact .var hNone
    · rintro ⟨hNone⟩
      rw [hNone]
  | call signature =>
    rw [Reference.symbol, Context.binding?, Symbol.ofSignature]
    dsimp only
    rw [h.functions_eq hPlain]
    constructor
    · intro hError
      split at hError
      · rename_i hNone
        cases hError
        exact .function hNone
      · cases hError
      · cases hError
      · rename_i callee hFunction
        split at hError
        · cases hError
        · rename_i hUnlinked
          cases hError
          exact .program hFunction hUnlinked
    · rintro (_ | ⟨hNone⟩ | ⟨hFunction, hUnlinked⟩)
      · rw [hNone]
      · rw [hFunction]
        unfold Context.ready? at hUnlinked
        simp only [hUnlinked]

/-- A name without a binding offends. -/
theorem exists_offends (h : registry.Describes context) {name : Reference} (hPlain : name.Plain)
    (hNone : ¬∃ b, registry.Binds context name b) : ∃ error, registry.Offends context name error := by
  cases hBinding : context.binding? name.symbol with
  | ok b => exact absurd ⟨b, (h.binding?_eq_ok_iff hPlain).mp hBinding⟩ hNone
  | error error => exact ⟨error, (h.binding?_eq_error_iff hPlain).mp hBinding⟩

section Object

variable {e : Expr} {object : Object} {target : Backend} {optimize : Bool}

/-- An object can be linked exactly if all names have bindings. -/
theorem linkObject?_isOk_iff (h : registry.Describes context) (hPlain : e.Plain)
    (hObject : Object.ofExpr? target optimize e = .ok object)
    (hImage : ∀ bindings, ∃ image, object.image? bindings = .ok image) :
    (∃ linked, context.linkObject? object = .ok linked) ↔
      ∀ name ∈ e.references, ∃ b, registry.Binds context name b := by
  constructor
  · rintro ⟨linked, hLinked⟩ name hName
    obtain ⟨b, -, hBinds⟩ := h.bound hPlain hObject hLinked hName
    exact ⟨b, hBinds⟩
  · exact fun hBinds => h.linkObject?_isOk hPlain hObject hBinds hImage

/-- The first name without a binding gives the error. -/
theorem linkObject?_eq_error_of_first (h : registry.Describes context) (hPlain : e.Plain)
    (hObject : Object.ofExpr? target optimize e = .ok object) {earlier later : List Reference}
    {name : Reference} {error : LinkError} (hNames : e.references = earlier ++ name :: later)
    (hEarlier : ∀ other ∈ earlier, ∃ b, registry.Binds context other b)
    (hOffends : registry.Offends context name error) :
    context.linkObject? object = .error error := by
  have hPlainName {other : Reference} (hMem : other ∈ earlier ++ name :: later) : other.Plain :=
    hPlain.reference (hNames ▸ hMem)
  refine Context.linkObject?_eq_error hObject hNames (fun other hMem => ?_) ?_
  · obtain ⟨b, hBinds⟩ := hEarlier other hMem
    exact ⟨b, (h.binding?_eq_ok_iff (hPlainName (List.mem_append_left _ hMem))).mpr hBinds⟩
  · refine (h.binding?_eq_error_iff (hPlainName ?_)).mpr hOffends
    exact List.mem_append_right _ (List.mem_cons_self ..)

/-- All names have bindings, or one is the first that offends. -/
theorem binds_or_offends (h : registry.Describes context) (hPlain : e.Plain) :
    (∀ name ∈ e.references, ∃ b, registry.Binds context name b) ∨
      ∃ earlier name later error, e.references = earlier ++ name :: later ∧
        (∀ other ∈ earlier, ∃ b, registry.Binds context other b) ∧
        registry.Offends context name error := by
  rcases forall_mem_or_exists_first (fun name => ∃ b, registry.Binds context name b) e.references
    with hBinds | ⟨earlier, name, later, hNames, hEarlier, hNone⟩
  · exact .inl hBinds
  · have hMem : name ∈ e.references := hNames ▸ List.mem_append_right _ (List.mem_cons_self ..)
    obtain ⟨error, hOffends⟩ := h.exists_offends (hPlain.reference hMem) hNone
    exact .inr ⟨earlier, name, later, error, hNames, hEarlier, hOffends⟩

/-- If it cannot, the error is that of the first name without a binding. -/
theorem linkObject?_eq_error_iff (h : registry.Describes context) (hPlain : e.Plain)
    (hObject : Object.ofExpr? target optimize e = .ok object)
    (hImage : ∀ bindings, ∃ image, object.image? bindings = .ok image) (error : LinkError) :
    context.linkObject? object = .error error ↔ ∃ earlier name later,
      e.references = earlier ++ name :: later ∧
      (∀ other ∈ earlier, ∃ b, registry.Binds context other b) ∧
      registry.Offends context name error := by
  constructor
  · intro hError
    rcases h.binds_or_offends hPlain with
      hBinds | ⟨earlier, name, later, error', hNames, hEarlier, hOffends⟩
    · obtain ⟨linked, hLinked⟩ := (h.linkObject?_isOk_iff hPlain hObject hImage).mpr hBinds
      rw [hLinked] at hError
      cases hError
    · rw [h.linkObject?_eq_error_of_first hPlain hObject hNames hEarlier hOffends] at hError
      cases hError
      exact ⟨earlier, name, later, hNames, hEarlier, hOffends⟩
  · rintro ⟨earlier, name, later, hNames, hEarlier, hOffends⟩
    exact h.linkObject?_eq_error_of_first hPlain hObject hNames hEarlier hOffends

end Object

end Registry.Describes

/-- All names have bindings exactly if they are registered and the sub-programs among them are
linked. -/
theorem Registry.forall_binds_iff (registry : Registry) (context : Context) (e : Expr) :
    (∀ name ∈ e.references, ∃ b, registry.Binds context name b) ↔
      (∀ x, .var x ∈ e.references → (registry.vars x).isSome) ∧
      (∀ signature, .call signature ∈ e.references → (registry.functions signature).isSome) ∧
      ∀ signature callee, .call signature ∈ e.references →
        registry.functions signature = some (.program callee) →
        (context.ready? callee).isSome := by
  constructor
  · intro hBinds
    refine ⟨fun x hMem => ?_, fun signature hMem => ?_, fun signature callee hMem hFunction => ?_⟩
    · obtain ⟨b, ⟨hVar⟩⟩ := hBinds _ hMem
      rw [hVar]
      rfl
    · obtain ⟨b, hBound⟩ := hBinds _ hMem
      cases hBound with
      | primitive hFunction =>
        rw [hFunction]
        rfl
      | program hFunction hReady =>
        rw [hFunction]
        rfl
    · obtain ⟨b, hBound⟩ := hBinds _ hMem
      obtain ⟨linked, hReady, -⟩ := hBound.eq_program hFunction
      rw [hReady]
      rfl
  · rintro ⟨hVars, hFunctions, hCallees⟩ name hMem
    refine exists_binds ?_ fun signature callee hCall => hCallees signature callee (hCall ▸ hMem)
    cases name with
    | var x => exact hVars x hMem
    | call signature => exact hFunctions signature hMem

namespace Session

/-- A program can be linked exactly if the names of its text are registered and the sub-programs
among them are linked; if not, the error is that of the first name for which this fails. Neither the
machine nor an earlier attempt has any influence on that. -/
theorem link_verdict (config : RuntimeConfig) (backend : Backend) (requests : List Request)
    {source : String} {e : Expr} (hExpr : Expr.ofString? source = .ok e)
    {target : Backend} {optimize : Bool} {p : Program}
    (hObject : Object.ofString? target optimize source = .ok p.object)
    (hPages : ∀ code, p.object.code = .native code →
      ∃ pages, Native.Pages.allocate (Native.encode code).length = .ok pages) :
    let session := run config backend requests
    let outcome := (session.context.linkProgram p).state
    (outcome.isReady = true ↔
      (∀ x, .var x ∈ e.references → (session.registry.vars x).isSome) ∧
      (∀ signature, .call signature ∈ e.references →
        (session.registry.functions signature).isSome) ∧
      ∀ signature callee, .call signature ∈ e.references →
        session.registry.functions signature = some (.program callee) →
        (session.context.ready? callee).isSome) ∧
    (outcome.isReady = true ↔ outcome.error? = none) ∧
    (∀ error, outcome.error? = some error ↔ ∃ earlier name later,
      e.references = earlier ++ name :: later ∧
      (∀ other ∈ earlier, ∃ b, session.registry.Binds session.context other b) ∧
      session.registry.Offends session.context name error) ∧
    -- variables are bound to variables and calls to functions
    (∀ linked, outcome.linked? = some linked → ∀ name ∈ e.references, ∃ b,
      linked.bindings[(p.object.symbols.number name.symbol).toNat]? = some b ∧
        session.registry.Binds session.context name b) ∧
    ∀ target' optimize' q, Object.ofString? target' optimize' source = .ok q.object →
      (∀ code, q.object.code = .native code →
        ∃ pages, Native.Pages.allocate (Native.encode code).length = .ok pages) →
      (session.context.linkProgram q).state.error? = outcome.error? := by
  intro session outcome
  have hDescribes := describes_run config backend requests
  -- what compiling the text for any machine gives
  have hCompiled {target : Backend} {optimize : Bool} {object : Object}
      (hObject : Object.ofString? target optimize source = .ok object) :
      e.Plain ∧ Object.ofExpr? target optimize e = .ok object := by
    obtain ⟨e', hExpr', hPlain, hOfExpr⟩ := Object.expr_of_ofString? hObject
    rw [hExpr] at hExpr'
    cases hExpr'
    exact ⟨hPlain, hOfExpr⟩
  have hErrors {target : Backend} {optimize : Bool} {q : Program}
      (hObject : Object.ofString? target optimize source = .ok q.object)
      (hPages : ∀ code, q.object.code = .native code →
        ∃ pages, Native.Pages.allocate (Native.encode code).length = .ok pages)
      (error : LinkError) : (session.context.linkProgram q).state.error? = some error ↔
        ∃ earlier name later, e.references = earlier ++ name :: later ∧
          (∀ other ∈ earlier, ∃ b, session.registry.Binds session.context other b) ∧
          session.registry.Offends session.context name error := by
    obtain ⟨hPlain, hOfExpr⟩ := hCompiled hObject
    exact LinkState.error?_ofResult.trans
      (hDescribes.linkObject?_eq_error_iff hPlain hOfExpr (Object.image?_isOk hPages) error)
  obtain ⟨hPlain, hOfExpr⟩ := hCompiled hObject
  have hReady : outcome.isReady = true ↔
      ∃ linked, session.context.linkObject? p.object = .ok linked :=
    Option.isSome_iff_exists.trans (exists_congr fun linked => LinkState.linked?_ofResult)
  refine ⟨?_, ?_, hErrors hObject hPages, fun linked hLinked name hName => ?_, ?_⟩
  · rw [hReady, hDescribes.linkObject?_isOk_iff hPlain hOfExpr (Object.image?_isOk hPages)]
    exact Registry.forall_binds_iff ..
  · exact hReady.trans LinkState.error?_ofResult_eq_none.symm
  · exact hDescribes.bound hPlain hOfExpr (LinkState.linked?_ofResult.mp hLinked) hName
  · intro target' optimize' q hObject' hPages'
    apply Option.ext
    intro error
    exact (hErrors hObject' hPages' error).trans (hErrors hObject hPages error).symm

/-! ## An example -/

theorem ready?_withXY : (run .standard .jit withXY).context.ready? "y" = none := by
  obtain ⟨object, hObject⟩ := Object.ofExpr?_negX .jit true
  have hNew : (run .standard .jit [.register (.var "x" (some 3))]).context.functions[
      (⟨"y", 0⟩ : Signature).symbol]? = none := rfl
  have hRegister := Context.register_eq_ok_iff.mpr (.source Expr.ofString?_negX hObject hNew)
  have hContext : (run .standard .jit withXY).context = _ :=
    congrArg Session.context (perform_register hRegister)
  rw [hContext, Context.ready?, Context.setSource, Context.setProgram_program?, if_pos rfl]
  rfl

/-- As long as `y` has not been linked, `y()` cannot be. -/
theorem link_callY_withXY : ∃ p : Program,
    Object.ofString? .interpreted true "y()" = .ok p.object ∧
    ((run .standard .jit withXY).context.linkProgram p).state.error? =
      some (.dependencyNotLinked "y") := by
  obtain ⟨table, hTable⟩ := SymbolTable.internAll_empty_singleton (.ofSignature ⟨"y", 0⟩)
  have hArity : Backend.interpreted = .jit → Expr.callY.CallsWithin maxArity := by
    intro hJit
    cases hJit
  obtain ⟨object, hOfExpr, -⟩ := Object.ofExpr?_isOk .interpreted true hArity hTable
  have hObject : Object.ofString? .interpreted true "y()" = .ok object := by
    rw [Object.ofString?, Expr.ofString?_callY]
    exact hOfExpr
  have hPages : ∀ code, object.code = .native code →
      ∃ pages, Native.Pages.allocate (Native.encode code).length = .ok pages := by
    intro code hCode
    rw [(Object.symbols_bytecode hOfExpr).2] at hCode
    cases hCode
  have hFunction : (run .standard .jit withXY).registry.functions ⟨"y", 0⟩ =
      some (.program "y") := by
    rw [registry, registered_withXY]
    rfl
  obtain ⟨-, -, hError, -⟩ := link_verdict .standard .jit withXY Expr.ofString?_callY
    (p := .ofObject object) hObject hPages
  refine ⟨.ofObject object, hObject, (hError _).mpr ⟨[], .call ⟨"y", 0⟩, [], rfl, ?_, ?_⟩⟩
  · intro other hOther
    cases hOther
  · exact .program hFunction ready?_withXY

end Session

end Formula
