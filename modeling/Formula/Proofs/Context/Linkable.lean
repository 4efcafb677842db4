import Formula.Proofs.Context.Resolution
import Mathlib.Logic.Relation

/-!
# Linkable sub-programs

`Registry.Linkable` is the least set of sub-programs that contains each one whose variables and
functions are registered and whose callees belong to it. No sub-program in it calls itself through
others (`Linkable.not_cycle`). Whatever has been linked belongs to it (`linkable_of_ready?`), and
once its callees are linked, a member can be linked (`linkObject?_isOk_of_linkable`). A sub-program
outside cannot.
-/

namespace Formula

namespace Registry

/-- Whether one sub-program calls another. -/
def Calls (registry : Registry) (name callee : String) : Prop :=
  ∃ body signature, registry.bodies name = some body ∧ .call signature ∈ body.references ∧
    registry.functions signature = some (.program callee)

/-- Whether a sub-program can be linked. -/
inductive Linkable (registry : Registry) : String → Prop where
  | intro {name : String} {body : Expr} (hBody : registry.bodies name = some body)
    (hVars : ∀ var, .var var ∈ body.references → (registry.vars var).isSome)
    (hFunctions : ∀ signature, .call signature ∈ body.references →
      (registry.functions signature).isSome)
    (hCalls : ∀ signature callee, .call signature ∈ body.references →
      registry.functions signature = some (.program callee) → Linkable registry callee) :
    Linkable registry name

namespace Linkable

variable {registry : Registry} {name callee : String}

theorem of_calls (h : registry.Linkable name) (hCalls : registry.Calls name callee) :
    registry.Linkable callee := by
  obtain ⟨body, signature, hBody, hName, hFunction⟩ := hCalls
  cases h with
  | intro hBody' hVars hFunctions hCallees =>
    rw [hBody] at hBody'
    cases hBody'
    exact hCallees signature callee hName hFunction

theorem isSome_body (h : registry.Linkable name) : (registry.bodies name).isSome := by
  cases h with
  | intro hBody hVars hFunctions hCalls =>
    rw [hBody]
    rfl

/-- A sub-program that can be linked does not call itself through others. -/
theorem not_cycle (h : registry.Linkable name) : ¬Relation.TransGen registry.Calls name name := by
  induction h with
  | @intro name body hBody hVars hFunctions hCallees ih =>
    intro hCycle
    -- the first call of the cycle leads to a callee that lies on the cycle as well
    obtain ⟨callee, hCalls, hBack⟩ := Relation.TransGen.head'_iff.mp hCycle
    have hAround := Relation.TransGen.tail' hBack hCalls
    obtain ⟨body', signature, hBody', hName, hFunction⟩ := hCalls
    rw [hBody] at hBody'
    cases hBody'
    exact ih signature callee hName hFunction hAround

end Linkable

namespace Describes

variable {registry : Registry} {context other : Context}

/-! ## Calls -/

/-- A sub-program is in the context if the registry has a body for it. -/
theorem isSome_program? (h : registry.Describes context) (name : String) :
    (context.program? name).isSome ↔ (registry.bodies name).isSome := by
  constructor
  · intro hSome
    obtain ⟨p, hProgram⟩ := Option.isSome_iff_exists.mp hSome
    obtain ⟨-, body, hBody, -⟩ := h.source name p hProgram
    rw [hBody]
    rfl
  · intro hSome
    obtain ⟨body, hBody⟩ := Option.isSome_iff_exists.mp hSome
    exact h.body name body hBody

/-- The sub-programs that the walk visits for another are those that it calls. -/
theorem mem_dependencies_iff (h : registry.Describes context) {name : String} {p : Program}
    (hProgram : context.program? name = some p) (callee : String) :
    callee ∈ context.dependencies p.object ↔ registry.Calls name callee := by
  obtain ⟨-, body, hBody, hPlain, hObject⟩ := h.source name p hProgram
  rw [Context.dependencies, List.mem_filterMap]
  constructor
  · rintro ⟨symbol, hMem, hCallee⟩
    obtain ⟨reference, hName, rfl⟩ := (Object.mem_symbols_iff hObject symbol).mp hMem
    split at hCallee
    · rename_i hKind hFunction
      cases hCallee
      cases reference with
      | var name => cases hKind
      | call signature =>
        refine ⟨body, signature, hBody, hName, ?_⟩
        rw [← h.functions_eq (hPlain.reference hName)]
        exact hFunction
    · cases hCallee
  · rintro ⟨body', signature, hBody', hName, hFunction⟩
    rw [hBody] at hBody'
    cases hBody'
    refine ⟨.ofSignature signature, ?_, ?_⟩
    · exact (Object.mem_symbols_iff hObject _).mpr ⟨.call signature, hName, rfl⟩
    · simp only [Symbol.ofSignature, h.arity_of_program hFunction,
        (h.function signature _ hFunction).1]

theorem linkable_dependencies (h : registry.Describes context) {name : String} {p : Program}
    (hProgram : context.program? name = some p) (hLinkable : registry.Linkable name) :
    ∀ callee ∈ context.dependencies p.object, registry.Linkable callee :=
  fun callee hMem => hLinkable.of_calls ((h.mem_dependencies_iff hProgram callee).mp hMem)

/-- Contexts with the same names compile the same code. -/
theorem object_eq (h : registry.Describes context) (hOther : registry.Describes other)
    (hConfig : context.config = other.config) (hBackend : context.backend = other.backend)
    {name : String} {p q : Program} (hProgram : context.program? name = some p)
    (hProgram' : other.program? name = some q) : p.object = q.object := by
  obtain ⟨-, body, hBody, -, hObject⟩ := h.source name p hProgram
  obtain ⟨-, body', hBody', -, hObject'⟩ := hOther.source name q hProgram'
  rw [hBody] at hBody'
  cases hBody'
  rw [hConfig, hBackend, hObject'] at hObject
  exact (Except.ok.inj hObject).symm

/-! ## Linked sub-programs are linkable -/

/-- A sub-program whose code has been linked can be linked. -/
theorem linkable_of_linkObject? (h : registry.Describes context) {name : String} {body : Expr}
    {object : Object} {linked : Linked} (hBody : registry.bodies name = some body)
    (hPlain : body.Plain)
    (hObject : Object.ofExpr? context.backend context.config.optimize body = .ok object)
    (hLinked : context.linkObject? object = .ok linked) : registry.Linkable name := by
  refine h.linked_induction (P := fun body _ => ∀ name, registry.bodies name = some body →
    registry.Linkable name) ?_ hPlain hObject hLinked name hBody
  intro optimize body object linked hPlain hObject hLinked hCallees name hBody
  have hBound {reference : Reference} (hName : reference ∈ body.references) :
      ∃ b, registry.Binds context reference b := by
    obtain ⟨b, -, hBinds⟩ := h.bound hPlain hObject hLinked hName
    exact ⟨b, hBinds⟩
  refine .intro hBody ?_ ?_ ?_
  · intro var hName
    obtain ⟨b, hBinds⟩ := hBound hName
    cases hBinds with
    | var hVar =>
      rw [hVar]
      rfl
  · intro signature hName
    obtain ⟨b, hBinds⟩ := hBound hName
    cases hBinds with
    | primitive hFunction =>
      rw [hFunction]
      rfl
    | program hFunction _ =>
      rw [hFunction]
      rfl
  · intro signature callee hName hFunction
    obtain ⟨body', -, hBody', -, hLinkable⟩ := hCallees signature callee hName hFunction
    exact hLinkable callee hBody'

theorem linkable_of_ready? (h : registry.Describes context) {name : String} {linked : Linked}
    (hReady : context.ready? name = some linked) : registry.Linkable name := by
  obtain ⟨body, object, hBody, hPlain, hObject, hLinked⟩ := h.body_of_ready? hReady
  exact h.linkable_of_linkObject? hBody hPlain hObject hLinked

/-- The sub-programs that a linked one calls are linked. -/
theorem isSome_ready?_of_calls (h : registry.Describes context) {name callee : String}
    {linked : Linked} (hReady : context.ready? name = some linked)
    (hCalls : registry.Calls name callee) : (context.ready? callee).isSome := by
  obtain ⟨body, object, hBody, hPlain, hObject, hLinked⟩ := h.body_of_ready? hReady
  obtain ⟨body', signature, hBody', hName, hFunction⟩ := hCalls
  rw [hBody] at hBody'
  cases hBody'
  obtain ⟨b, -, hBinds⟩ := h.bound hPlain hObject hLinked hName
  obtain ⟨linked', hCallee, -⟩ := hBinds.eq_program hFunction
  rw [hCallee]
  rfl

/-! ## Linkable sub-programs link -/

/-- A sub-program can be linked once those that it calls are, if there is memory for it. -/
theorem linkObject?_isOk_of_linkable (h : registry.Describes context) {name : String} {p : Program}
    (hLinkable : registry.Linkable name) (hProgram : context.program? name = some p)
    (hCallees : ∀ callee, registry.Calls name callee → (context.ready? callee).isSome)
    (hImage : ∀ bindings, ∃ image, p.object.image? bindings = .ok image) :
    ∃ linked, context.linkObject? p.object = .ok linked := by
  obtain ⟨-, body, hBody, hPlain, hObject⟩ := h.source name p hProgram
  refine h.linkObject?_isOk hPlain hObject (fun reference hName => ?_) hImage
  cases hLinkable with
  | intro hBody' hVars hFunctions hLinkables =>
    rw [hBody] at hBody'
    cases hBody'
    refine exists_binds ?_ fun signature callee hCall hFunction => ?_
    · cases reference with
      | var var => exact hVars var hName
      | call signature => exact hFunctions signature hName
    · subst hCall
      exact hCallees callee ⟨body, signature, hBody, hName, hFunction⟩

end Describes

end Registry

end Formula
