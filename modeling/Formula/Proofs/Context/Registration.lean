import Formula.Proofs.Context.Binding
import Formula.Proofs.ParsedNames
import Formula.Proofs.Resolved
import Mathlib.Data.List.Nodup
import Mathlib.Logic.Function.Basic

/-!
# Registration

A `Session` is a context that its user has registered names in and linked, with the list of what the
user has registered. The context knows functions by linker symbol and sub-programs by their code;
`Registry.Describes` says that they are those of the registrations. It holds of the first context
and is kept by registrations (`Describes.register`). No name is registered twice, so their order
does not matter (`ofList_perm`).
-/

namespace Formula

/-! ## Sessions -/

/-- A request to register something. -/
inductive Registration where
  | var (name : String) (pointer : Option Cell)
  | func (name : String) (f : HostFunction)
  | source (name text : String)
deriving DecidableEq

/-- The name that a registration is about. -/
def Registration.key : Registration → String ⊕ Signature
  | .var name _ => .inl name
  | .func name f => .inr ⟨name, f.arity⟩
  | .source name _ => .inr ⟨name, 0⟩

/-- Carries out a registration. -/
def Context.register (context : Context) : Registration → Except ContextError Context
  | .var name pointer => context.varAt name pointer
  | .func name f => context.func name f
  | .source name text => context.funcSource name text

/-- Puts a sub-program that has been compiled under a name. -/
def Context.setSource (context : Context) (name : String) (p : Program) : Context :=
  (context.setFunction (⟨name, 0⟩ : Signature).symbol (.program name)).setProgram name p

/-- What becomes of a context in which something is registered. -/
inductive Context.Registers (context : Context) : Registration → Context → Prop where
  | var {name : String} {cell : Cell} (hNew : context.vars[name]? = none) :
    Registers context (.var name (some cell)) (context.setVar name cell)
  | func {name : String} {f : HostFunction} (hMax : f.arity ≤ maxArity)
    (hNew : context.functions[(⟨name, f.arity⟩ : Signature).symbol]? = none) :
    Registers context (.func name f)
      (context.setFunction (⟨name, f.arity⟩ : Signature).symbol (.host f))
  | source {name text : String} {body : Expr} {object : Object}
    (hBody : Expr.ofString? text = .ok body)
    (hObject : Object.ofExpr? context.backend context.config.optimize body = .ok object)
    (hNew : context.functions[(⟨name, 0⟩ : Signature).symbol]? = none) :
    Registers context (.source name text) (context.setSource name (.ofObject object))

theorem Context.compile_eq_ok_iff {context : Context} {source : String} {p : Program} :
    context.compile source = .ok p ↔ ∃ e object, Expr.ofString? source = .ok e ∧
      Object.ofExpr? context.backend context.config.optimize e = .ok object ∧
      p = .ofObject object := by
  rw [compile, Except.bind_eq_ok_iff]
  constructor
  · rintro ⟨object, hObject, h⟩
    obtain ⟨e, hExpr, hObject⟩ := Except.bind_eq_ok_iff.mp hObject
    exact ⟨e, object, hExpr, hObject, (Except.ok.inj h).symm⟩
  · rintro ⟨e, object, hExpr, hObject, rfl⟩
    exact ⟨object, Except.bind_eq_ok_iff.mpr ⟨e, hExpr, hObject⟩, rfl⟩

theorem Context.register_eq_ok_iff {context context' : Context} {registration : Registration} :
    context.register registration = .ok context' ↔ context.Registers registration context' := by
  cases registration with
  | var name pointer =>
    cases pointer with
    | none => exact ⟨nofun, nofun⟩
    | some cell =>
      simp only [register, varAt, var, Std.TreeMap.contains_eq_isSome_getElem?]
      split_ifs with hOld
      · refine ⟨nofun, ?_⟩
        rintro ⟨hNew⟩
        rw [hNew] at hOld
        cases hOld
      · constructor
        · intro h
          cases h
          exact .var (Option.not_isSome_iff_eq_none.mp hOld)
        · rintro ⟨-⟩
          rfl
  | func name f =>
    simp only [register, func, Std.TreeMap.contains_eq_isSome_getElem?]
    split_ifs with hMany hOld
    · refine ⟨nofun, ?_⟩
      rintro (_ | ⟨hMax, -⟩)
      exact absurd hMany (Nat.not_lt.mpr hMax)
    · refine ⟨nofun, ?_⟩
      rintro (_ | ⟨-, hNew⟩)
      rw [hNew] at hOld
      cases hOld
    · constructor
      · intro h
        cases h
        exact .func (Nat.le_of_not_lt hMany) (Option.not_isSome_iff_eq_none.mp hOld)
      · rintro (_ | ⟨-, -⟩)
        rfl
  | source name text =>
    simp only [register, funcSource, Std.TreeMap.contains_eq_isSome_getElem?]
    split_ifs with hOld
    · refine ⟨nofun, ?_⟩
      rintro (_ | _ | ⟨-, -, hNew⟩)
      rw [hNew] at hOld
      cases hOld
    · constructor
      · intro h
        split at h
        · cases h
        · rename_i program hCompile
          cases h
          obtain ⟨body, object, hBody, hObject, rfl⟩ := compile_eq_ok_iff.mp hCompile
          exact .source hBody hObject (Option.not_isSome_iff_eq_none.mp hOld)
      · rintro (_ | _ | ⟨hBody, hObject, -⟩)
        rw [compile_eq_ok_iff.mpr ⟨_, _, hBody, hObject, rfl⟩]
        rfl

namespace Registry

/-- Nothing is registered. -/
def empty : Registry :=
  ⟨fun _ => none, fun _ => none, fun _ => none⟩

/-- Notes a function. -/
def setFunction (registry : Registry) (signature : Signature) (f : Function) : Registry :=
  { registry with functions := Function.update registry.functions signature (some f) }

/-- The built-in functions. -/
def initial : Registry :=
  Builtin.all.foldl (fun registry b => registry.setFunction b.signature (.builtin b)) empty

/-- Notes what has been registered. -/
def add (registry : Registry) : Registration → Registry
  | .var name pointer => { registry with vars := Function.update registry.vars name pointer }
  | .func name f => registry.setFunction ⟨name, f.arity⟩ (.host f)
  | .source name text =>
    { registry.setFunction ⟨name, 0⟩ (.program name) with
      bodies := Function.update registry.bodies name (Expr.ofString? text).toOption }

end Registry

/-- What names stand for after registrations. -/
def Registry.ofList (registrations : List Registration) : Registry :=
  registrations.foldl Registry.add .initial

theorem Registry.ofList_concat (registrations : List Registration) (last : Registration) :
    ofList (registrations ++ [last]) = (ofList registrations).add last :=
  List.foldl_concat ..

/-- What can be asked of a context. -/
inductive Request where
  | register (registration : Registration)
  | link
deriving DecidableEq

/-- A context and what has been registered in it, in order. -/
structure Session where
  context : Context
  registered : List Registration

namespace Session

/-- A new context. -/
def initial (config : RuntimeConfig) (backend : Backend) : Session :=
  ⟨.initial config backend, []⟩

/-- Carries out a request. A registration that is refused changes nothing. -/
def perform (session : Session) : Request → Session
  | .register registration =>
    match session.context.register registration with
    | .ok context => ⟨context, session.registered ++ [registration]⟩
    | .error _ => session
  | .link => { session with context := session.context.link.2 }

/-- A context after a sequence of requests. -/
def run (config : RuntimeConfig) (backend : Backend) (requests : List Request) : Session :=
  requests.foldl perform (initial config backend)

/-- What the names in the context stand for. -/
def registry (session : Session) : Registry :=
  .ofList session.registered

end Session

/-! ## The registry describes the context -/

/-- The names in a context are those in a registry. -/
structure Registry.Lists (registry : Registry) (context : Context) : Prop where
  var : ∀ name : String, context.vars[name]? = registry.vars name
  function : ∀ signature f, registry.functions signature = some f →
    context.functions[signature.symbol]? = some f ∧ signature.arity = f.arity ∧ f.arity ≤ maxArity
  signature : ∀ (symbol : String) (f : Function), context.functions[symbol]? = some f →
    ∃ signature, registry.functions signature = some f ∧ signature.symbol = symbol

/-- What a registry says about a context. What is linked would be linked alike again. -/
structure Registry.Describes (registry : Registry) (context : Context) : Prop
    extends registry.Lists context where
  program : ∀ signature name, registry.functions signature = some (.program name) →
    (context.program? name).isSome
  source : ∀ name p, context.program? name = some p →
    registry.functions ⟨name, 0⟩ = some (.program name) ∧
      ∃ body, registry.bodies name = some body ∧ body.Plain ∧
        Object.ofExpr? context.backend context.config.optimize body = .ok p.object
  body : ∀ name body, registry.bodies name = some body → (context.program? name).isSome
  ready : ∀ name p linked, context.program? name = some p → p.state.linked? = some linked →
    context.linkObject? p.object = .ok linked

namespace Registry

variable {registry : Registry} {context context' : Context}

theorem Lists.setFunction (h : registry.Lists context) {signature : Signature} {f : Function}
    (hArity : signature.arity = f.arity) (hMax : f.arity ≤ maxArity)
    (hFresh : ∀ other g, registry.functions other = some g → other.symbol = signature.symbol →
      other = signature) :
    (registry.setFunction signature f).Lists (context.setFunction signature.symbol f) where
  var := h.var
  function other g hOther := by
    rw [Context.setFunction_functions]
    simp only [Registry.setFunction, Function.update_apply] at hOther
    split_ifs at hOther with hSame
    · cases hOther
      rw [hSame, if_pos rfl]
      exact ⟨rfl, hArity, hMax⟩
    · rw [if_neg fun hSymbol => hSame (hFresh other g hOther hSymbol.symm)]
      exact h.function other g hOther
  signature symbol g hSymbol := by
    rw [Context.setFunction_functions] at hSymbol
    simp only [Registry.setFunction, Function.update_apply]
    split_ifs at hSymbol with hEq
    · cases hSymbol
      exact ⟨signature, if_pos rfl, hEq⟩
    · obtain ⟨other, hOther, rfl⟩ := h.signature symbol g hSymbol
      have hNe : other ≠ signature := fun hSame => hEq (congrArg Signature.symbol hSame.symm)
      exact ⟨other, by rw [if_neg hNe]; exact hOther, rfl⟩

/-! ## The first context -/

theorem plain_builtin (b : Builtin) : Signature.Plain b.name := by
  cases b <;> exact Signature.plain_of_isWordStart rfl rfl

theorem lists_builtins (builtins : List Builtin) :
    ∀ {registry : Registry} {context : Context}, registry.Lists context →
      (builtins.foldl (fun r b => r.setFunction b.signature (.builtin b)) registry).Lists
        { context with
          functions := builtins.foldl (fun m b => m.insert b.signature.symbol (.builtin b))
            context.functions } := by
  induction builtins with
  | nil => exact fun h => h
  | cons b builtins ih =>
    intro registry context h
    have hArity : b.arity ≤ maxArity := by cases b <;> decide
    refine @ih _ (context.setFunction b.signature.symbol (.builtin b))
      (h.setFunction rfl hArity ?_)
    intro other g hOther hSymbol
    obtain ⟨-, hSame, hMax⟩ := h.function other g hOther
    exact Signature.eq_of_symbol_eq hSymbol (hSame ▸ hMax) (plain_builtin b)

theorem initial_functions {signature : Signature} {f : Function}
    (h : initial.functions signature = some f) : ∃ b, f = .builtin b := by
  suffices general : ∀ (builtins : List Builtin) (registry : Registry),
      (∀ s g, registry.functions s = some g → ∃ b, g = .builtin b) →
      ∀ s g, (builtins.foldl (fun r b => r.setFunction b.signature (.builtin b)) registry).functions
        s = some g → ∃ b, g = .builtin b from
    general Builtin.all empty (fun _ _ hNone => by cases hNone) signature f h
  intro builtins
  induction builtins with
  | nil => exact fun _ hRegistry => hRegistry
  | cons b builtins ih =>
    intro registry hRegistry
    refine ih _ fun s g hGet => ?_
    simp only [setFunction, Function.update_apply] at hGet
    split_ifs at hGet
    · exact ⟨b, (Option.some.inj hGet).symm⟩
    · exact hRegistry s g hGet

theorem initial_bodies (name : String) : initial.bodies name = none := by
  suffices general : ∀ (builtins : List Builtin) (registry : Registry),
      (builtins.foldl (fun r b => r.setFunction b.signature (.builtin b)) registry).bodies =
        registry.bodies from congrFun (general Builtin.all empty) name
  intro builtins
  induction builtins with
  | nil => exact fun _ => rfl
  | cons b builtins ih => exact fun registry => ih (registry.setFunction b.signature (.builtin b))

theorem describes_initial (config : RuntimeConfig) (backend : Backend) :
    initial.Describes (.initial config backend) where
  toLists := @lists_builtins Builtin.all empty ⟨config, backend, ∅, ∅, ∅⟩
    ⟨fun _ => rfl, nofun, fun symbol f h => by simp at h⟩
  program signature name h := by
    obtain ⟨b, hBuiltin⟩ := initial_functions h
    cases hBuiltin
  source name p h := by simp [Context.program?, Context.initial] at h
  body name body h := by
    rw [initial_bodies] at h
    cases h
  ready name p linked h := by simp [Context.program?, Context.initial] at h

/-! ## Registrations -/

theorem extends_setVar {name : String} {cell : Cell} (h : context.vars[name]? = none) :
    context.Extends (context.setVar name cell) where
  config := rfl
  backend := rfl
  var other cell' hVar := by
    have hNe : name ≠ other := by
      rintro rfl
      rw [h] at hVar
      cases hVar
    rw [Context.setVar_vars, if_neg hNe]
    exact hVar
  function _ _ hFunction := hFunction
  ready _ _ hReady := hReady

theorem extends_setFunction {symbol : String} {f : Function}
    (h : context.functions[symbol]? = none) :
    context.Extends (context.setFunction symbol f) where
  config := rfl
  backend := rfl
  var _ _ hVar := hVar
  function other g hFunction := by
    have hNe : symbol ≠ other := by
      rintro rfl
      rw [h] at hFunction
      cases hFunction
    rw [Context.setFunction_functions, if_neg hNe]
    exact hFunction
  ready _ _ hReady := hReady

/-- A sub-program that is not linked may be replaced. -/
theorem extends_setProgram {name : String} {p : Program} (h : context.ready? name = none) :
    context.Extends (context.setProgram name p) where
  config := rfl
  backend := rfl
  var _ _ hVar := hVar
  function _ _ hFunction := hFunction
  ready other linked hReady := by
    have hNe : name ≠ other := by
      rintro rfl
      rw [h] at hReady
      cases hReady
    rw [Context.ready?, Context.setProgram_program?, if_neg hNe]
    exact hReady

theorem Describes.setVar (h : registry.Describes context) {name : String} {cell : Cell}
    (hNew : context.vars[name]? = none) :
    (registry.add (.var name (some cell))).Describes (context.setVar name cell) where
  var other := by
    rw [Context.setVar_vars, h.var other]
    simp only [add, Function.update_apply, eq_comm]
  function := h.function
  signature := h.signature
  program := h.program
  source := h.source
  body := h.body
  ready other p linked hProgram hLinked :=
    (extends_setVar hNew).linkObject? (h.ready other p linked hProgram hLinked)

theorem Describes.setHost (h : registry.Describes context) {name : String} {f : HostFunction}
    (hMax : f.arity ≤ maxArity)
    (hNew : context.functions[(⟨name, f.arity⟩ : Signature).symbol]? = none) :
    (registry.add (.func name f)).Describes
      (context.setFunction (⟨name, f.arity⟩ : Signature).symbol (.host f)) where
  toLists := h.toLists.setFunction rfl hMax fun other g hOther hSymbol => by
    rw [← hSymbol, (h.function other g hOther).1] at hNew
    cases hNew
  program signature name' hProgram := by
    simp only [add, setFunction, Function.update_apply] at hProgram
    split_ifs at hProgram
    · cases hProgram
    · exact h.program signature name' hProgram
  source name' p hProgram := by
    obtain ⟨hFunction, hBody⟩ := h.source name' p hProgram
    have hNe : (⟨name', 0⟩ : Signature) ≠ ⟨name, f.arity⟩ := by
      intro hSame
      have hOld := (h.function _ _ hFunction).1
      rw [hSame, hNew] at hOld
      cases hOld
    exact ⟨(Function.update_of_ne hNe _ _).trans hFunction, hBody⟩
  body := h.body
  ready other p linked hProgram hLinked :=
    (extends_setFunction hNew).linkObject? (h.ready other p linked hProgram hLinked)

theorem Describes.program?_eq_none (h : registry.Describes context) {name : String}
    (hNew : context.functions[(⟨name, 0⟩ : Signature).symbol]? = none) :
    context.program? name = none := by
  cases hProgram : context.program? name with
  | none => rfl
  | some p =>
    have hOld := (h.function _ _ (h.source name p hProgram).1).1
    rw [hNew] at hOld
    cases hOld

theorem extends_setSource {name : String} {p : Program}
    (hNew : context.functions[(⟨name, 0⟩ : Signature).symbol]? = none)
    (hAbsent : context.program? name = none) : context.Extends (context.setSource name p) := by
  refine (extends_setFunction hNew).trans (extends_setProgram ?_)
  show (context.program? name).bind _ = none
  rw [hAbsent]
  rfl

theorem Describes.setSource (h : registry.Describes context) {name text : String} {body : Expr}
    {object : Object} (hBody : Expr.ofString? text = .ok body)
    (hObject : Object.ofExpr? context.backend context.config.optimize body = .ok object)
    (hNew : context.functions[(⟨name, 0⟩ : Signature).symbol]? = none) :
    (registry.add (.source name text)).Describes (context.setSource name (.ofObject object)) where
  toLists := by
    have hLists : (registry.setFunction ⟨name, 0⟩ (.program name)).Lists _ :=
      h.toLists.setFunction rfl (Nat.zero_le _) fun other g hOther hSymbol => by
        rw [← hSymbol, (h.function other g hOther).1] at hNew
        cases hNew
    exact ⟨hLists.var, hLists.function, hLists.signature⟩
  program signature name' hProgram := by
    rw [Context.setSource, Context.setProgram_program?]
    simp only [add, setFunction, Function.update_apply] at hProgram
    split_ifs with hSame
    · rfl
    · split_ifs at hProgram
      · cases hProgram
        exact absurd rfl hSame
      · exact h.program signature name' hProgram
  source name' p hProgram := by
    rw [Context.setSource, Context.setProgram_program?] at hProgram
    simp only [add, setFunction, Function.update_apply]
    split_ifs at hProgram with hSame
    · cases hProgram
      subst hSame
      refine ⟨if_pos rfl, body, ?_, Expr.plain_of_ofString? hBody, hObject⟩
      rw [if_pos rfl, hBody]
      rfl
    · obtain ⟨hFunction, body', hBody', hRest⟩ := h.source name' p hProgram
      refine ⟨?_, body', ?_, hRest⟩
      · rw [if_neg fun hEq => hSame (Signature.mk.inj hEq).1.symm]
        exact hFunction
      · rw [if_neg (Ne.symm hSame)]
        exact hBody'
  body name' body' hBody' := by
    rw [Context.setSource, Context.setProgram_program?]
    simp only [add, Function.update_apply] at hBody'
    split_ifs with hSame
    · rfl
    · rw [if_neg (Ne.symm hSame)] at hBody'
      exact h.body name' body' hBody'
  ready name' p linked hProgram hLinked := by
    have hExtends := extends_setSource (p := .ofObject object) hNew (h.program?_eq_none hNew)
    rw [Context.setSource, Context.setProgram_program?] at hProgram
    split_ifs at hProgram
    · cases hProgram
      cases hLinked
    · exact hExtends.linkObject? (h.ready name' p linked hProgram hLinked)

/-- A registration that is accepted is noted. -/
theorem Describes.register (h : registry.Describes context) {registration : Registration}
    (hRegister : context.register registration = .ok context') :
    (registry.add registration).Describes context' := by
  cases Context.register_eq_ok_iff.mp hRegister with
  | var hNew => exact h.setVar hNew
  | func hMax hNew => exact h.setHost hMax hNew
  | source hBody hObject hNew => exact h.setSource hBody hObject hNew

/-- It takes nothing away. -/
theorem Describes.extends_register (h : registry.Describes context) {registration : Registration}
    (hRegister : context.register registration = .ok context') : context.Extends context' := by
  cases Context.register_eq_ok_iff.mp hRegister with
  | var hNew => exact extends_setVar hNew
  | func hMax hNew => exact extends_setFunction hNew
  | source hBody hObject hNew => exact extends_setSource hNew (h.program?_eq_none hNew)

/-! ## The order of registrations -/

/-- Whether a registry has a name. -/
def Has (registry : Registry) : String ⊕ Signature → Prop
  | .inl name => (registry.vars name).isSome
  | .inr signature => (registry.functions signature).isSome

/-- A name that is there already is refused. -/
theorem Lists.not_has (h : registry.Lists context) {registration : Registration}
    (hRegister : context.register registration = .ok context') :
    ¬registry.Has registration.key := by
  have hFunction {signature : Signature} (hNew : context.functions[signature.symbol]? = none) :
      ¬registry.Has (.inr signature) := by
    intro hHas
    obtain ⟨f, hSome⟩ := Option.isSome_iff_exists.mp hHas
    rw [(h.function signature f hSome).1] at hNew
    cases hNew
  cases Context.register_eq_ok_iff.mp hRegister with
  | var hNew =>
    intro hHas
    rw [Registration.key, Has, ← h.var, hNew] at hHas
    cases hHas
  | func hMax hNew => exact hFunction hNew
  | source hBody hObject hNew => exact hFunction hNew

/-- Afterwards the name is there, and those before it still are. -/
theorem has_add {registration : Registration}
    (hRegister : context.register registration = .ok context')
    {key : String ⊕ Signature} (h : key = registration.key ∨ registry.Has key) :
    (registry.add registration).Has key := by
  have hFunction {signature other : Signature} {f : Function}
      (h : other = signature ∨ (registry.functions other).isSome) :
      ((registry.setFunction signature f).functions other).isSome := by
    simp only [setFunction, Function.update_apply]
    split_ifs with hSame
    · rfl
    · exact h.resolve_left hSame
  cases Context.register_eq_ok_iff.mp hRegister with
  | var hNew =>
    cases key with
    | inl other =>
      simp only [Has, add, Function.update_apply]
      split_ifs with hSame
      · rfl
      · exact h.resolve_left fun hEq => hSame (Sum.inl.inj hEq)
    | inr other => exact h.resolve_left nofun
  | func hMax hNew =>
    cases key with
    | inl other => exact h.resolve_left nofun
    | inr other => exact hFunction (h.imp_left Sum.inr.inj)
  | source hBody hObject hNew =>
    cases key with
    | inl other => exact h.resolve_left nofun
    | inr other => exact hFunction (h.imp_left Sum.inr.inj)

theorem setFunction_comm (registry : Registry) {signature other : Signature} (f g : Function)
    (h : signature ≠ other) :
    (registry.setFunction signature f).setFunction other g =
      (registry.setFunction other g).setFunction signature f := by
  simp only [setFunction]
  rw [Function.update_comm h]

/-- Registrations of different names may change places. -/
theorem add_comm (registry : Registry) {first second : Registration}
    (h : first.key ≠ second.key) :
    (registry.add first).add second = (registry.add second).add first := by
  cases first with
  | var name pointer =>
    cases second with
    | var name' pointer' =>
      simp only [add]
      rw [Function.update_comm fun hSame => h (congrArg Sum.inl hSame)]
    | func => rfl
    | source => rfl
  | func name f =>
    cases second with
    | var => rfl
    | func name' f' => exact setFunction_comm registry _ _ fun hSame => h (congrArg Sum.inr hSame)
    | source name' text' =>
      have hComm := setFunction_comm registry (.host f) (.program name')
        fun hSame => h (congrArg Sum.inr hSame)
      simp only [add]
      rw [hComm]
      rfl
  | source name text =>
    cases second with
    | var => rfl
    | func name' f' =>
      have hComm := setFunction_comm registry (.program name) (.host f')
        fun hSame => h (congrArg Sum.inr hSame)
      simp only [add]
      rw [← hComm]
      rfl
    | source name' text' =>
      have hName : name ≠ name' := by
        rintro rfl
        exact h rfl
      have hSignature : (⟨name, 0⟩ : Signature) ≠ ⟨name', 0⟩ :=
        fun hSame => h (congrArg Sum.inr hSame)
      simp only [add, setFunction]
      rw [Function.update_comm hName, Function.update_comm hSignature]

theorem ofList_perm {registrations registrations' : List Registration}
    (h : registrations.Perm registrations') (hNodup : (registrations.map Registration.key).Nodup) :
    ofList registrations = ofList registrations' := by
  refine h.foldl_eq' ?_ _
  intro first hFirst second hSecond registry
  by_cases hKey : first.key = second.key
  · rw [List.inj_on_of_nodup_map hNodup hFirst hSecond hKey]
  · exact add_comm registry hKey

end Registry

end Formula
