import Formula.Proofs.Context.Overloads
import Formula.Proofs.Context.Stability

/-!
# The first registration wins

A context is a map from names and signatures to what stands for them (`Context.at?`). A
registration that is refused changes nothing, and `Context.Refuses` says which are. One that is
accepted adds one entry to the map, under a key that was free (`Context.Gains`), although functions
are kept under linker symbols, which are strings. Later requests replace no entry
(`Context.Persists`).

The map of sub-programs by name and the functions that are sub-programs go together
(`Session.Orderly`), so linking finds every sub-program that another one calls.
-/

namespace Formula

/-! ## Entries -/

/-- A name, or a signature that functions can have. -/
def Registration.Within : String ⊕ Signature → Prop
  | .inl _ => True
  | .inr signature => signature.arity ≤ maxArity

/-- What a registration puts under its key. -/
def Registration.value? : Registration → Option (Cell ⊕ Function)
  | .var _ pointer => pointer.map .inl
  | .func _ f => some (.inr (.host f))
  | .source name _ => some (.inr (.program name))

namespace Context

/-- The function under a signature. -/
def function? (context : Context) (signature : Signature) : Option Function :=
  context.functions[signature.symbol]?

/-- What stands under a name or a signature. -/
def at? (context : Context) : String ⊕ Signature → Option (Cell ⊕ Function)
  | .inl name => context.vars[name]?.map .inl
  | .inr signature => (context.function? signature).map .inr

/-- Why a registration is refused. -/
inductive Refuses (context : Context) : Registration → ContextError → Prop where
  | null (name : String) : Refuses context (.var name none) (.nullVariable name)
  | var {name : String} (cell : Cell) (hOld : context.vars[name]?.isSome) :
    Refuses context (.var name (some cell)) (.alreadyDefined name)
  | arity (name : String) {f : HostFunction} (hMany : maxArity < f.arity) :
    Refuses context (.func name f) (.tooManyArguments name f.arity maxArity)
  | func {name : String} {f : HostFunction} (hMax : f.arity ≤ maxArity)
    (hOld : (context.function? ⟨name, f.arity⟩).isSome) :
    Refuses context (.func name f) (.alreadyDefined name)
  | source {name : String} (text : String) (hOld : (context.function? ⟨name, 0⟩).isSome) :
    Refuses context (.source name text) (.alreadyDefined name)
  | compile {name text : String} {error : CompileError}
    (hNew : context.function? ⟨name, 0⟩ = none) (hCompile : context.compile text = .error error) :
    Refuses context (.source name text) (.compile name error)

/-- The later context has one entry more, under a key that was free, and a sub-program with it if
the entry is one. -/
structure Gains (early late : Context) (registration : Registration) : Prop where
  config : late.config = early.config
  backend : late.backend = early.backend
  within : Registration.Within registration.key
  new : early.at? registration.key = none
  value : registration.value?.isSome
  entry : ∀ key, Registration.Within key →
    late.at? key = if key = registration.key then registration.value? else early.at? key
  source : ∀ name text, registration = .source name text → early.program? name = none ∧
    ∃ p, early.compile text = .ok p ∧
      ∀ other, late.program? other = if name = other then some p else early.program? other
  programs : (∀ name text, registration ≠ .source name text) → late.programs = early.programs

/-- Every entry of the earlier context is in the later one as it was, and so is every sub-program,
except that it may have been linked. -/
structure Persists (early late : Context) (requests : List Request) : Prop where
  entry : ∀ key value, early.at? key = some value → late.at? key = some value
  program : ∀ name p, early.program? name = some p →
    ∃ q, late.program? name = some q ∧ q.object = p.object ∧ (.link ∉ requests → q = p)

end Context

/-- Functions stand under the symbols of their signatures, and sub-programs are known by name if and
only if they are functions without parameters. A call of such a function is bound to the sub-program
with this name. -/
structure Session.Orderly (config : RuntimeConfig) (backend : Backend) (session : Session) :
    Prop where
  symbol : ∀ (symbol : String) f, session.context.functions[symbol]? = some f →
    ∃ signature : Signature, signature.symbol = symbol ∧ signature.arity = f.arity ∧
      f.arity ≤ 8 ∧ session.Offers signature f
  offers : ∀ signature f, session.Offers signature f → session.context.function? signature = some f
  program : ∀ name, (session.context.program? name).isSome ↔
    session.context.function? ⟨name, 0⟩ = some (.program name)
  unique : ∀ (symbol name : String),
    session.context.functions[symbol]? = some (.program name) →
    symbol = (⟨name, 0⟩ : Signature).symbol
  same : ∀ name p, session.context.program? name = some p →
    session.context.binding? (.ofSignature ⟨name, 0⟩) =
      match p.state.linked? with
      | some linked => .ok (.program name linked.image linked.bindings)
      | none => .error (.dependencyNotLinked name)
  text : ∀ name p, session.context.program? name = some p →
    ∃ text, .source name text ∈ session.registered ∧
      Object.ofString? backend config.optimize text = .ok p.object
  found : ∀ name p, session.context.program? name = some p →
    ∀ symbol ∈ p.object.symbols.toList, ∀ arity callee, symbol.kind = .function arity →
      session.context.functions[symbol.name]? = some (.program callee) →
      callee ∈ session.context.dependencies p.object ∧
        (session.context.program? callee).isSome

namespace Context

variable {context early late : Context} {registration : Registration} {error : ContextError}

theorem isSome_function?_iff {signature : Signature} :
    context.functions.contains signature.symbol = true ↔ (context.function? signature).isSome := by
  rw [Std.TreeMap.contains_eq_isSome_getElem?, function?]

/-! ## One registration -/

/-- A registration is refused for one of the reasons and for no other. -/
theorem register_eq_error_iff :
    context.register registration = .error error ↔ context.Refuses registration error := by
  cases registration with
  | var name pointer =>
    cases pointer with
    | none =>
      constructor
      · intro h
        cases h
        exact .null name
      · rintro ⟨⟩
        rfl
    | some cell =>
      simp only [register, varAt, var, Std.TreeMap.contains_eq_isSome_getElem?]
      split_ifs with hOld
      · constructor
        · intro h
          cases h
          exact .var cell hOld
        · rintro (_ | _)
          rfl
      · constructor
        · intro h
          cases h
        · rintro (_ | ⟨-, hSome⟩)
          exact absurd hSome hOld
  | func name f =>
    simp only [register, func, isSome_function?_iff]
    split_ifs with hMany hOld
    · constructor
      · intro h
        cases h
        exact .arity name hMany
      · rintro (_ | _ | _ | ⟨hMax, -⟩)
        · rfl
        · exact absurd hMany (Nat.not_lt.mpr hMax)
    · constructor
      · intro h
        cases h
        exact .func (Nat.le_of_not_lt hMany) hOld
      · rintro (_ | _ | ⟨-, hMany'⟩ | _)
        · exact absurd hMany' hMany
        · rfl
    · constructor
      · intro h
        cases h
      · rintro (_ | _ | ⟨-, hMany'⟩ | ⟨-, hSome⟩)
        · exact absurd hMany' hMany
        · exact absurd hSome hOld
  | source name text =>
    simp only [register, funcSource, isSome_function?_iff]
    split_ifs with hOld
    · constructor
      · intro h
        cases h
        exact .source text hOld
      · rintro (_ | _ | _ | _ | _ | ⟨hNew, -⟩)
        · rfl
        · rw [hNew] at hOld
          cases hOld
    · cases hCompile : context.compile text with
      | error error' =>
        constructor
        · intro h
          cases h
          exact .compile (Option.not_isSome_iff_eq_none.mp hOld) hCompile
        · rintro (_ | _ | _ | _ | ⟨-, hSome⟩ | ⟨-, hError⟩)
          · exact absurd hSome hOld
          · rw [hCompile] at hError
            cases hError
            rfl
      | ok p =>
        constructor
        · intro h
          cases h
        · rintro (_ | _ | _ | _ | ⟨-, hSome⟩ | ⟨-, hError⟩)
          · exact absurd hSome hOld
          · rw [hCompile] at hError
            cases hError

/-- A function that is put under a symbol stands under one signature only. -/
theorem at?_setFunction {signature : Signature} (hMax : signature.arity ≤ maxArity)
    (f : Function) (key : String ⊕ Signature) (hKey : Registration.Within key) :
    (context.setFunction signature.symbol f).at? key =
      if key = .inr signature then some (.inr f) else context.at? key := by
  cases key with
  | inl name => rfl
  | inr other =>
    have hSame : signature.symbol = other.symbol ↔ other = signature :=
      (Signature.symbol_inj hMax hKey).trans eq_comm
    simp only [at?, function?, setFunction_functions, hSame, Sum.inr.injEq]
    split_ifs <;> rfl

/-- A registration that is accepted adds one entry. -/
theorem gains_of_register {registry : Registry} (h : registry.Describes context)
    (hRegister : context.register registration = .ok late) : context.Gains late registration := by
  cases register_eq_ok_iff.mp hRegister with
  | @var name cell hNew =>
    refine ⟨rfl, rfl, trivial, ?_, rfl, fun key _ => ?_, fun _ _ hSame => ?_, fun _ => rfl⟩
    · rw [Registration.key, at?, hNew]
      rfl
    · cases key with
      | inl other =>
        simp only [at?, setVar_vars, Registration.key, Sum.inl.injEq, eq_comm]
        split_ifs <;> rfl
      | inr signature => rfl
    · cases hSame
  | @func name f hMax hNew =>
    refine ⟨rfl, rfl, hMax, ?_, rfl, at?_setFunction hMax (.host f), fun _ _ hSame => ?_,
      fun _ => rfl⟩
    · rw [Registration.key, at?, function?, hNew]
      rfl
    · cases hSame
  | @source name text body object hBody hObject hNew =>
    have hMax : (⟨name, 0⟩ : Signature).arity ≤ maxArity := Nat.zero_le _
    have hEntry (key : String ⊕ Signature) (hKey : Registration.Within key) :
        (context.setFunction (⟨name, 0⟩ : Signature).symbol (.program name)).at? key =
          if key = .inr ⟨name, 0⟩ then some (.inr (.program name)) else context.at? key :=
      at?_setFunction hMax (.program name) key hKey
    refine ⟨rfl, rfl, hMax, ?_, rfl, hEntry, ?_, ?_⟩
    · rw [Registration.key, at?, function?, hNew]
      rfl
    · rintro name' text' hSame
      cases hSame
      refine ⟨h.program?_eq_none hNew, .ofObject object, ?_, ?_⟩
      · exact compile_eq_ok_iff.mpr ⟨body, object, hBody, hObject, rfl⟩
      · exact fun other => setProgram_program? ..
    · exact fun hOther => absurd rfl (hOther name text)

/-! ## Later requests -/

namespace Persists

theorem refl (context : Context) (requests : List Request) : context.Persists context requests :=
  ⟨fun _ _ h => h, fun _ p h => ⟨p, h, rfl, fun _ => rfl⟩⟩

theorem cons {middle : Context} {request : Request} {requests : List Request}
    (h : early.Persists middle [request]) (h' : middle.Persists late requests) :
    early.Persists late (request :: requests) where
  entry key value hEntry := h'.entry key value (h.entry key value hEntry)
  program name p hProgram := by
    obtain ⟨q, hMiddle, hObject, hSame⟩ := h.program name p hProgram
    obtain ⟨r, hLate, hObject', hSame'⟩ := h'.program name q hMiddle
    refine ⟨r, hLate, hObject'.trans hObject, fun hNoLink => ?_⟩
    rw [List.mem_cons, not_or] at hNoLink
    rw [hSame' hNoLink.2, hSame fun hMem => hNoLink.1 (List.mem_singleton.mp hMem)]

end Persists

theorem at?_of_extends (h : early.Extends late) (key : String ⊕ Signature)
    (value : Cell ⊕ Function) (hEntry : early.at? key = some value) :
    late.at? key = some value := by
  cases key with
  | inl name =>
    obtain ⟨cell, hVar, rfl⟩ := Option.map_eq_some_iff.mp hEntry
    rw [at?, h.var name cell hVar]
    rfl
  | inr signature =>
    obtain ⟨f, hFunction, rfl⟩ := Option.map_eq_some_iff.mp hEntry
    rw [at?, function?, h.function _ f hFunction]
    rfl

end Context

namespace Session

variable {config : RuntimeConfig} {backend : Backend} {session : Session}

theorem Listed.persists_perform (h : session.Listed config backend) (request : Request) :
    session.context.Persists (session.perform request).context [request] := by
  have hExtends := (h.grows_perform request).2.toExtends
  refine ⟨Context.at?_of_extends hExtends, fun name p hProgram => ?_⟩
  cases request with
  | link =>
    obtain ⟨q, hLate, hObject⟩ := h.describes.linkAll.2.program? hProgram
    exact ⟨q, hLate, hObject, fun hNoLink => absurd (List.mem_singleton.mpr rfl) hNoLink⟩
  | register registration =>
    refine ⟨p, ?_, rfl, fun _ => rfl⟩
    cases hRegister : session.context.register registration with
    | error error =>
      rw [perform_error hRegister]
      exact hProgram
    | ok late =>
      rw [perform_register hRegister]
      have hGains := Context.gains_of_register h.describes hRegister
      -- only a text adds a sub-program, and under a name that had none
      by_cases hSource : ∃ name' text, registration = .source name' text
      · obtain ⟨name', text, hSame⟩ := hSource
        obtain ⟨hAbsent, p', -, hPrograms⟩ := hGains.source name' text hSame
        have hNe : name' ≠ name := by
          rintro rfl
          rw [hAbsent] at hProgram
          cases hProgram
        rw [hPrograms, if_neg hNe]
        exact hProgram
      · have hPrograms := hGains.programs fun name' text hSame => hSource ⟨name', text, hSame⟩
        rw [Context.program?, hPrograms]
        exact hProgram

theorem Listed.persists_foldl (requests : List Request) : ∀ {session : Session},
    session.Listed config backend →
      session.context.Persists (requests.foldl perform session).context requests := by
  induction requests with
  | nil => exact fun _ => .refl _ []
  | cons request requests ih =>
    exact fun h => (h.persists_perform request).cons (ih (h.grows_perform request).1)

/-! ## Sub-programs -/

theorem orderly_run (config : RuntimeConfig) (backend : Backend) (requests : List Request) :
    (run config backend requests).Orderly config backend := by
  have hListed := listed_run config backend requests
  have hDescribes := hListed.describes
  have hOffers (signature : Signature) (f : Function) :
      (run config backend requests).registry.functions signature = some f ↔
        (run config backend requests).Offers signature f :=
    functions_run_iff config backend requests
  -- a sub-program is registered under its name without parameters
  have hProgram {signature : Signature} {name : String}
      (h : (run config backend requests).registry.functions signature = some (.program name)) :
      signature = ⟨name, 0⟩ ∧ ∃ text, .source name text ∈
        (run config backend requests).registered := by
    rcases (hOffers _ _).mp h with ⟨b, -, -, hBuiltin⟩ | ⟨registration, hMem, hSource⟩
    · cases hBuiltin
    · cases hSource with
      | source _ text => exact ⟨rfl, text, hMem⟩
  refine ⟨?_, ?_, ?_, ?_, ?_, ?_, ?_⟩
  · intro symbol f hFunction
    obtain ⟨signature, hRegistered, hSymbol⟩ := hDescribes.signature symbol f hFunction
    obtain ⟨-, hArity, hMax⟩ := hDescribes.function signature f hRegistered
    exact ⟨signature, hSymbol, hArity, hMax, (hOffers _ _).mp hRegistered⟩
  · exact fun signature f h => (hDescribes.function signature f ((hOffers _ _).mpr h)).1
  · intro name
    constructor
    · intro hSome
      obtain ⟨p, hFound⟩ := Option.isSome_iff_exists.mp hSome
      exact (hDescribes.function _ _ (hDescribes.source name p hFound).1).1
    · intro hFunction
      obtain ⟨signature, hRegistered, -⟩ := hDescribes.signature _ _ hFunction
      exact hDescribes.program signature name hRegistered
  · intro symbol name hFunction
    obtain ⟨signature, hRegistered, rfl⟩ := hDescribes.signature symbol _ hFunction
    rw [(hProgram hRegistered).1]
  · intro name p hFound
    have hFunction := (hDescribes.function _ _ (hDescribes.source name p hFound).1).1
    cases hState : p.state.linked? <;>
      simp only [Context.binding?, Symbol.ofSignature, hFunction, hFound, Option.bind_some, hState]
  · intro name p hFound
    obtain ⟨-, text, hMem⟩ := hProgram (hDescribes.source name p hFound).1
    obtain ⟨q, hFound', hObject⟩ := program?_run hMem
    rw [hFound] at hFound'
    cases hFound'
    exact ⟨text, hMem, hObject⟩
  · intro name p hFound symbol hMem arity callee hKind hFunction
    obtain ⟨-, body, hBody, hPlain, hObject⟩ := hDescribes.source name p hFound
    obtain ⟨reference, hName, rfl⟩ := (Object.mem_symbols_iff hObject symbol).mp hMem
    cases reference with
    | var _ => cases hKind
    | call signature =>
      have hRegistered : (run config backend requests).registry.functions signature =
          some (.program callee) := by
        rw [← hDescribes.functions_eq (hPlain signature hName)]
        exact hFunction
      exact ⟨(hDescribes.mem_dependencies_iff hFound callee).mpr
        ⟨body, signature, hBody, hName, hRegistered⟩, hDescribes.program _ callee hRegistered⟩

/-- A context is a map in which the first registration of a name or signature wins. -/
theorem first_registration_wins (config : RuntimeConfig) (backend : Backend)
    (requests : List Request) :
    let session := run config backend requests
    (∀ registration error, session.context.register registration = .error error ↔
      session.context.Refuses registration error) ∧
    (∀ registration error, session.context.register registration = .error error →
      session.perform (.register registration) = session) ∧
    (∀ registration late, session.context.register registration = .ok late →
      session.perform (.register registration) = ⟨late, session.registered ++ [registration]⟩ ∧
        session.context.Gains late registration) ∧
    (∀ more, session.context.Persists (run config backend (requests ++ more)).context more) ∧
    session.Orderly config backend := by
  intro session
  have hListed := listed_run config backend requests
  refine ⟨fun _ _ => Context.register_eq_error_iff, fun _ _ => perform_error,
    fun _ _ h => ⟨perform_register h, Context.gains_of_register hListed.describes h⟩,
    fun more => ?_, orderly_run config backend requests⟩
  rw [run, List.foldl_append]
  exact hListed.persists_foldl more

/-! ## An example -/

/-- Neither a sub-program nor a built-in function can be replaced. -/
theorem refused_withXY :
    let context := (run .standard .jit withXY).context
    context.register (.func "y" ⟨.native, 0, 7⟩) = .error (.alreadyDefined "y") ∧
      context.register (.source "clock" "1") = .error (.alreadyDefined "clock") := by
  intro context
  obtain ⟨hRefuses, -, -, -, hOrderly⟩ := first_registration_wins .standard .jit withXY
  have hY : context.function? ⟨"y", 0⟩ = some (.program "y") := by
    refine hOrderly.offers _ _ (.inr ⟨.source "y" "-x", ?_, .source "y" "-x"⟩)
    rw [registered_withXY]
    exact List.mem_cons_of_mem _ (List.mem_singleton.mpr rfl)
  have hClock : context.function? ⟨"clock", 0⟩ = some (.builtin .clock) :=
    hOrderly.offers _ _ (.inl ⟨.clock, by decide, rfl, rfl⟩)
  refine ⟨(hRefuses _ _).mpr (.func (Nat.zero_le _) ?_), (hRefuses _ _).mpr (.source "1" ?_)⟩
  · exact hY ▸ rfl
  · exact hClock ▸ rfl

end Session

end Formula
