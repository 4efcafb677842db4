import Formula.Proofs.Context.Registration

/-!
# Walking through sub-programs

Linking sub-programs changes nothing but their states, and what is linked stays linked
(`Context.Relinks`). So the registry of a context describes it after linking as well
(`visit_walks`), and that of any session describes its context (`describes_run`).
-/

namespace Formula

namespace LinkState

variable {α : Type} {result : Except LinkError α}

theorem linked?_ofResult {linked : α} : (ofResult result).linked? = some linked ↔
    result = .ok linked := by
  cases result with
  | ok found =>
    show some found = some linked ↔ _
    rw [Option.some.injEq, Except.ok.injEq]
  | error error => exact iff_of_false nofun nofun

theorem linked?_eq_some {state : LinkState α} {linked : α} :
    state.linked? = some linked ↔ state = .ready linked := by
  cases state with
  | ready found =>
    show some found = some linked ↔ _
    rw [Option.some.injEq, LinkState.ready.injEq]
  | unlinked => exact iff_of_false nofun nofun
  | failed error => exact iff_of_false nofun nofun

theorem error?_ofResult_eq_none : (ofResult result).error? = none ↔
    ∃ linked, result = .ok linked := by
  cases result with
  | ok found => exact iff_of_true rfl ⟨found, rfl⟩
  | error error => exact iff_of_false nofun fun ⟨_, h⟩ => nomatch h

theorem isReady_ofResult : (ofResult result).isReady = true ↔ ∃ linked, result = .ok linked :=
  Option.isSome_iff_exists.trans (exists_congr fun _ => linked?_ofResult)

end LinkState

/-- A program is ready if its last linking gave linked code. -/
theorem Context.isReady_linkProgram_iff {context : Context} {p : Program} :
    (context.linkProgram p).isReady = true ↔
      ∃ linked, context.linkObject? p.object = .ok linked :=
  LinkState.isReady_ofResult

/-! ## Linking one sub-program -/

namespace Context

/-- A later context is an earlier one in which more sub-programs may be linked. -/
structure Relinks (early late : Context) : Prop where
  config : late.config = early.config
  backend : late.backend = early.backend
  vars : late.vars = early.vars
  functions : late.functions = early.functions
  object : ∀ name, (late.program? name).map Program.object =
    (early.program? name).map Program.object
  ready : ∀ name linked, early.ready? name = some linked → late.ready? name = some linked

namespace Relinks

variable {early middle late : Context}

theorem refl (context : Context) : context.Relinks context :=
  ⟨rfl, rfl, rfl, rfl, fun _ => rfl, fun _ _ h => h⟩

theorem trans (h : early.Relinks middle) (h' : middle.Relinks late) : early.Relinks late where
  config := h'.config.trans h.config
  backend := h'.backend.trans h.backend
  vars := h'.vars.trans h.vars
  functions := h'.functions.trans h.functions
  object name := (h'.object name).trans (h.object name)
  ready name linked hReady := h'.ready name linked (h.ready name linked hReady)

theorem toExtends (h : early.Relinks late) : early.Extends late where
  config := h.config
  backend := h.backend
  var name cell hVar := by rw [h.vars]; exact hVar
  function symbol f hFunction := by rw [h.functions]; exact hFunction
  ready := h.ready

theorem program? (h : early.Relinks late) {name : String} {p : Program}
    (hProgram : early.program? name = some p) :
    ∃ q, late.program? name = some q ∧ q.object = p.object := by
  have hObject := h.object name
  rw [hProgram, Option.map_some, Option.map_eq_some_iff] at hObject
  exact hObject

theorem isSome (h : early.Relinks late) (name : String) :
    (late.program? name).isSome = (early.program? name).isSome := by
  have hObject := congrArg Option.isSome (h.object name)
  rwa [Option.isSome_map, Option.isSome_map] at hObject

theorem isSome_ready? (h : early.Relinks late) {name : String}
    (hReady : (early.ready? name).isSome) : (late.ready? name).isSome := by
  obtain ⟨linked, hReady⟩ := Option.isSome_iff_exists.mp hReady
  exact Option.isSome_iff_exists.mpr ⟨linked, h.ready name linked hReady⟩

end Relinks

theorem ready?_eq_some_iff {context : Context} {name : String} {linked : Linked} :
    context.ready? name = some linked ↔
      ∃ p, context.program? name = some p ∧ p.state.linked? = some linked :=
  Option.bind_eq_some_iff

theorem isSome_ready? {context : Context} {name : String} {p : Program}
    (hProgram : context.program? name = some p) (hReady : p.isReady = true) :
    (context.ready? name).isSome := by
  rw [ready?, hProgram]
  exact hReady

end Context

namespace Registry

variable {registry : Registry} {context : Context}

theorem Describes.relinks_linkProgram (h : registry.Describes context) {name : String}
    {p q : Program} (hProgram : context.program? name = some q) (hObject : q.object = p.object) :
    context.Relinks (context.setProgram name (context.linkProgram p)) where
  config := rfl
  backend := rfl
  vars := rfl
  functions := rfl
  object other := by
    rw [Context.setProgram_program?]
    split_ifs with hSame
    · rw [← hSame, hProgram]
      exact congrArg some hObject.symm
    · rfl
  ready other linked hReady := by
    rw [Context.ready?, Context.setProgram_program?]
    split_ifs with hSame
    · -- what is linked would be linked alike again
      subst hSame
      obtain ⟨q', hProgram', hLinked⟩ := Context.ready?_eq_some_iff.mp hReady
      have hAgain := h.ready name q' linked hProgram' hLinked
      rw [hProgram] at hProgram'
      cases hProgram'
      rw [hObject] at hAgain
      exact LinkState.linked?_ofResult.mpr hAgain
    · exact hReady

theorem Describes.linkProgram (h : registry.Describes context) {name : String} {p q : Program}
    (hProgram : context.program? name = some q) (hObject : q.object = p.object) :
    registry.Describes (context.setProgram name (context.linkProgram p)) := by
  have hRelinks := h.relinks_linkProgram hProgram hObject
  refine ⟨⟨h.var, h.function, h.signature⟩, ?_, ?_, ?_, ?_⟩
  · intro signature other hFunction
    rw [hRelinks.isSome]
    exact h.program signature other hFunction
  · intro other p' hProgram'
    rw [Context.setProgram_program?] at hProgram'
    split_ifs at hProgram' with hSame
    · subst hSame
      cases hProgram'
      have hSource := h.source name q hProgram
      rw [hObject] at hSource
      exact hSource
    · exact h.source other p' hProgram'
  · intro other body hBody
    rw [hRelinks.isSome]
    exact h.body other body hBody
  · intro other p' linked hProgram' hLinked
    apply hRelinks.toExtends.linkObject?
    rw [Context.setProgram_program?] at hProgram'
    split_ifs at hProgram' with hSame
    · cases hProgram'
      exact LinkState.linked?_ofResult.mp hLinked
    · exact h.ready other p' linked hProgram' hLinked

end Registry

/-- What is linked stays the same program. -/
theorem Context.Relinks.program?_of_ready? {early late : Context} (h : early.Relinks late)
    {name : String} {linked : Linked} (hReady : early.ready? name = some linked) :
    late.program? name = early.program? name := by
  obtain ⟨p, hEarly, hState⟩ := ready?_eq_some_iff.mp hReady
  obtain ⟨q, hLate, hState'⟩ := ready?_eq_some_iff.mp (h.ready name linked hReady)
  obtain ⟨q', hLate', hObject⟩ := h.program? hEarly
  rw [hLate] at hLate'
  cases hLate'
  obtain ⟨object, state⟩ := p
  obtain ⟨object', state'⟩ := q
  rw [LinkState.linked?_eq_some] at hState hState'
  dsimp only at hState hState' hObject
  rw [hEarly, hLate, hObject, hState, hState']

/-! ## The walk -/

namespace Linker

variable {registry : Registry}

/-- A registry that describes the context before a part of the walk describes it afterwards. -/
def Walks (registry : Registry) (early late : Linker) : Prop :=
  registry.Describes early.context →
    registry.Describes late.context ∧ early.context.Relinks late.context

namespace Walks

theorem refl (linker : Linker) : Walks registry linker linker :=
  fun h => ⟨h, .refl _⟩

theorem trans {early middle late : Linker} (h : Walks registry early middle)
    (h' : Walks registry middle late) : Walks registry early late := by
  intro hEarly
  obtain ⟨hMiddle, hRelinks⟩ := h hEarly
  obtain ⟨hLate, hRelinks'⟩ := h' hMiddle
  exact ⟨hLate, hRelinks.trans hRelinks'⟩

/-- Marks and events do not matter. -/
theorem of_context {early late : Linker} (h : late.context = early.context) :
    Walks registry early late := by
  intro hEarly
  rw [h]
  exact ⟨hEarly, .refl _⟩

end Walks

theorem visitEach_cons (visit : String → Linker → Option LinkError × Linker) (name : String)
    (names : List String) (linker : Linker) : visitEach visit (name :: names) linker =
      ((visit name linker).1 <|> (visitEach visit names (visit name linker).2).1,
        (visitEach visit names (visit name linker).2).2) := rfl

theorem visitEach_walks {visit : String → Linker → Option LinkError × Linker}
    (hVisit : ∀ name linker, Walks registry linker (visit name linker).2) (names : List String) :
    ∀ linker, Walks registry linker (visitEach visit names linker).2 := by
  induction names with
  | nil => exact fun linker => .refl linker
  | cons name names ih => exact fun linker => (hVisit name linker).trans (ih _)

/-! ## One visit -/

section Visit

variable {fuel : Nat} {name : String} {linker : Linker} {p : Program}

theorem visit_done (hMark : linker.marks[name]? = some .done) :
    visit (fuel + 1) name linker = (none, linker) := by
  simp only [visit, hMark]

theorem visit_inProgress (hMark : linker.marks[name]? = some .inProgress) :
    visit (fuel + 1) name linker =
      (some (.recursiveDefinition name), linker.note (.recursion name)) := by
  simp only [visit, hMark]

theorem visit_absent (hMark : linker.marks[name]? = none)
    (hProgram : linker.context.program? name = none) :
    visit (fuel + 1) name linker = (none, linker) := by
  simp only [visit, hMark, hProgram]

theorem visit_ready (hMark : linker.marks[name]? = none)
    (hProgram : linker.context.program? name = some p) (hReady : p.isReady = true) :
    visit (fuel + 1) name linker = (none, linker.mark name .done) := by
  simp only [visit, hMark, hProgram, hReady, if_true]

/-- The sub-programs that one calls, visited while it is in progress. -/
def visitCallees (fuel : Nat) (name : String) (p : Program) (linker : Linker) :
    Option LinkError × Linker :=
  visitEach (visit fuel) (linker.context.dependencies p.object) (linker.mark name .inProgress)

/-- A sub-program that has not been visited is linked after those that it calls. -/
theorem visit_unmarked (hMark : linker.marks[name]? = none)
    (hProgram : linker.context.program? name = some p) (hReady : p.isReady = false) :
    visit (fuel + 1) name linker =
      let callees := visitCallees fuel name p linker
      let own := callees.2.linkOne name p
      match callees.1 <|> own.1 with
      | some error => (some error, own.2.mark name .done)
      | none => (none, (own.2.mark name .done).note (.linked name)) := by
  simp only [visit, hMark, hProgram, hReady]
  rfl

end Visit

theorem linkOne_walks {linker : Linker} {name : String} {p q : Program}
    (hProgram : linker.context.program? name = some q) (hObject : q.object = p.object) :
    Walks registry linker (linker.linkOne name p).2 :=
  fun h => ⟨h.linkProgram hProgram hObject, h.relinks_linkProgram hProgram hObject⟩

theorem visit_walks (fuel : Nat) :
    ∀ name linker, Walks registry linker (visit fuel name linker).2 := by
  induction fuel with
  | zero => exact fun _ linker => .refl linker
  | succ fuel ih =>
    intro name linker
    cases hMark : linker.marks[name]? with
    | some mark =>
      cases mark with
      | done =>
        rw [visit_done hMark]
        exact .refl linker
      | inProgress =>
        rw [visit_inProgress hMark]
        exact .of_context rfl
    | none =>
      cases hProgram : linker.context.program? name with
      | none =>
        rw [visit_absent hMark hProgram]
        exact .refl linker
      | some p =>
        cases hReady : p.isReady with
        | true =>
          rw [visit_ready hMark hProgram hReady]
          exact .of_context rfl
        | false =>
          rw [visit_unmarked hMark hProgram hReady]
          have hMarked : Walks registry linker (linker.mark name .inProgress) := .of_context rfl
          have hCallees : Walks registry linker (visitCallees fuel name p linker).2 :=
            hMarked.trans (visitEach_walks ih _ _)
          have hOwn :
              Walks registry linker ((visitCallees fuel name p linker).2.linkOne name p).2 := by
            intro h
            obtain ⟨q, hProgram', hObject⟩ := (hCallees h).2.program? hProgram
            exact hCallees.trans (linkOne_walks hProgram' hObject) h
          dsimp only
          split
          · exact hOwn.trans (.of_context rfl)
          · exact hOwn.trans (.of_context rfl)

end Linker

/-! ## Linking all -/

namespace Registry

variable {registry : Registry} {context : Context}

theorem Describes.linkAll (h : registry.Describes context) :
    registry.Describes context.linkAll.2.context ∧ context.Relinks context.linkAll.2.context :=
  Linker.visitEach_walks (Linker.visit_walks _) _ _ h

theorem Describes.link (h : registry.Describes context) : registry.Describes context.link.2 :=
  h.linkAll.1

end Registry

namespace Session

/-- What holds of a session at the beginning and is kept by every request holds of all sessions. -/
theorem run_induction {P : Session → Prop} (config : RuntimeConfig) (backend : Backend)
    (hInitial : P (initial config backend))
    (hPerform : ∀ session request, P session → P (session.perform request))
    (requests : List Request) : P (run config backend requests) := by
  suffices general : ∀ session, P session → P (requests.foldl perform session) from
    general _ hInitial
  induction requests with
  | nil => exact fun _ h => h
  | cons request requests ih => exact fun session h => ih _ (hPerform session request h)

theorem perform_register {session : Session} {registration : Registration} {context : Context}
    (h : session.context.register registration = .ok context) :
    session.perform (.register registration) =
      ⟨context, session.registered ++ [registration]⟩ := by
  rw [perform, h]

theorem perform_error {session : Session} {registration : Registration} {error : ContextError}
    (h : session.context.register registration = .error error) :
    session.perform (.register registration) = session := by
  rw [perform, h]

/-- The names that have been registered are in the registry, each of them once. -/
structure Listed (config : RuntimeConfig) (backend : Backend) (session : Session) : Prop where
  config : session.context.config = config
  backend : session.context.backend = backend
  describes : session.registry.Describes session.context
  has : ∀ registration ∈ session.registered, session.registry.Has registration.key
  nodup : (session.registered.map Registration.key).Nodup

theorem Listed.register {config : RuntimeConfig} {backend : Backend} {session : Session}
    (h : session.Listed config backend) {registration : Registration} {context : Context}
    (hRegister : session.context.register registration = .ok context) :
    Listed config backend ⟨context, session.registered ++ [registration]⟩ := by
  have hRegistry : registry ⟨context, session.registered ++ [registration]⟩ =
      session.registry.add registration := Registry.ofList_concat ..
  have hExtends := h.describes.extends_register hRegister
  have hNew := h.describes.not_has hRegister
  refine ⟨hExtends.config.trans h.config, hExtends.backend.trans h.backend, ?_, ?_, ?_⟩
  · rw [hRegistry]
    exact h.describes.register hRegister
  · intro other hOther
    rw [hRegistry]
    apply Registry.has_add hRegister
    rcases List.mem_append.mp hOther with hOld | hLast
    · exact .inr (h.has other hOld)
    · exact .inl (congrArg Registration.key (List.mem_singleton.mp hLast))
  · rw [List.map_append, List.nodup_append_comm]
    refine List.nodup_cons.mpr ⟨?_, h.nodup⟩
    intro hMem
    obtain ⟨other, hOther, hKey⟩ := List.mem_map.mp hMem
    exact hNew (hKey ▸ h.has other hOther)

theorem Listed.link {config : RuntimeConfig} {backend : Backend} {session : Session}
    (h : session.Listed config backend) : (session.perform .link).Listed config backend := by
  obtain ⟨hDescribes, hRelinks⟩ := h.describes.linkAll
  exact ⟨hRelinks.config.trans h.config, hRelinks.backend.trans h.backend, hDescribes, h.has,
    h.nodup⟩

theorem listed_run (config : RuntimeConfig) (backend : Backend) (requests : List Request) :
    (run config backend requests).Listed config backend := by
  refine run_induction config backend
    ⟨rfl, rfl, Registry.describes_initial config backend, nofun, .nil⟩ ?_ requests
  intro session request h
  cases request with
  | link => exact h.link
  | register registration =>
    cases hRegister : session.context.register registration with
    | error error =>
      rw [perform_error hRegister]
      exact h
    | ok context =>
      rw [perform, hRegister]
      exact h.register hRegister

/-- The registry of a session describes its context. -/
theorem describes_run (config : RuntimeConfig) (backend : Backend) (requests : List Request) :
    (run config backend requests).registry.Describes (run config backend requests).context :=
  (listed_run config backend requests).describes

end Session

end Formula
