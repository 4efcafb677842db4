import Formula.Proofs.Context.Link
import Formula.Proofs.Context.Verdict

/-!
# The error of linking

The walk reports the first error that it meets. That error is never about a sub-program that fails
because another one did: up to the first error whatever is done is linked (`Linker.Settled`), so a
sub-program comes to its own linking with all that it calls linked. What remains is a name that is
missing, or a sub-program that is needed while it is being linked (`Linker.RootCause`). Nothing that
the walk does later touches what is done (`Linker.Keeps`), so the cause can be seen afterwards
(`Session.link_reports_root_cause`).
-/

namespace Formula

open Relation

namespace Linker

variable {registry : Registry}

/-- What is done stays done, and its program stays what it is. -/
def Keeps (early late : Linker) : Prop :=
  ∀ name : String, early.marks[name]? = some .done →
    late.marks[name]? = some .done ∧ late.context.program? name = early.context.program? name

namespace Keeps

theorem refl (linker : Linker) : Keeps linker linker :=
  fun _ hDone => ⟨hDone, rfl⟩

theorem trans {early middle late : Linker} (h : Keeps early middle) (h' : Keeps middle late) :
    Keeps early late := by
  intro name hDone
  obtain ⟨hMiddle, hProgram⟩ := h name hDone
  obtain ⟨hLate, hProgram'⟩ := h' name hMiddle
  exact ⟨hLate, hProgram'.trans hProgram⟩

/-- Marking what has no mark touches nothing that is done. -/
theorem mark {linker : Linker} {name : String} (hMark : linker.marks[name]? = none)
    (mark : LinkMark) : Keeps linker (linker.mark name mark) := by
  intro other hDone
  have hNe : name ≠ other := by
    rintro rfl
    rw [hMark] at hDone
    cases hDone
  rw [mark_marks, if_neg hNe]
  exact ⟨hDone, rfl⟩

end Keeps

theorem visitEach_keeps {visit : String → Linker → Option LinkError × Linker}
    (hVisit : ∀ name linker, Keeps linker (visit name linker).2) (names : List String) :
    ∀ linker, Keeps linker (visitEach visit names linker).2 := by
  induction names with
  | nil => exact fun linker => .refl linker
  | cons name names ih => exact fun linker => (hVisit name linker).trans (ih _)

/-- The sub-program that is finished was not done before. -/
theorem Finishes.keeps {early : Linker} {name : String} {p : Program}
    {callees result : Option LinkError × Linker} (hFinishes : Finishes name p callees result)
    (hMark : early.marks[name]? ≠ some .done) (h : Keeps early callees.2) :
    Keeps early result.2 := by
  intro other hDone
  have hNe : name ≠ other := by
    rintro rfl
    exact hMark hDone
  obtain ⟨hMarks, hProgram⟩ := h other hDone
  rw [hFinishes.marks, if_neg hNe, hFinishes.program?_of_ne hNe]
  exact ⟨hMarks, hProgram⟩

theorem visit_keeps (fuel : Nat) : ∀ name linker, Keeps linker (visit fuel name linker).2 := by
  induction fuel with
  | zero => exact fun _ linker => .refl linker
  | succ fuel ih =>
    intro name linker
    cases hMark : linker.marks[name]? with
    | some mark =>
      cases mark with
      | done =>
        rw [visit_done hMark]
        exact .refl linker
      | inProgress =>
        rw [visit_inProgress hMark]
        exact fun _ hDone => ⟨hDone, rfl⟩
    | none =>
      cases hProgram : linker.context.program? name with
      | none =>
        rw [visit_absent hMark hProgram]
        exact .refl linker
      | some p =>
        cases hReady : p.isReady with
        | true =>
          rw [visit_ready hMark hProgram hReady]
          exact .mark hMark _
        | false =>
          have hCallees : Keeps linker (visitCallees fuel name p linker).2 :=
            (Keeps.mark hMark _).trans (visitEach_keeps ih _ _)
          exact (finishes_visit hMark hProgram hReady).keeps (by rw [hMark]; exact nofun) hCallees

/-! ## Causes -/

/-- Why a walk has come to an error that is not the consequence of another one. -/
inductive RootCause (registry : Registry) (linker : Linker) : LinkError → Prop where
  /-- A sub-program calls itself, directly or through others. -/
  | recursion {name : String} (hCycle : TransGen registry.Calls name name) :
    RootCause registry linker (.recursiveDefinition name)
  /-- A name is missing in a sub-program that calls linkable ones only. -/
  | unresolved {name : String} {p : Program} {body : Expr} {reference : Reference}
    (hDone : linker.marks[name]? = some .done) (hProgram : linker.context.program? name = some p)
    (hState : p.state = .failed (.unresolvedSymbol reference.symbol.name))
    (hBody : registry.bodies name = some body) (hMisses : registry.Misses body reference)
    (hCallees : ∀ callee, registry.Calls name callee → registry.Linkable callee) :
    RootCause registry linker (.unresolvedSymbol reference.symbol.name)

theorem RootCause.mono {early late : Linker} {error : LinkError}
    (h : RootCause registry early error) (hKeeps : Keeps early late) :
    RootCause registry late error := by
  cases h with
  | recursion hCycle => exact .recursion hCycle
  | @unresolved name p body reference hDone hProgram hState hBody hMisses hCallees =>
    obtain ⟨hDone', hSame⟩ := hKeeps name hDone
    exact .unresolved hDone' (hSame.trans hProgram) hState hBody hMisses hCallees

/-- Whatever is done is linked. -/
def Settled (linker : Linker) : Prop :=
  ∀ name : String, linker.marks[name]? = some .done → (linker.context.ready? name).isSome

theorem Settled.mark {linker : Linker} {name : String} (h : linker.Settled) :
    (linker.mark name .inProgress).Settled := by
  intro other hDone
  rw [mark_marks] at hDone
  split_ifs at hDone
  · cases hDone
  · exact h other hDone

/-- A part of the walk without an error settles what it visits. -/
theorem Visits.settled {early : Linker} {names : List String}
    {result : Option LinkError × Linker} (h : Visits registry early names result)
    (hSettled : early.Settled) (hNone : result.1 = none) : result.2.Settled := by
  intro name hDone
  rcases h.ready hNone name hDone with hBefore | hReady
  · exact h.relinks.isSome_ready? (hSettled name hBefore)
  · exact hReady

/-- What the error of a part of the walk that visits some sub-programs says about them. -/
structure Explains (registry : Registry) (early : Linker) (names : List String)
    (result : Option LinkError × Linker) : Prop where
  cause : ∀ error, result.1 = some error → RootCause registry result.2 error
  /-- What is being linked cannot be visited without an error. -/
  free : result.1 = none → ∀ name ∈ names, early.marks[name]? ≠ some .inProgress

namespace Explains

variable {early : Linker} {name : String} {names : List String}
  {result result' : Option LinkError × Linker}

/-- A visit without an error. -/
theorem of_none (hMark : early.marks[name]? ≠ some .inProgress) (late : Linker) :
    Explains registry early [name] (none, late) where
  cause _ hError := nomatch hError
  free _ _ hMem := List.mem_singleton.mp hMem ▸ hMark

/-- The first error of two parts is that of the first part if there is one. -/
theorem cons (h : Explains registry early [name] result)
    (hVisits : Visits registry early [name] result)
    (h' : result.1 = none → Explains registry result.2 names result')
    (hKeeps : Keeps result.2 result'.2) :
    Explains registry early (name :: names) (result.1 <|> result'.1, result'.2) where
  cause error hError := by
    cases hFirst : result.1 with
    | some first =>
      rw [hFirst] at hError
      cases hError
      exact (h.cause _ hFirst).mono hKeeps
    | none =>
      rw [hFirst] at hError
      exact (h' hFirst).cause error hError
  free hNone other hMem := by
    obtain ⟨hHead, hTail⟩ := (Option.orElse_eq_none _ _).mp hNone
    rcases List.mem_cons.mp hMem with rfl | hLater
    · exact h.free hHead _ (List.mem_singleton.mpr rfl)
    · exact mt (hVisits.inProgress other).mpr ((h' hHead).free hTail other hLater)

end Explains

/-- Several visits explain their error if each one does. -/
theorem visitEach_explains {names : Finset String} {room : Nat}
    {visit : String → Linker → Option LinkError × Linker}
    (hVisit : ∀ name linker, linker.Sound registry → linker.Awaits registry name →
      unmarked names linker < room → Visits registry linker [name] (visit name linker) ∧
        (linker.Settled → Explains registry linker [name] (visit name linker)))
    (hKeeps : ∀ name linker, Keeps linker (visit name linker).2)
    (goals : List String) : ∀ linker, linker.Sound registry →
      (∀ name ∈ goals, linker.Awaits registry name) → unmarked names linker < room →
      linker.Settled → Explains registry linker goals (visitEach visit goals linker) := by
  induction goals with
  | nil =>
    intro linker _ _ _ _
    exact ⟨fun _ hError => (nomatch hError), fun _ _ hMem => (nomatch hMem)⟩
  | cons name goals ih =>
    intro linker h hAwaits hRoom hSettled
    obtain ⟨hHead, hExplains⟩ := hVisit name linker h (hAwaits name (List.mem_cons_self ..)) hRoom
    refine (hExplains hSettled).cons hHead (fun hNone => ?_) (visitEach_keeps hKeeps goals _)
    exact ih _ hHead.sound
      (fun other hMem => (hAwaits other (List.mem_cons_of_mem _ hMem)).of_visits hHead)
      ((hHead.unmarked_le names).trans_lt hRoom) (hHead.settled hSettled hNone)

/-! ## One visit -/

section Visit

variable {name : String} {linker : Linker} {p : Program}
  {callees result : Option LinkError × Linker}

/-- When the sub-programs that one calls have been visited without an error, they are linked. -/
theorem isSome_ready?_of_none (h : linker.Sound registry) (hSettled : linker.Settled)
    (hProgram : linker.context.program? name = some p)
    (hVisits : Visits registry (linker.mark name .inProgress)
      (linker.context.dependencies p.object) callees)
    (hExplains : Explains registry (linker.mark name .inProgress)
      (linker.context.dependencies p.object) callees)
    (hNone : callees.1 = none) {callee : String} (hCalls : registry.Calls name callee) :
    (callees.2.context.ready? callee).isSome := by
  have hMem := (h.describes.mem_dependencies_iff hProgram callee).mpr hCalls
  obtain ⟨body, signature, -, -, hFunction⟩ := hCalls
  have hBody := (h.describes.isSome_program? callee).mp
    (h.describes.program signature callee hFunction)
  exact hVisits.settled hSettled.mark hNone callee
    (hVisits.visited callee hMem hBody (hExplains.free hNone callee hMem))

/-- If the sub-programs that it calls are linked, the error of a sub-program is that of a missing
name. -/
theorem Finishes.rootCause (hFinishes : Finishes name p callees result)
    (hSound : callees.2.Sound registry) {q : Program}
    (hProgram : callees.2.context.program? name = some q) (hObject : q.object = p.object)
    (hReady : ∀ callee, registry.Calls name callee → (callees.2.context.ready? callee).isSome)
    {error : LinkError} (hError : (callees.2.context.linkProgram p).state.error? = some error) :
    RootCause registry result.2 error := by
  have hVerdict := hSound.describes.linkObject?_eq_unresolved hProgram hReady
    (hSound.loads name q hProgram)
  rcases hVerdict with ⟨linked, hLinked⟩ | ⟨body, reference, hBody, hMisses, hLink⟩
  · rw [hObject] at hLinked
    rw [Context.linkProgram, hLinked] at hError
    cases hError
  · rw [hObject] at hLink
    rw [Context.linkProgram, hLink] at hError
    cases hError
    refine .unresolved ?_ hFinishes.program? ?_ hBody hMisses fun callee hCalls => ?_
    · rw [hFinishes.marks, if_pos rfl]
    · rw [Context.linkProgram, hLink]
      rfl
    · obtain ⟨linked, hLinked⟩ := Option.isSome_iff_exists.mp (hReady callee hCalls)
      exact hSound.describes.linkable_of_ready? hLinked

/-- Linking a sub-program after those that it calls explains its error. -/
theorem Finishes.explains (hFinishes : Finishes name p callees result) (h : linker.Sound registry)
    (hSettled : linker.Settled) (hMark : linker.marks[name]? = none)
    (hProgram : linker.context.program? name = some p)
    (hVisits : Visits registry (linker.mark name .inProgress)
      (linker.context.dependencies p.object) callees)
    (hExplains : Explains registry (linker.mark name .inProgress)
      (linker.context.dependencies p.object) callees) :
    Explains registry linker [name] result where
  free _ other hMem := by
    rw [List.mem_singleton.mp hMem, hMark]
    exact nofun
  cause error hError := by
    rw [hFinishes.error] at hError
    cases hFirst : callees.1 with
    | some first =>
      rw [hFirst] at hError
      cases hError
      have hInProgress : callees.2.marks[name]? = some .inProgress := by
        rw [hVisits.inProgress, mark_marks, if_pos rfl]
      exact (hExplains.cause _ hFirst).mono
        (hFinishes.keeps (by rw [hInProgress]; exact nofun) (.refl _))
    | none =>
      rw [hFirst] at hError
      obtain ⟨q, hProgram', hObject⟩ := hVisits.relinks.program? hProgram
      exact hFinishes.rootCause hVisits.sound hProgram' hObject
        (fun callee hCalls =>
          isSome_ready?_of_none h hSettled hProgram hVisits hExplains hFirst hCalls) hError

end Visit

/-- A visit explains its error. -/
theorem visit_explains {names : Finset String}
    (hNames : ∀ name, (registry.bodies name).isSome → name ∈ names) (fuel : Nat) :
    ∀ name linker, linker.Sound registry → linker.Awaits registry name →
      unmarked names linker < fuel → linker.Settled →
      Explains registry linker [name] (visit fuel name linker) := by
  induction fuel with
  | zero => exact fun _ _ _ _ hRoom => absurd hRoom (Nat.not_lt_zero _)
  | succ fuel ih =>
    intro name linker h hAwaits hRoom hSettled
    cases hMark : linker.marks[name]? with
    | some mark =>
      cases mark with
      | done =>
        rw [visit_done hMark]
        exact .of_none (by rw [hMark]; exact nofun) _
      | inProgress =>
        rw [visit_inProgress hMark]
        refine ⟨fun error hError => ?_, nofun⟩
        cases hError
        exact .recursion (hAwaits name hMark)
    | none =>
      have hFree : linker.marks[name]? ≠ some .inProgress := by
        rw [hMark]
        exact nofun
      cases hProgram : linker.context.program? name with
      | none =>
        rw [visit_absent hMark hProgram]
        exact .of_none hFree _
      | some p =>
        cases hReady : p.isReady with
        | true =>
          rw [visit_ready hMark hProgram hReady]
          exact .of_none hFree _
        | false =>
          have hRoom' := unmarked_callees_lt hNames h hMark hProgram hRoom
          have hVisit (name : String) (linker : Linker) (h : linker.Sound registry)
              (hAwaits : linker.Awaits registry name) (hRoom : unmarked names linker < fuel) :=
            visit_visits hNames fuel 0 name linker h hAwaits hRoom
          obtain ⟨hVisits, -⟩ := visitCallees_visits hVisit h hAwaits hProgram hRoom'
          refine (finishes_visit hMark hProgram hReady).explains h hSettled hMark hProgram hVisits
            (visitEach_explains ?_ (visit_keeps fuel) _ _ (h.markInProgress name)
              (awaits_callees h hAwaits hProgram) hRoom' hSettled.mark)
          exact fun other linker h hAwaits hRoom =>
            ⟨(hVisit other linker h hAwaits hRoom).1, ih other linker h hAwaits hRoom⟩

end Linker

/-! ## Linking all -/

namespace Registry

variable {registry : Registry} {context : Context}

/-- Whether one sub-program calls another and neither is linked. -/
def CallsUnlinked (registry : Registry) (context : Context) (name callee : String) : Prop :=
  registry.Calls name callee ∧ context.ready? name = none ∧ context.ready? callee = none

namespace Describes

/-- The error of linking has a cause. -/
theorem linkAll_explains (h : registry.Describes context) (hLoads : context.Loads) :
    Linker.Explains registry (.ofContext context) context.programNames context.linkAll := by
  have hRoom := unmarked_lt context.programNames (.ofContext context)
  rw [Context.programNames, Std.TreeMap.length_keys] at hRoom
  refine Linker.visitEach_explains (fun name linker hSound hAwaits hRoom => ⟨?_, ?_⟩)
    (Linker.visit_keeps _) _ _ (h.sound_ofContext hLoads) (fun name _ => awaits_ofContext name)
    hRoom fun name hDone => ?_
  · exact (Linker.visit_visits h.bodies_mem _ 0 name linker hSound hAwaits hRoom).1
  · exact Linker.visit_explains h.bodies_mem _ name linker hSound hAwaits hRoom
  · simp at hDone

theorem ready?_link_eq_none (h : registry.Describes context) (hLoads : context.Loads)
    {name : String} : context.link.2.ready? name = none ↔ ¬registry.Linkable name := by
  rw [← h.isSome_ready?_link hLoads name, Option.not_isSome_iff_eq_none]

/-- Whatever leads to a sub-program that cannot be linked is not linked. -/
theorem transGen_callsUnlinked (h : registry.Describes context) (hLoads : context.Loads)
    {name other : String} (hCalls : TransGen registry.Calls name other)
    (hOther : ¬registry.Linkable other) :
    TransGen (registry.CallsUnlinked context.link.2) name other := by
  have hStep {a b : String} (hCalls : registry.Calls a b) (hNot : ¬registry.Linkable b) :
      registry.CallsUnlinked context.link.2 a b :=
    ⟨hCalls, (h.ready?_link_eq_none hLoads).mpr fun hLinkable => hNot (hLinkable.of_calls hCalls),
      (h.ready?_link_eq_none hLoads).mpr hNot⟩
  induction hCalls with
  | single hCall => exact .single (hStep hCall hOther)
  | tail _ hCall ih =>
    have hBefore := ih fun hLinkable => hOther (hLinkable.of_calls hCall)
    exact hBefore.tail (hStep hCall hOther)

/-- A sub-program on a cycle of calls is in the context. -/
theorem isSome_program?_of_cycle (h : registry.Describes context) {name : String}
    (hCycle : TransGen registry.Calls name name) : (context.program? name).isSome := by
  obtain ⟨callee, ⟨body, signature, hBody, -⟩, -⟩ := TransGen.head'_iff.mp hCycle
  exact h.body name body hBody

end Describes

end Registry

/-! ## Sessions -/

namespace Session

/-- The error of linking is that of a sub-program that calls itself through others that are not
linked either, or that of the first missing name of a sub-program whose callees are all linked. When
no name is missing, a cycle of calls is what linking reports. -/
theorem link_reports_root_cause (config : RuntimeConfig) (backend : Backend)
    (requests : List Request)
    (hPages : ∀ name p code, (run config backend requests).context.program? name = some p →
      p.object.code = .native code →
      ∃ pages, Native.Pages.allocate (Native.encode code).length = .ok pages) :
    let registry := (run config backend requests).registry
    let context := (run config backend requests).context
    let after := context.link.2
    (∀ error, context.link.1 = some error →
      (∀ name, error ≠ .dependencyNotLinked name) ∧
      ((∃ name, error = .recursiveDefinition name ∧ (context.program? name).isSome ∧
          TransGen (registry.CallsUnlinked after) name name) ∨
        ∃ name p body reference, error = .unresolvedSymbol reference.symbol.name ∧
          after.program? name = some p ∧ p.state = .failed error ∧
          registry.bodies name = some body ∧ registry.Misses body reference ∧
          ∀ callee, registry.Calls name callee → (after.ready? callee).isSome)) ∧
    ((∀ name body, registry.bodies name = some body →
        ∀ reference ∈ body.references, registry.Has reference.key) →
      ∀ name, TransGen (registry.CallsUnlinked context) name name →
        ∃ member, context.link.1 = some (.recursiveDefinition member) ∧
          TransGen (registry.CallsUnlinked after) member member) := by
  have hDescribes := describes_run config backend requests
  have hLoads := loads_run hPages
  intro registry context after
  have hCause := (hDescribes.linkAll_explains hLoads).cause
  have hUnlinked {name : String} (hCycle : TransGen registry.Calls name name) :
      TransGen (registry.CallsUnlinked after) name name :=
    hDescribes.transGen_callsUnlinked hLoads hCycle fun hLinkable => hLinkable.not_cycle hCycle
  refine ⟨fun error hError => ?_, fun hRegistered name hCycle => ?_⟩
  · cases hCause error hError with
    | @recursion name hCycle =>
      exact ⟨nofun, .inl ⟨name, rfl, hDescribes.isSome_program?_of_cycle hCycle, hUnlinked hCycle⟩⟩
    | @unresolved name p body reference hDone hProgram hState hBody hMisses hCallees =>
      exact ⟨nofun, .inr ⟨name, p, body, reference, rfl, hProgram, hState, hBody, hMisses,
        fun callee hCalls => (hDescribes.isSome_ready?_link hLoads callee).mpr
          (hCallees callee hCalls)⟩⟩
  · have hCycle : TransGen registry.Calls name name := TransGen.mono (fun _ _ h => h.1) _ _ hCycle
    -- not every sub-program is linked, so there is an error
    cases hError : context.link.1 with
    | none =>
      have hReady := (hDescribes.link_eq_none hLoads).mp hError name
        (hDescribes.isSome_program?_of_cycle hCycle)
      exact absurd hCycle ((hDescribes.isSome_ready?_link hLoads name).mp hReady).not_cycle
    | some error =>
      cases hCause error hError with
      | @recursion member hMember => exact ⟨member, rfl, hUnlinked hMember⟩
      | unresolved hDone hProgram hState hBody hMisses hCallees =>
        exact absurd (hRegistered _ _ hBody _ hMisses.not_has.1) hMisses.not_has.2

/-! ## An example -/

/-- Registers a sub-program `y` that calls itself. -/
def withLoop : List Request :=
  [.register (.source "y" "y()")]

theorem registered_withLoop :
    (run .standard .interpreted withLoop).registered = [.source "y" "y()"] := by
  obtain ⟨table, hTable⟩ := SymbolTable.internAll_empty_singleton (.ofSignature ⟨"y", 0⟩)
  obtain ⟨object, hObject, -⟩ := Object.ofExpr?_isOk .interpreted RuntimeConfig.standard.optimize
    (e := .callY) nofun hTable
  have hNew : (initial .standard .interpreted).context.functions[
      (⟨"y", 0⟩ : Signature).symbol]? = none := rfl
  exact congrArg registered
    (perform_register (Context.register_eq_ok_iff.mpr (.source Expr.ofString?_callY hObject hNew)))

theorem bodies_withLoop {name : String} {body : Expr} :
    (run .standard .interpreted withLoop).registry.bodies name = some body ↔
      name = "y" ∧ body = .callY := by
  rw [registry, registered_withLoop]
  simp only [Registry.ofList, List.foldl_cons, List.foldl_nil, Registry.add, Registry.setFunction,
    Function.update_apply, Expr.ofString?_callY, Except.toOption, Registry.initial_bodies]
  split_ifs with hName
  · simp [hName, eq_comm]
  · simp [hName]

/-- A sub-program that calls itself is what linking reports. -/
theorem link_withLoop :
    (run .standard .interpreted withLoop).context.link.1 = some (.recursiveDefinition "y") := by
  have hDescribes := describes_run .standard .interpreted withLoop
  have hListed := listed_run .standard .interpreted withLoop
  have hPages : ∀ name p code,
      (run .standard .interpreted withLoop).context.program? name = some p →
      p.object.code = .native code →
      ∃ pages, Native.Pages.allocate (Native.encode code).length = .ok pages := by
    intro name p code hProgram hCode
    obtain ⟨-, body, -, -, hObject⟩ := hDescribes.source name p hProgram
    rw [hListed.backend] at hObject
    rw [(Object.symbols_bytecode hObject).2] at hCode
    cases hCode
  have hFunction : (run .standard .interpreted withLoop).registry.functions ⟨"y", 0⟩ =
      some (.program "y") := by
    rw [registry, registered_withLoop]
    simp only [Registry.ofList, List.foldl_cons, List.foldl_nil, Registry.add,
      Registry.setFunction, Function.update_self]
  have hCalls : (run .standard .interpreted withLoop).registry.Calls "y" "y" :=
    ⟨_, ⟨"y", 0⟩, bodies_withLoop.mpr ⟨rfl, rfl⟩, List.mem_singleton.mpr rfl, hFunction⟩
  have hReady : (run .standard .interpreted withLoop).context.ready? "y" = none := by
    cases hReady : (run .standard .interpreted withLoop).context.ready? "y" with
    | none => rfl
    | some linked =>
      exact absurd (.single hCalls) (hDescribes.linkable_of_ready? hReady).not_cycle
  obtain ⟨-, hConverse⟩ := link_reports_root_cause .standard .interpreted withLoop hPages
  obtain ⟨member, hError, hCycle⟩ := hConverse (fun name body hBody reference hMem => by
    obtain ⟨-, rfl⟩ := bodies_withLoop.mp hBody
    cases List.mem_singleton.mp hMem
    exact Option.isSome_iff_exists.mpr ⟨_, hFunction⟩) "y" (.single ⟨hCalls, hReady, hReady⟩)
  obtain ⟨callee, ⟨⟨body, -, hBody, -⟩, -⟩, -⟩ := TransGen.head'_iff.mp hCycle
  obtain ⟨rfl, -⟩ := bodies_withLoop.mp hBody
  exact hError

end Session

end Formula
