import Formula.Proofs.Context.Visit

/-!
# Walks that go alike

Two walks through the sub-programs of contexts with the same registry may find different ones linked
already. They treat all others alike: they end with the same error and leave the same programs
(`visit_alike`). So linking a second time does what the first time did, and the order of
registrations does not matter.
-/

namespace Formula

/-! ## Linking one sub-program -/

namespace Registry.Describes

variable {registry : Registry} {context other : Context}

/-- Contexts with the same names bind a name alike if they have linked the same sub-programs that it
may stand for. -/
theorem errorsAgree_binding? (h : registry.Describes context) (hOther : registry.Describes other)
    {name : Reference} (hPlain : name.Plain)
    (hReady : ∀ signature callee, name = .call signature →
      registry.functions signature = some (.program callee) →
      ((context.ready? callee).isSome ↔ (other.ready? callee).isSome)) :
    ErrorsAgree (context.binding? name.symbol) (other.binding? name.symbol) := by
  cases name with
  | var name =>
    simp only [Reference.symbol, Symbol.ofVar, Context.binding?]
    rw [h.var, hOther.var]
    cases registry.vars name with
    | none => exact .error _
    | some cell => exact .ok _ _
  | call signature =>
    simp only [Reference.symbol, Symbol.ofSignature, Context.binding?]
    rw [h.functions_eq hPlain, hOther.functions_eq hPlain]
    cases hFunction : registry.functions signature with
    | none => exact .error _
    | some f =>
      cases f with
      | builtin b => exact .ok _ _
      | host f => exact .ok _ _
      | program callee =>
        have hSame := hReady signature callee rfl hFunction
        unfold Context.ready? at hSame
        dsimp only
        generalize (context.program? callee).bind (fun p => p.state.linked?) = first,
          (other.program? callee).bind (fun p => p.state.linked?) = second at hSame
        cases first with
        | none =>
          cases second with
          | none => exact .error _
          | some linked => exact absurd (hSame.mpr rfl) Bool.false_ne_true
        | some linked =>
          cases second with
          | none => exact absurd (hSame.mp rfl) Bool.false_ne_true
          | some linked' => exact .ok _ _

/-- Contexts with the same names link a sub-program alike if they have linked the same ones that it
calls. -/
theorem errorsAgree_linkObject? (h : registry.Describes context)
    (hOther : registry.Describes other) {name : String} {p : Program}
    (hProgram : context.program? name = some p)
    (hReady : ∀ callee, registry.Calls name callee →
      ((context.ready? callee).isSome ↔ (other.ready? callee).isSome))
    (hImage : ∀ bindings, ∃ image, p.object.image? bindings = .ok image) :
    ErrorsAgree (context.linkObject? p.object) (other.linkObject? p.object) := by
  obtain ⟨-, body, hBody, hPlain, hObject⟩ := h.source name p hProgram
  have hBindings : ErrorsAgree (context.bindings? p.object.symbols)
      (other.bindings? p.object.symbols) := by
    refine ErrorsAgree.mapM fun symbol hSymbol => ?_
    obtain ⟨reference, hName, rfl⟩ := (Object.mem_symbols_iff hObject symbol).mp hSymbol
    refine h.errorsAgree_binding? hOther (hPlain.reference hName) ?_
    rintro signature callee rfl hFunction
    exact hReady callee ⟨body, signature, hBody, hName, hFunction⟩
  refine hBindings.bind fun bindings bindings' _ _ => ?_
  obtain ⟨image, hOk⟩ := hImage bindings
  obtain ⟨image', hOk'⟩ := hImage bindings'
  rw [Object.link?, Object.link?, hOk, hOk']
  exact .ok _ _

end Registry.Describes

namespace Linker

variable {registry : Registry}

/-- Two walks that differ at most in what linkable sub-programs they have linked. -/
structure Alike (registry : Registry) (first second : Linker) : Prop where
  left : first.Sound registry
  right : second.Sound registry
  config : first.context.config = second.context.config
  backend : first.context.backend = second.context.backend
  marks : ∀ name : String, ¬registry.Linkable name → first.marks[name]? = second.marks[name]?
  programs : ∀ name : String, ¬registry.Linkable name → first.marks[name]? = some .done →
    first.context.program? name = second.context.program? name

namespace Alike

variable {first second : Linker}

theorem dependencies_eq (h : Alike registry first second) (object : Object) :
    first.context.dependencies object = second.context.dependencies object := by
  have hFunctions (symbol : String) : first.context.functions[symbol]? =
      second.context.functions[symbol]? :=
    h.left.describes.functions_eq_of_lists h.right.describes.toLists symbol
  simp only [Context.dependencies, hFunctions]

/-- The contexts have the same sub-programs. -/
theorem isSome_program? (h : Alike registry first second) (name : String) :
    (first.context.program? name).isSome ↔ (second.context.program? name).isSome :=
  (h.left.describes.isSome_program? name).trans (h.right.describes.isSome_program? name).symm

/-- Marks alike in both walks. -/
theorem congr (h : Alike registry first second) {first' second' : Linker}
    (hFirst : first'.Sound registry) (hSecond : second'.Sound registry)
    (hContext : first'.context = first.context) (hContext' : second'.context = second.context)
    (hMarks : ∀ name : String, ¬registry.Linkable name →
      first'.marks[name]? = second'.marks[name]?)
    (hDone : ∀ name : String, ¬registry.Linkable name → first'.marks[name]? = some .done →
      first.marks[name]? = some .done) : Alike registry first' second' where
  left := hFirst
  right := hSecond
  config := by rw [hContext, hContext', h.config]
  backend := by rw [hContext, hContext', h.backend]
  marks := hMarks
  programs name hOther hMark := by
    rw [hContext, hContext']
    exact h.programs name hOther (hDone name hOther hMark)

theorem mark (h : Alike registry first second) (name : String) :
    Alike registry (first.mark name .inProgress) (second.mark name .inProgress) := by
  refine h.congr (h.left.markInProgress name) (h.right.markInProgress name) rfl rfl ?_ ?_
  · intro other hOther
    rw [mark_marks, mark_marks, h.marks other hOther]
  · intro other _ hDone
    rw [mark_marks] at hDone
    split_ifs at hDone
    · cases hDone
    · exact hDone

/-- Visits of linkable sub-programs concern no others. -/
theorem of_visits (h : Alike registry first second) {names : List String}
    {result result' : Option LinkError × Linker} (hFirst : Visits registry first names result)
    (hSecond : Visits registry second names result')
    (hLinkable : ∀ name ∈ names, registry.Linkable name) :
    result.1 = result'.1 ∧ Alike registry result.2 result'.2 := by
  refine ⟨?_, hFirst.sound, hSecond.sound, ?_, ?_, ?_, ?_⟩
  · rw [hFirst.noError hLinkable, hSecond.noError hLinkable]
  · rw [hFirst.relinks.config, hSecond.relinks.config, h.config]
  · rw [hFirst.relinks.backend, hSecond.relinks.backend, h.backend]
  · intro name hOther
    rw [(hFirst.frame hLinkable name hOther).1, (hSecond.frame hLinkable name hOther).1,
      h.marks name hOther]
  · intro name hOther hMark
    rw [(hFirst.frame hLinkable name hOther).1] at hMark
    rw [(hFirst.frame hLinkable name hOther).2, (hSecond.frame hLinkable name hOther).2,
      h.programs name hOther hMark]

end Alike

/-! ## Visits -/

section Visit

variable {first second : Linker} {name : String} {p q : Program}
  {callees callees' result result' : Option LinkError × Linker}

/-- A sub-program that is not linkable fails alike in both walks. -/
theorem Finishes.alike (h : Finishes name p callees result)
    (h' : Finishes name q callees' result') (hVisits : Visits registry first [name] result)
    (hVisits' : Visits registry second [name] result')
    (hCallees : callees.1 = callees'.1 ∧ Alike registry callees.2 callees'.2)
    (hProgram : ∃ r, callees.2.context.program? name = some r ∧ r.object = p.object)
    (hObject : p.object = q.object) (hOther : ¬registry.Linkable name)
    (hReady : ∀ callee, registry.Calls name callee →
      ((callees.2.context.ready? callee).isSome ↔ (callees'.2.context.ready? callee).isSome)) :
    result.1 = result'.1 ∧ Alike registry result.2 result'.2 := by
  obtain ⟨hErrors, hAlike⟩ := hCallees
  obtain ⟨r, hProgram, hSame⟩ := hProgram
  have hAgree := hAlike.left.describes.errorsAgree_linkObject? hAlike.right.describes hProgram
    hReady (hAlike.left.loads name r hProgram)
  rw [hSame] at hAgree
  -- it cannot be linked, so the results are the same error
  have hState : callees.2.context.linkObject? p.object =
      callees'.2.context.linkObject? p.object := by
    generalize hFirst : callees.2.context.linkObject? p.object = x,
      callees'.2.context.linkObject? p.object = y at hAgree
    cases hAgree with
    | error error => rfl
    | ok linked linked' =>
      obtain ⟨linked, hReady⟩ :=
        Option.isSome_iff_exists.mp (h.isSome_ready?_iff.mpr ⟨linked, hFirst⟩)
      exact absurd (hVisits.sound.describes.linkable_of_ready? hReady) hOther
  have hLinked : callees.2.context.linkProgram p = callees'.2.context.linkProgram q := by
    rw [Context.linkProgram, Context.linkProgram, hState, hObject]
  refine ⟨?_, hVisits.sound, hVisits'.sound, ?_, ?_, ?_, ?_⟩
  · rw [h.error, h'.error, hErrors, hLinked]
  · rw [h.context, h'.context]
    exact hAlike.config
  · rw [h.context, h'.context]
    exact hAlike.backend
  · intro other hOther'
    rw [h.marks, h'.marks, hAlike.marks other hOther']
  · intro other hOther' hMark
    rw [h.marks] at hMark
    split_ifs at hMark with hSame
    · subst hSame
      rw [h.program?, h'.program?, hLinked]
    · rw [h.program?_of_ne hSame, h'.program?_of_ne hSame]
      exact hAlike.programs other hOther' hMark

end Visit

variable {names : Finset String} {fuel : Nat}

/-- Several visits go alike if each of them does. -/
theorem visitEach_alike (hNames : ∀ name, (registry.bodies name).isSome → name ∈ names)
    (hVisit : ∀ name first second, Alike registry first second → first.Awaits registry name →
      second.Awaits registry name → unmarked names first < fuel → unmarked names second < fuel →
      (visit fuel name first).1 = (visit fuel name second).1 ∧
        Alike registry (visit fuel name first).2 (visit fuel name second).2)
    (goals : List String) : ∀ first second, Alike registry first second →
      (∀ name ∈ goals, first.Awaits registry name) →
      (∀ name ∈ goals, second.Awaits registry name) →
      unmarked names first < fuel → unmarked names second < fuel →
      (visitEach (visit fuel) goals first).1 = (visitEach (visit fuel) goals second).1 ∧
        Alike registry (visitEach (visit fuel) goals first).2
          (visitEach (visit fuel) goals second).2 := by
  induction goals with
  | nil => exact fun _ _ h _ _ _ _ => ⟨rfl, h⟩
  | cons name goals ih =>
    intro first second h hFirst hSecond hRoom hRoom'
    have hHere := List.mem_cons_self (a := name) (l := goals)
    obtain ⟨hErrors, hAlike⟩ :=
      hVisit name first second h (hFirst name hHere) (hSecond name hHere) hRoom hRoom'
    have hVisits := (visit_visits hNames fuel 0 name first h.left (hFirst name hHere) hRoom).1
    have hVisits' := (visit_visits hNames fuel 0 name second h.right (hSecond name hHere) hRoom').1
    obtain ⟨hErrors', hAlike'⟩ := ih _ _ hAlike
      (fun other hMem => (hFirst other (List.mem_cons_of_mem _ hMem)).of_visits hVisits)
      (fun other hMem => (hSecond other (List.mem_cons_of_mem _ hMem)).of_visits hVisits')
      ((hVisits.unmarked_le names).trans_lt hRoom) ((hVisits'.unmarked_le names).trans_lt hRoom')
    rw [visitEach_cons, visitEach_cons, hErrors, hErrors']
    exact ⟨rfl, hAlike'⟩

/-- A visit goes alike in both walks. -/
theorem visit_alike (hNames : ∀ name, (registry.bodies name).isSome → name ∈ names) (fuel : Nat) :
    ∀ name first second, Alike registry first second → first.Awaits registry name →
      second.Awaits registry name → unmarked names first < fuel → unmarked names second < fuel →
      (visit fuel name first).1 = (visit fuel name second).1 ∧
        Alike registry (visit fuel name first).2 (visit fuel name second).2 := by
  induction fuel with
  | zero => exact fun _ _ _ _ _ _ hRoom _ => absurd hRoom (Nat.not_lt_zero _)
  | succ fuel ih =>
    intro name first second h hFirst hSecond hRoom hRoom'
    have hVisits := (visit_visits hNames (fuel + 1) 0 name first h.left hFirst hRoom).1
    have hVisits' := (visit_visits hNames (fuel + 1) 0 name second h.right hSecond hRoom').1
    by_cases hLinkable : registry.Linkable name
    · -- both walks link it, if it has not been linked before
      refine h.of_visits hVisits hVisits' fun other hMem => ?_
      rw [List.mem_singleton.mp hMem]
      exact hLinkable
    have hMarks := h.marks name hLinkable
    cases hMark : first.marks[name]? with
    | some mark =>
      rw [hMark] at hMarks
      cases mark with
      | done =>
        rw [visit_done hMark, visit_done hMarks.symm]
        exact ⟨rfl, h⟩
      | inProgress =>
        rw [visit_inProgress hMark, visit_inProgress hMarks.symm] at *
        exact ⟨rfl, h.congr hVisits.sound hVisits'.sound rfl rfl h.marks fun _ _ hDone => hDone⟩
    | none =>
      rw [hMark] at hMarks
      cases hProgram : first.context.program? name with
      | none =>
        have hAbsent : second.context.program? name = none := by
          rw [← Option.not_isSome_iff_eq_none, ← h.isSome_program?, hProgram]
          exact nofun
        rw [visit_absent hMark hProgram, visit_absent hMarks.symm hAbsent]
        exact ⟨rfl, h⟩
      | some p =>
        obtain ⟨q, hProgram'⟩ : ∃ q, second.context.program? name = some q := by
          rw [← Option.isSome_iff_exists, ← h.isSome_program?, hProgram]
          rfl
        have hObject :=
          h.left.describes.object_eq h.right.describes h.config h.backend hProgram hProgram'
        have hReady := h.left.isReady_eq_false hProgram hLinkable
        have hReady' := h.right.isReady_eq_false hProgram' hLinkable
        have hRoomCallees := unmarked_callees_lt hNames h.left hMark hProgram hRoom
        have hRoomCallees' := unmarked_callees_lt hNames h.right hMarks.symm hProgram' hRoom'
        have hVisit := visit_visits hNames fuel 0
        have hCallees :=
          (visitCallees_visits hVisit h.left hFirst hProgram hRoomCallees).1
        have hCallees' :=
          (visitCallees_visits hVisit h.right hSecond hProgram' hRoomCallees').1
        refine Finishes.alike (finishes_visit hMark hProgram hReady)
          (finishes_visit hMarks.symm hProgram' hReady') hVisits hVisits' ?_
          (hCallees.relinks.program? hProgram) hObject hLinkable ?_
        · rw [visitCallees, visitCallees, ← hObject, ← h.dependencies_eq]
          refine visitEach_alike hNames ih _ _ _ (h.mark name)
            (awaits_callees h.left hFirst hProgram) ?_ hRoomCallees hRoomCallees'
          rw [hObject, h.dependencies_eq]
          exact awaits_callees h.right hSecond hProgram'
        · intro callee hCalls
          -- both walks have linked the linkable ones by now, and neither links another
          by_cases hCallee : registry.Linkable callee
          · exact iff_of_true
              (isSome_ready_of_calls hFirst hProgram h.left hCallees hCalls hCallee)
              (isSome_ready_of_calls hSecond hProgram' h.right hCallees' hCalls hCallee)
          · exact iff_of_false (hCallees.sound.not_isSome_ready? hCallee)
              (hCallees'.sound.not_isSome_ready? hCallee)

end Linker

end Formula
