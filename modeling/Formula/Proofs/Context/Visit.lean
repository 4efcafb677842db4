import Formula.Proofs.Context.Linkable
import Mathlib.Data.Finset.Card
import Mathlib.Data.Option.Basic

/-!
# What a visit does

A visit links every linkable sub-program that it comes to (`visit_visits`). `Linker.Sound` is the
invariant of the walk: what is done and linkable is linked. `Linker.Visits` says what a part of the
walk does to it. A linkable sub-program is never needed while it is being linked, because whatever
is in progress calls the sub-program that is visited (`Linker.Awaits`). As many levels of fuel as
there are unmarked sub-programs are enough, and more fuel changes nothing.
-/

namespace Formula

namespace Linker

variable {registry : Registry}

/-- What is done and linkable is linked, and there is memory for all code. -/
structure Sound (registry : Registry) (linker : Linker) : Prop where
  describes : registry.Describes linker.context
  loads : ∀ name p, linker.context.program? name = some p →
    ∀ bindings, ∃ image, p.object.image? bindings = .ok image
  settled : ∀ name : String, linker.marks[name]? = some .done → registry.Linkable name →
    (linker.context.ready? name).isSome

/-- Whatever is in progress calls the sub-program `name`, directly or through others. -/
def Awaits (registry : Registry) (linker : Linker) (name : String) : Prop :=
  ∀ other : String, linker.marks[other]? = some .inProgress →
    Relation.TransGen registry.Calls other name

/-- What a part of the walk does that visits some sub-programs. -/
structure Visits (registry : Registry) (early : Linker) (names : List String)
    (result : Option LinkError × Linker) : Prop where
  sound : result.2.Sound registry
  relinks : early.context.Relinks result.2.context
  inProgress : ∀ name : String, result.2.marks[name]? = some .inProgress ↔
    early.marks[name]? = some .inProgress
  done : ∀ name : String, early.marks[name]? = some .done → result.2.marks[name]? = some .done
  /-- Each of the sub-programs is done, unless it is being linked. -/
  visited : ∀ name ∈ names, (registry.bodies name).isSome →
    early.marks[name]? ≠ some .inProgress → result.2.marks[name]? = some .done
  /-- Linkable sub-programs link without error. -/
  noError : (∀ name ∈ names, registry.Linkable name) → result.1 = none
  /-- What has been done without error is linked. -/
  ready : result.1 = none → ∀ name : String, result.2.marks[name]? = some .done →
    early.marks[name]? = some .done ∨ (result.2.context.ready? name).isSome
  /-- Linkable sub-programs call no others than linkable ones. -/
  frame : (∀ name ∈ names, registry.Linkable name) → ∀ name, ¬registry.Linkable name →
    result.2.marks[name]? = early.marks[name]? ∧
      result.2.context.program? name = early.context.program? name

@[simp]
theorem mark_marks (linker : Linker) (name other : String) (mark : LinkMark) :
    (linker.mark name mark).marks[other]? =
      if name = other then some mark else linker.marks[other]? :=
  Context.getElem?_insert ..

namespace Sound

variable {linker : Linker}

/-- Only linkable sub-programs are linked. -/
theorem not_isSome_ready? (h : linker.Sound registry) {name : String}
    (hOther : ¬registry.Linkable name) : ¬(linker.context.ready? name).isSome := by
  intro hReady
  obtain ⟨linked, hReady⟩ := Option.isSome_iff_exists.mp hReady
  exact hOther (h.describes.linkable_of_ready? hReady)

theorem isReady_eq_false (h : linker.Sound registry) {name : String} {p : Program}
    (hProgram : linker.context.program? name = some p) (hOther : ¬registry.Linkable name) :
    p.isReady = false := by
  have hReady := h.not_isSome_ready? hOther
  rw [Context.ready?, hProgram, Option.bind_some] at hReady
  exact Bool.not_eq_true _ ▸ hReady

/-- Marks and events of an equal context. -/
theorem congr {other : Linker} (h : linker.Sound registry)
    (hContext : other.context = linker.context)
    (hDone : ∀ name : String, other.marks[name]? = some .done → registry.Linkable name →
      linker.marks[name]? = some .done) : other.Sound registry where
  describes := hContext ▸ h.describes
  loads := hContext ▸ h.loads
  settled name hMark hLinkable := by
    rw [hContext]
    exact h.settled name (hDone name hMark hLinkable) hLinkable

/-- A linked program stays what it is when it is marked. -/
theorem markDone (h : linker.Sound registry) {name : String}
    (hReady : registry.Linkable name → (linker.context.ready? name).isSome) :
    (linker.mark name .done).Sound registry where
  describes := h.describes
  loads := h.loads
  settled other hMark hLinkable := by
    rw [mark_marks] at hMark
    split_ifs at hMark with hSame
    · subst hSame
      exact hReady hLinkable
    · exact h.settled other hMark hLinkable

theorem markInProgress (h : linker.Sound registry) (name : String) :
    (linker.mark name .inProgress).Sound registry := by
  refine h.congr rfl fun other hDone _ => ?_
  rw [mark_marks] at hDone
  split_ifs at hDone
  · cases hDone
  · exact hDone

end Sound

/-! ## Parts of a walk -/

namespace Visits

variable {early : Linker} {name : String} {names : List String}
  {result result' : Option LinkError × Linker}

/-- Nothing is visited. -/
theorem nil (h : early.Sound registry) : Visits registry early [] (none, early) where
  sound := h
  relinks := .refl _
  inProgress _ := .rfl
  done _ hMark := hMark
  visited _ hMem := nomatch hMem
  noError _ := rfl
  ready _ _ hMark := .inl hMark
  frame _ _ _ := ⟨rfl, rfl⟩

/-- One part after another. -/
theorem cons (h : Visits registry early [name] result)
    (h' : Visits registry result.2 names result') :
    Visits registry early (name :: names) (result.1 <|> result'.1, result'.2) where
  sound := h'.sound
  relinks := h.relinks.trans h'.relinks
  inProgress other := (h'.inProgress other).trans (h.inProgress other)
  done other hMark := h'.done other (h.done other hMark)
  visited other hMem hBody hMark := by
    rcases List.mem_cons.mp hMem with rfl | hTail
    · exact h'.done _ (h.visited _ (List.mem_singleton.mpr rfl) hBody hMark)
    · exact h'.visited other hTail hBody (mt (h.inProgress other).mp hMark)
  noError hAll := by
    have hHead := h.noError fun other hMem =>
      hAll other (List.mem_singleton.mp hMem ▸ List.mem_cons_self ..)
    have hTail := h'.noError fun other hMem => hAll other (List.mem_cons_of_mem _ hMem)
    rw [hHead, hTail]
    rfl
  ready hNone other hMark := by
    obtain ⟨hHead, hTail⟩ := (Option.orElse_eq_none _ _).mp hNone
    rcases h'.ready hTail other hMark with hBefore | hReady
    · rcases h.ready hHead other hBefore with hEarly | hReady
      · exact .inl hEarly
      · exact .inr (h'.relinks.isSome_ready? hReady)
    · exact .inr hReady
  frame hAll other hOther := by
    have hHead := h.frame (fun other hMem =>
      hAll other (List.mem_singleton.mp hMem ▸ List.mem_cons_self ..)) other hOther
    have hTail := h'.frame (fun other hMem => hAll other (List.mem_cons_of_mem _ hMem)) other hOther
    exact ⟨hTail.1.trans hHead.1, hTail.2.trans hHead.2⟩

end Visits

/-! ## One visit -/

section Visit

variable {fuel : Nat} {name : String} {linker : Linker} {p : Program}

theorem visits_done (h : linker.Sound registry) (hMark : linker.marks[name]? = some .done) :
    Visits registry linker [name] (none, linker) :=
  { Visits.nil h with
    visited := fun _ hMem _ _ => List.mem_singleton.mp hMem ▸ hMark
    noError := fun _ => rfl
    frame := fun _ _ _ => ⟨rfl, rfl⟩ }

theorem visits_absent (h : linker.Sound registry) (hProgram : linker.context.program? name = none) :
    Visits registry linker [name] (none, linker) :=
  { Visits.nil h with
    visited := by
      intro other hMem hBody
      rw [List.mem_singleton.mp hMem, ← h.describes.isSome_program?, hProgram] at hBody
      cases hBody
    noError := fun _ => rfl
    frame := fun _ _ _ => ⟨rfl, rfl⟩ }

/-- A sub-program that is needed while it is being linked calls itself. -/
theorem visits_inProgress (h : linker.Sound registry) (hAwaits : linker.Awaits registry name)
    (hMark : linker.marks[name]? = some .inProgress) (error : LinkError) (event : LinkEvent) :
    Visits registry linker [name] (some error, linker.note event) where
  sound := h.congr rfl fun _ hDone _ => hDone
  relinks := .refl _
  inProgress _ := .rfl
  done _ hDone := hDone
  visited other hMem _ hOther := by
    rw [List.mem_singleton.mp hMem] at hOther
    exact absurd hMark hOther
  noError hAll :=
    absurd (hAwaits name hMark) (hAll name (List.mem_singleton.mpr rfl)).not_cycle
  ready hNone := nomatch hNone
  frame _ _ _ := ⟨rfl, rfl⟩

theorem visits_ready (h : linker.Sound registry) (hMark : linker.marks[name]? = none)
    (hReady : (linker.context.ready? name).isSome) :
    Visits registry linker [name] (none, linker.mark name .done) where
  sound := h.markDone fun _ => hReady
  relinks := .refl _
  inProgress other := by
    rw [mark_marks]
    split_ifs with hSame
    · simp [← hSame, hMark]
    · rfl
  done other hDone := by
    rw [mark_marks]
    split_ifs
    · rfl
    · exact hDone
  visited other hMem _ _ := by
    rw [List.mem_singleton.mp hMem, mark_marks, if_pos rfl]
  noError _ := rfl
  ready _ other hDone := by
    rw [mark_marks] at hDone
    split_ifs at hDone with hSame
    · exact .inr (hSame ▸ hReady)
    · exact .inl hDone
  frame _ other hOther := by
    rw [mark_marks, if_neg]
    · exact ⟨rfl, rfl⟩
    · rintro rfl
      exact h.not_isSome_ready? hOther hReady

/-- What remains to be done for a sub-program after those that it calls. -/
structure Finishes (name : String) (p : Program) (callees result : Option LinkError × Linker) :
    Prop where
  error : result.1 = (callees.1 <|> (callees.2.context.linkProgram p).state.error?)
  context : result.2.context =
    callees.2.context.setProgram name (callees.2.context.linkProgram p)
  marks : ∀ other : String, result.2.marks[other]? =
    if name = other then some .done else callees.2.marks[other]?

theorem finishes_visit (hMark : linker.marks[name]? = none)
    (hProgram : linker.context.program? name = some p) (hReady : p.isReady = false) :
    Finishes name p (visitCallees fuel name p linker) (visit (fuel + 1) name linker) := by
  rw [visit_unmarked hMark hProgram hReady]
  dsimp only
  split
  · rename_i error hError
    exact ⟨hError.symm, rfl, fun other => mark_marks _ name other .done⟩
  · rename_i hError
    exact ⟨hError.symm, rfl, fun other => mark_marks _ name other .done⟩

variable {callees result : Option LinkError × Linker}

/-- When a linkable sub-program is linked, those that it calls are linked. -/
theorem isSome_ready_of_calls (hAwaits : linker.Awaits registry name)
    (hProgram : linker.context.program? name = some p)
    (h : linker.Sound registry)
    (hCallees : Visits registry (linker.mark name .inProgress)
      (linker.context.dependencies p.object) callees)
    {callee : String} (hCalls : registry.Calls name callee) (hLinkable : registry.Linkable callee) :
    (callees.2.context.ready? callee).isSome := by
  have hMem := (h.describes.mem_dependencies_iff hProgram callee).mpr hCalls
  refine hCallees.sound.settled callee (hCallees.visited callee hMem hLinkable.isSome_body ?_)
    hLinkable
  intro hInProgress
  rw [mark_marks] at hInProgress
  split_ifs at hInProgress with hSame
  · subst hSame
    exact hLinkable.not_cycle (.single hCalls)
  · exact hLinkable.not_cycle ((hAwaits callee hInProgress).tail hCalls)

namespace Finishes

/-- The sub-program itself afterwards. -/
theorem program? (h : Finishes name p callees result) :
    result.2.context.program? name = some (callees.2.context.linkProgram p) := by
  rw [h.context, Context.setProgram_program?, if_pos rfl]

theorem program?_of_ne (h : Finishes name p callees result) {other : String} (hNe : name ≠ other) :
    result.2.context.program? other = callees.2.context.program? other := by
  rw [h.context, Context.setProgram_program?, if_neg hNe]

theorem isSome_ready?_iff (h : Finishes name p callees result) :
    (result.2.context.ready? name).isSome ↔
      ∃ linked, callees.2.context.linkObject? p.object = .ok linked := by
  rw [Context.ready?, h.program?]
  exact LinkState.isReady_ofResult

/-- A linkable sub-program is linked, because those that it calls are. -/
theorem isSome_ready?_of_linkable (hFinishes : Finishes name p callees result)
    (h : linker.Sound registry) (hAwaits : linker.Awaits registry name)
    (hProgram : linker.context.program? name = some p)
    (hCallees : Visits registry (linker.mark name .inProgress)
      (linker.context.dependencies p.object) callees)
    (hLinkable : registry.Linkable name) : (result.2.context.ready? name).isSome := by
  obtain ⟨q, hProgram', hObject⟩ := hCallees.relinks.program? hProgram
  rw [hFinishes.isSome_ready?_iff, ← hObject]
  refine hCallees.sound.describes.linkObject?_isOk_of_linkable hLinkable hProgram' ?_
    (hCallees.sound.loads name q hProgram')
  exact fun callee hCalls => isSome_ready_of_calls hAwaits hProgram h hCallees hCalls
    (hLinkable.of_calls hCalls)

theorem relinks (hFinishes : Finishes name p callees result) (h : callees.2.Sound registry)
    {q : Program} (hProgram : callees.2.context.program? name = some q)
    (hObject : q.object = p.object) : callees.2.context.Relinks result.2.context := by
  rw [hFinishes.context]
  exact h.describes.relinks_linkProgram hProgram hObject

theorem sound (hFinishes : Finishes name p callees result) (h : callees.2.Sound registry)
    {q : Program} (hProgram : callees.2.context.program? name = some q)
    (hObject : q.object = p.object)
    (hReady : registry.Linkable name → (result.2.context.ready? name).isSome) :
    result.2.Sound registry where
  describes := by
    rw [hFinishes.context]
    exact h.describes.linkProgram hProgram hObject
  loads other r hOther := by
    by_cases hSame : name = other
    · subst hSame
      have hLoads := h.loads name q hProgram
      rw [hObject] at hLoads
      rw [hFinishes.program?] at hOther
      cases hOther
      exact hLoads
    · rw [hFinishes.program?_of_ne hSame] at hOther
      exact h.loads other r hOther
  settled other hDone hLinkable := by
    rw [hFinishes.marks] at hDone
    split_ifs at hDone with hSame
    · subst hSame
      exact hReady hLinkable
    · exact (hFinishes.relinks h hProgram hObject).isSome_ready?
        (h.settled other hDone hLinkable)

/-- There is no error if there was none before and the sub-program is linked. -/
theorem error_eq_none_iff (hFinishes : Finishes name p callees result) :
    result.1 = none ↔ callees.1 = none ∧ (result.2.context.ready? name).isSome := by
  rw [hFinishes.error, Option.orElse_eq_none, hFinishes.isSome_ready?_iff]
  exact and_congr_right fun _ => LinkState.error?_ofResult_eq_none

/-- Linking the sub-program after those that it calls is a visit. -/
theorem visits (hFinishes : Finishes name p callees result) (h : linker.Sound registry)
    (hAwaits : linker.Awaits registry name) (hMark : linker.marks[name]? = none)
    (hProgram : linker.context.program? name = some p)
    (hCallees : Visits registry (linker.mark name .inProgress)
      (linker.context.dependencies p.object) callees) :
    Visits registry linker [name] result := by
  obtain ⟨q, hProgram', hObject⟩ := hCallees.relinks.program? hProgram
  have hReady := hFinishes.isSome_ready?_of_linkable h hAwaits hProgram hCallees
  have hRelinks := hFinishes.relinks hCallees.sound hProgram' hObject
  have hDependencies (hLinkable : registry.Linkable name) :=
    h.describes.linkable_dependencies hProgram hLinkable
  exact {
    sound := hFinishes.sound hCallees.sound hProgram' hObject hReady
    relinks := hCallees.relinks.trans hRelinks
    inProgress := by
      intro other
      have hBefore := hCallees.inProgress other
      rw [mark_marks] at hBefore
      rw [hFinishes.marks]
      split_ifs at hBefore ⊢ with hSame
      · simp [← hSame, hMark]
      · exact hBefore
    done := by
      intro other hDone
      have hBefore := hCallees.done other
      rw [mark_marks] at hBefore
      rw [hFinishes.marks]
      split_ifs at hBefore ⊢
      · rfl
      · exact hBefore hDone
    visited := by
      intro other hMem _ _
      rw [List.mem_singleton.mp hMem, hFinishes.marks, if_pos rfl]
    noError := by
      intro hAll
      have hLinkable := hAll name (List.mem_singleton.mpr rfl)
      exact hFinishes.error_eq_none_iff.mpr
        ⟨hCallees.noError (hDependencies hLinkable), hReady hLinkable⟩
    ready := by
      intro hNone other hDone
      obtain ⟨hNoError, hOwn⟩ := hFinishes.error_eq_none_iff.mp hNone
      rw [hFinishes.marks] at hDone
      split_ifs at hDone with hSame
      · exact .inr (hSame ▸ hOwn)
      · rcases hCallees.ready hNoError other hDone with hBefore | hBefore
        · rw [mark_marks, if_neg hSame] at hBefore
          exact .inl hBefore
        · exact .inr (hRelinks.isSome_ready? hBefore)
    frame := by
      -- a sub-program that is not linkable is not the one that is visited
      intro hAll other hOther
      have hLinkable := hAll name (List.mem_singleton.mpr rfl)
      have hNe : name ≠ other := fun hSame => hOther (hSame ▸ hLinkable)
      obtain ⟨hMarks, hPrograms⟩ := hCallees.frame (hDependencies hLinkable) other hOther
      rw [mark_marks, if_neg hNe] at hMarks
      rw [hFinishes.marks, if_neg hNe, hFinishes.program?_of_ne hNe]
      exact ⟨hMarks, hPrograms⟩ }

end Finishes

end Visit

/-! ## Fuel -/

/-- How many sub-programs are not marked yet. -/
def unmarked (names : Finset String) (linker : Linker) : Nat :=
  (names.filter fun name => linker.marks[name]? = none).card

theorem unmarked_mark_lt {names : Finset String} {linker : Linker} {name : String}
    (hName : name ∈ names) (hMark : linker.marks[name]? = none) (mark : LinkMark) :
    unmarked names (linker.mark name mark) < unmarked names linker := by
  apply Finset.card_lt_card
  refine Finset.ssubset_iff_of_subset ?_ |>.mpr ⟨name, ?_, ?_⟩
  · intro other hOther
    obtain ⟨hMem, hNone⟩ := Finset.mem_filter.mp hOther
    rw [mark_marks] at hNone
    split_ifs at hNone
    exact Finset.mem_filter.mpr ⟨hMem, hNone⟩
  · exact Finset.mem_filter.mpr ⟨hName, hMark⟩
  · intro hOther
    have hNone := (Finset.mem_filter.mp hOther).2
    rw [mark_marks, if_pos rfl] at hNone
    cases hNone

theorem Visits.unmarked_le {early : Linker} {goals : List String}
    {result : Option LinkError × Linker} (h : Visits registry early goals result)
    (names : Finset String) : unmarked names result.2 ≤ unmarked names early := by
  apply Finset.card_le_card
  intro other hOther
  obtain ⟨hMem, hNone⟩ := Finset.mem_filter.mp hOther
  refine Finset.mem_filter.mpr ⟨hMem, ?_⟩
  cases hMark : early.marks[other]? with
  | none => rfl
  | some mark =>
    cases mark with
    | inProgress =>
      rw [(h.inProgress other).mpr hMark] at hNone
      cases hNone
    | done =>
      rw [h.done other hMark] at hNone
      cases hNone

theorem Awaits.of_visits {early : Linker} {goals : List String} {name : String}
    {result : Option LinkError × Linker} (hAwaits : early.Awaits registry name)
    (h : Visits registry early goals result) : result.2.Awaits registry name :=
  fun other hMark => hAwaits other ((h.inProgress other).mp hMark)

/-- While a sub-program is being linked, those that it calls are awaited. -/
theorem Awaits.mark {linker : Linker} {name callee : String} (hAwaits : linker.Awaits registry name)
    (hCalls : registry.Calls name callee) :
    (linker.mark name .inProgress).Awaits registry callee := by
  intro other hMark
  rw [mark_marks] at hMark
  split_ifs at hMark with hSame
  · exact hSame ▸ .single hCalls
  · exact (hAwaits other hMark).tail hCalls

/-- Several visits, by two functions that do the same where there is room. -/
theorem visitEach_visits {names : Finset String} {room : Nat}
    {visit visit' : String → Linker → Option LinkError × Linker}
    (hVisit : ∀ name linker, linker.Sound registry → linker.Awaits registry name →
      unmarked names linker < room →
      Visits registry linker [name] (visit name linker) ∧ visit' name linker = visit name linker)
    (goals : List String) : ∀ linker, linker.Sound registry →
      (∀ name ∈ goals, linker.Awaits registry name) → unmarked names linker < room →
      Visits registry linker goals (visitEach visit goals linker) ∧
        visitEach visit' goals linker = visitEach visit goals linker := by
  induction goals with
  | nil => exact fun linker h _ _ => ⟨.nil h, rfl⟩
  | cons name goals ih =>
    intro linker h hAwaits hRoom
    obtain ⟨hHead, hSame⟩ := hVisit name linker h (hAwaits name (List.mem_cons_self ..)) hRoom
    have hRoom' := (hHead.unmarked_le names).trans_lt hRoom
    obtain ⟨hTail, hSame'⟩ := ih _ hHead.sound
      (fun other hMem => (hAwaits other (List.mem_cons_of_mem _ hMem)).of_visits hHead) hRoom'
    refine ⟨hHead.cons hTail, ?_⟩
    rw [visitEach_cons, visitEach_cons, hSame, hSame']

/-- One less is unmarked for those that a sub-program calls. -/
theorem unmarked_callees_lt {names : Finset String}
    (hNames : ∀ name, (registry.bodies name).isSome → name ∈ names) {linker : Linker}
    {name : String} {p : Program} {fuel : Nat} (h : linker.Sound registry)
    (hMark : linker.marks[name]? = none) (hProgram : linker.context.program? name = some p)
    (hRoom : unmarked names linker < fuel + 1) :
    unmarked names (linker.mark name .inProgress) < fuel := by
  have hName : name ∈ names := by
    apply hNames
    rw [← h.describes.isSome_program?, hProgram]
    rfl
  exact (unmarked_mark_lt hName hMark _).trans_le (Nat.le_of_lt_succ hRoom)

theorem awaits_callees {linker : Linker} {name : String} {p : Program}
    (h : linker.Sound registry) (hAwaits : linker.Awaits registry name)
    (hProgram : linker.context.program? name = some p) :
    ∀ callee ∈ linker.context.dependencies p.object,
      (linker.mark name .inProgress).Awaits registry callee :=
  fun callee hMem => hAwaits.mark ((h.describes.mem_dependencies_iff hProgram callee).mp hMem)

/-- The visits of those that a sub-program calls. -/
theorem visitCallees_visits {names : Finset String} {fuel more : Nat}
    (hVisit : ∀ name linker, linker.Sound registry → linker.Awaits registry name →
      unmarked names linker < fuel →
      Visits registry linker [name] (visit fuel name linker) ∧
        visit (fuel + more) name linker = visit fuel name linker)
    {linker : Linker} {name : String} {p : Program} (h : linker.Sound registry)
    (hAwaits : linker.Awaits registry name) (hProgram : linker.context.program? name = some p)
    (hRoom : unmarked names (linker.mark name .inProgress) < fuel) :
    Visits registry (linker.mark name .inProgress) (linker.context.dependencies p.object)
        (visitCallees fuel name p linker) ∧
      visitCallees (fuel + more) name p linker = visitCallees fuel name p linker :=
  visitEach_visits hVisit _ _ (h.markInProgress name) (awaits_callees h hAwaits hProgram) hRoom

/-- A visit with fuel for all sub-programs that are not marked yet. More fuel makes no
difference. -/
theorem visit_visits {names : Finset String}
    (hNames : ∀ name, (registry.bodies name).isSome → name ∈ names) (fuel : Nat) :
    ∀ more name linker, linker.Sound registry → linker.Awaits registry name →
      unmarked names linker < fuel →
      Visits registry linker [name] (visit fuel name linker) ∧
        visit (fuel + more) name linker = visit fuel name linker := by
  induction fuel with
  | zero => exact fun _ _ _ _ _ hRoom => absurd hRoom (Nat.not_lt_zero _)
  | succ fuel ih =>
    intro more name linker h hAwaits hRoom
    rw [Nat.add_right_comm]
    cases hMark : linker.marks[name]? with
    | some mark =>
      cases mark with
      | done =>
        rw [visit_done hMark, visit_done hMark]
        exact ⟨visits_done h hMark, rfl⟩
      | inProgress =>
        rw [visit_inProgress hMark, visit_inProgress hMark]
        exact ⟨visits_inProgress h hAwaits hMark _ _, rfl⟩
    | none =>
      cases hProgram : linker.context.program? name with
      | none =>
        rw [visit_absent hMark hProgram, visit_absent hMark hProgram]
        exact ⟨visits_absent h hProgram, rfl⟩
      | some p =>
        cases hReady : p.isReady with
        | true =>
          rw [visit_ready hMark hProgram hReady, visit_ready hMark hProgram hReady]
          exact ⟨visits_ready h hMark (Context.isSome_ready? hProgram hReady), rfl⟩
        | false =>
          -- it is marked now, so there is fuel left for those that it calls
          obtain ⟨hCallees, hSame⟩ := visitCallees_visits (ih more) h hAwaits hProgram
            (unmarked_callees_lt hNames h hMark hProgram hRoom)
          refine ⟨(finishes_visit hMark hProgram hReady).visits h hAwaits hMark hProgram
            hCallees, ?_⟩
          rw [visit_unmarked hMark hProgram hReady, visit_unmarked hMark hProgram hReady, hSame]

end Linker

end Formula
