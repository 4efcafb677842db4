import Formula.Definitions
import Formula.Proofs.Context.FirstWins

/-!
# Applying definitions

Definitions are registered one entry after the other, the variables before the functions
(`apply_eq_addAll`). Each entry is registered as a whole or not at all, since a registration is. All
of them together are not: nothing takes back what has been registered when a later entry is refused,
so the definitions cannot be applied once more to the same context, not even when they have been
corrected (`apply_keeps_earlier`).

What holds instead is that applying stops at the first entry that is refused. Then there is in the
context what was there and the entries before that one, and nothing else (`Context.GainsAll`), as if
only these had been applied. So all that is left to do is to apply the other entries, once they have
been corrected (`apply_registers_prefix`).
-/

namespace Formula

/-! ## Several registrations -/

namespace Context

/-- The later context has what the earlier one has and the entries of the registrations, and nothing
else. -/
structure GainsAll (early late : Context) (registrations : List Registration) : Prop where
  config : late.config = early.config
  backend : late.backend = early.backend
  entry : ∀ key value, Registration.Within key → (late.at? key = some value ↔
    early.at? key = some value ∨ ∃ r ∈ registrations, r.key = key ∧ r.value? = some value)
  program : ∀ name p, late.program? name = some p ↔ early.program? name = some p ∨
    ∃ text, .source name text ∈ registrations ∧ early.compile text = .ok p

theorem compile_congr {early late : Context} (hConfig : late.config = early.config)
    (hBackend : late.backend = early.backend) (text : String) :
    late.compile text = early.compile text := by
  rw [compile, hConfig, hBackend, compile]

variable {early middle late : Context} {r : Registration} {registrations : List Registration}

theorem Gains.entry_iff (h : early.Gains middle r) {key : String ⊕ Signature}
    (hKey : Registration.Within key) {value : Cell ⊕ Function} :
    middle.at? key = some value ↔
      early.at? key = some value ∨ r.key = key ∧ r.value? = some value := by
  rw [h.entry key hKey]
  split_ifs with hSame
  · subst hSame
    simp [h.new]
  · exact (or_iff_left fun hOther => hSame hOther.1.symm).symm

theorem Gains.program_iff (h : early.Gains middle r) {name : String} {p : Program} :
    middle.program? name = some p ↔ early.program? name = some p ∨
      ∃ text, r = .source name text ∧ early.compile text = .ok p := by
  by_cases hSource : ∃ other text, r = .source other text
  · obtain ⟨other, text, rfl⟩ := hSource
    obtain ⟨hAbsent, q, hCompile, hPrograms⟩ := h.source other text rfl
    rw [hPrograms]
    split_ifs with hSame
    · subst hSame
      simp [hAbsent, hCompile]
    · refine (or_iff_left ?_).symm
      rintro ⟨text', hText, -⟩
      cases hText
      exact hSame rfl
  · rw [program?, h.programs fun other text hText => hSource ⟨other, text, hText⟩]
    refine (or_iff_left ?_).symm
    rintro ⟨text, hText, -⟩
    exact hSource ⟨name, text, hText⟩

namespace GainsAll

theorem refl (context : Context) : context.GainsAll context [] :=
  ⟨rfl, rfl, fun _ _ _ => by simp, fun _ _ => by simp⟩

theorem cons (hFirst : early.Gains middle r) (hRest : middle.GainsAll late registrations) :
    early.GainsAll late (r :: registrations) where
  config := hRest.config.trans hFirst.config
  backend := hRest.backend.trans hFirst.backend
  entry key value hKey := by
    rw [hRest.entry key value hKey, hFirst.entry_iff hKey, or_assoc]
    simp only [List.mem_cons, exists_eq_or_imp]
  program name p := by
    simp only [hRest.program name p, hFirst.program_iff, or_assoc,
      compile_congr hFirst.config hFirst.backend, List.mem_cons, or_and_right, exists_or,
      eq_comm (a := r)]

end GainsAll

end Context

namespace Definitions

/-! ## Entries -/

/-- A variable with its value, or a function with its text. -/
inductive Entry where
  | var (name : String) (value : Float)
  | function (name source : String)

namespace Entry

/-- What is registered, where a variable is in the given cell. -/
def registration (cell : Cell) : Entry → Registration
  | var name _ => .var name (some cell)
  | function name source => .source name source

/-- The value for a new cell, if one is needed. -/
def values : Entry → List Float
  | var _ value => [value]
  | function _ _ => []

end Entry

/-- The entries in the order in which they are registered. -/
def entries (definitions : Definitions) : List Entry :=
  definitions.vars.map (fun (name, value) => .var name value) ++
    definitions.functions.map fun (name, source) => .function name source

/-- What is registered for several entries, the variables in one cell after the other. -/
def registrations (cell : Cell) : List Entry → List Registration
  | [] => []
  | entry :: entries =>
    entry.registration cell :: registrations (cell + entry.values.length) entries

namespace Workspace

/-- Registers an entry. -/
def add? (w : Workspace) : Entry → Except ContextError Workspace
  | .var name value => w.var? name value
  | .function name source =>
    (w.context.funcSource name source).map fun context => { w with context := context }

/-- Registers entries up to the first error. -/
def addAll : List Entry → Workspace → Option ContextError × Workspace
  | [], w => (none, w)
  | entry :: entries, w =>
    match w.add? entry with
    | .ok w => addAll entries w
    | .error error => (some error, w)

/-- What becomes of a workspace when the context has accepted an entry. -/
def next (w : Workspace) (context : Context) : Entry → Workspace
  | .var name value =>
    ⟨context, (w.store.fresh value).2, w.handles ++ [(name, w.store.values.size)]⟩
  | .function _ _ => { w with context := context }

variable {w w' : Workspace} {context : Context} {entry : Entry} {taken more : List Entry}

@[simp]
theorem next_context : (w.next context entry).context = context := by
  cases entry <;> rfl

@[simp]
theorem next_values :
    (w.next context entry).store.values.toList = w.store.values.toList ++ entry.values := by
  cases entry with
  | var name value => exact Array.toList_push ..
  | function name source => exact (List.append_nil _).symm

theorem next_size :
    (w.next context entry).store.values.size = w.store.values.size + entry.values.length := by
  rw [← Array.length_toList, next_values, List.length_append, Array.length_toList]

/-- An entry is accepted if the context accepts its registration. -/
theorem add?_eq (w : Workspace) (entry : Entry) :
    w.add? entry = (w.context.register (entry.registration w.store.values.size)).map
      fun context => w.next context entry := by
  cases entry with
  | var name value =>
    show w.var? name value = (w.context.var name w.store.values.size).map _
    simp only [var?, Store.fresh, bind, Except.bind]
    cases w.context.var name w.store.values.size <;> rfl
  | function name source => rfl

/-! ## Several entries -/

theorem addAll_cons_ok (entries : List Entry)
    (h : w.context.register (entry.registration w.store.values.size) = .ok context) :
    addAll (entry :: entries) w = addAll entries (w.next context entry) := by
  simp only [addAll, add?_eq, h, Except.map]

/-- The first entry that is refused leaves everything as it is. -/
theorem addAll_cons_error (entries : List Entry) {error : ContextError}
    (h : w.context.register (entry.registration w.store.values.size) = .error error) :
    addAll (entry :: entries) w = (some error, w) := by
  simp only [addAll, add?_eq, h, Except.map]

theorem addAll_append (taken more : List Entry) (w : Workspace) :
    addAll (taken ++ more) w =
      match addAll taken w with
      | (some error, w) => (some error, w)
      | (none, w) => addAll more w := by
  induction taken generalizing w with
  | nil => rfl
  | cons entry taken ih =>
    simp only [List.cons_append, addAll]
    cases w.add? entry with
    | ok w => exact ih w
    | error error => rfl

theorem addAll_vars (vars : List (String × Float)) (w : Workspace) :
    addAll (vars.map fun (name, value) => .var name value) w = addVariables vars w := by
  induction vars generalizing w with
  | nil => rfl
  | cons entry vars ih =>
    simp only [List.map_cons, addAll, add?, addVariables]
    cases w.var? entry.1 entry.2 with
    | ok w => exact ih w
    | error error => rfl

theorem addAll_functions (functions : List (String × String)) (w : Workspace) :
    addAll (functions.map fun (name, source) => .function name source) w =
      addFunctions functions w := by
  induction functions generalizing w with
  | nil => rfl
  | cons entry functions ih =>
    simp only [List.map_cons, addAll, add?, addFunctions]
    cases w.context.funcSource entry.1 entry.2 with
    | ok context => exact ih _
    | error error => rfl

/-- The same with handles in front of those that there are. -/
def withHandles (front : List (String × Cell)) (w : Workspace) : Workspace :=
  { w with handles := front ++ w.handles }

/-- Handles that are there already have no influence. -/
theorem addAll_withHandles (entries : List Entry) (front : List (String × Cell)) (w : Workspace) :
    addAll entries (w.withHandles front) =
      ((addAll entries w).1, (addAll entries w).2.withHandles front) := by
  induction entries generalizing w with
  | nil => rfl
  | cons entry entries ih =>
    have hNext (context : Context) : (w.withHandles front).next context entry =
        (w.next context entry).withHandles front := by
      cases entry with
      | var name value => simp [next, withHandles]
      | function name source => rfl
    simp only [addAll, add?_eq, hNext]
    show (match (w.context.register (entry.registration w.store.values.size)).map _ with
      | .ok w => addAll entries w
      | .error error => (some error, w.withHandles front)) = _
    cases w.context.register (entry.registration w.store.values.size) with
    | ok context => exact ih _
    | error error => rfl

/-- How entries are registered that are all accepted. -/
inductive Added : Workspace → List Entry → Workspace → Prop where
  | nil {w : Workspace} : Added w [] w
  | cons {w w' : Workspace} {context : Context} {entry : Entry} {entries : List Entry}
    (hRegister : w.context.register (entry.registration w.store.values.size) = .ok context)
    (hRest : Added (w.next context entry) entries w') : Added w (entry :: entries) w'

/-- Up to the first that is refused, entries are accepted. -/
theorem exists_added (entries : List Entry) (w : Workspace) :
    ∃ taken rest, entries = taken ++ rest ∧ w.Added taken (addAll entries w).2 ∧
      ((addAll entries w).1 = none → rest = []) ∧
      ∀ error, (addAll entries w).1 = some error → ∃ failed later, rest = failed :: later ∧
        (addAll entries w).2.context.Refuses
          (failed.registration (addAll entries w).2.store.values.size) error := by
  induction entries generalizing w with
  | nil => exact ⟨[], [], rfl, .nil, fun _ => rfl, nofun⟩
  | cons entry entries ih =>
    cases hRegister : w.context.register (entry.registration w.store.values.size) with
    | error error =>
      rw [addAll_cons_error entries hRegister]
      refine ⟨[], entry :: entries, rfl, .nil, nofun, fun error' hError => ?_⟩
      cases hError
      exact ⟨entry, entries, rfl, Context.register_eq_error_iff.mp hRegister⟩
    | ok context =>
      rw [addAll_cons_ok entries hRegister]
      obtain ⟨taken, rest, rfl, hTaken, hRest⟩ := ih (w.next context entry)
      exact ⟨entry :: taken, rest, rfl, .cons hRegister hTaken, hRest⟩

namespace Added

theorem addAll_append (h : w.Added taken w') (more : List Entry) :
    addAll (taken ++ more) w = addAll more w' := by
  induction h with
  | nil => rfl
  | cons hRegister _ ih => exact (addAll_cons_ok _ hRegister).trans ih

theorem values (h : w.Added taken w') :
    w'.store.values.toList = w.store.values.toList ++ taken.flatMap Entry.values := by
  induction h with
  | nil => exact (List.append_nil _).symm
  | cons _ _ ih => rw [ih, next_values, List.flatMap_cons, List.append_assoc]

/-- The entries might as well have been registered by hand. -/
theorem perform (h : w.Added taken w') : ∀ registered : List Registration,
    ((registrations w.store.values.size taken).map Request.register).foldl Session.perform
        ⟨w.context, registered⟩ =
      ⟨w'.context, registered ++ registrations w.store.values.size taken⟩ := by
  induction h with
  | nil =>
    intro registered
    exact congrArg (Session.mk _) (List.append_nil _).symm
  | @cons w w' context entry entries hRegister _ ih =>
    intro registered
    have hRest := ih (registered ++ [entry.registration w.store.values.size])
    rw [next_size, next_context] at hRest
    rw [registrations, List.map_cons, List.foldl_cons, Session.perform_register hRegister, hRest,
      List.append_assoc, List.singleton_append]

/-- If the context is that of a session, it is again. -/
theorem gainsAll (h : w.Added taken w') {config : RuntimeConfig} {backend : Backend} :
    ∀ {registered : List Registration}, Session.Listed config backend ⟨w.context, registered⟩ →
      w.context.GainsAll w'.context (registrations w.store.values.size taken) := by
  induction h with
  | nil => exact fun _ => .refl _
  | @cons w w' context entry entries hRegister _ ih =>
    intro registered hListed
    have hRest := ih (by rw [next_context]; exact hListed.register hRegister)
    rw [next_size, next_context] at hRest
    exact .cons (Context.gains_of_register hListed.describes hRegister) hRest

end Added

end Workspace

/-! ## Definitions -/

theorem apply_eq_addAll (definitions : Definitions) (context : Context) (store : Store) :
    definitions.apply context store =
      Workspace.addAll definitions.entries ⟨context, store, []⟩ := by
  rw [entries, Workspace.addAll_append, Workspace.addAll_vars, apply]
  obtain ⟨error, w⟩ := Workspace.addVariables definitions.vars ⟨context, store, []⟩
  cases error with
  | some error => rfl
  | none => exact (Workspace.addAll_functions definitions.functions w).symm

/-- The workspace that is left depends on nothing but the context and the values. -/
theorem addAll_entries_eq (remaining : Definitions) (w : Workspace) :
    Workspace.addAll remaining.entries w =
      ((remaining.apply w.context w.store).1,
        (remaining.apply w.context w.store).2.withHandles w.handles) := by
  have hSame : w = Workspace.withHandles w.handles ⟨w.context, w.store, []⟩ := by
    rw [Workspace.withHandles, List.append_nil]
  rw [apply_eq_addAll, ← Workspace.addAll_withHandles, ← hSame]

/-- Definitions are registered up to the first entry that the context refuses. Afterwards the
context holds what it held and the entries before that one, as if these alone had been registered,
and the values of variables that it held are the same. Definitions that go on differently after
these entries can be applied in two parts: what is left of them to the context as it is then, with
the same result as all of them to the context as it was. -/
theorem apply_registers_prefix (config : RuntimeConfig) (backend : Backend)
    (requests : List Request) (definitions : Definitions) (store : Store) :
    let session := Session.run config backend requests
    let outcome := definitions.apply session.context store
    ∃ taken rest, definitions.entries = taken ++ rest ∧
      (outcome.1 = none → rest = []) ∧
      (∀ error, outcome.1 = some error → ∃ failed later, rest = failed :: later ∧
        outcome.2.context.Refuses (failed.registration outcome.2.store.values.size) error) ∧
      session.context.GainsAll outcome.2.context (registrations store.values.size taken) ∧
      outcome.2.store.values.toList = store.values.toList ++ taken.flatMap Entry.values ∧
      Session.run config backend
          (requests ++ (registrations store.values.size taken).map .register) =
        ⟨outcome.2.context, session.registered ++ registrations store.values.size taken⟩ ∧
      ∀ corrected remaining : Definitions, corrected.entries = taken ++ remaining.entries →
        let later := remaining.apply outcome.2.context outcome.2.store
        corrected.apply session.context store =
          (later.1, later.2.withHandles outcome.2.handles) := by
  intro session outcome
  have hOutcome : outcome = Workspace.addAll definitions.entries ⟨session.context, store, []⟩ :=
    apply_eq_addAll definitions session.context store
  obtain ⟨taken, rest, hEntries, hTaken, hNone, hSome⟩ :=
    Workspace.exists_added definitions.entries ⟨session.context, store, []⟩
  rw [← hOutcome] at hTaken hNone hSome
  refine ⟨taken, rest, hEntries, hNone, hSome,
    hTaken.gainsAll (Session.listed_run config backend requests), hTaken.values, ?_,
    fun corrected remaining hCorrected => ?_⟩
  · rw [Session.run, List.foldl_append]
    exact hTaken.perform session.registered
  · rw [apply_eq_addAll corrected, hCorrected, hTaken.addAll_append]
    exact addAll_entries_eq remaining outcome.2

/-- A variable and a function whose text is not finished. -/
def unfinished : Definitions :=
  ⟨[("a", 0)], [("f", ")")]⟩

/-- The same with a text that is. -/
def finished : Definitions :=
  ⟨[("a", 0)], [("f", "1")]⟩

theorem exists_error_closeParen : ∃ error, Context.interpreted.compile ")" = .error error := by
  have hScan : Token.scanAll 0 (Source.ofString ")").chars =
      ([⟨.closeParen, ⟨0, 1⟩, ")"⟩], .finished 1) := by
    cbv
  refine ⟨.ofFault (.ofString ")") ⟨0, 1⟩ (.unexpected .expression ")"), ?_⟩
  rw [Context.compile, Object.ofString?, Expr.ofString?, Expr.ofSource?, hScan]
  rfl

/-- The variable stays when the function is refused, and then the corrected definitions are
refused because of it. -/
theorem apply_keeps_earlier :
    let outcome := unfinished.apply .interpreted .empty
    Context.interpreted.vars["a"]? = none ∧
      (∃ error, outcome.1 = some (.compile "f" error)) ∧
      outcome.2.context.vars["a"]? = some 0 ∧
      (finished.apply outcome.2.context outcome.2.store).1 = some (.alreadyDefined "a") := by
  intro outcome
  have hVar : Context.interpreted.register (.var "a" (some 0)) =
      .ok (Context.interpreted.setVar "a" 0) := Context.register_eq_ok_iff.mpr (.var rfl)
  have hOld : (Context.interpreted.setVar "a" 0).vars["a"]? = some 0 := by
    rw [Context.setVar_vars, if_pos rfl]
  obtain ⟨error, hCompile⟩ := exists_error_closeParen
  have hFunction : (Context.interpreted.setVar "a" 0).register (.source "f" ")") =
      .error (.compile "f" error) :=
    Context.register_eq_error_iff.mpr (.compile rfl hCompile)
  have hAgain : (Context.interpreted.setVar "a" 0).register (.var "a" (some 1)) =
      .error (.alreadyDefined "a") :=
    Context.register_eq_error_iff.mpr (.var 1 (by rw [hOld]; rfl))
  have hTaken : Workspace.Added ⟨.interpreted, .empty, []⟩ [.var "a" 0]
      ⟨Context.interpreted.setVar "a" 0, (Store.empty.fresh 0).2, [("a", 0)]⟩ := .cons hVar .nil
  have hOutcome : outcome = (some (.compile "f" error),
      ⟨Context.interpreted.setVar "a" 0, (Store.empty.fresh 0).2, [("a", 0)]⟩) := by
    refine (apply_eq_addAll ..).trans ((hTaken.addAll_append [.function "f" ")"]).trans ?_)
    exact Workspace.addAll_cons_error [] hFunction
  rw [hOutcome]
  refine ⟨rfl, ⟨error, rfl⟩, hOld, ?_⟩
  rw [apply_eq_addAll]
  exact congrArg Prod.fst (Workspace.addAll_cons_error [.function "f" "1"] hAgain)

end Definitions

end Formula
