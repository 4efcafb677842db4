import Formula.Context
import Formula.Definitions.Reader

/-!
# Definitions

Variables with their values and sub-programs with their texts, as a definitions file lists them in
its tables `variables` and `functions`. A table may be written under a header, as a value, or key by
key at the top of the file, but in one way only, and each of its keys only once.

`Definitions.apply` registers definitions in a context, the variables before the functions and each
kind in the order of names, and stops at the first error.
-/

namespace Formula

/-- Variables with values and functions with texts, both in the order of names. -/
structure Definitions where
  vars : List (String × Float)
  functions : List (String × String)
deriving DecidableEq, Inhabited

namespace Definitions

/-- Adds an entry to a list in the order of names, unless the name is there already. -/
def insert? {α : Type} (name : String) (value : α) :
    List (String × α) → Option (List (String × α))
  | [] => some [(name, value)]
  | entry :: entries =>
    if entry.1 = name then none
    else if entry.1 < name then (insert? name value entries).map (entry :: ·)
    else some ((name, value) :: entry :: entries)

/-- The two tables of a file. -/
inductive Section where
  | vars
  | functions
deriving DecidableEq, Inhabited

namespace Section

/-- The table with a name. -/
def ofName? (name : String) : Option Section :=
  if name = "variables" then some vars
  else if name = "functions" then some functions
  else none

end Section

/-- How a table is written. -/
inductive Style where
  | header
  /-- As a value: in braces, or as a moment. -/
  | value
  | keys
deriving DecidableEq, Inhabited

/-- What the statements read so far have defined. -/
structure Draft where
  definitions : Definitions
  /-- How each table is written, if it has been met. -/
  style : Section → Option Style
  /-- The table whose header was the last. -/
  current : Option Section

namespace Draft

/-- Nothing defined yet. -/
def empty : Draft :=
  ⟨⟨[], []⟩, fun _ => none, none⟩

/-- Notes how a table is written. -/
def setStyle (draft : Draft) (table : Section) (style : Style) : Draft :=
  { draft with style := fun t => if t = table then some style else draft.style t }

/-- Adds an entry to a table, if its value is of the table's kind. -/
def add? (draft : Draft) (table : Section) (name : String) (value : Scalar) : Option Draft :=
  match table, value with
  | .vars, .number x => do
    let entries ← insert? name x draft.definitions.vars
    return { draft with definitions := { draft.definitions with vars := entries } }
  | .functions, .text source => do
    let entries ← insert? name source draft.definitions.functions
    return { draft with definitions := { draft.definitions with functions := entries } }
  | _, _ => none

/-- Adds entries to a table. -/
def addAll? (draft : Draft) (table : Section) : List (String × Scalar) → Option Draft
  | [] => some draft
  | (name, value) :: entries =>
    match draft.add? table name value with
    | none => none
    | some draft => draft.addAll? table entries

/-- What one more statement defines. -/
def step? (draft : Draft) (statement : Statement) : Option Draft :=
  match statement, draft.current with
  | .header [name], _ =>
    match Section.ofName? name with
    | none => none
    | some table =>
      if (draft.style table).isSome then none
      else some { draft.setStyle table .header with current := some table }
  | .entry [name] (.scalar value), some table => draft.add? table name value
  | .entry [name] (.table entries), none =>
    match Section.ofName? name with
    | none => none
    | some table =>
      if (draft.style table).isSome then none
      else (draft.setStyle table .value).addAll? table entries
  | .entry [name, key] (.scalar value), none =>
    match Section.ofName? name with
    | none => none
    | some table =>
      if draft.style table = none ∨ draft.style table = some .keys then
        (draft.setStyle table .keys).add? table key value
      else none
  | _, _ => none

/-- What several more statements define. -/
def steps? (draft : Draft) : List Statement → Option Draft
  | [] => some draft
  | statement :: statements =>
    match draft.step? statement with
    | none => none
    | some draft => draft.steps? statements

end Draft

/-- The definitions in a document. -/
def ofString? (text : String) : Option Definitions := do
  let draft ← Draft.empty.steps? (← statements? text.toList)
  return draft.definitions

/-- What is said of a document that holds no definitions. -/
def invalidText : String :=
  "invalid definitions"

/-! ## Registration -/

/-- A context, the values of its variables, and the cells of the variables registered so far. -/
structure Workspace where
  context : Context
  store : Store
  handles : List (String × Cell)

namespace Workspace

/-- Registers a new variable. -/
def var? (w : Workspace) (name : String) (value : Float) : Except ContextError Workspace := do
  let (cell, store) := w.store.fresh value
  let context ← w.context.var name cell
  return ⟨context, store, w.handles ++ [(name, cell)]⟩

/-- Registers variables up to the first error. -/
def addVariables : List (String × Float) → Workspace → Option ContextError × Workspace
  | [], w => (none, w)
  | (name, value) :: rest, w =>
    match w.var? name value with
    | .ok w => addVariables rest w
    | .error error => (some error, w)

/-- Registers sub-programs up to the first error. -/
def addFunctions : List (String × String) → Workspace → Option ContextError × Workspace
  | [], w => (none, w)
  | (name, source) :: rest, w =>
    match w.context.funcSource name source with
    | .ok context => addFunctions rest { w with context := context }
    | .error error => (some error, w)

end Workspace

/-- Registers definitions up to the first error; what was registered before it stays. -/
def apply (definitions : Definitions) (context : Context) (store : Store) :
    Option ContextError × Workspace :=
  match Workspace.addVariables definitions.vars ⟨context, store, []⟩ with
  | (some error, w) => (some error, w)
  | (none, w) => Workspace.addFunctions definitions.functions w

end Definitions

end Formula
