import Formula.Context

/-!
# Linking

Linking a program looks up its symbols in the order of their numbers and stops at the first that
cannot be bound. A call of a sub-program can be bound only when that sub-program is linked.

`Context.link` links all sub-programs of a context, each after those that it calls. Sub-programs
that are linked already stay as they are. Every other one is attempted, whatever happens to the
rest, and the first error is the result.
-/

namespace Formula

/-- What happens while programs are linked, for the log. -/
inductive LinkEvent where
  /-- All symbols of a program were found. -/
  | resolved (count : Nat)
  /-- A symbol was not found. -/
  | unresolved (error : LinkError)
  /-- A sub-program was needed while it was being linked. -/
  | recursion (name : String)
  /-- A sub-program was linked. -/
  | linked (name : String)
deriving DecidableEq, Inhabited

namespace Context

/-- What a symbol is bound to in a context. -/
def binding? (context : Context) (symbol : Symbol) : Except LinkError Binding :=
  match symbol.kind with
  | .var =>
    match context.vars[symbol.name]? with
    | some cell => .ok (.var cell)
    | none => .error (.unresolvedSymbol symbol.name)
  | .function _ =>
    match context.functions[symbol.name]? with
    | none => .error (.unresolvedSymbol symbol.name)
    | some (.builtin b) => .ok (.builtin b)
    | some (.host f) => .ok (.host f)
    | some (.program name) =>
      match (context.program? name).bind fun p => p.state.linked? with
      | some linked => .ok (.program name linked.image linked.bindings)
      | none => .error (.dependencyNotLinked name)

/-- The bindings of a table of symbols. -/
def bindings? (context : Context) (symbols : SymbolTable) : Except LinkError (List Binding) :=
  symbols.toList.mapM context.binding?

/-- What the log says about the search for the bindings of a table of symbols. -/
def bindingEvents (context : Context) (symbols : SymbolTable) : List LinkEvent :=
  match context.bindings? symbols with
  | .ok bindings => [.resolved bindings.length]
  | .error (.dependencyNotLinked _) => []
  | .error error => [.unresolved error]

/-- Links an object against a context. -/
def linkObject? (context : Context) (object : Object) : Except LinkError Linked := do
  object.link? (← context.bindings? object.symbols)

/-- Links a program, also one that was linked before. -/
def linkProgram (context : Context) (program : Program) : Program :=
  { program with state := .ofResult (context.linkObject? program.object) }

/-- The sub-programs that an object calls, in the order of its symbols. -/
def dependencies (context : Context) (object : Object) : List String :=
  object.symbols.toList.filterMap fun symbol =>
    match symbol.kind, context.functions[symbol.name]? with
    | .function 0, some (.program name) => some name
    | _, _ => none

end Context

/-- How far the linking of a sub-program has come. -/
inductive LinkMark where
  | inProgress
  | done
deriving DecidableEq, Inhabited

/-- A walk through the sub-programs of a context that links them on the way. -/
structure Linker where
  context : Context
  marks : Std.TreeMap String LinkMark
  events : Array LinkEvent

namespace Linker

/-- The walk that has not begun. -/
def ofContext (context : Context) : Linker :=
  ⟨context, ∅, #[]⟩

/-- Marks a sub-program. -/
def mark (linker : Linker) (name : String) (mark : LinkMark) : Linker :=
  { linker with marks := linker.marks.insert name mark }

/-- Notes an event. -/
def note : Linker → LinkEvent → Linker
  | ⟨context, marks, events⟩, event => ⟨context, marks, events.push event⟩

/-- Links a single sub-program against the context as it is now. -/
def linkOne : Linker → String → Program → Option LinkError × Linker
  | ⟨context, marks, events⟩, name, program =>
    let linked := context.linkProgram program
    let found := context.bindingEvents program.object.symbols
    (linked.state.error?, ⟨context.setProgram name linked, marks, events.appendList found⟩)

/-- Visits sub-programs in turn; the result is the first error. -/
def visitEach (visit : String → Linker → Option LinkError × Linker) :
    List String → Linker → Option LinkError × Linker
  | [], linker => (none, linker)
  | name :: names, linker =>
    let (error, linker) := visit name linker
    let (later, linker) := visitEach visit names linker
    (error <|> later, linker)

/-- Links a sub-program after those that it calls, unless it is linked already or has been visited
before. Each level of calls marks one more sub-program, so `fuel` above their number suffices. -/
def visit : Nat → String → Linker → Option LinkError × Linker
  | 0, _, linker => (none, linker)
  | fuel + 1, name, linker =>
    match linker.marks[name]?, linker.context.program? name with
    | some .done, _ => (none, linker)
    | some .inProgress, _ => (some (.recursiveDefinition name), linker.note (.recursion name))
    | none, none => (none, linker)
    | none, some program =>
      if program.isReady then (none, linker.mark name .done)
      else
        let names := linker.context.dependencies program.object
        let (error, linker) := visitEach (visit fuel) names (linker.mark name .inProgress)
        let (own, linker) := linker.linkOne name program
        let linker := linker.mark name .done
        match error <|> own with
        | some error => (some error, linker)
        | none => (none, linker.note (.linked name))

end Linker

namespace Context

/-- The walk through all sub-programs of a context, and its first error. -/
def linkAll (context : Context) : Option LinkError × Linker :=
  Linker.visitEach (Linker.visit (context.programs.size + 1)) context.programNames
    (.ofContext context)

/-- Links all sub-programs of a context. -/
def link (context : Context) : Option LinkError × Context :=
  let (error, linker) := context.linkAll
  (error, linker.context)

end Context

end Formula
