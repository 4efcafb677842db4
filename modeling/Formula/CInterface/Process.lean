import Formula.CInterface

/-!
# C programs

A C program calls the interface again and again, on any of its contexts. In between, the library
keeps the contexts and the programs that it has made, and the C program has its own memory, which
holds the variables and the places for values.
-/

namespace Formula.CInterface

variable {σ : Type}

/-- The world of a C program, whose memory can also be written. -/
structure Memory (σ : Type) extends Host σ where
  write : Cell → Float → σ → σ

/-- What the library keeps for a C program. A number that no context or program has stands for a
null handle. -/
structure Process (σ : Type) where
  contexts : Nat → Option Handle
  programs : List Program
  state : σ

/-- What is asked of a context. -/
inductive Entry where
  | var (name : TextArg) (pointer : Option Cell)
  | func (name : TextArg) (arity : Nat) (id : Option Nat)
  | funcSource (name source : TextArg)
  | linkAll
  | compile (source : TextArg)
  | link (program : Nat)
  /-- The value goes to a place that may be null. -/
  | eval (program : Nat) (out : Option Cell)
  | getError
  | clearError
  | hasError
  | usesJit

/-- What a call returns. -/
inductive Answer where
  | code (code : ResultCode)
  | program (program : Option Nat)
  | text (text : Option String)
  | flag (flag : Bool)
  | nothing

namespace Entry

/-- What the call returns when its context is null. -/
def absent : Entry → Answer
  | compile _ => .program none
  | getError => .text none
  | clearError => .nothing
  | hasError | usesJit => .flag false
  | _ => .code .errorInvalidArg

/-- What the call returns, and the programs and the world after it. -/
def apply (memory : Memory σ) (programs : List Program) (s : σ) (h : Handle) :
    Entry → (Answer × List Program × σ) × Handle
  | var name pointer =>
    let (code, h) := h.var name pointer
    ((.code code, programs, s), h)
  | func name arity id =>
    let (code, h) := h.func name arity id
    ((.code code, programs, s), h)
  | funcSource name source =>
    let (code, h) := h.funcSource name source
    ((.code code, programs, s), h)
  | linkAll =>
    let (code, h) := h.linkAll
    ((.code code, programs, s), h)
  | compile source =>
    match h.compile source with
    | (some program, h) => ((.program programs.length, programs ++ [program], s), h)
    | (none, h) => ((.program none, programs, s), h)
  | link program =>
    match h.link programs[program]? with
    | (code, some linked, h) => ((.code code, programs.set program linked, s), h)
    | (code, none, h) => ((.code code, programs, s), h)
  | eval program out =>
    let ((code, value, h), s) := h.eval memory.toHost programs[program]? out.isSome s
    match out, value with
    | some cell, some value => ((.code code, programs, memory.write cell value s), h)
    | _, _ => ((.code code, programs, s), h)
  | getError => ((.text h.getError, programs, s), h)
  | clearError => ((.nothing, programs, s), h.clearError)
  | hasError => ((.flag h.hasError, programs, s), h)
  | usesJit => ((.flag h.usesJit, programs, s), h)

end Entry

/-- A call on the context of a number. -/
structure Call where
  context : Nat
  entry : Entry

namespace Process

/-- What a call returns, and what it leaves. -/
def perform (memory : Memory σ) (p : Process σ) (call : Call) : Answer × Process σ :=
  let ((answer, programs, state), h) :=
    onHandle (call.entry.absent, p.programs, p.state)
      (fun h => call.entry.apply memory p.programs p.state h) (p.contexts call.context)
  (answer, ⟨fun i => if i = call.context then h else p.contexts i, programs, state⟩)

/-- Calls, one after the other. -/
def run (memory : Memory σ) (p : Process σ) (calls : List Call) : Process σ :=
  calls.foldl (fun p call => (p.perform memory call).2) p

end Process

end Formula.CInterface
