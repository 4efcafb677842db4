import Formula.CInterface.Process
import Formula.Proofs.Dependence

/-!
# The errors of the C interface

A C program is a sequence of calls in a `Process`, which has contexts, programs, and a world for its
callbacks. `Entry.Refused` says why a call on a context fails: one of its arguments cannot be used,
or the library has an error. Such a call returns a code or a null, and leaves its message with the
context (`Entry.stops_of_refused`); any other call whose outcome is kept says that all is well, and
leaves no message (`Entry.apply_of_accepted`). By induction on the calls, a context has the message
of the last call on it whose outcome is kept, if that has failed (`Process.reflects_trace`).
-/

namespace Formula

variable {σ α : Type}

section Except

variable {ε β δ : Type}

@[simp]
theorem Except.ok_bind (a : α) (f : α → Except ε β) : (Except.ok a >>= f) = f a :=
  rfl

@[simp]
theorem Except.error_bind (error : ε) (f : α → Except ε β) :
    (Except.error error >>= f) = .error error :=
  rfl

@[simp]
theorem Except.mapError_ok (f : ε → δ) (a : α) : (Except.ok a).mapError f = .ok a :=
  rfl

@[simp]
theorem Except.mapError_error (f : ε → δ) (error : ε) :
    (Except.error error : Except ε α).mapError f = .error (f error) :=
  rfl

@[simp]
theorem Except.throw_eq (error : ε) : (throw error : Except ε α) = .error error :=
  rfl

end Except

/-! ## What an evaluation leaves alone -/

/-- Nothing that a program does in the world changes what is observed. -/
structure Host.Keeps (host : Host σ) (observe : σ → α) : Prop where
  read : ∀ cell s, observe (host.read cell s).2 = observe s
  call : ∀ f args s, observe (host.call f args s).2 = observe s
  clock : ∀ s, observe (host.clock s).2 = observe s

theorem Host.Keeps.agreesOn {host : Host σ} {observe : σ → α} (h : host.Keeps observe)
    (value : α) (leaves : List Binding) :
    host.AgreesOn (fun s t => s = t ∧ observe s = value) host leaves where
  read := by
    rintro cell - s _ ⟨rfl, hValue⟩
    exact ⟨rfl, rfl, (h.read cell s).trans hValue⟩
  call := by
    rintro f args - s _ ⟨rfl, hValue⟩
    exact ⟨rfl, rfl, (h.call f args s).trans hValue⟩
  clock := by
    rintro - s _ ⟨rfl, hValue⟩
    exact ⟨rfl, rfl, (h.clock s).trans hValue⟩

theorem Host.Keeps.eval {host : Host σ} {observe : σ → α} (h : host.Keeps observe) (p : Program)
    (s : σ) : observe (p.eval host s).2 = observe s := by
  rw [Program.eval]
  unfold Program.evalOn
  cases p.state.require with
  | error error => rfl
  | ok linked =>
    have hAlike : Bytecode.Run.Alike _ (linked.evalOn host) (linked.evalOn host) :=
      Linked.alike_evalOn (h.agreesOn (observe s) _)
    exact (hAlike.onEmptyStack s s ⟨rfl, rfl⟩).2.2

namespace CInterface

/-! ## Messages -/

namespace Handle

/-- A message without NULs can be handed to C. -/
theorem cText?_spaced (message : String) : cText? (spaced message) = some (spaced message) := by
  refine if_neg fun hNul => ?_
  rw [spaced, String.toList_map, List.mem_map] at hNul
  obtain ⟨c, -, hNul⟩ := hNul
  split_ifs at hNul with hc
  · cases hNul
  · exact hc hNul

/-- A message without NULs stays as it is. -/
theorem spaced_of_not_mem {message : String} (hNul : '\x00' ∉ message.toList) :
    spaced message = message := by
  apply String.toList_inj.mp
  rw [spaced, String.toList_map]
  refine (List.map_congr_left fun c hc => if_neg ?_).trans (List.map_id _)
  rintro rfl
  exact hNul hc

variable (h : Handle)

@[simp]
theorem lastError_report_none : (h.report none).lastError = none :=
  rfl

@[simp]
theorem lastError_report_some (failure : Failure) :
    (h.report (some failure)).lastError = some (spaced failure.message) :=
  cText?_spaced failure.message

@[simp]
theorem context_report (failure : Option Failure) : (h.report failure).context = h.context :=
  rfl

/-- A change of the context that fails. -/
@[simp]
theorem settle_error (failure : Failure) :
    h.settle (.error failure) = (failure.code, h.report (some failure)) :=
  rfl

/-- A change of the context that succeeds. -/
@[simp]
theorem settle_ok (context : Context) :
    h.settle (.ok context) = (.ok, { h with context := context }.report none) :=
  rfl

/-! The three ways in which an evaluation ends. -/

section Eval

variable {host : Host σ} {program : Program} {s : σ}

@[simp]
theorem eval_null (hasPlace : Bool) :
    h.eval host none hasPlace s = ((nullProgram.code, none, h.report (some nullProgram)), s) :=
  rfl

@[simp]
theorem eval_noPlace :
    h.eval host (some program) false s =
      (((Failure.invalid "out pointer is NULL").code, none,
        h.report (some (.invalid "out pointer is NULL"))), s) :=
  rfl

theorem eval_value {value : Float} (hValue : (program.eval host s).1 = .ok value) :
    h.eval host (some program) true s =
      ((.ok, some value, h.report none), (program.eval host s).2) := by
  rw [eval]
  simp only [if_true]
  rw [StateM.bind_apply, hValue]
  rfl

theorem eval_error {error : RuntimeError} (hError : (program.eval host s).1 = .error error) :
    h.eval host (some program) true s =
      (((Failure.ofRuntimeError error).code, none, h.report (some (.ofRuntimeError error))),
        (program.eval host s).2) := by
  rw [eval]
  simp only [if_true]
  rw [StateM.bind_apply, hError]
  rfl

end Eval

theorem lastError_of_new? {mode : Nat} (hNew : new? mode = some h) : h.lastError = none := by
  unfold new? at hNew
  dsimp only at hNew
  split at hNew
  · cases hNew
    rfl
  · cases hNew

end Handle

namespace TextArg

variable {arg : TextArg}

@[simp]
theorem require_of_text {text : String} (h : arg.text? = some text) (complaint : String) :
    arg.require complaint = .ok text := by
  rw [require, h]

@[simp]
theorem require_of_null (h : arg.text? = none) (complaint : String) :
    arg.require complaint = .error (.invalid complaint) := by
  rw [require, h]

end TextArg

namespace Failure

/-! No error of the library looks like success. -/

theorem code_ofContextError_ne (error : ContextError) : (ofContextError error).code ≠ .ok := by
  cases error <;> exact nofun

theorem code_ofLinkError_ne (error : LinkError) : (ofLinkError error).code ≠ .ok := by
  unfold ofLinkError
  split_ifs <;> exact nofun

end Failure

/-! ## Failures -/

/-- Whether a call says that it has failed. -/
def Answer.Failed : Answer → Prop
  | .code c => c ≠ .ok
  | .program made => made = none
  | _ => False

/-- Whether a call says that there is no context, if it can say so. -/
def Answer.Absent : Answer → Prop
  | .code c => c = .errorInvalidArg
  | .program made => made = none
  | .text message => message = none
  | .flag given => given = false
  | .nothing => True

namespace Entry

theorem absent_absent (entry : Entry) : entry.absent.Absent := by
  cases entry with
  | clearError => trivial
  | _ => rfl

/-- Whether the outcome of the call is kept. -/
def Reports : Entry → Prop
  | getError | clearError | hasError | usesJit => False
  | _ => True

/-- Whether the call only looks at the context. -/
def Looks : Entry → Prop
  | getError | hasError | usesJit => True
  | _ => False

/-- What the call returns when it fails. -/
def refusal (failure : Failure) : Entry → Answer
  | compile _ => .program none
  | _ => .code failure.code

/-- Why a call on a context fails: what is wrong with its arguments, or what the library says. -/
inductive Refused (memory : Memory σ) (programs : List Program) (s : σ) (context : Context) :
    Entry → Failure → Prop
  | varText {name : TextArg} {pointer : Option Cell} (hName : name.text? = none) :
    Refused memory programs s context (var name pointer) (.invalid "name is NULL or not UTF-8")
  | var {name : TextArg} {pointer : Option Cell} {text : String} {error : ContextError}
    (hName : name.text? = some text) (hError : context.varAt text pointer = .error error) :
    Refused memory programs s context (var name pointer) (.ofContextError error)
  | funcNull {name : TextArg} {arity : Nat} {id : Option Nat}
    (hNull : name.text? = none ∨ id = none) :
    Refused memory programs s context (func name arity id) (.invalid "name or function is NULL")
  | func {name : TextArg} {arity id : Nat} {text : String} {error : ContextError}
    (hName : name.text? = some text)
    (hError : context.func text ⟨.closure, arity, id⟩ = .error error) :
    Refused memory programs s context (func name arity (some id)) (.ofContextError error)
  | funcSourceText {name source : TextArg} (hNull : name.text? = none ∨ source.text? = none) :
    Refused memory programs s context (funcSource name source)
      (.invalid "name or source is NULL or not UTF-8")
  | funcSource {name source : TextArg} {text body : String} {error : ContextError}
    (hName : name.text? = some text) (hSource : source.text? = some body)
    (hError : context.funcSource text body = .error error) :
    Refused memory programs s context (funcSource name source) (.ofContextError error)
  | linkAll {error : LinkError} (hError : context.link.1 = some error) :
    Refused memory programs s context linkAll (.ofLinkError error)
  | compileText {source : TextArg} (hSource : source.text? = none) :
    Refused memory programs s context (compile source) (.invalid "source is NULL or not UTF-8")
  | compile {source : TextArg} {body : String} {error : CompileError}
    (hSource : source.text? = some body) (hError : context.compile body = .error error) :
    Refused memory programs s context (compile source) (.ofCompileError error)
  | linkNull {program : Nat} (hProgram : programs[program]? = none) :
    Refused memory programs s context (link program) (.invalid "program is NULL")
  | link {program : Nat} {p : Program} {error : LinkError} (hProgram : programs[program]? = some p)
    (hError : (context.linkProgram p).state.error? = some error) :
    Refused memory programs s context (link program) (.ofLinkError error)
  | evalNull {program : Nat} {out : Option Cell} (hProgram : programs[program]? = none) :
    Refused memory programs s context (eval program out) (.invalid "program is NULL")
  | evalPlace {program : Nat} {p : Program} (hProgram : programs[program]? = some p) :
    Refused memory programs s context (eval program none) (.invalid "out pointer is NULL")
  | eval {program : Nat} {p : Program} {cell : Cell} {error : RuntimeError}
    (hProgram : programs[program]? = some p)
    (hError : (p.eval memory.toHost s).1 = .error error) :
    Refused memory programs s context (eval program (some cell)) (.ofRuntimeError error)

theorem Refused.failed {memory : Memory σ} {programs : List Program} {s : σ} {context : Context}
    {entry : Entry} {failure : Failure}
    (hRefused : Refused memory programs s context entry failure) :
    (entry.refusal failure).Failed := by
  cases hRefused with
  | var => exact Failure.code_ofContextError_ne _
  | func => exact Failure.code_ofContextError_ne _
  | funcSource => exact Failure.code_ofContextError_ne _
  | linkAll => exact Failure.code_ofLinkError_ne _
  | link => exact Failure.code_ofLinkError_ne _
  | compileText => rfl
  | compile => rfl
  | _ => exact nofun

theorem Looks.apply {entry : Entry} (hLooks : entry.Looks) (memory : Memory σ)
    (programs : List Program) (s : σ) (h : Handle) :
    ∃ answer, entry.apply memory programs s h = ((answer, programs, s), h) := by
  cases entry with
  | getError => exact ⟨_, rfl⟩
  | hasError => exact ⟨_, rfl⟩
  | usesJit => exact ⟨_, rfl⟩
  | _ => exact hLooks.elim

theorem Looks.not_reports {entry : Entry} (hLooks : entry.Looks) :
    ¬(entry.Reports ∨ entry = .clearError) := by
  cases entry with
  | getError => exact not_or.mpr ⟨id, nofun⟩
  | hasError => exact not_or.mpr ⟨id, nofun⟩
  | usesJit => exact not_or.mpr ⟨id, nofun⟩
  | _ => exact hLooks.elim

/-- What a call does to the message of its context. -/
theorem kinds (entry : Entry) : entry.Reports ∨ entry = .clearError ∨ entry.Looks := by
  cases entry with
  | clearError => exact .inr (.inl rfl)
  | getError => exact .inr (.inr trivial)
  | hasError => exact .inr (.inr trivial)
  | usesJit => exact .inr (.inr trivial)
  | _ => exact .inl trivial

section Outcome

variable {memory : Memory σ} {programs : List Program} {s : σ} {h : Handle} {entry : Entry}
  {failure : Failure}

/-- The outcome of a call that fails: it returns the code of the failure, or null, and keeps the
message. Only linking all sub-programs changes the context, and what callbacks do not touch stays
as it is. -/
structure Stops (memory : Memory σ) (programs : List Program) (s : σ) (h : Handle) (entry : Entry)
    (failure : Failure) : Prop where
  answer : (entry.apply memory programs s h).1.1 = entry.refusal failure
  lastError :
    (entry.apply memory programs s h).2.lastError = some (Handle.spaced failure.message)
  context : entry ≠ .linkAll → (entry.apply memory programs s h).2.context = h.context
  observed {α : Type} {observe : σ → α} (hKeeps : memory.Keeps observe) :
    observe (entry.apply memory programs s h).1.2.2 = observe s

/-- A call that stops before it has done anything. -/
theorem stops_of_apply (hApply : entry.apply memory programs s h =
    ((entry.refusal failure, programs, s), h.report failure)) :
    Stops memory programs s h entry failure where
  answer := by rw [hApply]
  lastError := by rw [hApply, Handle.lastError_report_some]
  context _ := by rw [hApply, Handle.context_report]
  observed _ := by rw [hApply]

theorem stops_of_refused (hRefused : Refused memory programs s h.context entry failure) :
    Stops memory programs s h entry failure := by
  cases hRefused with
  | varText hName =>
    apply stops_of_apply
    simp [apply, Handle.var, hName, refusal]
  | var hName hError =>
    apply stops_of_apply
    simp [apply, Handle.var, hName, hError, refusal]
  | @funcNull name arity id hNull =>
    apply stops_of_apply
    cases hName : name.text? with
    | none => simp [apply, Handle.func, hName, refusal]
    | some text =>
      obtain rfl : id = none := hNull.resolve_left (by simp [hName])
      simp [apply, Handle.func, hName, refusal]
  | func hName hError =>
    apply stops_of_apply
    simp [apply, Handle.func, hName, hError, refusal]
  | @funcSourceText name source hNull =>
    apply stops_of_apply
    cases hName : name.text? with
    | none => simp [apply, Handle.funcSource, hName, refusal]
    | some text =>
      have hSource : source.text? = none := hNull.resolve_left (by simp [hName])
      simp [apply, Handle.funcSource, hName, hSource, refusal]
  | funcSource hName hSource hError =>
    apply stops_of_apply
    simp [apply, Handle.funcSource, hName, hSource, hError, refusal]
  | linkAll hError =>
    refine ⟨?_, ?_, fun h => absurd rfl h, fun _ => rfl⟩ <;>
    simp [apply, Handle.linkAll, hError, refusal]
  | compileText hSource =>
    apply stops_of_apply
    simp [apply, Handle.compile, hSource, refusal]
  | compile hSource hError =>
    apply stops_of_apply
    simp [apply, Handle.compile, hSource, hError, refusal]
  | linkNull hProgram =>
    apply stops_of_apply
    simp [apply, Handle.link, hProgram, refusal, Handle.nullProgram]
  | link hProgram hError => constructor <;> simp [apply, Handle.link, hProgram, hError, refusal]
  | evalNull hProgram =>
    apply stops_of_apply
    simp [apply, hProgram, refusal, Handle.nullProgram]
  | evalPlace hProgram =>
    apply stops_of_apply
    simp [apply, hProgram, refusal]
  | @eval program p cell error hProgram hError =>
    have hApply : (eval program (some cell)).apply memory programs s h =
        ((.code (Failure.ofRuntimeError error).code, programs, (p.eval memory.toHost s).2),
          h.report (some (.ofRuntimeError error))) := by
      simp [apply, hProgram, h.eval_error hError]
    refine ⟨by rw [hApply]; rfl, by rw [hApply, Handle.lastError_report_some], fun _ => ?_,
      fun hKeeps => ?_⟩
    · rw [hApply, Handle.context_report]
    · rw [hApply]
      exact hKeeps.eval p s

/-- An evaluation that is not refused writes its value. -/
theorem apply_eval_of_accepted {program : Nat} {out : Option Cell}
    (hAccepted : ∀ failure, ¬Refused memory programs s h.context (eval program out) failure) :
    ∃ code cell value, programs[program]? = some code ∧ out = some cell ∧
      (code.eval memory.toHost s).1 = .ok value ∧ (eval program out).apply memory programs s h =
        ((.code .ok, programs, memory.write cell value (code.eval memory.toHost s).2),
          h.report none) := by
  cases hProgram : programs[program]? with
  | none => exact absurd (.evalNull hProgram) (hAccepted _)
  | some code =>
    cases out with
    | none => exact absurd (.evalPlace hProgram) (hAccepted _)
    | some cell =>
      cases hResult : (code.eval memory.toHost s).1 with
      | error error => exact absurd (.eval hProgram hResult) (hAccepted _)
      | ok value =>
        refine ⟨code, cell, value, rfl, rfl, hResult, ?_⟩
        simp [apply, hProgram, h.eval_value hResult]

/-- A call that can fail and does not returns that all is well, or a program, and keeps no
message. -/
theorem apply_of_accepted (hReports : entry.Reports)
    (hAccepted : ∀ failure, ¬Refused memory programs s h.context entry failure) :
    ¬(entry.apply memory programs s h).1.1.Failed ∧
      (entry.apply memory programs s h).2.lastError = none := by
  cases entry with
  | var name pointer =>
    cases hName : name.text? with
    | none => exact absurd (.varText hName) (hAccepted _)
    | some text =>
      cases hResult : h.context.varAt text pointer with
      | error error => exact absurd (.var hName hResult) (hAccepted _)
      | ok context => simp [apply, Handle.var, hName, hResult, Answer.Failed]
  | func name arity id =>
    cases hName : name.text? with
    | none => exact absurd (.funcNull (.inl hName)) (hAccepted _)
    | some text =>
      cases id with
      | none => exact absurd (.funcNull (.inr rfl)) (hAccepted _)
      | some id =>
        cases hResult : h.context.func text ⟨.closure, arity, id⟩ with
        | error error => exact absurd (.func hName hResult) (hAccepted _)
        | ok context => simp [apply, Handle.func, hName, hResult, Answer.Failed]
  | funcSource name source =>
    cases hName : name.text? with
    | none => exact absurd (.funcSourceText (.inl hName)) (hAccepted _)
    | some text =>
      cases hSource : source.text? with
      | none => exact absurd (.funcSourceText (.inr hSource)) (hAccepted _)
      | some body =>
        cases hResult : h.context.funcSource text body with
        | error error => exact absurd (.funcSource hName hSource hResult) (hAccepted _)
        | ok context => simp [apply, Handle.funcSource, hName, hSource, hResult, Answer.Failed]
  | linkAll =>
    cases hResult : h.context.link.1 with
    | some error => exact absurd (.linkAll hResult) (hAccepted _)
    | none => simp [apply, Handle.linkAll, hResult, Answer.Failed]
  | compile source =>
    cases hSource : source.text? with
    | none => exact absurd (.compileText hSource) (hAccepted _)
    | some body =>
      cases hResult : h.context.compile body with
      | error error => exact absurd (.compile hSource hResult) (hAccepted _)
      | ok program => simp [apply, Handle.compile, hSource, hResult, Answer.Failed]
  | link program =>
    cases hProgram : programs[program]? with
    | none => exact absurd (.linkNull hProgram) (hAccepted _)
    | some p =>
      cases hResult : (h.context.linkProgram p).state.error? with
      | some error => exact absurd (.link hProgram hResult) (hAccepted _)
      | none => simp [apply, Handle.link, hProgram, hResult, Answer.Failed]
  | eval program out =>
    obtain ⟨code, cell, value, -, -, -, hApply⟩ := apply_eval_of_accepted hAccepted
    rw [hApply]
    exact ⟨fun hFailed => hFailed rfl, rfl⟩
  | getError => exact hReports.elim
  | clearError => exact hReports.elim
  | hasError => exact hReports.elim
  | usesJit => exact hReports.elim

end Outcome

end Entry

namespace Process

variable {memory : Memory σ} {p : Process σ} {call : Call} {h : Handle}

theorem ite_contexts (p : Process σ) (i : Nat) :
    (fun j => if j = i then p.contexts i else p.contexts j) = p.contexts := by
  funext j
  split_ifs with hj
  · rw [hj]
  · rfl

/-- A call on no context. -/
theorem perform_null (hNull : p.contexts call.context = none) :
    p.perform memory call = (call.entry.absent, p) := by
  rw [perform, hNull, onHandle]
  dsimp only
  rw [← hNull, ite_contexts]

theorem perform_eq (hContext : p.contexts call.context = some h) :
    p.perform memory call =
      ((call.entry.apply memory p.programs p.state h).1.1,
        ⟨fun i => if i = call.context then
            some (call.entry.apply memory p.programs p.state h).2 else p.contexts i,
          (call.entry.apply memory p.programs p.state h).1.2.1,
          (call.entry.apply memory p.programs p.state h).1.2.2⟩) := by
  rw [perform, hContext]
  rfl

theorem contexts_perform (hContext : p.contexts call.context = some h) :
    (p.perform memory call).2.contexts call.context =
      some (call.entry.apply memory p.programs p.state h).2 := by
  rw [perform_eq hContext]
  exact if_pos rfl

/-- A call does not touch other contexts. -/
theorem contexts_perform_of_ne {j : Nat} (hOther : j ≠ call.context) :
    (p.perform memory call).2.contexts j = p.contexts j :=
  if_neg hOther

/-- Looking at a context changes nothing. -/
theorem perform_looks (hLooks : call.entry.Looks) : (p.perform memory call).2 = p := by
  cases hContext : p.contexts call.context with
  | none => rw [perform_null hContext]
  | some h =>
    obtain ⟨i, entry⟩ := call
    obtain ⟨answer, hApply⟩ := hLooks.apply memory p.programs p.state h
    rw [perform_eq hContext, hApply]
    dsimp only
    rw [← hContext, ite_contexts]

end Process

/-! ## Sequences of calls -/

/-- A call that was made: when, and what it returned. -/
structure Step (σ : Type) where
  before : Process σ
  call : Call
  answer : Answer

/-- The call failed, and that is why. -/
def Step.Refused (memory : Memory σ) (step : Step σ) (failure : Failure) : Prop :=
  ∃ h, step.before.contexts step.call.context = some h ∧
    step.call.entry.Refused memory step.before.programs step.before.state h.context failure

theorem Step.refused_iff {memory : Memory σ} {p : Process σ} {i : Nat} {h : Handle} {entry : Entry}
    {answer : Answer} {failure : Failure} (hContext : p.contexts i = some h) :
    Step.Refused memory ⟨p, ⟨i, entry⟩, answer⟩ failure ↔
      entry.Refused memory p.programs p.state h.context failure := by
  simp [Step.Refused, hContext]

/-- The call decides what is the message of a context from then on. -/
def Step.Settles (i : Nat) (step : Step σ) : Prop :=
  step.call.context = i ∧ (step.call.entry.Reports ∨ step.call.entry = .clearError)

/-- Among the calls made, the step is the last on a context whose outcome is kept, and the message
has not been cleared since. -/
def Latest (i : Nat) (steps : List (Step σ)) (step : Step σ) : Prop :=
  step.call.context = i ∧ step.call.entry.Reports ∧
    ∃ earlier later, steps = earlier ++ step :: later ∧ ∀ other ∈ later, ¬other.Settles i

section Latest

variable {i : Nat} {steps : List (Step σ)} {step last : Step σ}

theorem not_latest_nil : ¬Latest i [] step := by
  rintro ⟨-, -, earlier, later, hSteps, -⟩
  exact absurd hSteps.symm (List.append_ne_nil_of_right_ne_nil _ (List.cons_ne_nil _ _))

theorem latest_concat_of_settles (hSettles : last.Settles i) :
    Latest i (steps ++ [last]) step ↔ last.call.entry.Reports ∧ step = last := by
  constructor
  · rintro ⟨-, hReports, earlier, later, hSteps, hLater⟩
    obtain ⟨-, -, rfl⟩ | ⟨others, rfl, -⟩ := concat_eq_append_cons_iff.mp hSteps
    · exact ⟨hReports, rfl⟩
    · exact absurd hSettles (hLater last (List.mem_concat_self ..))
  · rintro ⟨hReports, rfl⟩
    exact ⟨hSettles.1, hReports, steps, [], rfl, nofun⟩

theorem latest_concat_of_not_settles (hSettles : ¬last.Settles i) :
    Latest i (steps ++ [last]) step ↔ Latest i steps step := by
  constructor
  · rintro ⟨hContext, hReports, earlier, later, hSteps, hLater⟩
    obtain ⟨-, -, rfl⟩ | ⟨others, rfl, hEarlier⟩ := concat_eq_append_cons_iff.mp hSteps
    · exact absurd ⟨hContext, .inl hReports⟩ hSettles
    · exact ⟨hContext, hReports, earlier, others, hEarlier,
        fun other hOther => hLater other (List.mem_append_left _ hOther)⟩
  · rintro ⟨hContext, hReports, earlier, later, hSteps, hLater⟩
    refine ⟨hContext, hReports, earlier, later ++ [last],
      concat_eq_append_cons_iff.mpr (.inr ⟨later, rfl, hSteps⟩), fun other hOther => ?_⟩
    rcases List.mem_append.mp hOther with hOther | hOther
    · exact hLater other hOther
    · rwa [List.mem_singleton.mp hOther]

end Latest

namespace Process

variable {memory : Memory σ} {p : Process σ} {h : Handle}

/-- The calls that were made. -/
def trace (memory : Memory σ) (p : Process σ) : List Call → List (Step σ)
  | [] => []
  | call :: calls =>
    ⟨p, call, (p.perform memory call).1⟩ :: trace memory (p.perform memory call).2 calls

theorem run_concat (calls : List Call) (call : Call) :
    p.run memory (calls ++ [call]) = ((p.run memory calls).perform memory call).2 :=
  List.foldl_concat ..

theorem trace_concat (calls : List Call) (call : Call) : ∀ p : Process σ,
    p.trace memory (calls ++ [call]) = p.trace memory calls ++
      [⟨p.run memory calls, call, ((p.run memory calls).perform memory call).1⟩] := by
  induction calls with
  | nil => exact fun p => rfl
  | cons first calls ih => exact fun p => congrArg (_ :: ·) (ih _)

/-- A call whose outcome is kept says that it has failed exactly if there is a reason. -/
theorem failed_iff {call : Call} (hContext : p.contexts call.context = some h)
    (hReports : call.entry.Reports) : (p.perform memory call).1.Failed ↔
      ∃ failure, call.entry.Refused memory p.programs p.state h.context failure := by
  rw [perform_eq hContext]
  constructor
  · intro hFailed
    by_contra hAccepted
    exact (Entry.apply_of_accepted hReports (not_exists.mp hAccepted)).1 hFailed
  · rintro ⟨failure, hRefused⟩
    rw [(Entry.stops_of_refused hRefused).answer]
    exact hRefused.failed

/-- A context has the message of the last call on it whose outcome is kept, if that has failed. -/
structure Reflects (memory : Memory σ) (i : Nat) (steps : List (Step σ)) (h : Handle) : Prop where
  message : ∀ text, h.lastError = some text ↔ ∃ step failure, Latest i steps step ∧
    step.Refused memory failure ∧ text = Handle.spaced failure.message
  failed : ∀ step, Latest i steps step →
    (step.answer.Failed ↔ ∃ failure, step.Refused memory failure)

theorem reflects_nil {i : Nat} (hNone : h.lastError = none) : Reflects memory i [] h where
  message text := by
    rw [hNone]
    refine ⟨nofun, ?_⟩
    rintro ⟨step, failure, hLatest, -⟩
    exact absurd hLatest not_latest_nil
  failed step hLatest := absurd hLatest not_latest_nil

section Concat

variable {i : Nat} {steps : List (Step σ)} {last : Step σ}

theorem Reflects.concat_of_not_settles (hReflects : Reflects memory i steps h)
    (hSettles : ¬last.Settles i) : Reflects memory i (steps ++ [last]) h where
  message text := by
    simp only [latest_concat_of_not_settles hSettles]
    exact hReflects.message text
  failed step hLatest :=
    hReflects.failed step ((latest_concat_of_not_settles hSettles).mp hLatest)

theorem reflects_clearError (hSettles : last.Settles i) (hClear : last.call.entry = .clearError)
    (hNone : h.lastError = none) : Reflects memory i (steps ++ [last]) h := by
  have hLatest {step : Step σ} : ¬Latest i (steps ++ [last]) step := by
    rw [latest_concat_of_settles hSettles, hClear]
    exact fun h => h.1
  refine ⟨fun text => ?_, fun step hStep => absurd hStep hLatest⟩
  rw [hNone]
  refine ⟨nofun, ?_⟩
  rintro ⟨step, failure, hStep, -⟩
  exact absurd hStep hLatest

/-- After a call whose outcome is kept, nothing before it counts. -/
theorem reflects_reports {entry : Entry} (hContext : p.contexts i = some h)
    (hReports : entry.Reports) :
    Reflects memory i (steps ++ [⟨p, ⟨i, entry⟩, (p.perform memory ⟨i, entry⟩).1⟩])
      (entry.apply memory p.programs p.state h).2 := by
  have hLatest {step : Step σ} :
      Latest i (steps ++ [⟨p, ⟨i, entry⟩, (p.perform memory ⟨i, entry⟩).1⟩]) step ↔ _ :=
    latest_concat_of_settles ⟨rfl, .inl hReports⟩
  constructor
  · intro text
    constructor
    · intro hText
      have hSome : ∃ failure, entry.Refused memory p.programs p.state h.context failure := by
        by_contra hAccepted
        rw [(Entry.apply_of_accepted hReports (not_exists.mp hAccepted)).2] at hText
        cases hText
      obtain ⟨failure, hFailure⟩ := hSome
      rw [(Entry.stops_of_refused hFailure).lastError] at hText
      exact ⟨_, failure, hLatest.mpr ⟨hReports, rfl⟩, (Step.refused_iff hContext).mpr hFailure,
        (Option.some.inj hText).symm⟩
    · rintro ⟨step, failure, hStep, hFailure, rfl⟩
      obtain ⟨-, rfl⟩ := hLatest.mp hStep
      exact (Entry.stops_of_refused ((Step.refused_iff hContext).mp hFailure)).lastError
  · intro step hStep
    obtain ⟨-, rfl⟩ := hLatest.mp hStep
    simp only [Step.refused_iff hContext]
    exact failed_iff hContext hReports

/-- One more call on the context. -/
theorem Reflects.concat {entry : Entry} (hContext : p.contexts i = some h)
    (hReflects : Reflects memory i steps h) :
    Reflects memory i (steps ++ [⟨p, ⟨i, entry⟩, (p.perform memory ⟨i, entry⟩).1⟩])
      (entry.apply memory p.programs p.state h).2 := by
  rcases entry.kinds with hReports | rfl | hLooks
  · exact reflects_reports hContext hReports
  · exact reflects_clearError ⟨rfl, .inr rfl⟩ rfl rfl
  · obtain ⟨answer, hApply⟩ := hLooks.apply memory p.programs p.state h
    rw [hApply]
    exact hReflects.concat_of_not_settles fun hSettles => hLooks.not_reports hSettles.2

end Concat

/-- The message of a context is that of the last call with an outcome, if it has failed. -/
theorem reflects_trace {i : Nat} (hContext : p.contexts i = some h) (hNone : h.lastError = none)
    (calls : List Call) : ∃ left, (p.run memory calls).contexts i = some left ∧
      Reflects memory i (p.trace memory calls) left := by
  induction calls using List.reverseRecOn with
  | nil => exact ⟨h, hContext, reflects_nil hNone⟩
  | append_singleton calls call ih =>
    obtain ⟨left, hLeft, hReflects⟩ := ih
    obtain ⟨j, entry⟩ := call
    rw [run_concat, trace_concat]
    by_cases hj : j = i
    · subst hj
      exact ⟨_, contexts_perform hLeft, hReflects.concat hLeft⟩
    · exact ⟨left, (contexts_perform_of_ne (Ne.symm hj)).trans hLeft,
        hReflects.concat_of_not_settles fun hSettles => hj hSettles.1⟩

/-- From its creation on, whatever is called on whichever contexts, a context has an error if and
only if the last call on it whose outcome is kept has failed and the error has not been cleared
since; the message is that of this failure, with blanks for NULs. A call fails exactly if it has
been refused. If it fails, it leaves the registered names as they are, unless it was to link them
all, and it writes nothing. Looking at a context changes nothing, a call on no context does nothing
but to say so, and a call does not touch other contexts. -/
theorem error_state (memory : Memory σ) (p : Process σ) {i mode : Nat} {h₀ : Handle}
    (hNew : Handle.new? mode = some h₀) (hContext : p.contexts i = some h₀) (calls : List Call) :
    let now := p.run memory calls
    let steps := p.trace memory calls
    (∃ flag, (now.perform memory ⟨i, .hasError⟩).1 = .flag flag ∧
      (flag = true ↔ ∃ step, Latest i steps step ∧ step.answer.Failed)) ∧
    (∃ text, (now.perform memory ⟨i, .getError⟩).1 = .text text ∧
      ∀ message, text = some message ↔ ∃ step failure, Latest i steps step ∧
        step.Refused memory failure ∧ message = Handle.spaced failure.message) ∧
    (∀ step, Latest i steps step →
      (step.answer.Failed ↔ ∃ failure, step.Refused memory failure)) ∧
    (∀ entry : Entry, entry.Reports →
      let step : Step σ := ⟨now, ⟨i, entry⟩, (now.perform memory ⟨i, entry⟩).1⟩
      let after := (now.perform memory ⟨i, entry⟩).2
      (step.answer.Failed ↔ ∃ failure, step.Refused memory failure) ∧
      (∀ failure, step.Refused memory failure →
        step.answer = entry.refusal failure ∧ (entry.refusal failure).Failed ∧
        (entry ≠ .linkAll →
          (after.contexts i).map Handle.context = (now.contexts i).map Handle.context) ∧
        ∀ {α : Type} {observe : σ → α}, memory.Keeps observe →
          observe after.state = observe now.state)) ∧
    (∀ program out, (now.perform memory ⟨i, .eval program out⟩).1 = .code .ok →
      ∃ code cell value, now.programs[program]? = some code ∧ out = some cell ∧
        (code.eval memory.toHost now.state).1 = .ok value ∧
        (now.perform memory ⟨i, .eval program out⟩).2.state =
          memory.write cell value (code.eval memory.toHost now.state).2) ∧
    (∀ entry : Entry, entry.Looks → (now.perform memory ⟨i, entry⟩).2 = now) ∧
    (∀ call, now.contexts call.context = none →
      ∃ answer, answer.Absent ∧ now.perform memory call = (answer, now)) ∧
    ∀ call j, j ≠ call.context → (now.perform memory call).2.contexts j = now.contexts j := by
  intro now steps
  obtain ⟨h, (hNow : now.contexts i = some h), hReflects⟩ :=
    reflects_trace hContext (h₀.lastError_of_new? hNew) calls
  refine ⟨?_, ?_, hReflects.failed, fun entry hReports => ⟨?_, fun failure hFailure => ?_⟩,
    fun program out hOk => ?_, fun entry hLooks => perform_looks hLooks,
    fun call hNull => ⟨_, call.entry.absent_absent, perform_null hNull⟩,
    fun call j hOther => contexts_perform_of_ne hOther⟩
  · refine ⟨h.hasError, by rw [perform_eq hNow]; rfl, ?_⟩
    rw [Handle.hasError, Option.isSome_iff_exists]
    constructor
    · rintro ⟨text, hText⟩
      obtain ⟨step, failure, hStep, hFailure, -⟩ := (hReflects.message text).mp hText
      exact ⟨step, hStep, (hReflects.failed step hStep).mpr ⟨failure, hFailure⟩⟩
    · rintro ⟨step, hStep, hFailed⟩
      obtain ⟨failure, hFailure⟩ := (hReflects.failed step hStep).mp hFailed
      exact ⟨_, (hReflects.message _).mpr ⟨step, failure, hStep, hFailure, rfl⟩⟩
  · exact ⟨h.getError, by rw [perform_eq hNow]; rfl, hReflects.message⟩
  · simp only [Step.refused_iff hNow]
    exact failed_iff hNow hReports
  · rw [Step.refused_iff hNow] at hFailure
    have hStops := Entry.stops_of_refused hFailure
    refine ⟨?_, hFailure.failed, fun hEntry => ?_, fun hKeeps => ?_⟩
    · rw [perform_eq hNow]
      exact hStops.answer
    · rw [contexts_perform hNow, hNow]
      exact congrArg some (hStops.context hEntry)
    · rw [perform_eq hNow]
      exact hStops.observed hKeeps
  · have hAccepted : ∀ failure, ¬Entry.Refused memory now.programs now.state h.context
        (.eval program out) failure := by
      intro failure hFailure
      have hReports : (Call.mk i (.eval program out)).entry.Reports := trivial
      have hFailed := (failed_iff hNow hReports).mpr ⟨_, hFailure⟩
      rw [hOk] at hFailed
      exact hFailed rfl
    obtain ⟨code, cell, value, hProgram, hOut, hValue, hApply⟩ :=
      Entry.apply_eval_of_accepted hAccepted
    refine ⟨code, cell, value, hProgram, hOut, hValue, ?_⟩
    rw [perform_eq hNow, hApply]

/-! ## An example -/

/-- The memory of a C program with a single double. -/
def oneDouble : Memory Float where
  read _ := get
  call _ _ := pure 0
  clock := pure 0
  write _ value _ := value

/-- Evaluating a null program fails, with that message, and leaves the double alone. -/
theorem error_of_null_program : ∃ h₀, Handle.new? 0 = some h₀ ∧
    let p : Process Float := ⟨fun i => if i = 1 then some h₀ else none, [], 7⟩
    let now := p.run oneDouble [⟨1, .eval 0 (some 0)⟩]
    (now.perform oneDouble ⟨1, .hasError⟩).1 = .flag true ∧
      (now.perform oneDouble ⟨1, .getError⟩).1 = .text (some "program is NULL") ∧
      now.state = 7 := by
  obtain ⟨h₀, hNew⟩ : ∃ h₀, Handle.new? 0 = some h₀ := ⟨_, rfl⟩
  refine ⟨h₀, hNew, ?_⟩
  intro p now
  obtain ⟨⟨flag, hFlag, hHas⟩, ⟨text, hText, hGet⟩, -⟩ :=
    error_state (p := p) (i := 1) oneDouble hNew rfl [⟨1, .eval 0 (some 0)⟩]
  have hLatest : Latest 1 (p.trace oneDouble [⟨1, .eval 0 (some 0)⟩])
      ⟨p, ⟨1, .eval 0 (some 0)⟩, .code .errorInvalidArg⟩ :=
    ⟨rfl, trivial, [], [], rfl, nofun⟩
  have hRefused : Step.Refused oneDouble ⟨p, ⟨1, .eval 0 (some 0)⟩, .code .errorInvalidArg⟩
      (.invalid "program is NULL") :=
    ⟨_, rfl, .evalNull rfl⟩
  have hTrue : flag = true := hHas.mpr ⟨_, hLatest, nofun⟩
  have hSome : text = some "program is NULL" :=
    (hGet _).mpr ⟨_, _, hLatest, hRefused, (Handle.spaced_of_not_mem (by decide)).symm⟩
  exact ⟨hFlag.trans (congrArg _ hTrue), hText.trans (congrArg _ hSome), rfl⟩

end Process

end CInterface

end Formula
