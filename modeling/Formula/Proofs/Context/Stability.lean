import Formula.Proofs.Context.Current
import Formula.Proofs.Context.Linkable
import Formula.Proofs.Dependence
import Formula.Proofs.Interpreter
import Formula.Proofs.Native.Pages

/-!
# Linked programs are stable

A `System` is a session with the programs that its user has compiled and the world that they run
in. Whatever the user does, names that are registered stay registered and sub-programs that are
linked stay linked with the same code (`Context.Grows`), and what a compiled program has been linked
to is what it would be linked to now (`Sound`). So linked code can look up the sub-programs that it
calls at any later time without any difference, and what it evaluates to depends on nothing but the
variables and functions that it is bound to (`linked_programs_are_stable`).
-/

namespace Formula

/-! ## Systems -/

/-- A session, programs that have been compiled, and the world that they run in. -/
structure System (σ : Type) where
  session : Session
  /-- The programs in the order in which they have been compiled. -/
  programs : List Program
  world : σ

/-- What a user can do. -/
inductive Command (σ : Type) where
  /-- Registers a name, or links the sub-programs. -/
  | request (request : Request)
  | compile (target : Backend) (optimize : Bool) (source : String)
  /-- Links a compiled program, also one that was linked before. -/
  | link (index : Nat)
  | eval (index : Nat)
  /-- Evaluates a sub-program. -/
  | evalNamed (name : String)
  /-- Changes the world, as setting a variable does. -/
  | change (f : σ → σ)

namespace System

variable {σ : Type}

/-- The system in which nothing has been done. -/
def initial (config : RuntimeConfig) (backend : Backend) (world : σ) : System σ :=
  ⟨.initial config backend, [], world⟩

def context (system : System σ) : Context :=
  system.session.context

/-- Evaluates a program for its effects on the world. -/
def runProgram (host : Host σ) (system : System σ) : Option Program → System σ
  | some p => { system with world := (p.eval host system.world).2 }
  | none => system

/-- Carries out a command. One that fails changes nothing but the state of the program that it was
to link. -/
def perform (host : Host σ) (system : System σ) : Command σ → System σ
  | .request request => { system with session := system.session.perform request }
  | .compile target optimize source =>
    match Object.ofString? target optimize source with
    | .ok object => { system with programs := system.programs ++ [.ofObject object] }
    | .error _ => system
  | .link index =>
    { system with programs := system.programs.modify index system.context.linkProgram }
  | .eval index => system.runProgram host system.programs[index]?
  | .evalNamed name => system.runProgram host (system.context.program? name)
  | .change f => { system with world := f system.world }

/-- The system after some commands. -/
def run (host : Host σ) (config : RuntimeConfig) (backend : Backend) (world : σ)
    (commands : List (Command σ)) : System σ :=
  commands.foldl (perform host) (initial config backend world)

/-- Whether a program is a compiled program or a sub-program of the system. -/
def Has (system : System σ) (p : Program) : Prop :=
  p ∈ system.programs ∨ ∃ name, system.context.program? name = some p

end System

/-! ## Contexts grow -/

/-- A later context has all that an earlier one has, with the same programs where these are
linked. -/
structure Context.Grows (early late : Context) : Prop extends early.Extends late where
  program : ∀ name p, early.program? name = some p → p.isReady = true →
    late.program? name = some p

namespace Context.Grows

variable {early middle late : Context}

theorem refl (context : Context) : context.Grows context where
  toExtends := (Relinks.refl context).toExtends
  program _ _ hProgram _ := hProgram

theorem trans (h : early.Grows middle) (h' : middle.Grows late) : early.Grows late where
  toExtends := h.toExtends.trans h'.toExtends
  program name p hProgram hReady := h'.program name p (h.program name p hProgram hReady) hReady

end Context.Grows

theorem Context.Relinks.grows {early late : Context} (h : early.Relinks late) :
    early.Grows late where
  toExtends := h.toExtends
  program name p hProgram hReady := by
    obtain ⟨linked, hLinked⟩ :=
      Option.isSome_iff_exists.mp (Context.isSome_ready? hProgram hReady)
    rw [h.program?_of_ready? hLinked, hProgram]

theorem Registry.Describes.grows_register {registry : Registry} {context context' : Context}
    (h : registry.Describes context) {registration : Registration}
    (hRegister : context.register registration = .ok context') : context.Grows context' where
  toExtends := h.extends_register hRegister
  program name p hProgram _ := by
    cases Context.register_eq_ok_iff.mp hRegister with
    | var hNew => exact hProgram
    | func hMax hNew => exact hProgram
    | @source newName text body object hBody hObject hNew =>
      rw [Context.setSource, Context.setProgram_program?]
      split_ifs with hSame
      · -- the name of a new sub-program was not taken
        rw [← hSame, h.program?_eq_none hNew] at hProgram
        cases hProgram
      · exact hProgram

theorem Session.Listed.grows_perform {config : RuntimeConfig} {backend : Backend}
    {session : Session} (h : session.Listed config backend) (request : Request) :
    (session.perform request).Listed config backend ∧
      session.context.Grows (session.perform request).context := by
  cases request with
  | link => exact ⟨h.link, h.describes.linkAll.2.grows⟩
  | register registration =>
    cases hRegister : session.context.register registration with
    | error error =>
      rw [perform_error hRegister]
      exact ⟨h, .refl _⟩
    | ok context =>
      rw [perform_register hRegister]
      exact ⟨h.register hRegister, h.describes.grows_register hRegister⟩

/-! ## What commands keep -/

namespace System

variable {σ : Type} {host : Host σ} {config : RuntimeConfig} {backend : Backend}

/-- The names of the session are listed, and what a program has been linked to it would be linked
to again. -/
structure Sound (config : RuntimeConfig) (backend : Backend) (system : System σ) : Prop where
  listed : system.session.Listed config backend
  linked : ∀ p ∈ system.programs, ∀ linked, p.state.linked? = some linked →
    system.context.linkObject? p.object = .ok linked

/-- The context grows, and the programs stay as they are unless they are linked. -/
structure Keeps (early late : System σ) (commands : List (Command σ)) : Prop where
  context : early.context.Grows late.context
  program : ∀ (index : Nat) p, early.programs[index]? = some p → .link index ∉ commands →
    late.programs[index]? = some p

theorem sound_initial (config : RuntimeConfig) (backend : Backend) (world : σ) :
    (initial config backend world).Sound config backend :=
  ⟨Session.listed_run config backend [], nofun⟩

theorem Sound.perform {system : System σ} (h : system.Sound config backend) (command : Command σ) :
    (system.perform host command).Sound config backend ∧
      system.Keeps (system.perform host command) [command] := by
  have hUnchanged : system.Keeps system [command] := ⟨.refl _, fun _ _ hProgram _ => hProgram⟩
  have hRun (program : Option Program) :
      (system.runProgram host program).Sound config backend ∧
        system.Keeps (system.runProgram host program) [command] := by
    cases program with
    | none => exact ⟨h, hUnchanged⟩
    | some p => exact ⟨⟨h.listed, h.linked⟩, ⟨hUnchanged.context, hUnchanged.program⟩⟩
  cases command with
  | request request =>
    obtain ⟨hListed, hGrows⟩ := h.listed.grows_perform request
    refine ⟨⟨hListed, fun p hMem linked hLinked => ?_⟩, ⟨hGrows, hUnchanged.program⟩⟩
    exact hGrows.toExtends.linkObject? (h.linked p hMem linked hLinked)
  | compile target optimize source =>
    rw [System.perform]
    split
    · rename_i object hObject
      refine ⟨⟨h.listed, fun p hMem linked hLinked => ?_⟩, ⟨.refl _, fun index p hProgram _ => ?_⟩⟩
      · rcases List.mem_append.mp hMem with hOld | hNew
        · exact h.linked p hOld linked hLinked
        · obtain rfl := List.mem_singleton.mp hNew
          cases hLinked
      · exact (List.getElem?_append_left (List.getElem?_eq_some_iff.mp hProgram).1).trans hProgram
    · exact ⟨h, hUnchanged⟩
  | link index =>
    refine ⟨⟨h.listed, fun p hMem linked hLinked => ?_⟩, ⟨.refl _, fun other p hProgram hOther => ?_⟩⟩
    · obtain ⟨place, hPlace⟩ := List.mem_iff_getElem?.mp hMem
      by_cases hSame : index = place
      · rw [System.perform, hSame, List.getElem?_modify_eq] at hPlace
        obtain ⟨q, -, rfl⟩ := Option.map_eq_some_iff.mp hPlace
        exact LinkState.linked?_ofResult.mp hLinked
      · rw [System.perform, List.getElem?_modify_ne _ _ hSame] at hPlace
        exact h.linked p (List.mem_of_getElem? hPlace) linked hLinked
    · have hNe : index ≠ other := by
        rintro rfl
        exact hOther (List.mem_singleton.mpr rfl)
      rw [System.perform, List.getElem?_modify_ne _ _ hNe]
      exact hProgram
  | eval index => exact hRun _
  | evalNamed name => exact hRun _
  | change f => exact ⟨⟨h.listed, h.linked⟩, ⟨hUnchanged.context, hUnchanged.program⟩⟩

theorem Sound.foldl (commands : List (Command σ)) : ∀ {system : System σ},
    system.Sound config backend →
      (commands.foldl (System.perform host) system).Sound config backend ∧
        system.Keeps (commands.foldl (System.perform host) system) commands := by
  induction commands with
  | nil => exact fun h => ⟨h, .refl _, fun _ _ hProgram _ => hProgram⟩
  | cons command commands ih =>
    intro system h
    obtain ⟨hNext, hFirst⟩ := h.perform command
    obtain ⟨hLast, hRest⟩ := ih hNext
    refine ⟨hLast, hFirst.context.trans hRest.context, fun index p hProgram hLink => ?_⟩
    rw [List.mem_cons, not_or] at hLink
    refine hRest.program index p (hFirst.program index p hProgram fun hMem => ?_) hLink.2
    exact hLink.1 (List.mem_singleton.mp hMem)

theorem sound_run (host : Host σ) (config : RuntimeConfig) (backend : Backend) (world : σ)
    (commands : List (Command σ)) : (run host config backend world commands).Sound config backend :=
  (Sound.foldl commands (sound_initial config backend world)).1

theorem keeps_run (host : Host σ) (config : RuntimeConfig) (backend : Backend) (world : σ)
    (commands more : List (Command σ)) : (run host config backend world commands).Keeps
      (run host config backend world (commands ++ more)) more := by
  rw [run, run, List.foldl_append]
  exact (Sound.foldl more (sound_run host config backend world commands)).2

/-- What a program has been linked to is current. -/
theorem Sound.current {system : System σ} (h : system.Sound config backend) {p : Program}
    (hHas : system.Has p) {linked : Linked} (hLinked : p.state.linked? = some linked) :
    ∀ b ∈ linked.bindings, b.Current system.context := by
  have hDescribes := h.listed.describes
  have hAgain : system.context.linkObject? p.object = .ok linked := by
    rcases hHas with hMem | ⟨name, hProgram⟩
    · exact h.linked p hMem linked hLinked
    · exact hDescribes.ready name p linked hProgram hLinked
  exact hDescribes.current_of_linkObject? hAgain

/-- What is linked stays linked, calls only what is linked, and is never short of something to run.
Its value depends on nothing but the variables and functions that it is bound to, even if the
sub-programs that it calls are looked up in a later context. -/
theorem linked_programs_are_stable (host : Host σ) (config : RuntimeConfig) (backend : Backend)
    (world : σ) (commands more : List (Command σ)) :
    let early := run host config backend world commands
    let late := run host config backend world (commands ++ more)
    (∀ name p, early.context.program? name = some p → p.isReady = true →
      late.context.program? name = some p) ∧
    -- a compiled program as long as it is not linked again
    (∀ (index : Nat) p, early.programs[index]? = some p → .link index ∉ more →
      late.programs[index]? = some p) ∧
    -- the calls among linked sub-programs
    (∀ name callee, (late.context.ready? name).isSome →
      late.session.registry.Calls name callee → (late.context.ready? callee).isSome) ∧
    (∀ name, (late.context.ready? name).isSome →
      ¬Relation.TransGen late.session.registry.Calls name name) ∧
    -- evaluation at any later time
    ∀ p linked, early.Has p → p.state.linked? = some linked →
      (∀ b ∈ linked.bindings, b.Current late.context) ∧
      ∀ (fuel : Nat), Binding.depthAll linked.bindings ≤ fuel → ∀ {τ : Type} (host' : Host τ),
        p.evalNow host' late.context fuel = p.eval host' ∧
        (∀ t error, (p.evalNow host' late.context fuel t).1 = .error error → ¬error.Unlinked) ∧
        ∀ R : σ → τ → Prop, host.AgreesOn R host' (Binding.leavesAll linked.bindings) →
          StateM.Alike R (p.evalNow host early.context fuel)
            (p.evalNow host' late.context fuel) := by
  intro early late
  have hKeeps : early.Keeps late more := keeps_run host config backend world commands more
  have hSound : late.Sound config backend := sound_run ..
  have hDescribes := hSound.listed.describes
  refine ⟨hKeeps.context.program, hKeeps.program, fun name callee hReady hCalls => ?_,
    fun name hReady => ?_, fun p linked hHas hLinked => ?_⟩
  · obtain ⟨linked, hReady⟩ := Option.isSome_iff_exists.mp hReady
    exact hDescribes.isSome_ready?_of_calls hReady hCalls
  · obtain ⟨linked, hReady⟩ := Option.isSome_iff_exists.mp hReady
    exact (hDescribes.linkable_of_ready? hReady).not_cycle
  · have hEarly := (sound_run host config backend world commands).current hHas hLinked
    have hLate : ∀ b ∈ linked.bindings, b.Current late.context :=
      fun b hMem => (hEarly b hMem).extends hKeeps.context.toExtends
    refine ⟨hLate, fun fuel hDepth τ host' => ?_⟩
    have hEarlyNow : p.evalNow host early.context fuel = p.eval host :=
      Program.evalNow_eq hLinked hEarly hDepth
    have hLateNow : p.evalNow host' late.context fuel = p.eval host' :=
      Program.evalNow_eq hLinked hLate hDepth
    refine ⟨hLateNow, fun t error hError => ?_, fun R hAgrees => ?_⟩
    · rw [hLateNow, Program.eval_of_linked? hLinked] at hError
      exact (Linked.alike_evalOn (host'.agreesOn_self _)).not_unlinked rfl hError
    · rw [hEarlyNow, hLateNow, Program.eval_of_linked? hLinked, Program.eval_of_linked? hLinked]
      exact (Linked.alike_evalOn hAgrees).onEmptyStack

/-! ## An example -/

/-- Compiles `-x` and links it where `x` is registered. -/
def linkNegX : List (Command Store) :=
  Session.withX.map .request ++ [.compile .jit true "-x", .link 0]

/-- Registers `y`, links the sub-programs and sets `y`. -/
def setY : List (Command Store) :=
  [.request (.register (.var "y" (some 4))), .request .link, .change fun store => store.write 4 1]

/-- A host whose variables are the cells of a store. -/
def hostOfStore : Host Store where
  read cell := fun store => (store.read cell, store)
  call _ _ := pure 0
  clock := pure 0

/-- The program `-x` is linked, to `x` only. -/
theorem programs_linkNegX : ∃ p linked,
    (run hostOfStore .standard .jit .empty linkNegX).programs = [p] ∧
    p.state.linked? = some linked ∧ ∀ b ∈ linked.bindings, b = .var 3 := by
  have hDescribes := Session.describes_run .standard .jit Session.withX
  have hVar : (Session.run .standard .jit Session.withX).registry.vars "x" = some 3 := rfl
  obtain ⟨p, -, hObject, hReady⟩ := Session.ready_negX hVar fun object => Object.image?_negX
  obtain ⟨linked, hLinked⟩ := Option.isSome_iff_exists.mp hReady
  refine ⟨_, linked, ?_, hLinked, fun b hMem => ?_⟩
  · have hCompile : perform hostOfStore
        ⟨Session.run .standard .jit Session.withX, [], .empty⟩ (.compile .jit true "-x") =
        ⟨Session.run .standard .jit Session.withX, [.ofObject p.object], .empty⟩ := by
      have hText : Object.ofString? .jit true "-x" = .ok p.object := hObject
      rw [perform, hText]
      rfl
    have hRun : run hostOfStore .standard .jit .empty linkNegX =
        perform hostOfStore (perform hostOfStore
          ⟨Session.run .standard .jit Session.withX, [], .empty⟩ (.compile .jit true "-x"))
          (.link 0) := rfl
    rw [hRun, hCompile]
    rfl
  · obtain ⟨e, hExpr, hPlain, hOfExpr⟩ := Object.expr_of_ofString? hObject
    rw [Expr.ofString?_negX] at hExpr
    cases hExpr
    obtain ⟨name, hName, hBinds⟩ := hDescribes.exists_binds_of_mem hPlain hOfExpr
      (LinkState.linked?_ofResult.mp hLinked) hMem
    obtain rfl := List.mem_singleton.mp hName
    exact hBinds.eq_var hVar

/-- The value of `-x` remains the same as long as that of `x` does, whatever happens to `y`. -/
theorem negX_setY : ∃ p : Program,
    let early := run hostOfStore .standard .jit .empty linkNegX
    let late := run hostOfStore .standard .jit .empty (linkNegX ++ setY)
    early.programs[0]? = some p ∧ p.isReady = true ∧ late.programs[0]? = some p ∧
      StateM.Alike (fun s t => s.read 3 = t.read 3) (p.evalNow hostOfStore early.context 0)
        (p.evalNow hostOfStore late.context 0) := by
  obtain ⟨p, linked, hPrograms, hLinked, hBindings⟩ := programs_linkNegX
  obtain ⟨-, hKeeps, -, -, hStable⟩ :=
    linked_programs_are_stable hostOfStore .standard .jit .empty linkNegX setY
  have hEarly : (run hostOfStore .standard .jit .empty linkNegX).programs[0]? = some p := by
    rw [hPrograms]
    rfl
  have hNotLinked : Command.link 0 ∉ setY := by
    simp only [setY, List.mem_cons, reduceCtorEq, List.not_mem_nil, or_self, not_false_eq_true]
  have hDepth : Binding.depthAll linked.bindings ≤ 0 := by
    refine Binding.depthAll_le_iff.mpr fun b hMem => ?_
    rw [hBindings b hMem]
    exact Nat.le_refl 0
  obtain ⟨-, hAlike⟩ := hStable p linked (.inl (List.mem_of_getElem? hEarly)) hLinked
  obtain ⟨-, -, hAlike⟩ := hAlike 0 hDepth hostOfStore
  refine ⟨p, hEarly, ?_, hKeeps 0 p hEarly hNotLinked, hAlike _ ?_⟩
  · rw [Program.isReady, LinkState.isReady, hLinked]
    rfl
  · have hLeaf {b : Binding} (hMem : b ∈ Binding.leavesAll linked.bindings) : b = .var 3 := by
      rw [Binding.leavesAll_eq_flatMap] at hMem
      obtain ⟨c, hMem, hLeaf⟩ := List.mem_flatMap.mp hMem
      rw [hBindings c hMem] at hLeaf
      exact List.mem_singleton.mp hLeaf
    refine ⟨fun cell hMem s t hSame => ?_, fun f args _ => StateM.alike_pure _,
      fun _ => StateM.alike_pure _⟩
    cases hLeaf hMem
    exact ⟨hSame, hSame⟩

end System

end Formula
