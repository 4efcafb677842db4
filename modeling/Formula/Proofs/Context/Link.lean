import Formula.Proofs.Context.Alike
import Formula.Proofs.Native.Pages
import Mathlib.Data.List.Perm.Basic

/-!
# Linking all sub-programs

`Context.link` links exactly the linkable sub-programs (`isSome_ready?_link`) and reports an error
unless these are all (`link_eq_none`). Linking again gives the same and changes nothing
(`link_link`), and the outcome depends on the registry only (`linkAll_alike`).
-/

namespace Formula

/-! ## Names of sub-programs -/

namespace Context

theorem mem_programNames_iff (context : Context) (name : String) :
    name ∈ context.programNames ↔ (context.program? name).isSome := by
  rw [programNames, Std.TreeMap.mem_keys, Std.TreeMap.mem_iff_isSome_getElem?]
  rfl

/-- The order of the names is that of the keys, whatever happened to the context. -/
theorem programNames_eq {context other : Context}
    (h : ∀ name, (context.program? name).isSome ↔ (other.program? name).isSome) :
    context.programNames = other.programNames := by
  refine List.Perm.eq_of_pairwise ?_ context.programs.ordered_keys other.programs.ordered_keys ?_
  · intro a b _ _ hLess hGreater
    exact absurd (Std.OrientedCmp.gt_iff_lt.mpr hGreater) (by rw [hLess]; exact nofun)
  · refine (List.perm_ext_iff_of_nodup context.programs.nodup_keys other.programs.nodup_keys).mpr ?_
    intro name
    exact (context.mem_programNames_iff name).trans
      ((h name).trans (other.mem_programNames_iff name).symm)

/-- Two contexts with the same contents. -/
structure Same (context other : Context) : Prop where
  config : other.config = context.config
  backend : other.backend = context.backend
  vars : other.vars = context.vars
  functions : other.functions = context.functions
  programs : other.programs.Equiv context.programs

theorem programs_equiv {context other : Context}
    (h : ∀ name, other.program? name = context.program? name) :
    other.programs.Equiv context.programs := by
  have hNodup (m : Std.TreeMap String Program) : m.toList.Nodup :=
    m.distinct_keys_toList.imp fun hNe hSame =>
      hNe (Std.compare_eq_iff_eq.mpr (congrArg Prod.fst hSame))
  apply Std.TreeMap.Equiv.of_toList_perm
  refine (List.perm_ext_iff_of_nodup (hNodup _) (hNodup _)).mpr fun ⟨name, p⟩ => ?_
  rw [Std.TreeMap.mem_toList_iff_getElem?_eq_some, Std.TreeMap.mem_toList_iff_getElem?_eq_some]
  exact iff_of_eq (congrArg (· = some p) (h name))

/-- All code of a context can be loaded. -/
def Loads (context : Context) : Prop :=
  ∀ name p, context.program? name = some p →
    ∀ bindings, ∃ image, p.object.image? bindings = .ok image

end Context

@[simp]
theorem Linker.ofContext_marks (context : Context) (name : String) :
    (Linker.ofContext context).marks[name]? = none :=
  rfl

namespace Registry.Describes

open Linker

variable {registry : Registry} {context other : Context}

theorem sound_ofContext (h : registry.Describes context) (hLoads : context.Loads) :
    (Linker.ofContext context).Sound registry where
  describes := h
  loads := hLoads
  settled name hMark _ := by
    simp at hMark

theorem awaits_ofContext (name : String) : (Linker.ofContext context).Awaits registry name := by
  intro other hMark
  simp at hMark

theorem bodies_mem (h : registry.Describes context) (name : String)
    (hBody : (registry.bodies name).isSome) : name ∈ context.programNames.toFinset := by
  rw [List.mem_toFinset, context.mem_programNames_iff, h.isSome_program?]
  exact hBody

theorem unmarked_lt (names : List String) (linker : Linker) :
    unmarked names.toFinset linker < names.length + 1 :=
  Nat.lt_succ_of_le ((Finset.card_filter_le _ _).trans (List.toFinset_card_le _))

theorem loads_of_loads (h : registry.Describes context) (hOther : registry.Describes other)
    (hConfig : context.config = other.config) (hBackend : context.backend = other.backend)
    (hLoads : context.Loads) : other.Loads := by
  intro name q hProgram'
  obtain ⟨p, hProgram⟩ : ∃ p, context.program? name = some p := by
    rw [← Option.isSome_iff_exists, h.isSome_program?, ← hOther.isSome_program?, hProgram']
    rfl
  rw [← h.object_eq hOther hConfig hBackend hProgram hProgram']
  exact hLoads name p hProgram

/-- What the walk through all sub-programs does. More fuel makes no difference. -/
theorem linkAll_visits (h : registry.Describes context) (hLoads : context.Loads) :
    Visits registry (.ofContext context) context.programNames context.linkAll ∧
      ∀ fuel, context.programs.size < fuel →
        visitEach (visit fuel) context.programNames (.ofContext context) = context.linkAll := by
  have hRoom := unmarked_lt context.programNames (.ofContext context)
  rw [Context.programNames, Std.TreeMap.length_keys] at hRoom
  have hEach (more : Nat) := visitEach_visits
    (visit_visits h.bodies_mem (context.programs.size + 1) more) context.programNames _
    (h.sound_ofContext hLoads) (fun name _ => awaits_ofContext name) hRoom
  refine ⟨(hEach 0).1, fun fuel hFuel => ?_⟩
  obtain ⟨more, rfl⟩ := Nat.exists_eq_add_of_le (Nat.succ_le_of_lt hFuel)
  exact (hEach more).2

/-- Linking links exactly the linkable sub-programs. -/
theorem isSome_ready?_link (h : registry.Describes context) (hLoads : context.Loads)
    (name : String) : (context.link.2.ready? name).isSome ↔ registry.Linkable name := by
  have hVisits := (h.linkAll_visits hLoads).1
  constructor
  · exact fun hReady => by_contra fun hOther => hVisits.sound.not_isSome_ready? hOther hReady
  · intro hLinkable
    have hMem : name ∈ context.programNames := by
      rw [context.mem_programNames_iff, h.isSome_program?]
      exact hLinkable.isSome_body
    have hDone := hVisits.visited name hMem hLinkable.isSome_body (by simp)
    exact hVisits.sound.settled name hDone hLinkable

/-- There is an error unless all sub-programs are linked. -/
theorem link_eq_none (h : registry.Describes context) (hLoads : context.Loads) :
    context.link.1 = none ↔
      ∀ name, (context.program? name).isSome → (context.link.2.ready? name).isSome := by
  have hVisits := (h.linkAll_visits hLoads).1
  constructor
  · intro hNone name hProgram
    have hMem := (context.mem_programNames_iff name).mpr hProgram
    have hDone := hVisits.visited name hMem ((h.isSome_program? name).mp hProgram) (by simp)
    rcases hVisits.ready hNone name hDone with hBefore | hReady
    · simp at hBefore
    · exact hReady
  · intro hReady
    refine hVisits.noError fun name hMem => ?_
    rw [← h.isSome_ready?_link hLoads]
    exact hReady name ((context.mem_programNames_iff name).mp hMem)

/-- The outcome depends on the registry only, not on what has been linked before. -/
theorem linkAll_alike (h : registry.Describes context) (hOther : registry.Describes other)
    (hLoads : context.Loads) (hLoads' : other.Loads) (hConfig : context.config = other.config)
    (hBackend : context.backend = other.backend) :
    context.linkAll.1 = other.linkAll.1 ∧ Alike registry context.linkAll.2 other.linkAll.2 := by
  have hNames : context.programNames = other.programNames :=
    Context.programNames_eq fun name =>
      (h.isSome_program? name).trans (hOther.isSome_program? name).symm
  have hSize : context.programs.size = other.programs.size := by
    rw [← Std.TreeMap.length_keys, ← Std.TreeMap.length_keys]
    exact congrArg List.length hNames
  have hRoom := unmarked_lt context.programNames (.ofContext context)
  have hRoom' := unmarked_lt context.programNames (.ofContext other)
  have hAlike : Alike registry (Linker.ofContext context) (Linker.ofContext other) := by
    refine ⟨h.sound_ofContext hLoads, hOther.sound_ofContext hLoads', hConfig, hBackend,
      fun _ _ => rfl, fun name _ hMark => ?_⟩
    simp at hMark
  rw [Context.programNames, Std.TreeMap.length_keys] at hRoom hRoom'
  rw [Context.linkAll, Context.linkAll, ← hSize, ← hNames]
  exact visitEach_alike h.bodies_mem (visit_alike h.bodies_mem _) _ _ _ hAlike
    (fun name _ => awaits_ofContext name) (fun name _ => awaits_ofContext name) hRoom hRoom'

/-- Linking again has the same outcome and changes nothing. -/
theorem link_link (h : registry.Describes context) (hLoads : context.Loads) :
    context.link.2.link.1 = context.link.1 ∧ context.link.2.Same context.link.2.link.2 := by
  have hVisits := (h.linkAll_visits hLoads).1
  have hAgain := (h.link.linkAll_visits hVisits.sound.loads).1
  obtain ⟨hErrors, hAlike⟩ := h.linkAll_alike h.link hLoads hVisits.sound.loads
    hVisits.relinks.config.symm hVisits.relinks.backend.symm
  have hRelinks : context.link.2.Relinks context.link.2.link.2 := hAgain.relinks
  refine ⟨hErrors.symm, hRelinks.config, hRelinks.backend, hRelinks.vars, hRelinks.functions, ?_⟩
  refine Context.programs_equiv fun name => ?_
  by_cases hLinkable : registry.Linkable name
  · have hReady := (h.isSome_ready?_link hLoads name).mpr hLinkable
    obtain ⟨linked, hReady⟩ := Option.isSome_iff_exists.mp hReady
    exact hRelinks.program?_of_ready? hReady
  · cases hProgram : context.program? name with
    | none =>
      have hAbsent : context.link.2.program? name = none := by
        rw [← Option.not_isSome_iff_eq_none]
        have hIsSome : (context.link.2.program? name).isSome = (context.program? name).isSome :=
          hVisits.relinks.isSome name
        rw [hIsSome, hProgram]
        exact nofun
      rw [hAbsent, ← Option.not_isSome_iff_eq_none, hRelinks.isSome, hAbsent]
      exact nofun
    | some p =>
      have hMem := (context.mem_programNames_iff name).mpr (hProgram ▸ rfl)
      have hBody := (h.isSome_program? name).mp (hProgram ▸ rfl)
      have hDone := hVisits.visited name hMem hBody (by simp)
      exact (hAlike.programs name hLinkable hDone).symm

end Registry.Describes

/-! ## Sessions -/

namespace Session

variable {config : RuntimeConfig} {backend : Backend} {requests requests' : List Request}

/-- The registry does not depend on the order of registrations. -/
theorem registry_perm
    (h : (run config backend requests').registered.Perm (run config backend requests).registered) :
    (run config backend requests').registry = (run config backend requests).registry :=
  Registry.ofList_perm h (listed_run config backend requests').nodup

/-- There is memory for all code of a session if there are pages for its native code. -/
theorem loads_run (hPages : ∀ name p code,
      (run config backend requests).context.program? name = some p → p.object.code = .native code →
      ∃ pages, Native.Pages.allocate (Native.encode code).length = .ok pages) :
    (run config backend requests).context.Loads := by
  intro name p hProgram
  exact Object.image?_isOk (hPages name p · hProgram)

/-- Linking succeeds for exactly the linkable sub-programs. Its outcome is the same a second time,
and for every order in which the names have been registered. -/
theorem link_links_linkable (config : RuntimeConfig) (backend : Backend) (requests : List Request)
    (hPages : ∀ name p code, (run config backend requests).context.program? name = some p →
      p.object.code = .native code →
      ∃ pages, Native.Pages.allocate (Native.encode code).length = .ok pages) :
    let context := (run config backend requests).context
    -- it comes to an end before the fuel does
    (∀ fuel, context.programs.size < fuel → Linker.visitEach (Linker.visit fuel)
      context.programNames (.ofContext context) = context.linkAll) ∧
    (∀ name, (context.link.2.ready? name).isSome ↔
      (run config backend requests).registry.Linkable name) ∧
    (context.link.1 = none ↔ ∀ name, (context.program? name).isSome →
      (context.link.2.ready? name).isSome) ∧
    (context.link.2.link.1 = context.link.1 ∧ context.link.2.Same context.link.2.link.2) ∧
    ∀ requests', (run config backend requests').registered.Perm
        (run config backend requests).registered →
      (run config backend requests').context.link.1 = context.link.1 ∧
        ∀ name, ((run config backend requests').context.link.2.ready? name).isSome ↔
          (context.link.2.ready? name).isSome := by
  have hListed := listed_run config backend requests
  have hDescribes := hListed.describes
  have hLoads := loads_run hPages
  refine ⟨(hDescribes.linkAll_visits hLoads).2, hDescribes.isSome_ready?_link hLoads,
    hDescribes.link_eq_none hLoads, hDescribes.link_link hLoads, fun requests' hPerm => ?_⟩
  have hListed' := listed_run config backend requests'
  have hDescribes' := hListed'.describes
  rw [registry_perm hPerm] at hDescribes'
  have hConfig := hListed.config.trans hListed'.config.symm
  have hBackend := hListed.backend.trans hListed'.backend.symm
  have hLoads' := hDescribes.loads_of_loads hDescribes' hConfig hBackend hLoads
  refine ⟨(hDescribes.linkAll_alike hDescribes' hLoads hLoads' hConfig hBackend).1.symm, ?_⟩
  intro name
  rw [hDescribes'.isSome_ready?_link hLoads', hDescribes.isSome_ready?_link hLoads]

/-! ## An example -/

/-- Registers the variable `x` and the sub-program `y` with the text `-x`. -/
def withXY : List Request :=
  [.register (.var "x" (some 3)), .register (.source "y" "-x")]

theorem registered_withXY (backend : Backend) : (run .standard backend withXY).registered =
    [.var "x" (some 3), .source "y" "-x"] := by
  obtain ⟨object, hObject⟩ := Object.ofExpr?_negX backend true
  have hNew : (run .standard backend [.register (.var "x" (some 3))]).context.functions[
      (⟨"y", 0⟩ : Signature).symbol]? = none := rfl
  have hRegister := Context.register_eq_ok_iff.mpr
    (.source (Expr.ofString?_negX) hObject hNew)
  have hPerform := perform_register hRegister
  rw [withXY, run, List.foldl_cons]
  exact congrArg Session.registered hPerform

theorem vars_withXY (backend : Backend) :
    (run .standard backend withXY).registry.vars "x" = some 3 := by
  rw [registry, registered_withXY]
  rfl

theorem functions_withXY (backend : Backend) :
    (run .standard backend withXY).registry.functions ⟨"y", 0⟩ = some (.program "y") := by
  rw [registry, registered_withXY]
  rfl

theorem bodies_withXY (backend : Backend) (name : String) :
    (run .standard backend withXY).registry.bodies name =
      if name = "y" then some .negX else none := by
  rw [registry, registered_withXY]
  simp only [Registry.ofList, List.foldl_cons, List.foldl_nil, Registry.add, Registry.setFunction,
    Function.update_apply, Expr.ofString?_negX, Registry.initial_bodies]
  rfl

theorem linkable_withXY (backend : Backend) :
    (run .standard backend withXY).registry.Linkable "y" := by
  have hVar := vars_withXY backend
  have hBody := bodies_withXY backend "y"
  rw [if_pos rfl] at hBody
  refine .intro hBody ?_ ?_ ?_
  · intro var hName
    cases List.mem_singleton.mp hName
    rw [hVar]
    rfl
  · intro signature hName
    cases List.mem_singleton.mp hName
  · intro signature callee hName
    cases List.mem_singleton.mp hName

theorem pages_withXY (name : String) (p : Program) (code : List Native.Inst)
    (hProgram : (run .standard backend withXY).context.program? name = some p)
    (hCode : p.object.code = .native code) :
    ∃ pages, Native.Pages.allocate (Native.encode code).length = .ok pages := by
  have hListed := listed_run .standard backend withXY
  obtain ⟨-, body, hBody, -, hObject⟩ := hListed.describes.source name p hProgram
  rw [bodies_withXY] at hBody
  split_ifs at hBody with hName
  cases hBody
  rw [hListed.backend, hListed.config] at hObject
  cases backend with
  | interpreted =>
    rw [(Object.symbols_bytecode hObject).2] at hCode
    cases hCode
  | jit => exact Object.pages_negX hObject hCode

/-- Where `x` is registered, linking succeeds and `y` is linked. -/
theorem link_withXY : (run .standard .jit withXY).context.link.1 = none ∧
    ((run .standard .jit withXY).context.link.2.ready? "y").isSome := by
  have hDescribes := describes_run .standard .jit withXY
  obtain ⟨-, hReady, hNone, -⟩ := link_links_linkable .standard .jit withXY pages_withXY
  refine ⟨hNone.mpr fun name hProgram => ?_, (hReady "y").mpr (linkable_withXY .jit)⟩
  rw [hDescribes.isSome_program?] at hProgram
  rw [bodies_withXY] at hProgram
  split_ifs at hProgram with hName
  · exact hName ▸ (hReady "y").mpr (linkable_withXY .jit)
  · cases hProgram

end Session

end Formula
