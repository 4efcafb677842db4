import Formula.Proofs.Context.Link

/-!
# Overloads

What a context offers under a name and a number of parameters is the built-in function with this
signature, the host function or the sub-program that has been registered with it
(`Session.Offers`). A call in a parsed expression finds exactly that, whatever strings have been
registered as names and however many arguments it has (`calls_find_offers`).
-/

namespace Formula

/-! ## What is offered -/

/-- The function that a registration puts under a signature. -/
inductive Registration.Offers : Registration → Signature → Function → Prop where
  | func (name : String) (f : HostFunction) : Offers (.func name f) ⟨name, f.arity⟩ (.host f)
  | source (name text : String) : Offers (.source name text) ⟨name, 0⟩ (.program name)

/-- The functions that are built in or have been registered, each under its signature. -/
def Session.Offers (session : Session) (signature : Signature) (f : Function) : Prop :=
  (∃ b ∈ Builtin.all, signature = b.signature ∧ f = .builtin b) ∨
    ∃ registration ∈ session.registered, registration.Offers signature f

/-- A name stands for nothing new when a variable is registered. -/
theorem Registration.not_offers_var {name : String} {pointer : Option Cell} {signature : Signature}
    {f : Function} : ¬(Registration.var name pointer).Offers signature f :=
  nofun

theorem Registration.offers_func_iff {name : String} {g : HostFunction} {signature : Signature}
    {f : Function} : (Registration.func name g).Offers signature f ↔
      signature = ⟨name, g.arity⟩ ∧ f = .host g := by
  constructor
  · rintro ⟨⟩
    exact ⟨rfl, rfl⟩
  · rintro ⟨rfl, rfl⟩
    exact .func name g

theorem Registration.offers_source_iff {name text : String} {signature : Signature}
    {f : Function} : (Registration.source name text).Offers signature f ↔
      signature = ⟨name, 0⟩ ∧ f = .program name := by
  constructor
  · rintro ⟨⟩
    exact ⟨rfl, rfl⟩
  · rintro ⟨rfl, rfl⟩
    exact .source name text

namespace Registry

variable {registry : Registry}

/-- What stands under a new signature. -/
theorem setFunction_functions_iff {signature other : Signature} {f g : Function}
    (hNew : registry.functions signature = none) :
    (registry.setFunction signature g).functions other = some f ↔
      (other = signature ∧ f = g) ∨ registry.functions other = some f := by
  simp only [setFunction, Function.update_apply]
  split_ifs with hSame
  · subst hSame
    simp [hNew, eq_comm]
  · simp [hSame]

theorem builtins_functions_iff {signature : Signature} {f : Function} (builtins : List Builtin) :
    ∀ registry : Registry, (∀ b ∈ builtins, registry.functions b.signature = none) →
      (builtins.map Builtin.signature).Nodup →
      ((builtins.foldl (fun r b => r.setFunction b.signature (.builtin b)) registry).functions
        signature = some f ↔ (∃ b ∈ builtins, signature = b.signature ∧ f = .builtin b) ∨
          registry.functions signature = some f) := by
  induction builtins with
  | nil => exact fun registry _ _ => (or_iff_right nofun).symm
  | cons b builtins ih =>
    intro registry hNew hNodup
    obtain ⟨hNotMem, hRest⟩ := List.nodup_cons.mp hNodup
    obtain ⟨hHead, hTail⟩ := List.forall_mem_cons.mp hNew
    have hLater : ∀ c ∈ builtins,
        (registry.setFunction b.signature (.builtin b)).functions c.signature = none := by
      intro c hMem
      have hNe : c.signature ≠ b.signature := fun hSame =>
        hNotMem (hSame ▸ List.mem_map_of_mem hMem)
      exact (Function.update_of_ne hNe ..).trans (hTail c hMem)
    rw [List.foldl_cons, ih _ hLater hRest, setFunction_functions_iff hHead, ← or_assoc]
    refine or_congr_left ?_
    simp only [List.mem_cons, exists_eq_or_imp]
    exact or_comm

theorem nodup_builtins : (Builtin.all.map Builtin.signature).Nodup := by
  decide +kernel

/-- At the beginning, the built-in functions stand under their signatures. -/
theorem initial_functions_iff {signature : Signature} {f : Function} :
    initial.functions signature = some f ↔
      ∃ b ∈ Builtin.all, signature = b.signature ∧ f = .builtin b := by
  rw [initial, builtins_functions_iff Builtin.all empty (fun _ _ => rfl) nodup_builtins]
  exact or_iff_left nofun

/-- A new registration offers what it stands for, next to what there was. -/
theorem add_functions_iff {registration : Registration} {signature : Signature} {f : Function}
    (hNew : ¬registry.Has registration.key) :
    (registry.add registration).functions signature = some f ↔
      registration.Offers signature f ∨ registry.functions signature = some f := by
  cases registration with
  | var name pointer => exact (or_iff_right Registration.not_offers_var).symm
  | func name g =>
    rw [Registration.offers_func_iff]
    exact setFunction_functions_iff (Option.not_isSome_iff_eq_none.mp hNew)
  | source name text =>
    rw [Registration.offers_source_iff]
    exact setFunction_functions_iff (Option.not_isSome_iff_eq_none.mp hNew)

end Registry

/-! ## Sessions -/

namespace Session

theorem offers_concat {session : Session} {context : Context} {registration : Registration}
    {signature : Signature} {f : Function} :
    Offers ⟨context, session.registered ++ [registration]⟩ signature f ↔
      registration.Offers signature f ∨ session.Offers signature f := by
  simp only [Offers, List.mem_append, List.mem_singleton, or_and_right, exists_or, exists_eq_left]
  rw [← or_assoc]
  exact or_comm

/-- The functions of a session are those that it offers. -/
theorem functions_run_iff (config : RuntimeConfig) (backend : Backend) (requests : List Request)
    {signature : Signature} {f : Function} :
    (run config backend requests).registry.functions signature = some f ↔
      (run config backend requests).Offers signature f := by
  have hInvariant := run_induction
    (P := fun session => session.Listed config backend ∧
      ∀ signature f, session.registry.functions signature = some f ↔ session.Offers signature f)
    config backend ⟨listed_run config backend [], fun signature f => ?initial⟩ ?step requests
  · exact hInvariant.2 signature f
  case initial =>
    rw [registry, initial, Registry.ofList, List.foldl_nil, Registry.initial_functions_iff, Offers]
    exact (or_iff_left (by simp)).symm
  case step =>
    rintro session request ⟨hListed, hOffers⟩
    cases request with
    | link => exact ⟨hListed.link, hOffers⟩
    | register registration =>
      cases hRegister : session.context.register registration with
      | error error =>
        rw [perform_error hRegister]
        exact ⟨hListed, hOffers⟩
      | ok context =>
        rw [perform_register hRegister]
        refine ⟨hListed.register hRegister, fun signature f => ?_⟩
        rw [registry, Registry.ofList_concat, offers_concat]
        exact (Registry.add_functions_iff (hListed.describes.not_has hRegister)).trans
          (or_congr_right (hOffers signature f))

/-- The body of a sub-program is the tree of the text that has been registered. -/
theorem bodies_run {config : RuntimeConfig} {backend : Backend} {requests : List Request}
    {name text : String} (h : .source name text ∈ (run config backend requests).registered) :
    (run config backend requests).registry.bodies name = (Expr.ofString? text).toOption := by
  -- the order does not matter, so it may have been registered last
  obtain ⟨before, after, hSplit⟩ := List.append_of_mem h
  have hPerm : (run config backend requests).registered.Perm
      (before ++ after ++ [.source name text]) := by
    rw [hSplit]
    exact List.perm_middle.trans (List.perm_append_singleton ..).symm
  rw [registry, Registry.ofList_perm hPerm (listed_run config backend requests).nodup,
    Registry.ofList_concat]
  exact Function.update_self ..

/-- The code of a sub-program is that of the text that has been registered. -/
theorem program?_run {config : RuntimeConfig} {backend : Backend} {requests : List Request}
    {name text : String} (h : .source name text ∈ (run config backend requests).registered) :
    ∃ p, (run config backend requests).context.program? name = some p ∧
      Object.ofString? backend config.optimize text = .ok p.object := by
  have hListed := listed_run config backend requests
  have hFunction := (functions_run_iff config backend requests).mpr (.inr ⟨_, h, .source name text⟩)
  obtain ⟨p, hProgram⟩ := Option.isSome_iff_exists.mp
    (hListed.describes.program _ name hFunction)
  obtain ⟨-, body, hBody, -, hObject⟩ := hListed.describes.source name p hProgram
  rw [hListed.backend, hListed.config] at hObject
  rw [bodies_run h] at hBody
  refine ⟨p, hProgram, Except.bind_eq_ok_iff.mpr ⟨body, ?_, hObject⟩⟩
  cases hText : Expr.ofString? text with
  | ok found =>
    rw [hText] at hBody
    exact congrArg Except.ok (Option.some.inj hBody)
  | error error =>
    rw [hText] at hBody
    cases hBody

/-- A call in a parsed expression finds the function that is built in or registered under its name
and its number of arguments, if there is one, and never a function of another signature. -/
theorem calls_find_offers (config : RuntimeConfig) (backend : Backend) (requests : List Request)
    {text : String} {e : Expr} (hExpr : Expr.ofString? text = .ok e) {signature : Signature}
    (hCall : .call signature ∈ e.references) :
    let session := run config backend requests
    (∀ f, session.context.functions[signature.symbol]? = some f ↔ session.Offers signature f) ∧
    (∀ other f, session.Offers other f → other.symbol = signature.symbol → other = signature) ∧
    -- a sub-program that is found is the one whose text has been registered
    (∀ name, session.context.functions[signature.symbol]? = some (.program name) →
      signature = ⟨name, 0⟩ ∧ ∃ source p, .source name source ∈ session.registered ∧
        session.context.program? name = some p ∧
        Object.ofString? backend config.optimize source = .ok p.object) ∧
    -- compiled code looks the call up under this symbol
    ∀ object, Object.ofExpr? backend config.optimize e = .ok object →
      .ofSignature signature ∈ object.symbols.toList := by
  intro session
  have hListed := listed_run config backend requests
  have hDescribes := hListed.describes
  have hPlain : Signature.Plain signature.name := Expr.plain_of_ofString? hExpr signature hCall
  have hFinds (f : Function) : session.context.functions[signature.symbol]? = some f ↔
      session.Offers signature f := by
    rw [hDescribes.functions_eq hPlain]
    exact functions_run_iff config backend requests
  refine ⟨hFinds, fun other f hOffers hSymbol => ?_, fun name hFound => ?_,
    fun object hObject => ?_⟩
  · obtain ⟨-, hArity, hMax⟩ := hDescribes.function other f
      ((functions_run_iff config backend requests).mpr hOffers)
    exact Signature.eq_of_symbol_eq hSymbol (hArity ▸ hMax) hPlain
  · rcases (hFinds _).mp hFound with ⟨b, -, -, hBuiltin⟩ | ⟨registration, hMem, hOffers⟩
    · cases hBuiltin
    · cases hOffers with
      | source _ source =>
        obtain ⟨p, hProgram, hObject⟩ := program?_run hMem
        exact ⟨rfl, source, p, hMem, hProgram, hObject⟩
  · exact (Object.mem_symbols_iff hObject _).mpr ⟨.call signature, hCall, rfl⟩

/-! ## An example -/

/-- Where a sub-program `y` is registered, the call `y()` finds it. -/
theorem call_finds_withXY :
    .call ⟨"y", 0⟩ ∈ Expr.callY.references ∧
      (run .standard .jit withXY).context.functions[(⟨"y", 0⟩ : Signature).symbol]? =
        some (.program "y") := by
  have hCall : .call ⟨"y", 0⟩ ∈ Expr.callY.references := List.mem_singleton.mpr rfl
  obtain ⟨hFinds, -⟩ := calls_find_offers .standard .jit withXY Expr.ofString?_callY hCall
  refine ⟨hCall, (hFinds _).mpr (.inr ⟨.source "y" "-x", ?_, .source "y" "-x"⟩)⟩
  rw [registered_withXY]
  exact List.mem_cons_of_mem _ (List.mem_singleton.mpr rfl)

end Session

end Formula
