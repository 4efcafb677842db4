import Formula.Proofs.Context.World

/-!
# Native programs

Native code has the value of its expression in the world of the context that it is linked against,
with and without the peephole pass (`evalOn_native`): it works on the bit patterns of that world. If
the sub-programs are native as well, the world follows the registry (`World.Follows`) from the
innermost calls outwards, and a linked program has the value of its tree (`eval_linked_native`).
-/

namespace Formula

variable {σ : Type}

/-! ## Worlds of doubles -/

/-- The names of an expression do in a world what they stand for in a registry. -/
structure World.Follows (world : World σ Float) (host : Host σ) (registry : Registry)
    (names : List Reference) : Prop where
  read : ∀ name cell, .var name ∈ names → registry.vars name = some cell →
    world.read name = host.read cell
  call : ∀ signature f, .call signature ∈ names →
    registry.functions signature = some f.function → world.call signature = host.apply f
  enter : ∀ signature callee body tree, .call signature ∈ names →
    registry.functions signature = some (.program callee) → registry.bodies callee = some body →
    Resolves registry body tree → world.call signature [] = tree.eval host

namespace World.Follows

variable {world : World σ Float} {host : Host σ} {registry : Registry}
  {names more : List Reference}

theorem left (h : world.Follows host registry (names ++ more)) :
    world.Follows host registry names where
  read name cell hName := h.read name cell (List.mem_append_left _ hName)
  call signature f hName := h.call signature f (List.mem_append_left _ hName)
  enter signature callee body tree hName :=
    h.enter signature callee body tree (List.mem_append_left _ hName)

theorem right (h : world.Follows host registry (names ++ more)) :
    world.Follows host registry more where
  read name cell hName := h.read name cell (List.mem_append_right _ hName)
  call signature f hName := h.call signature f (List.mem_append_right _ hName)
  enter signature callee body tree hName :=
    h.enter signature callee body tree (List.mem_append_right _ hName)

mutual

/-- In such a world an expression has the value of its tree. -/
theorem eval_eq : ∀ {tree : Resolved} {e : Expr}, Resolves registry e tree →
    world.Follows host registry e.references →
    e.eval .float world = tree.eval host
  | .number _, _, .number .., _ => rfl
  | .var cell, _, .var _ hVar, h =>
    h.read _ cell (List.mem_singleton.mpr rfl) hVar
  | .call f trees, _, .call _ hFunction hArgs, h => by
    rw [Expr.eval, Resolved.eval, evalAll_eq hArgs h.left,
      h.right.call _ f (List.mem_singleton.mpr rfl) hFunction]
  | .subprogram body, _, .subprogram _ hFunction hBody hTree, h => by
    exact h.right.enter _ _ _ body (List.mem_singleton.mpr rfl) hFunction hBody hTree
  | .unary op tree, _, .unary _ _ hOperand, h => by
    rw [Expr.eval, Resolved.eval, eval_eq hOperand h]
    rfl
  | .binary op left right, _, .binary _ _ hLeft hRight, h => by
    rw [Expr.eval, Resolved.eval, eval_eq hLeft h.left, eval_eq hRight h.right]
    rfl
  | .sequence first second, _, .sequence _ hFirst hSecond, h => by
    rw [Expr.eval, Resolved.eval, eval_eq hFirst h.left,
      eval_eq hSecond h.right]

theorem evalAll_eq : ∀ {trees : List Resolved} {es : List Expr}, ResolvesAll registry es trees →
    world.Follows host registry (Expr.referencesAll es) →
    Expr.evalAll .float world es = Resolved.evalAll host trees
  | [], _, .nil, _ => rfl
  | tree :: trees, _, .cons hHead hTail, h => by
    rw [Expr.evalAll, Resolved.evalAll, eval_eq hHead h.left,
      evalAll_eq hTail h.right]

end

end World.Follows

/-- The same world in bit patterns. -/
def World.words (world : World σ Float) : World σ UInt64 where
  read name := Float.toBits <$> world.read name
  call signature args := Float.toBits <$> world.call signature (args.map Float.ofBits)

theorem World.encodes_words (world : World σ Float) (names : List Reference) :
    world.words.Encodes world names where
  read name _ s := by
    simp only [words, StateM.map_apply, Float.ofBits_toBits]
    rfl
  call signature _ args s := by
    simp only [words, StateM.map_apply, Float.ofBits_toBits]
    rfl

/-! ## What native code sees -/

/-- What code with a table of symbols sees at the address of a symbol. -/
def Bytecode.Callee.ofSymbol (callees : Array (Callee σ)) (symbols : SymbolTable)
    (symbol : Symbol) : Callee σ :=
  callees[(symbols.number symbol).address.toNat]?.getD .absent

/-- Native code calls each function with as many arguments as it has parameters. -/
theorem Native.Linkage.realizes_ofCallees {symbols : SymbolTable} (hValid : symbols.Valid)
    {callees : Array (Bytecode.Callee σ)} {world : World σ Float}
    (hRead : ∀ name, symbols.Knows (.ofVar name) →
      (Bytecode.Callee.ofSymbol callees symbols (.ofVar name)).read = world.read name)
    (hCall : ∀ signature, symbols.Knows (.ofSignature signature) →
      (Bytecode.Callee.ofSymbol callees symbols (.ofSignature signature)).arity =
          signature.arity ∧
        (Bytecode.Callee.ofSymbol callees symbols (.ofSignature signature)).call =
          world.call signature) :
    (ofCallees callees).Realizes symbols world.words where
  load id name hId s := by
    have hKnown := (hValid.id?_iff _ _).mpr hId
    obtain rfl := SymbolTable.number_eq hKnown
    simp only [World.words, ← hRead name (SymbolTable.knows_of_id? hKnown)]
    rfl
  call id signature hId r s _ := by
    have hKnown := (hValid.id?_iff _ _).mpr hId
    obtain rfl := SymbolTable.number_eq hKnown
    obtain ⟨hArity, hCall⟩ := hCall signature (SymbolTable.knows_of_id? hKnown)
    rw [← hArity]
    simp only [ofCallees, StateM.bind_apply, StateM.pure_apply, Machine.getXmm_setXmm, if_true,
      World.words, ← hCall]
    rfl

/-- The value of native code is that of its expression. -/
theorem Object.nativeValue_eq {optimize : Bool} {e : Expr} {object : Object}
    (h : nativeOfExpr? optimize e = .ok object) {callees : Array (Bytecode.Callee σ)}
    {world : World σ Float}
    (hL : (Native.Linkage.ofCallees callees).Realizes object.symbols world.words) :
    ∃ code, object.code = .native code ∧
      Image.nativeValue callees code = e.eval .float world := by
  obtain ⟨emitted, hEmitted, hSymbols, hCode⟩ := exists_emitted h
  refine ⟨_, hCode, funext fun s => ?_⟩
  rw [← Expr.eval_word e (world.encodes_words e.references) s, StateM.map_apply]
  rw [hSymbols] at hL
  obtain ⟨r, hRun, hValue⟩ : ∃ r, Native.Machine.run (.ofCallees callees)
      (if optimize then Native.optimize emitted.code else emitted.code) ⟨.zero, [], s⟩ =
        some ⟨r, [], (e.eval .word world.words s).2⟩ ∧
      r.getXmm 0 = (e.eval .word world.words s).1 := by
    cases optimize with
    | false => exact run_ofExpr? hEmitted hL ⟨.zero, [], s⟩
    | true => exact run_optimized hEmitted hL ⟨.zero, [], s⟩
  rw [Image.nativeValue, Native.call?, hRun, Option.map_some, Option.getD_some, hValue]

/-! ## Linked native programs -/

namespace Registry.Describes

variable {registry : Registry} {context : Context} {optimize : Bool} {e : Expr} {object : Object}
  {linked : Linked}

/-- At the address of a name, linked code sees what the name is bound to. -/
theorem exists_callee (h : registry.Describes context) (host : Host σ) (hPlain : e.Plain)
    (hObject : Object.ofExpr? .jit optimize e = .ok object)
    (hLinked : context.linkObject? object = .ok linked) {symbol : Symbol}
    (hKnows : object.symbols.Knows symbol) : ∃ name b, name.symbol = symbol ∧
      registry.Binds context name b ∧
      Bytecode.Callee.ofSymbol (Binding.callees host linked.bindings).toArray object.symbols
        symbol = b.callee host := by
  have hValid := Object.valid_symbols hObject
  have hMem := hValid.mem_toList_iff.mpr ⟨_, hValid.get?_number hKnows⟩
  obtain ⟨name, hName, rfl⟩ := (Object.mem_symbols_iff hObject _).mp hMem
  obtain ⟨b, hGet, hBinds⟩ := h.bound hPlain hObject hLinked hName
  exact ⟨name, b, rfl, hBinds, Binding.callee_at hGet⟩

/-- Linked code works on the bit patterns of the world of its context. -/
theorem realizes_world (h : registry.Describes context) (host : Host σ) (hPlain : e.Plain)
    (hObject : Object.ofExpr? .jit optimize e = .ok object)
    (hLinked : context.linkObject? object = .ok linked) :
    (Native.Linkage.ofCallees (Binding.callees host linked.bindings).toArray).Realizes
      object.symbols (context.world host).words := by
  refine Native.Linkage.realizes_ofCallees (Object.valid_symbols hObject) ?_ ?_
  · intro name hKnows
    obtain ⟨other, b, hSymbol, hBinds, hCallee⟩ :=
      h.exists_callee host hPlain hObject hLinked hKnows
    cases other with
    | var other =>
      obtain rfl : other = name := (Symbol.mk.inj hSymbol).1
      rw [hCallee, h.callee_read host hBinds]
    | call signature => exact nomatch (Symbol.mk.inj hSymbol).2
  -- names with one symbol share a number, and the context cannot tell them apart either
  · intro signature hKnows
    obtain ⟨other, b, hSymbol, hBinds, hCallee⟩ :=
      h.exists_callee host hPlain hObject hLinked hKnows
    cases other with
    | var name => exact nomatch (Symbol.mk.inj hSymbol).2
    | call other =>
      obtain ⟨hSame, hKind⟩ := Symbol.mk.inj hSymbol
      rw [hCallee, h.callee_arity host hBinds, h.callee_call host hBinds,
        context.world_call_congr host hSame]
      exact ⟨SymbolKind.function.inj hKind, rfl⟩

/-- Native code linked against any context has the value of its expression in the world of the
context, and cannot fail. -/
theorem evalOn_native (h : registry.Describes context) (host : Host σ) (hPlain : e.Plain)
    (hObject : Object.ofExpr? .jit optimize e = .ok object)
    (hLinked : context.linkObject? object = .ok linked) :
    linked.evalOn host = Bytecode.Run.effect (e.eval .float (context.world host)) := by
  obtain ⟨code, hCode, hValue⟩ :=
    Object.nativeValue_eq hObject (h.realizes_world host hPlain hObject hLinked)
  have hImage := (Context.linkObject?_eq_ok_iff.mp hLinked).2
  rw [Object.image?, hCode] at hImage
  obtain ⟨pages, -, hImage⟩ := Except.bind_eq_ok_iff.mp hImage
  rw [Linked.evalOn, ← Except.ok.inj hImage, Image.runOn, hValue]

/-- The world of a context follows the registry if the sub-programs do what their bodies say. -/
theorem follows_world (h : registry.Describes context) (host : Host σ)
    (hCallees : ∀ signature callee, .call signature ∈ e.references →
      registry.functions signature = some (.program callee) → ∃ body linked',
        registry.bodies callee = some body ∧ context.ready? callee = some linked' ∧
          ∀ tree, Resolves registry body tree →
            (linked'.evalOn host).onEmptyStack = Except.ok <$> tree.eval host) :
    (context.world host).Follows host registry e.references where
  read name cell _ hVar := h.world_read host hVar
  call signature f _ hFunction := h.world_call host hFunction
  enter signature callee body tree hName hFunction hBody hTree := by
    obtain ⟨body', linked', hBody', hReady, hValue⟩ := hCallees signature callee hName hFunction
    rw [hBody] at hBody'
    cases hBody'
    rw [h.world_callProgram host hFunction, Context.callProgram_eq hReady host, hValue tree hTree]
    rfl

/-- A linked native program has the value of its tree. -/
theorem eval_linked_native (h : registry.Describes context) (hBackend : context.backend = .jit)
    (host : Host σ) {tree : Resolved} (hTree : Resolves registry e tree) (hPlain : e.Plain)
    (hObject : Object.ofExpr? .jit optimize e = .ok object)
    (hLinked : context.linkObject? object = .ok linked) :
    (linked.evalOn host).onEmptyStack = Except.ok <$> tree.eval host := by
  rw [← hBackend] at hObject
  refine h.linked_induction (P := fun e linked => ∀ tree, Resolves registry e tree →
    (linked.evalOn host).onEmptyStack = Except.ok <$> tree.eval host)
    ?_ hPlain hObject hLinked tree hTree
  intro optimize e object linked hPlain hObject hLinked hCallees tree hTree
  rw [hBackend] at hObject
  rw [h.evalOn_native host hPlain hObject hLinked, (h.follows_world host hCallees).eval_eq hTree]
  rfl

end Registry.Describes

end Formula
