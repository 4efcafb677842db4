import Formula.Proofs.Bytecode.Execution
import Formula.Proofs.Context.Resolution

/-!
# Interpreted programs

Linked bytecode is the encoding of the expression's instructions with the addresses of its bindings
(`image_bytecode`), and each address leads to what the registry says about the name
(`names_bytecode`). So an interpreted program has the value of its tree, or stops with the first
limit that the tree exceeds, on the stack of any caller (`gives_linked`).
-/

namespace Formula

variable {σ : Type}

/-! ## Linked bytecode -/

namespace Bytecode

variable {number : Symbol → SymbolId} {operand : SymbolId → List UInt8} {var : String → UInt64}
  {function : Signature → UInt64 × UInt64}

/-- The operands that relocation puts in the place of the numbers of some names. -/
structure Operands (number : Symbol → SymbolId) (operand : SymbolId → List UInt8)
    (var : String → UInt64) (function : Signature → UInt64 × UInt64) (names : List Reference) :
    Prop where
  var : ∀ name, .var name ∈ names → operand (number (.ofVar name)) = Packed.pack (var name)
  function : ∀ signature, .call signature ∈ names →
    operand (number (.ofSignature signature)) = Packed.pack (function signature)

namespace Operands

variable {names more : List Reference}

theorem left (h : Operands number operand var function (names ++ more)) :
    Operands number operand var function names :=
  ⟨fun name hName => h.var name (List.mem_append_left _ hName),
    fun signature hName => h.function signature (List.mem_append_left _ hName)⟩

theorem right (h : Operands number operand var function (names ++ more)) :
    Operands number operand var function more :=
  ⟨fun name hName => h.var name (List.mem_append_right _ hName),
    fun signature hName => h.function signature (List.mem_append_right _ hName)⟩

end Operands

mutual

/-- Relocated instructions are the encodings of linked ones. -/
theorem relocated_lower : ∀ (e : Expr), Operands number operand var function e.references →
    (numbered number e).flatMap (Instr.relocated operand) =
      (lower var function e).flatMap Instr.encode
  | .number _ value, _ => rfl
  | .var _ name, h => by
    simp only [numbered, lower, List.flatMap_singleton]
    exact congrArg _ (h.var name (List.mem_singleton.mpr rfl))
  | .call _ name args, h => by
    have hArgs := relocatedAll_lower args h.left
    have hCall := h.right.function _ (List.mem_singleton.mpr rfl)
    simp only [numbered, numberedAll, lower, List.flatMap_append, List.flatMap_singleton] at hArgs ⊢
    rw [hArgs]
    exact congrArg _ (congrArg _ hCall)
  | .unary _ .neg operand, h => by
    have hOperand := relocated_lower operand h
    simp only [numbered, lower, List.flatMap_append] at hOperand ⊢
    rw [hOperand]
    rfl
  | .unary _ .plus operand, h => relocated_lower operand h
  | .binary _ op left right, h => by
    have hLeft := relocated_lower left h.left
    have hRight := relocated_lower right h.right
    simp only [numbered, lower, List.flatMap_append] at hLeft hRight ⊢
    rw [hLeft, hRight]
    rfl
  | .sequence _ first second, h => by
    have hFirst := relocated_lower first h.left
    have hSecond := relocated_lower second h.right
    simp only [numbered, lower, List.flatMap_append, List.flatMap_cons] at hFirst hSecond ⊢
    rw [hFirst, hSecond]
    rfl

theorem relocatedAll_lower : ∀ (es : List Expr),
    Operands number operand var function (Expr.referencesAll es) →
    (numberedAll number es).flatMap (Instr.relocated operand) =
      (lowerAll var function es).flatMap Instr.encode
  | [], _ => rfl
  | e :: es, h => by
    have hHead := relocated_lower e h.left
    have hTail := relocatedAll_lower es h.right
    simp only [numbered, numberedAll, lowerAll, List.flatMap_append] at hHead hTail ⊢
    rw [hHead, hTail]

end

end Bytecode

theorem Bytecode.Convention.ofWord_word {count : Nat} (h : count ≤ maxArity) :
    ofWord (arguments count).word = arguments count := by
  have hMax : count ≤ 8 := h
  have hWord : (UInt64.ofNat (count + 1)).toNat = count + 1 := Nat.mod_eq_of_lt (by omega)
  rw [ofWord, word, hWord]

/-- The addresses of variables in the code of an expression. -/
def Object.varAddress (object : Object) (name : String) : UInt64 :=
  (object.symbols.number (.ofVar name)).address

/-- The addresses and conventions of functions in the code of an expression. -/
def Object.functionAddress (object : Object) (bindings : List Binding) (signature : Signature) :
    UInt64 × UInt64 :=
  let id := object.symbols.number (.ofSignature signature)
  (id.address, ((bindings[id.toNat]?.getD default).convention).word)

namespace Registry.Describes

variable {registry : Registry} {context : Context} {optimize : Bool} {e : Expr} {object : Object}
  {linked : Linked}

/-- The bytes of a linked expression are those of its linked instructions. -/
theorem image_bytecode (h : registry.Describes context) (hPlain : e.Plain)
    (hObject : Object.ofExpr? .interpreted optimize e = .ok object)
    (hLinked : context.linkObject? object = .ok linked) :
    linked.image = .bytecode ((Bytecode.lower object.varAddress
      (object.functionAddress linked.bindings) e).flatMap Bytecode.Instr.encode) := by
  have hCode := (Object.symbols_bytecode hObject).2
  have hImage := (Context.linkObject?_eq_ok_iff.mp hLinked).2
  rw [Object.image?, hCode] at hImage
  rw [← Except.ok.inj hImage, Bytecode.Code.relocate_bytes]
  congr 1
  refine Bytecode.relocated_lower e ⟨?_, ?_⟩
  · intro name hName
    obtain ⟨b, hGet, hBinds⟩ := h.bound hPlain hObject hLinked hName
    rw [Reference.symbol] at hGet
    rw [List.getElem?_toArray, hGet]
    cases hBinds
    rfl
  · intro signature hName
    obtain ⟨b, hGet, hBinds⟩ := h.bound hPlain hObject hLinked hName
    rw [Reference.symbol] at hGet
    rw [List.getElem?_toArray, Object.functionAddress]
    simp only [hGet]
    cases hBinds with
    | @primitive _ f hFunction => cases f <;> rfl
    | program hFunction hReady => rfl

/-- The addresses in linked code lead to what the registry says, if the sub-programs do what their
bodies say. -/
theorem names_bytecode (h : registry.Describes context) (host : Host σ) (hPlain : e.Plain)
    (hObject : Object.ofExpr? .interpreted optimize e = .ok object)
    (hLinked : context.linkObject? object = .ok linked)
    (hCallees : ∀ signature callee, .call signature ∈ e.references →
      registry.functions signature = some (.program callee) → ∃ body linked',
        registry.bodies callee = some body ∧ context.ready? callee = some linked' ∧
          ∀ tree, Resolves registry body tree → ∀ values calls s,
            Bytecode.Run.Gives (linked'.evalOn host) values calls s
              (tree.limit? values.length calls) (tree.eval host s).1 values (tree.eval host s).2) :
    Bytecode.Names (Binding.callees host linked.bindings).toArray host registry e.references
      object.varAddress (object.functionAddress linked.bindings) := by
  refine ⟨?_, ?_, ?_⟩
  · intro name cell hName hVar
    obtain ⟨b, hGet, hBinds⟩ := h.bound hPlain hObject hLinked hName
    obtain rfl := hBinds.eq_var hVar
    rw [Reference.symbol] at hGet
    rw [Object.varAddress, Binding.callee_at hGet]
    rfl
  · intro signature f hName hFunction
    obtain ⟨b, hGet, hBinds⟩ := h.bound hPlain hObject hLinked hName
    obtain rfl := hBinds.eq_primitive hFunction
    obtain ⟨-, hArity, hMax⟩ := h.function signature _ hFunction
    rw [Reference.symbol] at hGet
    rw [Object.functionAddress, hGet, Option.getD_some, Binding.callee_at hGet, hArity,
      f.convention_binding, f.callee_binding_call]
    exact ⟨Bytecode.Convention.ofWord_word hMax, rfl⟩
  · intro signature callee body tree hName hFunction hBody hTree
    obtain ⟨b, hGet, hBinds⟩ := h.bound hPlain hObject hLinked hName
    obtain ⟨linked', hReady, rfl⟩ := hBinds.eq_program hFunction
    obtain ⟨body', linked'', hBody', hReady', hGives⟩ := hCallees signature callee hName hFunction
    rw [hBody] at hBody'
    cases hBody'
    rw [hReady] at hReady'
    cases hReady'
    rw [Reference.symbol] at hGet
    rw [Object.functionAddress, hGet, Option.getD_some, Binding.callee_at hGet]
    exact ⟨rfl, hGives tree hTree⟩

/-- A linked program has the value of its tree, or stops with the first limit that the tree exceeds,
on the stack of any caller. -/
theorem gives_linked (h : registry.Describes context) (hBackend : context.backend = .interpreted)
    (host : Host σ) {tree : Resolved} (hTree : Resolves registry e tree) (hPlain : e.Plain)
    (hObject : Object.ofExpr? .interpreted optimize e = .ok object)
    (hLinked : context.linkObject? object = .ok linked) (values : List Float) (calls : Nat)
    (s : σ) :
    Bytecode.Run.Gives (linked.evalOn host) values calls s (tree.limit? values.length calls)
      (tree.eval host s).1 values (tree.eval host s).2 := by
  rw [← hBackend] at hObject
  refine h.linked_induction (P := fun e linked => ∀ tree, Resolves registry e tree →
    ∀ values calls s, Bytecode.Run.Gives (linked.evalOn host) values calls s
      (tree.limit? values.length calls) (tree.eval host s).1 values (tree.eval host s).2)
    ?_ hPlain hObject hLinked tree hTree values calls s
  intro optimize e object linked hPlain hObject hLinked hCallees tree hTree values calls s
  rw [hBackend] at hObject
  have hNames := h.names_bytecode host hPlain hObject hLinked hCallees
  rw [Linked.evalOn, h.image_bytecode hPlain hObject hLinked]
  apply Bytecode.Run.gives_evalOn
  rw [Bytecode.Run.execute_encode]
  exact Bytecode.Run.gives_lower hTree hNames values calls s

end Registry.Describes

/-! ## Programs -/

namespace Bytecode.Run.Gives

variable {α : Type} {x : Run σ α} {s s₁ : σ} {limit : Option RuntimeError} {a : α}

/-- The outcome on a stack of one's own. -/
theorem onEmptyStack (h : Gives x [] 0 s limit a [] s₁) :
    (limit = none → x.onEmptyStack s = (.ok a, s₁)) ∧
      ∀ error, limit = some error → (x.onEmptyStack s).1 = .error error := by
  have hRun := h .empty Stack.Holds.empty
  unfold Run.onEmptyStack
  constructor
  · rintro rfl
    obtain ⟨stack, hRun, -⟩ := hRun
    rw [hRun]
  · rintro error rfl
    obtain ⟨m, hRun⟩ := hRun
    rw [hRun]

end Bytecode.Run.Gives

/-- A program that is ready evaluates what its last linking gave. -/
theorem Context.eval_linkProgram {context : Context} {p : Program}
    (h : (context.linkProgram p).isReady = true) :
    ∃ linked, context.linkObject? p.object = .ok linked ∧ ∀ {σ : Type} (host : Host σ),
      (context.linkProgram p).eval host = (linked.evalOn host).onEmptyStack := by
  obtain ⟨linked, hLinked⟩ := isReady_linkProgram_iff.mp h
  refine ⟨linked, hLinked, fun host => ?_⟩
  unfold Program.eval Program.evalOn Context.linkProgram
  rw [hLinked]
  rfl

/-- The expression of a text that compiles. -/
theorem Object.expr_of_ofString? {backend : Backend} {optimize : Bool} {source : String}
    {object : Object} (h : ofString? backend optimize source = .ok object) :
    ∃ e, Expr.ofString? source = .ok e ∧ e.Plain ∧ ofExpr? backend optimize e = .ok object := by
  obtain ⟨e, hExpr, h⟩ := Except.bind_eq_ok_iff.mp h
  exact ⟨e, hExpr, Expr.plain_of_ofString? hExpr, h⟩

namespace Registry.Describes

variable {registry : Registry} {context : Context}

/-- What an interpreted program evaluates to depends on the limits of its tree only. -/
theorem eval_interpreted (h : registry.Describes context)
    (hBackend : context.backend = .interpreted) {optimize : Bool} {source : String} {p : Program}
    (hObject : Object.ofString? .interpreted optimize source = .ok p.object)
    (hReady : (context.linkProgram p).isReady = true) :
    ∃ e tree, Expr.ofString? source = .ok e ∧ Resolves registry e tree ∧
      ∀ {σ : Type} (host : Host σ) (s : σ),
        (tree.limit? 0 0 = none → (context.linkProgram p).eval host s =
          (.ok (tree.eval host s).1, (tree.eval host s).2)) ∧
        ∀ error, tree.limit? 0 0 = some error →
          ((context.linkProgram p).eval host s).1 = .error error := by
  obtain ⟨e, hExpr, hPlain, hOfExpr⟩ := Object.expr_of_ofString? hObject
  obtain ⟨linked, hLinked, hEval⟩ := Context.eval_linkProgram hReady
  have hOfContext : Object.ofExpr? context.backend optimize e = .ok p.object := by
    rw [hBackend]
    exact hOfExpr
  obtain ⟨tree, hTree⟩ := h.resolves_of_linkObject? hPlain hOfContext hLinked
  refine ⟨e, tree, hExpr, hTree, fun host s => ?_⟩
  rw [hEval host]
  exact (h.gives_linked hBackend host hTree hPlain hOfExpr hLinked [] 0 s).onEmptyStack

end Registry.Describes

namespace Session

/-- Evaluation of a program that has been linked in any session gives the value from left to right
if its values and its running sub-programs fit on the stack. Otherwise it stops with the limit that
is exceeded, the first of them if both are. The host has no influence on that. -/
theorem eval_linkProgram_interpreted (config : RuntimeConfig) (requests : List Request)
    {optimize : Bool} {source : String} {p : Program}
    (hObject : Object.ofString? .interpreted optimize source = .ok p.object)
    (hReady : ((run config .interpreted requests).context.linkProgram p).isReady = true) :
    ∃ e tree, Expr.ofString? source = .ok e ∧
      Resolves (run config .interpreted requests).registry e tree ∧
      ∀ {σ : Type} (host : Host σ) (s : σ),
        let outcome := ((run config .interpreted requests).context.linkProgram p).eval host s
        (tree.need ≤ 128 → tree.callDepth ≤ 64 →
          outcome = (.ok (tree.eval host s).1, (tree.eval host s).2)) ∧
        (128 < tree.need → tree.callDepth ≤ 64 → outcome.1 = .error .stackOverflow) ∧
        (tree.need ≤ 128 → 64 < tree.callDepth → outcome.1 = .error (.callDepthExceeded 64)) ∧
        (128 < tree.need → 64 < tree.callDepth →
          ∃ error ∈ [RuntimeError.stackOverflow, .callDepthExceeded 64],
            tree.limit? 0 0 = some error ∧ outcome.1 = .error error) := by
  have hListed := listed_run config .interpreted requests
  obtain ⟨e, tree, hExpr, hTree, hEval⟩ :=
    hListed.describes.eval_interpreted hListed.backend hObject hReady
  refine ⟨e, tree, hExpr, hTree, fun host s => ?_⟩
  obtain ⟨hValue, hError⟩ := hEval host s
  have hFits := tree.limit?_eq_none_iff 0 (Nat.zero_le Stack.maxCalls)
  rw [Nat.zero_add, Nat.zero_add] at hFits
  -- a limit that is exceeded is run into
  have hLimit (h : ¬(tree.need ≤ 128 ∧ tree.callDepth ≤ 64)) :
      ∃ error, tree.limit? 0 0 = some error ∧ Resolved.Exceeds error tree.need tree.callDepth := by
    obtain ⟨error, hSome⟩ := Option.ne_none_iff_exists'.mp (mt hFits.mp h)
    have hExceeds := tree.exceeds_of_limit? hSome
    rw [Nat.zero_add, Nat.zero_add] at hExceeds
    exact ⟨error, hSome, hExceeds⟩
  refine ⟨?_, ?_, ?_, ?_⟩
  · exact fun hNeed hDepth => hValue (hFits.mpr ⟨hNeed, hDepth⟩)
  · intro hNeed hDepth
    obtain ⟨error, hSome, ⟨rfl, -⟩ | ⟨-, hMore⟩⟩ := hLimit (by omega)
    · exact hError _ hSome
    · exact absurd hMore (Nat.not_lt.mpr hDepth)
  · intro hNeed hDepth
    obtain ⟨error, hSome, ⟨-, hMore⟩ | ⟨rfl, -⟩⟩ := hLimit (by omega)
    · exact absurd hMore (Nat.not_lt.mpr hNeed)
    · exact hError _ hSome
  · intro hNeed hDepth
    obtain ⟨error, hSome, hExceeds⟩ := hLimit (by omega)
    refine ⟨error, ?_, hSome, hError _ hSome⟩
    obtain ⟨rfl, -⟩ | ⟨rfl, -⟩ := hExceeds
    · exact List.mem_cons_self ..
    · exact List.mem_cons_of_mem _ (List.mem_cons_self ..)

/-! ## An example -/

/-- Registers the variable `x` and links. -/
def withX : List Request :=
  [.register (.var "x" (some 3)), .link]

/-- A host where every variable is `2`. -/
def twos : Host Unit where
  read _ := pure 2
  call _ _ := pure 0
  clock := pure 0

/-- Code for `-x` can be linked where `x` is registered and there are pages for it. -/
theorem ready_negX {config : RuntimeConfig} {backend : Backend} {requests : List Request}
    {cell : Cell} (hVar : (run config backend requests).registry.vars "x" = some cell)
    (hImage : ∀ object, Object.ofExpr? backend config.optimize .negX = .ok object →
      ∀ bindings, ∃ image, object.image? bindings = .ok image) :
    ∃ p, (run config backend requests).context.compile "-x" = .ok p ∧
      Object.ofString? backend config.optimize "-x" = .ok p.object ∧
      ((run config backend requests).context.linkProgram p).isReady = true := by
  obtain ⟨object, hObject⟩ := Object.ofExpr?_negX backend config.optimize
  have hListed := listed_run config backend requests
  let session := run config backend requests
  have hBinds : ∀ name ∈ Expr.negX.references,
      ∃ b, session.registry.Binds session.context name b := by
    intro name hName
    obtain rfl := List.mem_singleton.mp hName
    exact ⟨_, .var hVar⟩
  obtain ⟨linked, hLinked⟩ := hListed.describes.linkObject?_isOk
    (Expr.plain_of_ofString? Expr.ofString?_negX) hObject hBinds (hImage object hObject)
  refine ⟨.ofObject object, ?_, ?_, ?_⟩
  · refine Context.compile_eq_ok_iff.mpr ⟨.negX, object, Expr.ofString?_negX, ?_, rfl⟩
    rw [hListed.backend, hListed.config]
    exact hObject
  · rw [Object.ofString?, Expr.ofString?_negX]
    exact hObject
  · exact Context.isReady_linkProgram_iff.mpr ⟨linked, hLinked⟩

/-- Code for `-x` links once `x` is registered, and evaluates to `-2` where `x` is `2`. -/
theorem eval_negX : ∃ p : Program, Object.ofString? .interpreted true "-x" = .ok p.object ∧
    ((run .standard .interpreted withX).context.linkProgram p).isReady = true ∧
    ((run .standard .interpreted withX).context.linkProgram p).eval twos () = (.ok (-2), ()) := by
  have hVar : (run .standard .interpreted withX).registry.vars "x" = some 3 := rfl
  obtain ⟨p, -, hObject, hReady⟩ := ready_negX hVar fun object => Object.image?_bytecode
  obtain ⟨e, tree, hExpr, hTree, hEval⟩ :=
    eval_linkProgram_interpreted .standard withX hObject hReady
  rw [Expr.ofString?_negX] at hExpr
  cases hExpr
  obtain rfl : tree = .unary .neg (.var 3) := hTree.unique (.unary _ _ (.var _ rfl))
  exact ⟨p, hObject, hReady, (hEval twos ()).1 (by decide) (by decide)⟩

end Session

end Formula
