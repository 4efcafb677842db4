import Formula.Proofs.Context.Overloads
import Formula.Proofs.Context.ProgramVerdict
import Formula.Proofs.Signature.Reading
import Formula.Proofs.Spans

/-!
# What is said about a name that is missing

A name that is not registered is reported by its symbol, and the report shows what the symbol reads
as. For a call this is its declaration, which belongs to no other function. The symbol of a variable
is its name, and a name may be spelled like the symbol of a function (`Reference.Disguised`): then
the report speaks of that function, though it may be registered (`missing_variable_disguised`). All
other names are reported as what they are, and no two of them alike (`missing_name_described`).

The names in question are words of the text that has been parsed, so no variable looks like a
declaration.
-/

namespace Formula

/-! ## Names as words -/

/-- The name that is written in the text. -/
def Reference.word : Reference → String
  | .var name => name
  | .call signature => signature.name

namespace Expr

/-- The name at a node, if it is a variable or a call. -/
def reference? : Expr → Option Reference
  | var _ name => some (.var name)
  | call _ name args => some (.call ⟨name, args.length⟩)
  | _ => none

theorem exists_node_below {e : Expr} {name : Reference}
    (h : ∃ child ∈ e.children, ∃ node ∈ child.preorder, node.reference? = some name) :
    ∃ node ∈ e.preorder, node.reference? = some name := by
  obtain ⟨child, hChild, node, hNode, hName⟩ := h
  refine ⟨node, ?_, hName⟩
  rw [preorder_eq]
  exact List.mem_cons_of_mem _ (List.mem_flatMap.mpr ⟨child, hChild, hNode⟩)

mutual

/-- Every name that an expression needs is that of a node. -/
theorem exists_node : ∀ (e : Expr) {name : Reference}, name ∈ e.references →
    ∃ node ∈ e.preorder, node.reference? = some name
  | .number _ _, _, h => by cases h
  | .var span x, name, h => by
    obtain rfl := List.mem_singleton.mp h
    exact ⟨_, mem_preorder_self _, rfl⟩
  | .call span x args, name, h => by
    rcases List.mem_append.mp h with hArgs | hCall
    · exact exists_node_below (exists_node_all args hArgs)
    · obtain rfl := List.mem_singleton.mp hCall
      exact ⟨_, mem_preorder_self _, rfl⟩
  | .unary _ _ operand, _, h =>
    exists_node_below ⟨operand, List.mem_singleton_self _, exists_node operand h⟩
  | .binary _ _ left right, _, h => by
    rcases List.mem_append.mp h with hLeft | hRight
    · exact exists_node_below ⟨left, by simp [children], exists_node left hLeft⟩
    · exact exists_node_below ⟨right, by simp [children], exists_node right hRight⟩
  | .sequence _ first second, _, h => by
    rcases List.mem_append.mp h with hFirst | hSecond
    · exact exists_node_below ⟨first, by simp [children], exists_node first hFirst⟩
    · exact exists_node_below ⟨second, by simp [children], exists_node second hSecond⟩

theorem exists_node_all : ∀ (es : List Expr) {name : Reference}, name ∈ referencesAll es →
    ∃ e ∈ es, ∃ node ∈ e.preorder, node.reference? = some name
  | [], _, h => by cases h
  | e :: es, _, h => by
    rcases List.mem_append.mp h with hFirst | hRest
    · exact ⟨e, List.mem_cons_self .., exists_node e hFirst⟩
    · obtain ⟨other, hMem, hNode⟩ := exists_node_all es hRest
      exact ⟨other, List.mem_cons_of_mem _ hMem, hNode⟩

end

theorem Placed.written_word {offset : Nat} {text : List Char} {node : Expr} {name : Reference}
    (h : node.Placed offset text) (hName : node.reference? = some name) :
    Token.Lexeme .identifier name.word.toList ∧
      Text.byteLength name.word.toList ≤ Text.byteLength text := by
  obtain ⟨part, -, ⟨before, after, rfl, -⟩, hReads⟩ := h.written
  simp only [Text.byteLength_append]
  cases node with
  | var span x =>
    obtain rfl := Option.some.inj hName
    obtain ⟨rfl, hWord⟩ := hReads
    exact ⟨hWord, Nat.le_trans (Nat.le_add_right ..) (Nat.le_add_left ..)⟩
  | call span x args =>
    obtain rfl := Option.some.inj hName
    obtain ⟨hWord, blanks, inside, rfl, -⟩ := hReads
    refine ⟨hWord, ?_⟩
    rw [Text.byteLength_append]
    show Text.byteLength x.toList ≤ _
    omega
  | _ => cases hName

/-- The names of a parsed expression are words of its text. -/
theorem written_of_ofString? {text : String} {e : Expr} (h : ofString? text = .ok e)
    {name : Reference} (hName : name ∈ e.references) :
    Token.Lexeme .identifier name.word.toList ∧
      Text.byteLength name.word.toList ≤ Text.byteLength text.toList := by
  obtain ⟨node, hNode, hReference⟩ := exists_node e hName
  obtain ⟨hWord, hLength⟩ := ((fits_of_ofString? h).1 node hNode).written_word hReference
  exact ⟨hWord, hLength.trans (Source.length_ofString_le text)⟩

end Expr

/-! ## Declarations -/

/-- What stands before and behind the last of a character. -/
theorem append_cons_inj {c : Char} {text text' more more' : List Char}
    (h : text ++ c :: more = text' ++ c :: more') (hMore : c ∉ more) (hMore' : c ∉ more') :
    text = text' ∧ more = more' := by
  -- from the end, it is the first of the character
  have hReverse : more.reverse ++ c :: text.reverse = more'.reverse ++ c :: text'.reverse := by
    simpa using congrArg List.reverse h
  rw [← List.mem_reverse] at hMore hMore'
  obtain ⟨hBehind, hBefore⟩ := Token.front_cons_inj hMore hMore' hReverse
  exact ⟨List.reverse_inj.mp hBefore, List.reverse_inj.mp hBehind⟩

namespace Signature

/-- The parameters in a declaration. -/
def parameters (arity : Nat) : List Char :=
  (", ".toList).intercalate (List.replicate arity "double".toList)

theorem toList_declaration (s : Signature) : s.declaration.toList =
    "double ".toList ++ (s.name.toList ++ '(' :: (parameters s.arity ++ [')'])) := by
  simp only [declaration, String.toList_append, String.toList_intercalate, List.map_replicate,
    parameters, List.append_assoc]
  rfl

theorem parameters_add_two (n : Nat) : parameters (n + 2) =
    "double".toList ++ (", ".toList ++ parameters (n + 1)) := by
  rw [parameters, List.replicate_succ, List.replicate_succ, List.intercalate_cons_cons,
    ← List.replicate_succ, parameters, List.append_assoc]

theorem not_mem_parameters : ∀ arity, '(' ∉ parameters arity
  | 0 => by decide
  | 1 => by decide
  | n + 2 => by
    have hRest := not_mem_parameters (n + 1)
    rw [parameters_add_two, List.mem_append, List.mem_append]
    exact not_or.mpr ⟨by decide, not_or.mpr ⟨by decide, hRest⟩⟩

/-- There is one `b` for each parameter. -/
theorem count_parameters : ∀ arity, (parameters arity).count 'b' = arity
  | 0 => by decide
  | 1 => by decide
  | n + 2 => by
    have hWord : "double".toList.count 'b' = 1 := by decide
    have hComma : ", ".toList.count 'b' = 0 := by decide
    rw [parameters_add_two, List.count_append, List.count_append, count_parameters (n + 1), hWord,
      hComma]
    omega

theorem declaration_inj {s t : Signature} (h : s.declaration = t.declaration) : s = t := by
  have hChars := congrArg String.toList h
  rw [toList_declaration, toList_declaration, List.append_cancel_left_eq] at hChars
  have hNone (arity : Nat) : '(' ∉ parameters arity ++ [')'] := by
    simp [not_mem_parameters]
  obtain ⟨hName, hMore⟩ := append_cons_inj hChars (hNone _) (hNone _)
  have hArity : s.arity = t.arity := by
    rw [← count_parameters s.arity, List.append_cancel_right hMore, count_parameters]
  cases s
  cases t
  cases String.toList_injective hName
  cases hArity
  rfl

/-- A declaration is no word. -/
theorem ne_declaration {text : String} (h : Token.Lexeme .identifier text.toList) (s : Signature) :
    text ≠ s.declaration := by
  rintro rfl
  refine h.not_mem (c := ' ') (by decide) ?_
  rw [toList_declaration]
  simp

end Signature

/-! ## Reports -/

namespace Reference

/-- How a name is to be shown: a call as a declaration. -/
def shown : Reference → String
  | .var name => name
  | .call signature => signature.declaration

/-- Whether it is a variable whose name spells the symbol of a function. -/
def Disguised : Reference → Prop
  | .var name => ∃ signature, Signature.Spells name signature
  | .call _ => False

variable {name other : Reference}

/-- Whether a name is a word that fits into memory. -/
def Written (name : Reference) : Prop :=
  Token.Lexeme .identifier name.word.toList ∧
    Text.byteLength name.word.toList ≤ Signature.maxLength

theorem Written.spells {signature : Signature} (h : (Reference.call signature).Written) :
    Signature.Spells signature.symbol signature := by
  obtain ⟨⟨c, rest, hName, hStart, -⟩, hLength⟩ := h
  exact Signature.spells_symbol_iff.mpr ⟨Signature.plain_of_isWordStart hName hStart, hLength⟩

/-- A name is shown as what it is unless it is a variable that looks like a function. -/
theorem Written.describe_eq_iff (h : name.Written) :
    Signature.describe name.symbol.name = name.shown ↔ ¬name.Disguised := by
  cases name with
  | call signature =>
    refine iff_of_true ?_ nofun
    exact Signature.describe_of_ofSymbol? (Signature.ofSymbol?_of_spells h.spells)
  | var x =>
    constructor
    · rintro hSame ⟨signature, hSpells⟩
      have hOther := Signature.describe_of_ofSymbol? (Signature.ofSymbol?_of_spells hSpells)
      exact Signature.ne_declaration h.1 signature (hSame.symm.trans hOther)
    · intro hNot
      exact Signature.describe_eq_self fun signature hSpells => hNot ⟨signature, hSpells⟩

theorem Written.shown_inj (hName : name.Written) (hOther : other.Written)
    (h : name.shown = other.shown) : name = other := by
  cases name with
  | var x =>
    cases other with
    | var y => exact congrArg Reference.var h
    | call signature => exact absurd h (Signature.ne_declaration hName.1 signature)
  | call signature =>
    cases other with
    | var y => exact absurd h.symm (Signature.ne_declaration hOther.1 signature)
    | call signature' => exact congrArg Reference.call (Signature.declaration_inj h)

end Reference

/-! ## Linking -/

theorem Native.Pages.load_ne_unresolvedSymbol {code : List UInt8} {symbol : String} :
    load code ≠ .error (.unresolvedSymbol symbol) := by
  intro h
  unfold load at h
  split at h
  · cases h
  · split at h
    · cases h
    · dsimp only at h
      split_ifs at h
      cases h

/-- Nothing is missing any more when code is made from its bindings. -/
theorem Object.image?_ne_unresolvedSymbol {object : Object} {bindings : List Binding}
    {symbol : String} : object.image? bindings ≠ .error (.unresolvedSymbol symbol) := by
  intro h
  cases hCode : object.code with
  | bytecode code =>
    rw [image?, hCode] at h
    cases h
  | native code =>
    simp only [image?, hCode, bind, Except.bind] at h
    split at h
    · rename_i hLoad
      cases h
      exact Native.Pages.load_ne_unresolvedSymbol hLoad
    · cases h

namespace Registry.Describes

variable {registry : Registry} {context : Context} {e : Expr} {object : Object} {target : Backend}
  {optimize : Bool}

/-- A symbol is reported only for the first name without a binding, which is not registered. -/
theorem exists_missing (h : registry.Describes context) (hPlain : e.Plain)
    (hObject : Object.ofExpr? target optimize e = .ok object) {symbol : String}
    (hError : context.linkObject? object = .error (.unresolvedSymbol symbol)) :
    ∃ earlier name later, e.references = earlier ++ name :: later ∧
      (∀ other ∈ earlier, ∃ b, registry.Binds context other b) ∧ ¬registry.Has name.key ∧
      symbol = name.symbol.name := by
  rcases h.binds_or_offends hPlain with
    hBinds | ⟨earlier, name, later, error, hNames, hEarlier, hOffends⟩
  · obtain ⟨bindings, hBindings⟩ := h.exists_bindings? hPlain hObject hBinds
    simp only [Context.linkObject?, Object.link?, hBindings, bind, Except.bind] at hError
    split at hError
    · rename_i hImage
      cases hError
      exact absurd hImage Object.image?_ne_unresolvedSymbol
    · cases hError
  · rw [h.linkObject?_eq_error_of_first hPlain hObject hNames hEarlier hOffends] at hError
    cases hError
    refine ⟨earlier, name, later, hNames, hEarlier, ?_⟩
    cases hOffends with
    | var hNone => exact ⟨by simp [Reference.key, Has, hNone], rfl⟩
    | function hNone => exact ⟨by simp [Reference.key, Has, hNone], rfl⟩

end Registry.Describes

namespace Session

/-- In a new context, a text with a single name that is not registered does not link. -/
theorem exists_missing_of_singleton {source : String} {e : Expr} (name : Reference)
    (hExpr : Expr.ofString? source = .ok e) (hNames : e.references = [name])
    (hError : (run .standard .interpreted []).registry.Offends
      (run .standard .interpreted []).context name (.unresolvedSymbol name.symbol.name)) :
    ∃ p : Program, Object.ofString? .interpreted true source = .ok p.object ∧
      ((run .standard .interpreted []).context.linkProgram p).state.error? =
        some (.unresolvedSymbol name.symbol.name) := by
  obtain ⟨table, hTable⟩ := SymbolTable.internAll_empty_singleton name.symbol
  have hArity : Backend.interpreted = .jit → e.CallsWithin maxArity := by
    intro hJit
    cases hJit
  obtain ⟨object, hOfExpr, -⟩ := Object.ofExpr?_isOk .interpreted true hArity
    (by rw [hNames]; exact hTable)
  refine ⟨.ofObject object, ?_, LinkState.error?_ofResult.mpr ?_⟩
  · rw [Object.ofString?, hExpr]
    exact hOfExpr
  · have hFirst : e.references = [] ++ name :: [] := hNames
    exact (describes_run .standard .interpreted []).linkObject?_eq_error_of_first
      (Expr.plain_of_ofString? hExpr) hOfExpr hFirst (List.forall_mem_nil _) hError

/-- If linking finds that a name is missing, it is the first name without a binding, and it is
reported as what it is, if it is not a variable with the name of a symbol. Then the report declares
no function that is offered, and no other name is reported alike. No text in memory is too long for
the length of a name to be read. -/
theorem missing_name_described (config : RuntimeConfig) (backend : Backend)
    (requests : List Request) {source : String} {e : Expr} (hExpr : Expr.ofString? source = .ok e)
    (hLength : Text.byteLength source.toList ≤ Signature.maxLength) {target : Backend}
    {optimize : Bool} {p : Program}
    (hObject : Object.ofString? target optimize source = .ok p.object) {symbol : String}
    (hError : ((run config backend requests).context.linkProgram p).state.error? =
      some (.unresolvedSymbol symbol)) :
    let session := run config backend requests
    ∃ earlier name later, e.references = earlier ++ name :: later ∧
      (∀ other ∈ earlier, ∃ b, session.registry.Binds session.context other b) ∧
      ¬session.registry.Has name.key ∧ symbol = name.symbol.name ∧
      (Signature.describe symbol = name.shown ↔ ¬name.Disguised) ∧
      (¬name.Disguised →
        (∀ signature f, session.Offers signature f →
          Signature.describe symbol ≠ signature.declaration) ∧
        ∀ source' e', Expr.ofString? source' = .ok e' →
          Text.byteLength source'.toList ≤ Signature.maxLength →
          ∀ other ∈ e'.references, ¬other.Disguised →
            LinkError.unresolvedSymbol symbol = .unresolvedSymbol other.symbol.name →
              other = name) := by
  intro session
  obtain ⟨e', hExpr', hPlain, hOfExpr⟩ := Object.expr_of_ofString? hObject
  obtain rfl := Except.ok.inj (hExpr.symm.trans hExpr')
  obtain ⟨earlier, name, later, hNames, hEarlier, hNot, rfl⟩ :=
    (describes_run config backend requests).exists_missing hPlain hOfExpr
      (LinkState.error?_ofResult.mp hError)
  -- both names that are compared are words of texts that have been parsed
  have hWritten {source : String} {e : Expr} (hExpr : Expr.ofString? source = .ok e)
      (hLength : Text.byteLength source.toList ≤ Signature.maxLength) {name : Reference}
      (hName : name ∈ e.references) : name.Written := by
    obtain ⟨hWord, hShort⟩ := Expr.written_of_ofString? hExpr hName
    exact ⟨hWord, hShort.trans hLength⟩
  have hName := hWritten hExpr hLength (hNames ▸ List.mem_append_right _ (List.mem_cons_self ..))
  refine ⟨earlier, name, later, hNames, hEarlier, hNot, rfl, hName.describe_eq_iff,
    fun hClear => ⟨fun signature f hOffers hSame => ?_, ?_⟩⟩
  · rw [hName.describe_eq_iff.mpr hClear] at hSame
    cases name with
    | var x => exact Signature.ne_declaration hName.1 signature hSame
    | call missing =>
      obtain rfl := Signature.declaration_inj hSame
      exact hNot (Option.isSome_iff_exists.mpr
        ⟨f, (functions_run_iff config backend requests).mpr hOffers⟩)
  · intro source' e' hExpr' hLength' other hMem hClear' hSame
    have hOther := hWritten hExpr' hLength' hMem
    have hDescribe := congrArg Signature.describe (LinkError.unresolvedSymbol.inj hSame)
    rw [hName.describe_eq_iff.mpr hClear, hOther.describe_eq_iff.mpr hClear'] at hDescribe
    exact hOther.shown_inj hName hDescribe.symm

/-- The call `y()` is reported as `double y()`. -/
theorem missing_name_described_callY : ∃ p : Program,
    Object.ofString? .interpreted true "y()" = .ok p.object ∧
    ((run .standard .interpreted []).context.linkProgram p).state.error? =
      some (.unresolvedSymbol "_Z1y") ∧
    Signature.describe "_Z1y" = "double y()" := by
  have hNone : (run .standard .interpreted []).registry.functions ⟨"y", 0⟩ = none := by
    refine Option.eq_none_iff_forall_ne_some.mpr fun f hFunction => ?_
    rcases (functions_run_iff .standard .interpreted []).mp hFunction with
      ⟨b, hMem, hSignature, -⟩ | ⟨registration, hMem, -⟩
    · have hOther : ∀ b ∈ Builtin.all, (⟨"y", 0⟩ : Signature) ≠ b.signature := by decide +kernel
      exact hOther b hMem hSignature
    · cases hMem
  obtain ⟨p, hObject, hError⟩ := exists_missing_of_singleton (.call ⟨"y", 0⟩)
    Expr.ofString?_callY rfl (.function hNone)
  refine ⟨p, hObject, hError, ?_⟩
  obtain ⟨earlier, name, later, hNames, -, -, -, hDescribe, -⟩ := missing_name_described .standard
    .interpreted [] Expr.ofString?_callY (by decide) hObject hError
  have hMem : name ∈ Expr.callY.references :=
    hNames ▸ List.mem_append_right earlier (List.mem_cons_self ..)
  obtain rfl := List.mem_singleton.mp hMem
  exact hDescribe.mpr nofun

/-- The tree of `_Z3sind`. -/
def varSymbol : Expr :=
  .var ⟨0, 7⟩ "_Z3sind"

theorem ofString?_varSymbol : Expr.ofString? "_Z3sind" = .ok varSymbol := by
  have hScan : Token.scanAll 0 (Source.ofString "_Z3sind").chars =
      ([⟨.identifier, ⟨0, 7⟩, "_Z3sind"⟩], .finished 7) := by
    cbv
  rw [Expr.ofString?, Expr.ofSource?, hScan]
  rfl

/-- A variable `_Z3sind` is reported as a function that there is, though the variable is missing. A
variable `_Z4nopedd` and a function `nope` of two parameters are reported alike if they are
missing. -/
theorem missing_variable_disguised :
    (∃ p : Program, Object.ofString? .interpreted true "_Z3sind" = .ok p.object ∧
      ((run .standard .interpreted []).context.linkProgram p).state.error? =
        some (.unresolvedSymbol "_Z3sind")) ∧
    varSymbol.references = [.var "_Z3sind"] ∧
    Signature.describe "_Z3sind" = "double sin(double)" ∧
    (∃ f, (run .standard .interpreted []).Offers ⟨"sin", 1⟩ f) ∧
    LinkError.unresolvedSymbol (Reference.var "_Z4nopedd").symbol.name =
      .unresolvedSymbol (Reference.call ⟨"nope", 2⟩).symbol.name := by
  refine ⟨exists_missing_of_singleton (.var "_Z3sind") ofString?_varSymbol rfl (.var rfl),
    rfl, by decide +kernel, ⟨.builtin .sin, .inl ⟨.sin, by decide, rfl, rfl⟩⟩, by decide +kernel⟩

end Session

end Formula
